import Mathlib.Algebra.Order.Group.MinMax
import Mathlib.Algebra.Order.Ring.Rat
import Mathlib.Data.List.Basic
import Mathlib.Data.List.Forall2
import Ostinato.Proofs.Event.Cut

/-!
# Ostinato.Proofs.Event.Clipping

Clipping as an intersection of spans.

Events of any kind, also empty and backward ones and those that were cut before,
are clipped to two spans as they are to what the spans have in common
(`clip_clip`).  Reflection takes what two spans have in common to what their
mirror images have in common (`Span.reflect_meet`), so it makes no difference
whether events are clipped before they are reflected or after
(`reflected_clip`).  `clip_survivors` pairs the events that are left with those
that they are left of.
-/

namespace Ostinato

namespace Span

theorem meet_comm (s t : Span) : s.meet t = t.meet s :=
  eq_of_ends (by rw [start_meet, start_meet, max_comm]) (by rw [stop_meet, stop_meet, min_comm])

theorem meet_self (s : Span) : s.meet s = s :=
  eq_of_ends (by rw [start_meet, max_self]) (by rw [stop_meet, min_self])

/-- No two spans have the same mirror image. -/
theorem reflect_inj {s t : Span} {pivot : Rat} : s.reflect pivot = t.reflect pivot ↔ s = t := by
  refine ⟨fun h => ?_, fun h => by rw [h]⟩
  rw [← reflect_reflect s pivot, h, reflect_reflect]

/-- Spans have in common what their reflections have, reflected. -/
theorem reflect_meet (s t : Span) (pivot : Rat) :
    (s.meet t).reflect pivot = (s.reflect pivot).meet (t.reflect pivot) := by
  refine eq_of_ends ?_ ?_
  · rw [start_meet]
    unfold reflect
    rw [stop_meet, max_sub_sub_left]
  · rw [stop_meet]
    unfold reflect
    rw [start_meet, min_sub_sub_left]

/-- A span and its mirror image run in the same direction. -/
theorem reflect_lt_iff (s : Span) (pivot : Rat) :
    (s.reflect pivot).start < (s.reflect pivot).stop ↔ s.start < s.stop :=
  sub_lt_sub_iff_left pivot

end Span

namespace Event

/-! ## Reflection -/

/-- The logical span of an event is reflected with it. -/
theorem logical_reflect (e : Event) (pivot : Rat) :
    (e.reflect pivot).logical = e.logical.reflect pivot := by
  unfold logical reflect
  cases e.whole <;> rfl

/-- Trimming goes through reflecting. -/
theorem trim_reflect (e : Event) (span : Span) (pivot : Rat) :
    (e.reflect pivot).trim (span.reflect pivot) = (e.trim span).reflect pivot := by
  have hactive : (e.reflect pivot).active = e.active.reflect pivot := rfl
  unfold trim
  by_cases heq : span = e.active
  · rw [if_pos heq, if_pos (by rw [hactive, heq])]
  · rw [if_neg heq, if_neg (by rw [hactive, Span.reflect_inj]; exact heq), logical_reflect]
    rfl

/-- So does clipping one event. -/
theorem clip?_reflect (e : Event) (span : Span) (pivot : Rat) :
    (e.reflect pivot).clip? (span.reflect pivot) = (e.clip? span).map (·.reflect pivot) := by
  have hmeet : (e.reflect pivot).active.meet (span.reflect pivot) =
      (e.active.meet span).reflect pivot := (Span.reflect_meet e.active span pivot).symm
  unfold clip?
  simp only [hmeet, Span.reflect_lt_iff, trim_reflect]
  split <;> rfl

/-- Clipped events are reflected to what is left of their mirror images in the
mirror image of the span. -/
theorem reflected_clip (span frame : Span) (events : List Event) :
    reflected frame (clip span events) =
      clip (span.reflect (frame.start + frame.stop)) (reflected frame events) := by
  unfold reflected clip
  rw [← List.filterMap_reverse, List.map_filterMap, List.filterMap_map]
  exact List.filterMap_congr fun e _ => (clip?_reflect e span _).symm

/-! ## What is left -/

/-- Something is left of an event if its active span meets the span. -/
theorem clip?_of_lt {e : Event} {span : Span}
    (h : max e.active.start span.start < min e.active.stop span.stop) :
    e.clip? span = some (e.trim (e.active.meet span)) := by
  rw [← Span.start_meet, ← Span.stop_meet] at h
  exact if_pos h

/-- The events that are left, in the order of those that they are left of. -/
theorem clip_survivors (span : Span) (events : List Event) :
    List.Forall₂ (fun e e' => e.clip? span = some e')
      (events.filter fun e => max e.active.start span.start < min e.active.stop span.stop)
      (clip span events) := by
  induction events with
  | nil => exact .nil
  | cons e events ih =>
      rw [clip_cons]
      by_cases hlt : max e.active.start span.start < min e.active.stop span.stop
      · have hleft := clip?_of_lt hlt
        rw [List.filter_cons_of_pos (by simpa using hlt), hleft]
        exact .cons hleft ih
      · rw [List.filter_cons_of_neg (by simpa using hlt), clip?_eq_none (not_lt.mp hlt)]
        exact ih

/-- An event that remembers nothing, or a span that begins no later, begins where it
is active or before. -/
theorem logical_start_le_of_whole {e : Event}
    (h : ∀ w, e.whole = some w → w.start ≤ e.active.start) : e.logical.start ≤ e.active.start := by
  unfold logical
  cases hw : e.whole with
  | none => exact le_refl _
  | some w => exact h w hw

/-- **Clipping is an intersection**: clipping any events to two spans one after the
other is clipping them once to what the spans have in common, so a second time
changes nothing and the order does not matter; and clipping goes through
reflection.  What is left of an event has an onset exactly if the event has one
and does not begin before the span, unless the event remembers a span that begins
later than itself. -/
theorem clip_is_meet (events : List Event) (a b c d : Rat) :
    clip ⟨c, d⟩ (clip ⟨a, b⟩ events) = clip ⟨max a c, min b d⟩ events ∧
    clip ⟨a, b⟩ (clip ⟨a, b⟩ events) = clip ⟨a, b⟩ events ∧
    clip ⟨c, d⟩ (clip ⟨a, b⟩ events) = clip ⟨a, b⟩ (clip ⟨c, d⟩ events) ∧
    reflected ⟨c, d⟩ (clip ⟨a, b⟩ events) =
      clip ⟨c + d - b, c + d - a⟩ (reflected ⟨c, d⟩ events) ∧
    List.Forall₂ (fun e e' => e.clip? ⟨a, b⟩ = some e' ∧
        ((∀ w, e.whole = some w → w.start ≤ e.active.start) →
          (e'.hasOnset = true ↔ e.hasOnset = true ∧ a ≤ e.active.start)))
      (events.filter fun e => max e.active.start a < min e.active.stop b)
      (clip ⟨a, b⟩ events) := by
  have hmeet : (Span.mk a b).meet ⟨c, d⟩ = ⟨max a c, min b d⟩ :=
    Span.eq_of_ends (Span.start_meet _ _) (Span.stop_meet _ _)
  refine ⟨?_, ?_, ?_, reflected_clip ⟨a, b⟩ ⟨c, d⟩ events, ?_⟩
  · rw [clip_clip, hmeet]
  · rw [clip_clip, Span.meet_self]
  · rw [clip_clip, clip_clip, Span.meet_comm]
  · refine (clip_survivors ⟨a, b⟩ events).imp fun e e' hleft => ⟨hleft, fun hwhole => ?_⟩
    exact hasOnset_clip? (logical_start_le_of_whole hwhole) hleft

/-- A tail, an event that runs backwards and a later event: of the second nothing is
left, and only the third still has an onset. -/
theorem clip_is_meet_tail :
    let tail : Event := ⟨.int 1, ⟨0, 1 / 2⟩, none, some ⟨-1, 1 / 2⟩⟩
    let backward : Event := ⟨.int 2, ⟨1, 0⟩, none, none⟩
    let later : Event := ⟨.int 3, ⟨3 / 8, 1⟩, none, none⟩
    let events := [tail, backward, later]
    clip ⟨0, 1 / 2⟩ (clip ⟨1 / 4, 1⟩ events) = clip ⟨max (1 / 4) 0, min 1 (1 / 2)⟩ events ∧
    (clip ⟨max (1 / 4) 0, min 1 (1 / 2)⟩ events).map (fun e => (e.active, e.whole)) =
      [(⟨1 / 4, 1 / 2⟩, some ⟨-1, 1 / 2⟩), (⟨3 / 8, 1 / 2⟩, some ⟨3 / 8, 1⟩)] ∧
    ∃ stub left, clip ⟨1 / 4, 1⟩ events = [stub, left] ∧
      stub.hasOnset = false ∧ left.hasOnset = true := by
  intro tail backward later events
  have honset := (clip_is_meet events (1 / 4) 1 0 (1 / 2)).2.2.2.2
  have hmeets : events.filter (fun e => max e.active.start (1 / 4) < min e.active.stop 1) =
      [tail, later] := by
    rw [List.filter_cons_of_pos (by decide +kernel), List.filter_cons_of_neg (by decide +kernel),
      List.filter_cons_of_pos (by decide +kernel), List.filter_nil]
  obtain ⟨stub, left, hleft⟩ : ∃ stub left, clip ⟨1 / 4, 1⟩ events = [stub, left] :=
    List.length_eq_two.mp (by decide +kernel)
  rw [hmeets, hleft, List.forall₂_cons, List.forall₂_cons] at honset
  obtain ⟨⟨-, hstub⟩, ⟨-, hkept⟩, -⟩ := honset
  refine ⟨(clip_is_meet events (1 / 4) 1 0 (1 / 2)).1, by decide +kernel, stub, left, hleft, ?_, ?_⟩
  · have htail := hstub fun w hw => by
      rw [← Option.some.inj hw]
      decide +kernel
    rw [← Bool.not_eq_true, htail]
    exact fun h => absurd h.2 (by decide +kernel)
  · exact (hkept fun w hw => nomatch hw).mpr ⟨rfl, by decide +kernel⟩

end Event

end Ostinato
