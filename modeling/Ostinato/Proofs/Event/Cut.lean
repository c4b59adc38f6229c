import Mathlib.Algebra.Order.Ring.Rat
import Mathlib.Tactic.Linarith
import Ostinato.Event

/-!
# Ostinato.Proofs.Event.Cut

Events that were cut.

An event is well cut (`Event.WellCut`) if it sounds for some time and
remembers a logical span just in case that span is larger than the active one.
Trimming, clipping, reflecting and shifting keep events well cut:

* `WellCut.clip?` — what is left inside a span is well cut and lies in it;
* `hasOnset_clip?` — it has an onset exactly when the event had one and did not
  begin before the span;
* `clip_clip` — events clipped twice are clipped to what the spans have in common.
-/

namespace Ostinato

namespace Span

/-- The later of two places is the maximum of the library. -/
theorem later_eq_max (x y : Rat) : later x y = max x y := by
  unfold later
  split
  · next h => rw [max_eq_right (le_of_lt h)]
  · next h => rw [max_eq_left (not_lt.mp h)]

/-- The earlier of two places is the minimum of the library. -/
theorem earlier_eq_min (x y : Rat) : earlier x y = min x y := by
  unfold earlier
  split
  · next h => rw [min_eq_right (le_of_lt h)]
  · next h => rw [min_eq_left (not_lt.mp h)]

theorem start_meet (s t : Span) : (s.meet t).start = max s.start t.start := later_eq_max _ _

theorem stop_meet (s t : Span) : (s.meet t).stop = min s.stop t.stop := earlier_eq_min _ _

/-- Spans with the same ends are the same. -/
theorem eq_of_ends {s t : Span} (hstart : s.start = t.start) (hstop : s.stop = t.stop) : s = t := by
  obtain ⟨a, b⟩ := s
  obtain ⟨c, d⟩ := t
  rw [mk.injEq]
  exact ⟨hstart, hstop⟩

/-- Three spans have the same in common in whatever order they are met. -/
theorem meet_assoc (s t u : Span) : (s.meet t).meet u = s.meet (t.meet u) := by
  refine eq_of_ends ?_ ?_
  · simp only [start_meet, max_assoc]
  · simp only [stop_meet, min_assoc]

/-- A span that lies in what two others have in common lies in the first of them. -/
theorem meet_eq_of_meet_meet {s t u : Span} (h : s.meet (t.meet u) = s) : s.meet t = s := by
  have hstart := congrArg start h
  have hstop := congrArg stop h
  simp only [start_meet, stop_meet] at hstart hstop
  refine eq_of_ends ?_ ?_
  · rw [start_meet]
    exact max_eq_left (le_trans (le_max_left _ _) (max_eq_left_iff.mp hstart))
  · rw [stop_meet]
    exact min_eq_left (le_trans (min_eq_left_iff.mp hstop) (min_le_left _ _))

end Span

namespace Event

/-! ## Well-cut events -/

/-- An event that sounds for some time and, if it remembers a logical span, is
a proper part of that. -/
structure WellCut (e : Event) : Prop where
  pos : e.active.start < e.active.stop
  within : ∀ w, e.whole = some w →
    w.start ≤ e.active.start ∧ e.active.stop ≤ w.stop ∧ w ≠ e.active

/-- An event that remembers nothing is well cut if it sounds at all. -/
theorem wellCut_of_whole_eq_none {e : Event} (h : e.whole = none)
    (pos : e.active.start < e.active.stop) : e.WellCut :=
  ⟨pos, fun w hw => by rw [h] at hw; nomatch hw⟩

/-- The logical span begins no later than the active one. -/
theorem WellCut.logical_start_le {e : Event} (h : e.WellCut) :
    e.logical.start ≤ e.active.start := by
  unfold logical
  cases hw : e.whole with
  | none => exact le_refl _
  | some w => exact (h.within w hw).1

/-- The logical span ends no sooner than the active one. -/
theorem WellCut.le_logical_stop {e : Event} (h : e.WellCut) :
    e.active.stop ≤ e.logical.stop := by
  unfold logical
  cases hw : e.whole with
  | none => exact le_refl _
  | some w => exact (h.within w hw).2.1

/-- A well-cut event remembers a logical span exactly if that is another than
its active one. -/
theorem WellCut.whole_eq_none_iff {e : Event} (h : e.WellCut) :
    e.whole = none ↔ e.logical = e.active := by
  unfold logical
  cases hw : e.whole with
  | none => exact ⟨fun _ => rfl, fun _ => rfl⟩
  | some w =>
      constructor
      · intro hnone
        nomatch hnone
      · intro heq
        exact absurd heq (h.within w hw).2.2

/-- The onset is where the logical span begins. -/
theorem hasOnset_iff (e : Event) : e.hasOnset = true ↔ e.logical.start = e.active.start := by
  unfold hasOnset logical
  cases e.whole with
  | none => simp
  | some w => simp

/-! ## Trimming and clipping -/

@[simp] theorem active_trim (e : Event) (span : Span) : (e.trim span).active = span := by
  unfold trim
  split
  · next h => rw [h]
  · rfl

@[simp] theorem logical_trim (e : Event) (span : Span) : (e.trim span).logical = e.logical := by
  unfold trim
  split <;> rfl

@[simp] theorem value_trim (e : Event) (span : Span) : (e.trim span).value = e.value := by
  unfold trim
  split <;> rfl

@[simp] theorem part_trim (e : Event) (span : Span) : (e.trim span).part = e.part := by
  unfold trim
  split <;> rfl

@[simp] theorem trim_active (e : Event) : e.trim e.active = e := if_pos rfl

/-- Only the last of two trims shows, unless it undoes the first. -/
theorem trim_trim {e : Event} {part rest : Span} (h : rest = e.active → part = e.active) :
    (e.trim part).trim rest = e.trim rest := by
  by_cases hpart : part = e.active
  · rw [hpart, trim_active]
  · have hrest : rest ≠ e.active := fun heq => hpart (h heq)
    unfold trim
    rw [if_neg hpart, if_neg hrest]
    split
    · next heq => rw [heq]
    · rfl

/-- A part of a well-cut event is well cut. -/
theorem WellCut.trim {e : Event} (h : e.WellCut) {span : Span} (pos : span.start < span.stop)
    (hstart : e.active.start ≤ span.start) (hstop : span.stop ≤ e.active.stop) :
    (e.trim span).WellCut := by
  refine ⟨by rw [active_trim]; exact pos, fun w hw => ?_⟩
  rw [active_trim]
  unfold Event.trim at hw
  split at hw
  · next heq =>
      rw [heq]
      exact h.within w hw
  · next hne =>
      have hlogical : e.logical = w := Option.some.inj hw
      have hlo := h.logical_start_le
      have hhi := h.le_logical_stop
      rw [hlogical] at hlo hhi
      refine ⟨le_trans hlo hstart, le_trans hstop hhi, fun heq => hne ?_⟩
      rw [heq] at hlo hhi
      exact Span.eq_of_ends (le_antisymm hlo hstart) (le_antisymm hstop hhi)

/-- What is left of an event is its part in the span, which is not empty. -/
theorem clip?_eq_some {e e' : Event} {span : Span} (h : e.clip? span = some e') :
    max e.active.start span.start < min e.active.stop span.stop ∧
      e' = e.trim (e.active.meet span) := by
  unfold clip? at h
  simp only at h
  rw [Span.start_meet, Span.stop_meet] at h
  split at h
  · next hlt => exact ⟨hlt, (Option.some.inj h).symm⟩
  · nomatch h

/-- What is left of a well-cut event inside a span is well cut and lies in
the span. -/
theorem WellCut.clip? {e e' : Event} (h : e.WellCut) {span : Span}
    (hc : e.clip? span = some e') :
    e'.WellCut ∧ span.start ≤ e'.active.start ∧ e'.active.stop ≤ span.stop := by
  obtain ⟨hlt, rfl⟩ := clip?_eq_some hc
  have hmeet : (e.active.meet span).start < (e.active.meet span).stop := by
    rw [Span.start_meet, Span.stop_meet]
    exact hlt
  refine ⟨h.trim hmeet ?_ ?_, ?_, ?_⟩
  · rw [Span.start_meet]
    exact le_max_left _ _
  · rw [Span.stop_meet]
    exact min_le_left _ _
  · rw [active_trim, Span.start_meet]
    exact le_max_right _ _
  · rw [active_trim, Span.stop_meet]
    exact min_le_right _ _

/-- Clipping goes event by event. -/
theorem clip_cons (span : Span) (e : Event) (events : List Event) :
    clip span (e :: events) = (e.clip? span).toList ++ clip span events := by
  unfold clip
  rw [List.filterMap_cons]
  cases e.clip? span <;> rfl

/-- Events are clipped one by one. -/
theorem clip_append (span : Span) (events later : List Event) :
    clip span (events ++ later) = clip span events ++ clip span later := List.filterMap_append

/-- An event that lies in a span is left as it is. -/
theorem clip?_eq_self {e : Event} {span : Span} (pos : e.active.start < e.active.stop)
    (hstart : span.start ≤ e.active.start) (hstop : e.active.stop ≤ span.stop) :
    e.clip? span = some e := by
  have hmeet : e.active.meet span = e.active :=
    Span.eq_of_ends (by rw [Span.start_meet, max_eq_left hstart])
      (by rw [Span.stop_meet, min_eq_left hstop])
  simp only [clip?, hmeet, if_pos pos, trim_active]

/-- Events within a span are not changed by it. -/
theorem clip_eq_self {span : Span} {events : List Event}
    (h : ∀ e ∈ events, e.active.start < e.active.stop ∧ span.start ≤ e.active.start ∧
      e.active.stop ≤ span.stop) : clip span events = events := by
  induction events with
  | nil => rfl
  | cons e events ih =>
      obtain ⟨pos, hstart, hstop⟩ := h e List.mem_cons_self
      have hrest : clip span events = events := ih fun e' he' => h e' (List.mem_cons_of_mem e he')
      rw [clip_cons, clip?_eq_self pos hstart hstop, hrest]
      rfl

/-- Nothing is left of an event that a span does not meet. -/
theorem clip?_eq_none {e : Event} {span : Span}
    (h : min e.active.stop span.stop ≤ max e.active.start span.start) : e.clip? span = none := by
  have hback : ¬(e.active.meet span).start < (e.active.meet span).stop := by
    rw [Span.start_meet, Span.stop_meet]
    exact not_lt.mpr h
  exact if_neg hback

/-- Events outside of a span are left out by it. -/
theorem clip_eq_nil {span : Span} {events : List Event}
    (h : ∀ e ∈ events, min e.active.stop span.stop ≤ max e.active.start span.start) :
    clip span events = [] :=
  List.filterMap_eq_nil_iff.mpr fun e he => clip?_eq_none (h e he)

/-- Spans are met one after the other as their meet is. -/
theorem clip?_bind_clip? (e : Event) (first second : Span) :
    (e.clip? first).bind (·.clip? second) = e.clip? (first.meet second) := by
  have hmeet := Span.meet_assoc e.active first second
  have htrim : (e.trim (e.active.meet first)).trim (e.active.meet (first.meet second)) =
      e.trim (e.active.meet (first.meet second)) := trim_trim Span.meet_eq_of_meet_meet
  by_cases hfirst : (e.active.meet first).start < (e.active.meet first).stop
  · simp only [clip?, if_pos hfirst, Option.bind_some, active_trim, hmeet, htrim]
  · have hback : ¬(e.active.meet (first.meet second)).start <
        (e.active.meet (first.meet second)).stop := by
      rw [← hmeet, Span.start_meet (e.active.meet first), Span.stop_meet (e.active.meet first)]
      intro hlt
      exact hfirst (lt_of_le_of_lt (le_max_left _ _) (lt_of_lt_of_le hlt (min_le_left _ _)))
    simp only [clip?, if_neg hfirst, if_neg hback, Option.bind_none]

/-- Clipping twice is clipping to what the spans have in common. -/
theorem clip_clip (first second : Span) (events : List Event) :
    clip second (clip first events) = clip (first.meet second) events := by
  unfold clip
  rw [List.filterMap_filterMap]
  simp only [clip?_bind_clip?]

/-- What is left of an event has an onset exactly if the event has one and
does not begin before the span. -/
theorem hasOnset_clip? {e e' : Event} (h : e.logical.start ≤ e.active.start) {span : Span}
    (hc : e.clip? span = some e') :
    e'.hasOnset = true ↔ e.hasOnset = true ∧ span.start ≤ e.active.start := by
  obtain ⟨-, rfl⟩ := clip?_eq_some hc
  rw [hasOnset_iff, hasOnset_iff, logical_trim, active_trim, Span.start_meet]
  constructor
  · intro heq
    have hle : max e.active.start span.start ≤ e.active.start := by rw [← heq]; exact h
    refine ⟨?_, le_trans (le_max_right _ _) hle⟩
    rw [heq]
    exact max_eq_left (le_trans (le_max_right _ _) hle)
  · rintro ⟨heq, hspan⟩
    rw [heq, max_eq_left hspan]

/-! ## Reflecting and shifting -/

/-- A reflected event is well cut. -/
theorem WellCut.reflect {e : Event} (h : e.WellCut) (pivot : Rat) : (e.reflect pivot).WellCut := by
  refine ⟨?_, fun w hw => ?_⟩
  · have hpos := h.pos
    simp only [Event.reflect, Span.reflect]
    linarith
  · simp only [Event.reflect, Option.map_eq_some_iff] at hw
    obtain ⟨v, hv, rfl⟩ := hw
    obtain ⟨hstart, hstop, hne⟩ := h.within v hv
    simp only [Event.reflect, Span.reflect]
    refine ⟨by linarith, by linarith, fun heq => hne ?_⟩
    rw [Span.mk.injEq] at heq
    exact Span.eq_of_ends (by linarith [heq.2]) (by linarith [heq.1])

/-- A shifted event is well cut. -/
theorem WellCut.shift {e : Event} (h : e.WellCut) (delta : Rat) : (e.shift delta).WellCut := by
  refine ⟨?_, fun w hw => ?_⟩
  · have hpos := h.pos
    simp only [Event.shift, Span.shift]
    linarith
  · simp only [Event.shift, Option.map_eq_some_iff] at hw
    obtain ⟨v, hv, rfl⟩ := hw
    obtain ⟨hstart, hstop, hne⟩ := h.within v hv
    simp only [Event.shift, Span.shift]
    refine ⟨by linarith, by linarith, fun heq => hne ?_⟩
    rw [Span.mk.injEq] at heq
    exact Span.eq_of_ends (by linarith [heq.1]) (by linarith [heq.2])

end Event

end Ostinato
