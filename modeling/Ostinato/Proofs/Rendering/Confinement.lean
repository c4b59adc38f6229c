import Mathlib.Algebra.Order.Field.Rat
import Mathlib.Tactic.FieldSimp
import Mathlib.Tactic.Linarith
import Ostinato.Proofs.Event.Cut
import Ostinato.Proofs.Event.Sorting
import Ostinato.Proofs.Rendering.Closure
import Ostinato.Proofs.Rendering.Drawing

/-!
# Ostinato.Proofs.Rendering.Confinement

Renderings keep to the span they fill.

The events of a rendering in a span are well cut and lie inside it.  A factor
below zero makes repetition render its subject in slots that end before they
begin; what is laid out there runs backwards and disappears as soon as it is
clipped.  The invariant of the induction (`Event.Laid`) therefore speaks of
both kinds of spans, and no assumption on the pattern is needed.
-/

namespace Ostinato

namespace Event

/-- An event as it may be laid out in a span: well cut and inside a span that
runs forwards, backwards itself in one that does not. -/
structure Laid (span : Span) (e : Event) : Prop where
  forwards : span.start < span.stop →
    e.WellCut ∧ span.start ≤ e.active.start ∧ e.active.stop ≤ span.stop
  backwards : span.stop ≤ span.start → e.active.stop ≤ e.active.start

/-- An event that remembers nothing may be laid out in its own active span. -/
theorem laid_of_whole_eq_none {e : Event} (h : e.whole = none) : e.Laid e.active :=
  ⟨fun pos => ⟨wellCut_of_whole_eq_none h pos, le_refl _, le_refl _⟩, fun hle => hle⟩

/-- What is laid out in a part of a span is laid out in the span, if the part
runs in the same direction. -/
theorem Laid.widen {e : Event} {part span : Span} (h : e.Laid part)
    (hf : span.start < span.stop →
      part.start < part.stop ∧ span.start ≤ part.start ∧ part.stop ≤ span.stop)
    (hb : span.stop ≤ span.start → part.stop ≤ part.start) : e.Laid span := by
  constructor
  · intro pos
    obtain ⟨hpos, hstart, hstop⟩ := hf pos
    obtain ⟨hcut, hlo, hhi⟩ := h.forwards hpos
    exact ⟨hcut, le_trans hstart hlo, le_trans hhi hstop⟩
  · intro hle
    exact h.backwards (hb hle)

/-- What is left of an event inside a span is laid out in it, wherever the
event was laid out. -/
theorem Laid.clip? {e e' : Event} {slot span : Span} (h : e.Laid slot)
    (hc : e.clip? span = some e') : e'.Laid span := by
  obtain ⟨hlt, -⟩ := clip?_eq_some hc
  have hactive : e.active.start < e.active.stop :=
    lt_of_le_of_lt (le_max_left _ _) (lt_of_lt_of_le hlt (min_le_left _ _))
  have hspan : span.start < span.stop :=
    lt_of_le_of_lt (le_max_right _ _) (lt_of_lt_of_le hlt (min_le_right _ _))
  have hslot : slot.start < slot.stop := by
    by_contra hle
    exact absurd (h.backwards (not_lt.mp hle)) (not_le.mpr hactive)
  exact ⟨fun _ => (h.forwards hslot).1.clip? hc, fun hle => absurd hspan (not_lt.mpr hle)⟩

/-- Events with the same spans are laid out alike. -/
theorem Laid.congr {e e' : Event} {span : Span} (h : e.Laid span) (hactive : e'.active = e.active)
    (hwhole : e'.whole = e.whole) : e'.Laid span := by
  obtain ⟨v, active, part, whole⟩ := e
  obtain ⟨v', active', part', whole'⟩ := e'
  simp only at hactive hwhole
  subst hactive hwhole
  exact ⟨fun pos => ⟨⟨(h.forwards pos).1.pos, (h.forwards pos).1.within⟩, (h.forwards pos).2⟩,
    h.backwards⟩

/-- An event reflected inside a span is laid out in it. -/
theorem Laid.reflect {e : Event} {span : Span} (h : e.Laid span) :
    (e.reflect (span.start + span.stop)).Laid span := by
  constructor
  · intro pos
    obtain ⟨hcut, hlo, hhi⟩ := h.forwards pos
    refine ⟨hcut.reflect _, ?_, ?_⟩
    · simp only [Event.reflect, Span.reflect]
      linarith
    · simp only [Event.reflect, Span.reflect]
      linarith
  · intro hle
    have hback := h.backwards hle
    simp only [Event.reflect, Span.reflect]
    linarith

end Event

namespace Rendering

open Drawing Event

variable {σ : Type}

/-- A rendering that lays out its events in the span it fills. -/
def Confined (r : Rendering σ) : Prop :=
  ∀ cycle span, (r cycle span).Ensures fun es => ∀ e ∈ es, e.Laid span

/-! ## Slots -/

/-- What is laid out in one of `n` equal slots is laid out in the span. -/
theorem laid_of_slot {e : Event} {span : Span} {k n : Nat} (hk : k < n)
    (h : e.Laid (Span.step span.start (span.length / n) k)) : e.Laid span := by
  have hkn : (k : Rat) + 1 ≤ n := by exact_mod_cast hk
  have hn : (0 : Rat) < n := by
    have hk0 : (0 : Rat) ≤ k := Nat.cast_nonneg k
    linarith
  have hk0 : (0 : Rat) ≤ k := Nat.cast_nonneg k
  have hlength : span.length / n * n = span.stop - span.start := by
    unfold Span.length
    field_simp
  refine h.widen (fun pos => ?_) (fun hle => ?_)
  · have hw : 0 < span.length / n := div_pos (by unfold Span.length; linarith) hn
    simp only [Span.step]
    refine ⟨by nlinarith, by nlinarith, ?_⟩
    have hlast : span.length / n * (k + 1) ≤ span.length / n * n :=
      mul_le_mul_of_nonneg_left hkn (le_of_lt hw)
    linarith
  · have hw : span.length / n ≤ 0 :=
      div_nonpos_of_nonpos_of_nonneg (by unfold Span.length; linarith) (le_of_lt hn)
    simp only [Span.step]
    nlinarith

/-- Slots that share a span lie inside it. -/
theorem confined_sequence {rs : List (Rendering σ)} (h : ∀ r ∈ rs, Confined r) :
    Confined (sequence rs) := by
  intro cycle span
  refine (ensures_slots (P := fun span e => e.Laid span) (fun r hr => h r hr cycle) 0).mono ?_
  intro es hes e he
  obtain ⟨k, -, hk, hlaid⟩ := hes e he
  rw [Nat.zero_add] at hk
  exact laid_of_slot hk hlaid

/-- The child whose turn it is has the whole span. -/
theorem confined_parallel (choose : Int → Int → Except Fault Int) {rs : List (Rendering σ)}
    (h : ∀ r ∈ rs, Confined r) : Confined (parallel choose rs) := by
  intro cycle span
  have silent : Confined (fun _ _ => pure [] : Rendering σ) := fun _ _ =>
    ensures_pure fun e he => absurd he List.not_mem_nil
  unfold parallel
  split
  · exact silent cycle span
  · refine ensures_lift_bind fun pick _ => ?_
    rw [List.getD_eq_getElem?_getD]
    cases hr : rs[(pick.emod rs.length).toNat]? with
    | none => exact silent cycle span
    | some r => exact h r (List.mem_of_getElem? hr) _ span

/-- Copies of one rest are as many as were asked for. -/
theorem held_eq_ok {count : Int} {size n : Nat} (h : Copies.held count size = .ok n) :
    n = count.toNat := by
  obtain ⟨m, hm, hn⟩ := bind_ok h
  have hmn : m = n := by
    split at hn
    · nomatch hn
    · exact Except.ok.inj hn
  unfold Copies.fitting at hm
  split at hm
  · nomatch hm
  · rw [← hmn, ← Except.ok.inj hm]

/-- A rhythm has the number of steps asked for, which is at least one. -/
theorem length_of_euclidean {steps pulses rotation : Int} {mask : List Bool}
    (h : Rhythm.euclidean steps pulses rotation = .ok mask) :
    1 ≤ steps ∧ steps = (mask.length : Int) := by
  unfold Rhythm.euclidean at h
  split at h
  · nomatch h
  · next hsteps =>
      have turned : ∀ size, size = steps.toNat → Rhythm.turn
          (Rhythm.spread size (pulses.toNat.min size)) (rotation.emod steps).toNat = mask →
          1 ≤ steps ∧ steps = (mask.length : Int) := by
        intro size hsize hmask
        rw [← hmask, Rhythm.length_turn, Rhythm.length_spread, hsize]
        omega
      by_cases hp : pulses < 1
      · simp only [if_pos hp] at h
        obtain ⟨size, hsize, hmask⟩ := bind_ok h
        exact turned size (held_eq_ok hsize) (Except.ok.inj hmask)
      · simp only [if_neg hp] at h
        exact turned _ rfl (Except.ok.inj h)

/-- The steps of a rhythm share the span evenly. -/
theorem width_of_euclidean {length width : Rat} {steps pulses rotation : Int} {mask : List Bool}
    (hwidth : divide length steps = .ok width)
    (hmask : Rhythm.euclidean steps pulses rotation = .ok mask) :
    0 < mask.length ∧ width = length / (mask.length : Nat) := by
  obtain ⟨hpos, hsteps⟩ := length_of_euclidean hmask
  refine ⟨by omega, ?_⟩
  rw [divide_eq_ok (by omega)] at hwidth
  rw [← Except.ok.inj hwidth, hsteps, Int.cast_natCast]

/-- Steps of a rhythm share the span, as children do; a rest plays nothing. -/
theorem confined_euclidean (steps pulses rotation : Int) {r : Rendering σ} (h : Confined r) :
    Confined (euclidean steps pulses rotation r) := by
  intro cycle span
  refine ensures_lift_bind fun width hwidth => ensures_lift_bind fun mask hmask => ?_
  have hw := (width_of_euclidean hwidth hmask).2
  refine (ensures_slots (P := fun span e => e.Laid span) (fun r' hr' span' => ?_) 0).mono ?_
  · rw [List.mem_map] at hr'
    obtain ⟨hit, -, rfl⟩ := hr'
    cases hit with
    | true => exact h cycle span'
    | false => exact ensures_pure fun e he => absurd he List.not_mem_nil
  · intro es hes e he
    obtain ⟨k, -, hk, hlaid⟩ := hes e he
    rw [Nat.zero_add, List.length_map] at hk
    rw [hw] at hlaid
    exact laid_of_slot hk hlaid

/-! ## Repetition and order -/

/-- The cycles that a repetition shows are counted upwards. -/
theorem first_le_last {factor : Rat} (hfactor : 0 ≤ factor) (cycle : Int) :
    ((cycle : Rat) * factor).floor ≤ (((cycle + 1 : Int) : Rat) * factor).ceil := by
  have hstep : (cycle : Rat) * factor ≤ ((cycle + 1 : Int) : Rat) * factor := by
    push_cast
    linarith
  rw [← Rat.intCast_le_intCast]
  exact le_trans (Rat.floor_le _) (le_trans hstep Rat.le_ceil)

/-- Each cycle that is repeated is clipped to the span, so its events lie inside it
or run backwards. -/
theorem confined_repeated (factor : Rat) {r : Rendering σ} (h : Confined r) :
    Confined (repeated factor r) := by
  intro cycle span
  unfold repeated
  split
  · exact ensures_pure fun e he => absurd he List.not_mem_nil
  · refine ensures_gatherFrom (fun c => (h c _).bind fun es hes => ensures_pure ?_) _ _
    intro e he
    unfold Event.clip at he
    rw [List.mem_filterMap] at he
    obtain ⟨e₀, he₀, hclip⟩ := he
    exact (hes e₀ he₀).clip? hclip

/-- Events reflected inside a span are laid out in it. -/
theorem laid_reflected {span : Span} {es : List Event} (h : ∀ e ∈ es, e.Laid span) :
    ∀ e ∈ reflected span es, e.Laid span := by
  intro e he
  unfold reflected at he
  rw [List.mem_map] at he
  obtain ⟨e₀, he₀, rfl⟩ := he
  exact (h e₀ (List.mem_reverse.mp he₀)).reflect

/-- Reflecting about the ends of a span maps the span to itself. -/
theorem confined_reversed {r : Rendering σ} (h : Confined r) : Confined (reversed r) := by
  intro cycle span
  exact (h cycle span).bind fun es hes => ensures_pure (laid_reflected hes)

/-- Both halves of a palindrome lie in the span. -/
theorem confined_palindrome {r : Rendering σ} (h : Confined r) : Confined (palindrome r) := by
  intro cycle span
  refine (h cycle _).bind fun forward hforward => (h cycle _).bind fun backward hbackward =>
    ensures_pure fun e he => ?_
  rw [List.mem_append] at he
  cases he with
  | inl first =>
      exact (hforward e first).widen (fun pos => ⟨by simp only; linarith, le_refl _,
        by simp only; linarith⟩) fun hle => by simp only; linarith
  | inr second =>
      exact (laid_reflected hbackward e second).widen (fun pos => ⟨by simp only; linarith,
        by simp only; linarith, le_refl _⟩) fun hle => by simp only; linarith

/-! ## Single events -/

/-- Pieces of an event are laid out in its active span. -/
theorem laid_pieces {parts : Int} {e : Event} {es : List Event} (h : pieces parts e = .ok es) :
    ∀ e' ∈ es, e'.Laid e.active := by
  intro e' he'
  obtain ⟨width, -, hes⟩ := bind_ok h
  rw [← Except.ok.inj hes, Event.clip, List.mem_filterMap] at he'
  obtain ⟨piece, hpiece, hclip⟩ := he'
  rw [List.mem_map] at hpiece
  obtain ⟨i, -, rfl⟩ := hpiece
  exact (laid_of_whole_eq_none rfl).clip? hclip

/-- Pieces are clipped to the event that they are cut from. -/
theorem confined_chopped (parts : Int) {r : Rendering σ} (h : Confined r) :
    Confined (chopped parts r) := by
  intro cycle span
  refine (h cycle span).bind fun es hes => ?_
  have hpieces : ∀ e ∈ es, (liftM (pieces parts e) : Drawing σ (List Event)).Ensures
      fun es' => ∀ e' ∈ es', e'.Laid e.active :=
    fun e _ => ensures_lift fun es' hes' => laid_pieces hes'
  refine (ensures_gather hpieces).mono fun es' hes' e' he' => ?_
  obtain ⟨e, he, hlaid⟩ := hes' e' he'
  have hspan := hes e he
  refine hlaid.widen (fun pos => ?_) hspan.backwards
  obtain ⟨hcut, hlo, hhi⟩ := hspan.forwards pos
  exact ⟨hcut.pos, hlo, hhi⟩

/-- Events that are kept lie where they did. -/
theorem confined_degraded (draw : σ → Rat × σ) (probability : Float) {r : Rendering σ}
    (h : Confined r) : Confined (degraded draw probability r) := by
  intro cycle span
  refine (h cycle span).bind fun es hes => (ensures_thin draw probability es).mono ?_
  exact fun kept hkept e he => hes e (hkept e he)

/-- Arithmetic leaves the spans of an event as they are. -/
theorem spans_of_computed {op : Operator} {operand : Value} {e e' : Event}
    (h : computed op operand e = .ok e') : e'.active = e.active ∧ e'.whole = e.whole := by
  unfold computed at h
  split at h
  · obtain ⟨v, -, hv⟩ := bind_ok h
    have heq := Except.ok.inj hv
    rw [← heq]
    exact ⟨rfl, rfl⟩
  · have heq := Except.ok.inj h
    rw [← heq]
    exact ⟨rfl, rfl⟩

/-- Arithmetic leaves the spans of events as they are. -/
theorem confined_calculated (op : Operator) (operand : Value) {r : Rendering σ}
    (h : Confined r) : Confined (calculated op operand r) := by
  intro cycle span
  refine (h cycle span).bind fun es hes => (ensures_mapM _ es).mono fun es' hes' e' he' => ?_
  obtain ⟨e, he, hcomputed⟩ := hes' e' he'
  obtain ⟨hactive, hwhole⟩ := spans_of_computed hcomputed
  exact (hes e he).congr hactive hwhole

/-- A time moved between bounds lies between them. -/
theorem clampTime_between {x low high : Rat} (h : low ≤ high) :
    low ≤ clampTime x low high ∧ clampTime x low high ≤ high := by
  unfold clampTime
  split
  · exact ⟨le_refl _, h⟩
  · next hlow =>
      split
      · exact ⟨h, le_refl _⟩
      · next hhigh => exact ⟨not_lt.mp hlow, not_lt.mp hhigh⟩

/-- A time between two bounds is kept. -/
theorem clampTime_eq_self {x low high : Rat} (hlow : low ≤ x) (hhigh : x ≤ high) :
    clampTime x low high = x := by
  unfold clampTime
  rw [if_neg (not_lt.mpr hlow), if_neg (not_lt.mpr hhigh)]

/-- An event moved by a wave of the given heights, but not out of the span. -/
def slidBy (amount : Value) (height : Rat → Except Fault Float) (span : Span) (e : Event) :
    Except Fault Event := do
  let height ← height e.active.start
  let share ← (Number.float (← amount.scaledBy height)).toTime
  let moved := clampTime (e.active.start + share * span.length) span.start (span.stop - e.duration)
  pure (e.shift (moved - e.active.start))

/-- The sine wave is one of those along which events are slid. -/
theorem slid_eq (amount rate : Value) (cycle : Int) (span : Span) (e : Event) :
    slid amount rate cycle span e = slidBy amount (wave rate cycle) span e := rfl

/-- A slide shifts an event, to a place between the bounds that its length
leaves. -/
theorem slidBy_eq_ok {amount : Value} {height : Rat → Except Fault Float} {span : Span}
    {e e' : Event} (h : slidBy amount height span e = .ok e') :
    ∃ x y share, amount.scaledBy x = .ok y ∧ (Number.float y).toTime = .ok share ∧
      e' = e.shift (clampTime (e.active.start + share * span.length) span.start
        (span.stop - e.duration) - e.active.start) := by
  obtain ⟨x, -, hx⟩ := bind_ok h
  obtain ⟨y, hy, hshift⟩ := bind_ok hx
  obtain ⟨share, hshare, hmoved⟩ := bind_ok hshift
  exact ⟨x, y, share, hy, hshare, (Except.ok.inj hmoved).symm⟩

/-- An event moved between the bounds that its length leaves is laid out in the
span. -/
theorem laid_shift {span : Span} {e : Event} (hlaid : e.Laid span) (x : Rat) :
    (e.shift (clampTime x span.start (span.stop - e.duration) - e.active.start)).Laid span := by
  constructor
  · intro pos
    obtain ⟨hcut, hlo, hhi⟩ := hlaid.forwards pos
    have hroom : span.start ≤ span.stop - e.duration := by
      unfold duration Span.length
      linarith
    obtain ⟨hlow, hhigh⟩ := clampTime_between (x := x) hroom
    have hduration : e.duration = e.active.stop - e.active.start := rfl
    refine ⟨hcut.shift _, ?_, ?_⟩
    · simp only [Event.shift, Span.shift]
      linarith
    · simp only [Event.shift, Span.shift]
      linarith
  · intro hle
    have hback := hlaid.backwards hle
    simp only [Event.shift, Span.shift]
    linarith

/-- An event slid inside a span is laid out in it. -/
theorem laid_slid {amount rate : Value} {cycle : Int} {span : Span} {e e' : Event}
    (hlaid : e.Laid span) (h : slid amount rate cycle span e = .ok e') : e'.Laid span := by
  rw [slid_eq] at h
  obtain ⟨_, _, _, -, -, rfl⟩ := slidBy_eq_ok h
  exact laid_shift hlaid _

/-- Events that are slid are kept from leaving the span. -/
theorem confined_modulated (amount rate : Value) {r : Rendering σ} (h : Confined r) :
    Confined (modulated amount rate r) := by
  intro cycle span
  refine (h cycle span).bind fun es hes => (ensures_mapM _ es).mono fun es' hes' e' he' => ?_
  obtain ⟨e, he, hslid⟩ := hes' e' he'
  exact laid_slid (hes e he) hslid

/-! ## All patterns -/

/-- Every combinator keeps to its span. -/
theorem closed_confined (s : Setting σ) : s.Closed .full Confined where
  failed fault := fun _ _ => ensures_throw fault
  decided f r h := fun cycle span => ensures_lift_bind fun i _ => h i cycle span
  drawn _ r h := fun cycle span => (ensures_true _).bind fun x _ => h x cycle span
  leaf value := fun _ span => ensures_pure fun e he => by
    rw [List.mem_singleton] at he
    rw [he]
    exact laid_of_whole_eq_none (e := ⟨value, span, none, none⟩) rfl
  sequence _ h := confined_sequence h
  parallel _ h := confined_parallel s.choose h
  euclidean steps pulses rotation _ h := confined_euclidean steps pulses rotation h
  repeated factor _ h := confined_repeated factor h
  reversed _ h := confined_reversed h
  palindrome _ h := confined_palindrome h
  chopped parts _ h := confined_chopped parts h
  degraded _ probability _ h := confined_degraded s.draw probability h
  calculated op operand _ h := confined_calculated op operand h
  modulated _ amount rate _ h := confined_modulated amount rate h

end Rendering

/-- Every pattern keeps to its span. -/
theorem Pattern.confined_render {σ : Type} (s : Setting σ) (p : Pattern) :
    Rendering.Confined (p.render s) :=
  p.render_closed (Rendering.closed_confined s) (p.within_full _)

/-! ## Queries -/

/-- A cycle, or a part of it, selects from what is rendered, whatever that is, and
sorts it. -/
theorem Pattern.selected_of_eventsIn {σ : Type} {s : Setting σ} {state : σ} {p : Pattern}
    {cycle : Int} {arc : Option Arc} {events : List Event}
    (h : p.eventsIn s state cycle arc = .ok events) :
    ∃ (keep : Event → Bool) (rendered : List Event) (state' : σ),
      p.render s cycle Span.cycle state = .ok (rendered, state') ∧
      events = Event.sortByStart (rendered.filter keep) ∧
      ∀ (q : Pattern) (rendered : List Event) (state' : σ),
        q.render s cycle Span.cycle state = .ok (rendered, state') →
        q.eventsIn s state cycle arc = .ok (Event.sortByStart (rendered.filter keep)) := by
  obtain ⟨rendered, hrun, hevents⟩ := bind_ok h
  obtain ⟨⟨_, state'⟩, hrender, hfst⟩ := bind_ok hrun
  rw [← Except.ok.inj hfst] at hevents
  have hruns : ∀ (q : Pattern) (rendered : List Event) (state' : σ),
      q.render s cycle Span.cycle state = .ok (rendered, state') →
      (q.render s cycle Span.cycle).run' state = .ok rendered := by
    intro q rendered state' hq
    rw [StateT.run'_eq, StateT.run, hq]
    rfl
  cases arc with
  | none =>
      refine ⟨fun _ => true, _, state', hrender, ?_, fun q rendered state' hq => ?_⟩
      · rw [List.filter_true, Except.ok.inj hevents]
      · rw [List.filter_true, eventsIn, hruns q rendered state' hq]
        rfl
  | some ends =>
      obtain ⟨low, high⟩ := ends
      obtain ⟨first, hfirst, hrest⟩ := bind_ok hevents
      obtain ⟨last, hlast, hkept⟩ := bind_ok hrest
      refine ⟨(·.overlaps first last), _, state', hrender, (Except.ok.inj hkept).symm,
        fun q rendered state' hq => ?_⟩
      rw [eventsIn, hruns q rendered state' hq]
      simp only [bind, Except.bind, hfirst, hlast]
      rfl

/-- The events found in a cycle are among those of its rendering. -/
theorem Pattern.mem_of_eventsIn {σ : Type} {s : Setting σ} {state : σ} {p : Pattern}
    {cycle : Int} {arc : Option Arc} {events : List Event}
    (h : p.eventsIn s state cycle arc = .ok events) :
    ∃ rendered state', p.render s cycle Span.cycle state = .ok (rendered, state') ∧
      ∀ e ∈ events, e ∈ rendered := by
  obtain ⟨keep, rendered, state', hrender, rfl, -⟩ := selected_of_eventsIn h
  exact ⟨rendered, state', hrender, fun e he =>
    (List.mem_filter.mp (Event.mem_sortByStart.mp he)).1⟩

/-- The events that a query finds in a cycle lie in it. -/
theorem Performance.laid_query {perf : Performance} {p : Pattern} {cycle : Int}
    {arc : Option Arc} {events : List Event} (h : perf.query p cycle arc = .ok events) :
    ∀ e ∈ events, e.WellCut ∧ 0 ≤ e.active.start ∧ e.active.stop ≤ 1 := by
  obtain ⟨policy, -, hstream⟩ := bind_ok h
  obtain ⟨stream, -, hevents⟩ := bind_ok hstream
  obtain ⟨rendered, state', hrender, hmem⟩ := Pattern.mem_of_eventsIn hevents
  have pos : Span.cycle.start < Span.cycle.stop := by decide
  exact fun e he => (p.confined_render _ _ _ _ _ _ hrender e (hmem e he)).forwards pos

/-- **Confinement**: in a span that runs forwards, a pattern renders events of
positive length inside the span, and the logical span that an event remembers
contains the active one and is another.  The events found in a cycle lie
between zero and one, and those that remember nothing are exactly the ones
that were not trimmed. -/
theorem Pattern.events_confined (p : Pattern) :
    (∀ {σ : Type} (s : Setting σ) (cycle : Int) (span : Span) (state state' : σ)
      (events : List Event), span.start < span.stop →
      p.render s cycle span state = .ok (events, state') → ∀ e ∈ events,
        span.start ≤ e.active.start ∧ e.active.start < e.active.stop ∧
          e.active.stop ≤ span.stop ∧
          ∀ w, e.whole = some w →
            w.start ≤ e.active.start ∧ e.active.stop ≤ w.stop ∧ w ≠ e.active) ∧
    (∀ (perf : Performance) (cycle : Int) (arc : Option Arc) (events : List Event),
      perf.query p cycle arc = .ok events → ∀ e ∈ events,
        0 ≤ e.active.start ∧ e.active.start < e.active.stop ∧ e.active.stop ≤ 1 ∧
          (e.whole = none ↔ e.logical = e.active)) := by
  constructor
  · intro σ s cycle span state state' events pos h e he
    obtain ⟨hcut, hlo, hhi⟩ := (p.confined_render s _ _ _ _ _ h e he).forwards pos
    exact ⟨hlo, hcut.pos, hhi, hcut.within⟩
  · intro perf cycle arc events h e he
    obtain ⟨hcut, hlo, hhi⟩ := perf.laid_query h e he
    exact ⟨hlo, hcut.pos, hhi, hcut.whole_eq_none_iff⟩

/-- Two names slowed down threefold and cut in two: two pieces play in the
second cycle, the first of them a tail. -/
theorem Pattern.events_confined_slow_chop :
    let p := Pattern.transform (.transform (.sequence [.leaf (.text "a"), .leaf (.text "b")])
      "slow" [.int 3]) "chop" [.int 2]
    let s := Performance.default.setting Policy.roundRobin
    (∃ events state', p.render s 1 Span.cycle ⟨#[], 0⟩ = .ok (events, state') ∧
      events.length = 2 ∧ ∀ e ∈ events, 0 ≤ e.active.start ∧ e.active.start < e.active.stop) ∧
    ∃ events, Performance.default.query p 1 none = .ok events ∧ events.length = 2 ∧
      ∀ e ∈ events, e.active.stop ≤ 1 ∧ (e.whole = none ↔ e.logical = e.active) := by
  intro p s
  constructor
  · have hcount : (p.render s 1 Span.cycle ⟨#[], 0⟩).toOption.map (·.1.length) = some 2 := by
      decide +kernel
    obtain ⟨r, h, htwo⟩ := ok_of_toOption_map hcount
    refine ⟨r.1, r.2, h, htwo, fun e he => ?_⟩
    have hconfined := p.events_confined.1 s 1 Span.cycle _ _ _ (by decide) h e he
    exact ⟨hconfined.1, hconfined.2.1⟩
  · have hcount : (Performance.default.query p 1 none).toOption.map List.length = some 2 := by
      decide +kernel
    obtain ⟨events, h, htwo⟩ := ok_of_toOption_map hcount
    exact ⟨events, h, htwo, fun e he => (p.events_confined.2 _ 1 none events h e he).2.2⟩

end Ostinato
