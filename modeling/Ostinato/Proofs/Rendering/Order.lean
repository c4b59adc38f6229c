import Mathlib.Algebra.Order.Field.Basic
import Ostinato.Proofs.Rendering.Row

/-!
# Ostinato.Proofs.Rendering.Order

Without waves, no two events of a pattern overlap.

Where time may pass between events, every combinator but the wave keeps rows
(`closed_ordered`): silence is a row, what is left of a row when events are
dropped is one, and a repetition with a negative factor shows nothing at all.
So a pattern renders its events in order (`Pattern.events_in_order`), a query
has nothing left to sort, and at no time two events are active.
-/

namespace Ostinato

namespace Rendering

open Drawing Event

variable {σ : Type}

/-! ## Silence -/

/-- Hits of a rhythm follow each other; a rest leaves time between them. -/
theorem ordered_euclidean (steps pulses rotation : Int) {r : Rendering σ}
    (h : Fills (· ≤ ·) r) : Fills (· ≤ ·) (euclidean steps pulses rotation r) where
  confined := confined_euclidean steps pulses rotation h.confined
  row cycle span pos := by
    refine ensures_lift_bind fun width hwidth => ensures_lift_bind fun mask hmask => ?_
    obtain ⟨hmask, hw⟩ := width_of_euclidean hwidth hmask
    have hn : (0 : Rat) < (mask.length : Nat) := by exact_mod_cast hmask
    have hpos : 0 < width := by
      rw [hw]
      exact div_pos (by unfold Span.length; linarith) hn
    have hrows : ∀ r' ∈ mask.map (fun hit => if hit then r else fun _ _ => pure []),
        ∀ span : Span, span.start < span.stop →
          (r' cycle span).Ensures (Row (· ≤ ·) span.start span.stop) := by
      intro r' hr' span' pos'
      obtain ⟨hit, -, rfl⟩ := List.mem_map.mp hr'
      cases hit with
      | true => exact h.row cycle span' pos'
      | false => exact (fills_silent fun _ _ hle => hle).row cycle span' pos'
    have hrow := ensures_slots_row spacing_le span.start hpos hrows 0
    have hlast : span.start + width * (mask.length : Nat) = span.stop := by
      rw [hw, div_mul_cancel₀ _ (ne_of_gt hn), Span.length]
      ring
    simpa [hlast] using hrow

/-- A repetition with a negative factor shows nothing: its slots run backwards,
and what is laid out there disappears when it is clipped. -/
theorem ensures_repeated_nil {factor : Rat} (hfactor : factor < 0) {r : Rendering σ}
    (h : Confined r) (cycle : Int) {span : Span} (pos : span.start < span.stop) :
    (repeated factor r cycle span).Ensures (· = []) := by
  have hwidth : span.length / factor < 0 :=
    div_neg_of_pos_of_neg (by unfold Span.length; linarith) hfactor
  rw [repeated_eq_gatherFrom hfactor.ne]
  refine (ensures_gatherFrom (P := fun _ => False) (fun c => ?_) _ _).mono fun es hes =>
    List.eq_nil_iff_forall_not_mem.mpr hes
  refine (h c _).bind fun events hevents => ensures_pure fun e' he' => ?_
  obtain ⟨e, he, hclip⟩ := List.mem_filterMap.mp he'
  obtain ⟨hlt, -⟩ := clip?_eq_some hclip
  have hback := (hevents e he).backwards (by simp only [slot]; linarith)
  rw [max_lt_iff, lt_min_iff, lt_min_iff] at hlt
  linarith [hlt.1.1]

/-- A factor of zero plays nothing; below zero nothing is left after clipping, and
above it the cycles follow each other. -/
theorem ordered_repeated (factor : Rat) {r : Rendering σ} (h : Fills (· ≤ ·) r) :
    Fills (· ≤ ·) (repeated factor r) := by
  rcases lt_trichotomy factor 0 with hneg | hzero | hpos
  · exact ⟨confined_repeated factor h.confined, fun cycle span pos =>
      (ensures_repeated_nil hneg h.confined cycle pos).mono fun es hes => by
        rw [hes]
        exact le_of_lt pos⟩
  · have hsilent : repeated factor r = fun _ _ => pure [] := by
      funext cycle span
      rw [repeated, if_pos hzero]
    rw [hsilent]
    exact fills_silent fun _ _ hle => hle
  · exact fills_repeated spacing_le hpos h

/-! ## Fewer events -/

/-- Pieces come in order; a negative number of them is none. -/
theorem ordered_pieces (parts : Int) (e : Event) (events : List Event) (he : e.WellCut)
    (h : pieces parts e = .ok events) : Row (· ≤ ·) e.active.start e.active.stop events := by
  by_cases hparts : 1 ≤ parts
  · exact row_pieces spacing_le hparts e events he h
  · obtain ⟨width, -, hevents⟩ := bind_ok h
    have hnone : parts.toNat = 0 := by omega
    rw [hnone] at hevents
    rw [← Except.ok.inj hevents]
    exact le_of_lt he.pos

/-- Thinning leaves events out. -/
theorem ensures_thin_sublist (draw : σ → Rat × σ) (probability : Float) (events : List Event) :
    (thin draw probability events).Ensures fun kept => kept.Sublist events := by
  induction events with
  | nil => exact ensures_pure (List.Sublist.refl _)
  | cons e events ih =>
      refine (ensures_true _).bind fun x _ => ih.bind fun rest hrest => ensures_pure ?_
      split
      · exact hrest.cons_cons e
      · exact hrest.cons e

/-- Events that are kept are in the order of all. -/
theorem ordered_degraded (draw : σ → Rat × σ) (probability : Float) {r : Rendering σ}
    (h : Fills (· ≤ ·) r) : Fills (· ≤ ·) (degraded draw probability r) where
  confined := confined_degraded draw probability h.confined
  row cycle _ pos := (h.row_wellCut cycle pos).bind fun events hevents =>
    (ensures_thin_sublist draw probability events).mono fun _ hkept =>
      hevents.1.sublist hkept fun e he => (hevents.2 e he).pos

/-! ## All patterns -/

/-- Every combinator but the wave keeps events in order. -/
theorem closed_ordered (s : Setting σ) : s.Closed .still (Fills (· ≤ ·)) where
  failed := fills_failed
  decided f _ h := fills_decided f fun _ i _ => h i
  drawn _ _ h := fills_drawn s.draw h
  leaf := fills_leaf spacing_le
  sequence _ h := fills_sequence spacing_le (fun _ _ _ hle => hle) h
  parallel _ h := fills_parallel s.choose (fun _ _ _ hle => hle) h
  euclidean steps pulses rotation _ h := ordered_euclidean steps pulses rotation h
  repeated factor _ h := ordered_repeated factor h
  reversed _ h := fills_reversed spacing_le h
  palindrome _ h := fills_palindrome spacing_le h
  chopped parts _ h := fills_chopped spacing_le (ordered_pieces parts) h
  degraded _ probability _ h := ordered_degraded s.draw probability h
  calculated op operand _ h := fills_calculated op operand h
  modulated sliding := absurd sliding not_false

end Rendering

/-- Without waves, a pattern renders its events in order. -/
theorem Pattern.pairwise_render {σ : Type} {s : Setting σ} {p : Pattern}
    (hp : p.Within .still s.transforms) {cycle : Int} {span : Span} (pos : span.start < span.stop)
    {state state' : σ} {events : List Event}
    (h : p.render s cycle span state = .ok (events, state')) :
    events.Pairwise fun e f => e.active.stop ≤ f.active.start := by
  have hfills := p.render_closed (Rendering.closed_ordered s) hp
  obtain ⟨hrow, hcut⟩ := hfills.row_wellCut cycle pos _ _ _ h
  exact hrow.pairwise fun e he => (hcut e he).pos

/-- Without waves, rendered events come in order of their starts. -/
theorem Pattern.sortByStart_render {σ : Type} {s : Setting σ} {p : Pattern}
    (hp : p.Within .still s.transforms) {cycle : Int} {span : Span} (pos : span.start < span.stop)
    {state state' : σ} {events : List Event}
    (h : p.render s cycle span state = .ok (events, state')) :
    Event.sortByStart events = events := by
  have hfills := p.render_closed (Rendering.closed_ordered s) hp
  obtain ⟨hrow, hcut⟩ := hfills.row_wellCut cycle pos _ _ _ h
  exact hrow.sortByStart (fun _ _ hle => hle) fun e he => (hcut e he).pos

/-- Without waves, sorting what a query renders changes nothing. -/
theorem Performance.query_eq_rendered {perf : Performance} {p : Pattern}
    (hp : p.Within .still perf.transforms) {cycle : Int} {events : List Event}
    (h : perf.query p cycle none = .ok events) :
    ∃ policy stream state', perf.choice.resolve perf.policies = .ok policy ∧
      perf.stream cycle = .ok stream ∧
      p.render (perf.setting policy) cycle Span.cycle stream = .ok (events, state') := by
  obtain ⟨policy, stream, rendered, state', hpolicy, hstream, hrender, hsorted⟩ :=
    rendered_of_query h
  have pos : Span.cycle.start < Span.cycle.stop := by decide
  have hfills := p.render_closed (Rendering.closed_ordered (perf.setting policy)) hp
  obtain ⟨hrow, hcut⟩ := hfills.row_wellCut cycle pos _ _ _ hrender
  rw [hrow.sortByStart (fun _ _ h => h) fun e he => (hcut e he).pos] at hsorted
  rw [hsorted]
  exact ⟨policy, stream, state', hpolicy, hstream, hrender⟩

/-- **Order**: without waves, each event that a pattern renders ends before any
later one of the list begins.  So a query finds the rendered events as they are,
and at most one event at any time. -/
theorem Pattern.events_in_order {known : Registry Transform} {p : Pattern}
    (hp : p.Within .still known) :
    (∀ {σ : Type} (s : Setting σ), s.transforms = known → ∀ (cycle : Int) (span : Span)
      (state state' : σ) (events : List Event), span.start < span.stop →
      p.render s cycle span state = .ok (events, state') →
        events.Pairwise fun e f => e.active.stop ≤ f.active.start) ∧
    ∀ perf : Performance, perf.transforms = known →
      (∀ (cycle : Int) (events : List Event), perf.query p cycle none = .ok events →
        ∃ policy stream state', perf.choice.resolve perf.policies = .ok policy ∧
          perf.stream cycle = .ok stream ∧
          p.render (perf.setting policy) cycle Span.cycle stream = .ok (events, state') ∧
          events.Pairwise fun e f => e.active.stop ≤ f.active.start) ∧
      ∀ (time : Value) (events : List Event), perf.queryAt p time = .ok events →
        events.length ≤ 1 := by
  have pos : Span.cycle.start < Span.cycle.stop := by decide
  constructor
  · rintro σ s rfl cycle span state state' events hspan h
    exact Pattern.pairwise_render hp hspan h
  · rintro perf rfl
    constructor
    · intro cycle events h
      obtain ⟨policy, stream, state', hpolicy, hstream, hrender⟩ := perf.query_eq_rendered hp h
      exact ⟨policy, stream, state', hpolicy, hstream, hrender,
        Pattern.pairwise_render (s := perf.setting policy) hp pos hrender⟩
    · intro time events h
      obtain ⟨t, found, -, hquery, rfl⟩ := Performance.queryAt_eq_ok_iff.mp h
      obtain ⟨policy, stream, state', -, -, hrender⟩ := perf.query_eq_rendered hp hquery
      exact Event.length_filter_isActiveAt_le
        (Pattern.pairwise_render (s := perf.setting policy) hp pos hrender) _

/-- A rhythm, an empty group, a name slowed down threefold and one played no
times: in the second cycle three events come in order, of which the first is
dropped where draws say so, and one is active at time one. -/
theorem Pattern.events_in_order_rhythm :
    let p := Pattern.sequence [.euclidean 3 2 0 (.leaf (.text "a")), .sequence [],
      .transform (.leaf (.text "b")) "slow" [.int 3],
      .transform (.leaf (.text "c")) "fast" [.int 0]]
    let s : Setting Nat := ⟨fun n => (n / 4, n + 1), fun _ _ => .ok 0, Transform.builtin⟩
    (∃ events state', (Pattern.transform p "degrade" []).render s 1 Span.cycle 1 =
        .ok (events, state') ∧ events.length = 2 ∧
        events.Pairwise fun e f => e.active.stop ≤ f.active.start) ∧
    ∃ events, Performance.default.queryAt p (.int 1) = .ok events ∧ events ≠ [] ∧
      events.length ≤ 1 := by
  intro p s
  have hp : p.Within .still Transform.builtin :=
    ⟨trivial, trivial, ⟨trivial, fun _ _ => trivial, trivial⟩,
      ⟨trivial, fun _ _ => trivial, trivial⟩, trivial⟩
  have hthinned : (Pattern.transform p "degrade" []).Within .still Transform.builtin :=
    ⟨hp, fun _ _ => trivial, trivial⟩
  constructor
  · have hcount : ((Pattern.transform p "degrade" []).render s 1 Span.cycle 1).toOption.map
        (·.1.length) = some 2 := by
      decide +kernel
    obtain ⟨r, h, htwo⟩ := ok_of_toOption_map hcount
    exact ⟨r.1, r.2, h, htwo,
      (Pattern.events_in_order hthinned).1 s rfl 1 Span.cycle 1 r.2 r.1 (by decide) h⟩
  · have hcount : (Performance.default.queryAt p (.int 1)).toOption.map List.isEmpty =
        some false := by
      decide +kernel
    obtain ⟨events, h, hsome⟩ := ok_of_toOption_map hcount
    exact ⟨events, h, by simpa using hsome,
      ((Pattern.events_in_order hp).2 Performance.default rfl).2 (.int 1) events h⟩

end Ostinato
