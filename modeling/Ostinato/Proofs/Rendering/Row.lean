import Ostinato.Proofs.Event.Row
import Ostinato.Proofs.Rendering.Gathering

/-!
# Ostinato.Proofs.Rendering.Row

Renderings that put one event after another.

`Fills gap r` says that `r` keeps to the span it fills and that, in a span that
runs forwards, its events form a row between the ends of the span with gaps of
the given kind.  Each combinator is shown to keep this where it does so for gaps
of any kind.  What depends on the kind is left to the places that speak of one:
silence is a row only where time may pass between events.
-/

namespace Ostinato

namespace Rendering

open Drawing Event

variable {σ : Type} {gap : Rat → Rat → Prop}

/-- A rendering that keeps to its span and whose events form a row in it. -/
structure Fills (gap : Rat → Rat → Prop) (r : Rendering σ) : Prop where
  confined : Confined r
  row : ∀ cycle span, span.start < span.stop →
    (r cycle span).Ensures (Row gap span.start span.stop)

/-- The row in a span that runs forwards is one of well-cut events. -/
theorem Fills.row_wellCut {r : Rendering σ} (h : Fills gap r) (cycle : Int) {span : Span}
    (pos : span.start < span.stop) :
    (r cycle span).Ensures fun es => Row gap span.start span.stop es ∧ ∀ e ∈ es, e.WellCut :=
  fun _ _ _ hes => ⟨h.row cycle span pos _ _ _ hes,
    fun e he => ((h.confined cycle span _ _ _ hes e he).forwards pos).1⟩

/-- What fails lays out nothing. -/
theorem fills_failed (fault : Fault) : Fills gap (failed fault : Rendering σ) where
  confined _ _ := ensures_throw fault
  row _ _ _ := ensures_throw fault

/-- Silence is a row where any time may pass. -/
theorem fills_silent (hgap : ∀ a b, a ≤ b → gap a b) :
    Fills gap (fun _ _ => pure [] : Rendering σ) where
  confined _ _ := ensures_pure fun _ he => absurd he List.not_mem_nil
  row _ span pos := ensures_pure (hgap span.start span.stop (le_of_lt pos))

/-- A decision that may fail. -/
theorem fills_decided {ι : Type} (f : Int → Except Fault ι) {r : ι → Rendering σ}
    (h : ∀ cycle i, f cycle = .ok i → Fills gap (r i)) :
    Fills gap fun cycle span => do r (← f cycle) cycle span where
  confined cycle span := ensures_lift_bind fun i hi => (h cycle i hi).confined cycle span
  row cycle span pos := ensures_lift_bind fun i hi => (h cycle i hi).row cycle span pos

/-- A decision that depends on a draw. -/
theorem fills_drawn (draw : σ → Rat × σ) {r : Rat → Rendering σ} (h : ∀ x, Fills gap (r x)) :
    Fills gap fun cycle span => do
      let x ← fun state => pure (draw state)
      r x cycle span where
  confined cycle span := (ensures_true _).bind fun x _ => (h x).confined cycle span
  row cycle span pos := (ensures_true _).bind fun x _ => (h x).row cycle span pos

/-- A leaf fills its span alone. -/
theorem fills_leaf (hg : Spacing gap) (value : Value) : Fills gap (leaf value : Rendering σ) where
  confined _ span := ensures_pure fun e he => by
    rw [List.mem_singleton] at he
    rw [he]
    exact laid_of_whole_eq_none (e := ⟨value, span, none, none⟩) rfl
  row _ span _ := ensures_pure (hg.single ⟨value, span, none, none⟩)

/-! ## Groups -/

/-- Rows in neighbouring slots are one row. -/
theorem ensures_slots_row (hg : Spacing gap) {cycle : Int} (start : Rat) {width : Rat}
    (hwidth : 0 < width)
    {rs : List (Rendering σ)} (h : ∀ r ∈ rs, ∀ span, span.start < span.stop →
      (r cycle span).Ensures (Row gap span.start span.stop)) (count : Nat) :
    (slots cycle start width count rs).Ensures
      (Row gap (start + width * count) (start + width * (count + rs.length : Nat))) := by
  induction rs generalizing count with
  | nil => exact ensures_pure (hg.refl _)
  | cons r rs ih =>
      have htail := ih (fun r' hr' => h r' (List.mem_cons_of_mem r hr')) (count + 1)
      have hpos : (Span.step start width count).start < (Span.step start width count).stop := by
        simp only [Span.step]
        linarith
      refine (h r List.mem_cons_self _ hpos).bind fun events hevents =>
        htail.bind fun rest hrest => ensures_pure (hg.append hevents ?_)
      have hcount : count + (r :: rs).length = count + 1 + rs.length := by
        rw [List.length_cons]
        omega
      have hnext : (Span.step start width count).stop =
          start + width * ((count + 1 : Nat) : Rat) := by
        simp [Span.step]
      rw [hcount, hnext]
      exact hrest

/-- A group with an item at least, or any group where time may pass. -/
theorem fills_sequence (hg : Spacing gap) {rs : List (Rendering σ)}
    (hempty : rs = [] → ∀ a b, a ≤ b → gap a b) (h : ∀ r ∈ rs, Fills gap r) :
    Fills gap (sequence rs) where
  confined := confined_sequence fun r hr => (h r hr).confined
  row cycle span pos := by
    by_cases hrs : rs = []
    · subst hrs
      exact ensures_pure (hempty rfl _ _ (le_of_lt pos))
    · have hn : (0 : Rat) < rs.length := by
        have := List.length_pos_iff.mpr hrs
        exact_mod_cast this
      have hwidth : 0 < span.length / rs.length :=
        div_pos (by unfold Span.length; linarith) hn
      have hrow := ensures_slots_row hg span.start hwidth
        (fun r hr span' pos' => (h r hr).row cycle span' pos') 0
      have hlast : span.start + span.length / rs.length * rs.length = span.stop := by
        rw [div_mul_cancel₀ _ (ne_of_gt hn), Span.length]
        ring
      simpa [sequence, hlast] using hrow

/-- The child whose turn it is fills the span; without children there is one gap. -/
theorem fills_parallel (choose : Int → Int → Except Fault Int) {rs : List (Rendering σ)}
    (hempty : rs = [] → ∀ a b, a ≤ b → gap a b) (h : ∀ r ∈ rs, Fills gap r) :
    Fills gap (parallel choose rs) where
  confined := confined_parallel choose fun r hr => (h r hr).confined
  row cycle span pos := by
    by_cases hrs : rs = []
    · subst hrs
      exact ensures_pure (hempty rfl _ _ (le_of_lt pos))
    · have hn : (0 : Int) < rs.length := by
        have := List.length_pos_iff.mpr hrs
        omega
      unfold parallel
      rw [if_neg (by simpa using hrs)]
      refine ensures_lift_bind fun pick _ => ?_
      have hplace : (pick.emod rs.length).toNat < rs.length := by
        have hlo := Int.emod_nonneg pick (ne_of_gt hn)
        have hhi := Int.emod_lt_of_pos pick hn
        change (pick % rs.length).toNat < rs.length
        omega
      rw [List.getD_eq_getElem?_getD, List.getElem?_eq_getElem hplace, Option.getD_some]
      exact (h _ (List.getElem_mem hplace)).row _ span pos

/-! ## Repetition and order -/

/-- Rows gathered from a run of integers are one row, if each begins where the
one before ends. -/
theorem ensures_gatherFrom_row (hg : Spacing gap) {f : Int → Drawing σ (List Event)}
    (bound : Int → Rat) (h : ∀ c, (f c).Ensures (Row gap (bound c) (bound (c + 1)))) (count : Nat)
    (first : Int) :
    (gatherFrom f count first).Ensures (Row gap (bound first) (bound (first + count))) := by
  induction count generalizing first with
  | zero =>
      rw [Int.natCast_zero, add_zero]
      exact ensures_pure (hg.refl (bound first))
  | succ count ih =>
      refine (h first).bind fun events hevents => (ih (first + 1)).bind fun rest hrest =>
        ensures_pure (hg.append hevents ?_)
      have hcount : first + ((count + 1 : Nat) : Int) = first + 1 + count := by omega
      rw [hcount]
      exact hrest

/-- The slots of a repetition take in the span: the first begins no later, the
last ends no sooner. -/
theorem slots_cover {factor : Rat} (hfactor : 0 < factor) (cycle : Int) {span : Span}
    (pos : span.start < span.stop) :
    place factor cycle span ((cycle : Rat) * factor).floor ≤ span.start ∧
      span.stop ≤ place factor cycle span (((cycle + 1 : Int) : Rat) * factor).ceil := by
  have hmono : Monotone (place factor cycle span) := place_mono hfactor pos
  have hfirst := hmono (Rat.floor_le ((cycle : Rat) * factor))
  have hlast := hmono (Rat.le_ceil : ((cycle + 1 : Int) : Rat) * factor ≤ _)
  rw [place_first] at hfirst
  rw [Int.cast_add, Int.cast_one, place_last hfactor.ne'] at hlast
  exact ⟨hfirst, by exact_mod_cast hlast⟩

/-- What the span shows of a cycle is a row in what the span takes in of its
slot. -/
theorem ensures_shown_row (hg : Spacing gap) {factor : Rat} (hfactor : 0 < factor)
    {r : Rendering σ} (h : Fills gap r) (cycle : Int) {span : Span} (pos : span.start < span.stop)
    (c : Int) :
    (shown factor r cycle span c).Ensures
      (Row gap (span.nearest (place factor cycle span c))
        (span.nearest (place factor cycle span (c + 1 : Int)))) := by
  refine (h.row_wellCut c (slot_pos hfactor pos)).bind fun events hevents => ensures_pure ?_
  have hclip := hg.clip pos (fun e he => (hevents.2 e he).pos) hevents.1
  rwa [stop_slot, ← Int.cast_one, ← Int.cast_add] at hclip

/-- Cycles that are repeated follow each other, and what is clipped of a row is a
row. -/
theorem fills_repeated (hg : Spacing gap) {factor : Rat} (hfactor : 0 < factor) {r : Rendering σ}
    (h : Fills gap r) : Fills gap (repeated factor r) where
  confined := confined_repeated factor h.confined
  row cycle span pos := by
    obtain ⟨hfirst, hlast⟩ := slots_cover hfactor cycle pos
    have hcount : ((cycle : Rat) * factor).floor +
        (((((cycle + 1 : Int) : Rat) * factor).ceil - ((cycle : Rat) * factor).floor).toNat : Int) =
        (((cycle + 1 : Int) : Rat) * factor).ceil := by
      have hle := first_le_last (le_of_lt hfactor) cycle
      omega
    have hrow := ensures_gatherFrom_row hg
      (fun (c : Int) => span.nearest (place factor cycle span c))
      (ensures_shown_row hg hfactor h cycle pos)
      ((((cycle + 1 : Int) : Rat) * factor).ceil - ((cycle : Rat) * factor).floor).toNat
      ((cycle : Rat) * factor).floor
    simp only [hcount] at hrow
    rw [Span.nearest_of_le hfirst, Span.nearest_of_ge (le_of_lt pos) hlast] at hrow
    rw [repeated_eq_gatherFrom hfactor.ne']
    exact hrow

/-- A row backwards is a row. -/
theorem fills_reversed (hg : Spacing gap) {r : Rendering σ} (h : Fills gap r) :
    Fills gap (reversed r) where
  confined := confined_reversed h.confined
  row cycle span pos := by
    refine (h.row cycle span pos).bind fun events hevents => ensures_pure ?_
    have hrow := hg.reflected span hevents
    rwa [add_sub_cancel_right, add_sub_cancel_left] at hrow

/-- The second half of a palindrome begins where the first ends. -/
theorem fills_palindrome (hg : Spacing gap) {r : Rendering σ} (h : Fills gap r) :
    Fills gap (palindrome r) where
  confined := confined_palindrome h.confined
  row cycle span pos := by
    refine (h.row cycle _ (by simp only; linarith)).bind fun forward hforward =>
      (h.row cycle _ (by simp only; linarith)).bind fun backward hbackward => ensures_pure ?_
    have hrow := hg.reflected ⟨(span.start + span.stop) / 2, span.stop⟩ hbackward
    simp only [add_sub_cancel_right, add_sub_cancel_left] at hrow
    exact hg.append hforward hrow

/-! ## Single events -/

/-- The pieces of an event are a row in its active span. -/
theorem row_pieces (hg : Spacing gap) {parts : Int} (hparts : 1 ≤ parts) (e : Event)
    (events : List Event) (he : e.WellCut) (h : pieces parts e = .ok events) :
    Row gap e.active.start e.active.stop events := by
  obtain ⟨width, hwidth, hevents⟩ := bind_ok h
  rw [← Except.ok.inj hevents]
  have hp : (0 : Rat) < parts := by exact_mod_cast hparts
  have hlo := he.logical_start_le
  have hhi := he.le_logical_stop
  have hpos := he.pos
  have heq : width = e.logical.length / parts := by
    rw [divide_eq_ok (by omega)] at hwidth
    exact (Except.ok.inj hwidth).symm
  have hw : 0 < width := by
    rw [heq]
    exact div_pos (by unfold Span.length; linarith) hp
  have hend : e.logical.start + width * parts.toNat = e.logical.stop := by
    have hcast : ((parts.toNat : Nat) : Rat) = parts := by
      have : ((parts.toNat : Nat) : Int) = parts := Int.toNat_of_nonneg (by omega)
      exact_mod_cast this
    rw [hcast, heq, div_mul_cancel₀ _ (ne_of_gt hp), Span.length]
    ring
  have hgrid := hg.grid e.logical.start width
    (fun i => ⟨e.value, Span.step e.logical.start width i, some (i : Int), none⟩)
    (fun _ => rfl) parts.toNat
  have hclip := hg.clip hpos (fun e' he' => ?_) hgrid
  · rw [hend, Span.nearest_of_le hlo, Span.nearest_of_ge (le_of_lt hpos) hhi] at hclip
    exact hclip
  · obtain ⟨i, -, rfl⟩ := List.mem_map.mp he'
    simp only [Span.step]
    linarith

/-- Events of a row, each replaced by a row in its active span, are a row. -/
theorem ensures_gather_row (hg : Spacing gap) {f : Event → Drawing σ (List Event)} {a b : Rat}
    {events : List Event} (h : Row gap a b events)
    (hf : ∀ e ∈ events, (f e).Ensures (Row gap e.active.start e.active.stop)) :
    (gather f events).Ensures (Row gap a b) := by
  induction events generalizing a with
  | nil => exact ensures_pure h
  | cons e es ih =>
      refine (hf e List.mem_cons_self).bind fun pieces hpieces =>
        (ih h.2 fun e' he' => hf e' (List.mem_cons_of_mem e he')).bind fun rest hrest =>
          ensures_pure ?_
      exact hg.before h.1 (hg.append hpieces hrest)

/-- Events cut into pieces that are rows in their active spans. -/
theorem fills_chopped (hg : Spacing gap) {parts : Int}
    (hpieces : ∀ e events, e.WellCut → pieces parts e = .ok events →
      Row gap e.active.start e.active.stop events) {r : Rendering σ} (h : Fills gap r) :
    Fills gap (chopped parts r) where
  confined := confined_chopped parts h.confined
  row cycle _ pos := (h.row_wellCut cycle pos).bind fun _ hevents =>
    ensures_gather_row hg hevents.1 fun e he =>
      ensures_lift fun events hes => hpieces e events (hevents.2 e he) hes

/-- Mapping events one by one by a map that leaves their active spans. -/
theorem ensures_mapM_active {f : Event → Except Fault Event}
    (h : ∀ e e', f e = .ok e' → e'.active = e.active) (events : List Event) :
    (events.mapM fun e => (liftM (f e) : Drawing σ Event)).Ensures
      fun es => es.map (·.active) = events.map (·.active) := by
  induction events with
  | nil => exact ensures_pure rfl
  | cons e events ih =>
      rw [List.mapM_cons]
      refine ensures_lift_bind fun e' he' => ih.bind fun rest hrest => ensures_pure ?_
      rw [List.map_cons, List.map_cons, hrest, h e e' he']

/-- Arithmetic leaves a row as it is. -/
theorem fills_calculated (op : Operator) (operand : Value) {r : Rendering σ}
    (h : Fills gap r) : Fills gap (calculated op operand r) where
  confined := confined_calculated op operand h.confined
  row cycle span pos := (h.row cycle span pos).bind fun events hevents =>
    (ensures_mapM_active (fun _ _ he => (spans_of_computed he).1) events).mono fun _ hes =>
      (row_congr hes).mpr hevents

end Rendering

/-! ## Queries -/

namespace Performance

/-- What is found at a time are the events of its cycle that are active then. -/
theorem queryAt_eq_ok_iff {perf : Performance} {p : Pattern} {time : Value} {found : List Event} :
    perf.queryAt p time = .ok found ↔ ∃ t events, time.toTime = .ok t ∧
      perf.query p t.floor none = .ok events ∧
      found = events.filter (·.isActiveAt (t - t.floor)) := by
  constructor
  · intro h
    obtain ⟨t, ht, hrest⟩ := bind_ok h
    obtain ⟨events, hevents, hfound⟩ := bind_ok hrest
    exact ⟨t, events, ht, hevents, (Except.ok.inj hfound).symm⟩
  · rintro ⟨t, events, ht, hevents, rfl⟩
    unfold queryAt
    rw [ht]
    change (perf.query p t.floor none >>= fun events => _) = _
    rw [hevents]
    rfl

end Performance

end Ostinato
