import Ostinato.Proofs.Rendering.Confinement
import Ostinato.Proofs.Rendering.Gathering

/-!
# Ostinato.Proofs.Rendering.Values

Values do not matter for time.

1. Nothing that lays events out looks at their values.  So replacing the values of
   all events of a rendering goes through every construct but arithmetic
   (`Rendering.revalued_sequence` and the like), with the same draws and the same
   faults, and through every transform (`Rendering.revalued_applyNamed`).
2. Therefore what holds of the values of a pattern's leaves holds of the values
   that transforms of the pattern play (`Rendering.playing_applyNamed`).
3. Arithmetic with an integer on a pattern whose numbers are integers is such a
   replacement, and may be moved inside (`Performance.query_under`).
-/

namespace Ostinato

variable {σ α β γ : Type}

/-! ## Events -/

namespace Event

/-- The event with another value. -/
def revalue (f : Value → Value) (e : Event) : Event := { e with value := f e.value }

variable (f : Value → Value)

/-- Trimming an event does not look at its value. -/
theorem trim_revalue (e : Event) (span : Span) :
    (e.revalue f).trim span = (e.trim span).revalue f := by
  unfold trim
  rw [apply_ite (revalue f)]
  rfl

/-- Clipping an event does not look at its value. -/
theorem clip?_revalue (e : Event) (span : Span) :
    (e.revalue f).clip? span = (e.clip? span).map (revalue f) := by
  simp only [clip?, trim_revalue, apply_ite (Option.map (revalue f)), Option.map_some,
    Option.map_none]
  rfl

/-- Nor does clipping many. -/
theorem clip_map_revalue (span : Span) (events : List Event) :
    clip span (events.map (revalue f)) = (clip span events).map (revalue f) := by
  rw [clip, clip, List.filterMap_map, List.map_filterMap]
  exact List.filterMap_congr fun e _ => clip?_revalue f e span

/-- Reflecting events does not look at their values. -/
theorem reflected_map_revalue (span : Span) (events : List Event) :
    reflected span (events.map (revalue f)) = (reflected span events).map (revalue f) := by
  rw [reflected, reflected, ← List.map_reverse, List.map_map, List.map_map]
  rfl

/-- Whether events overlap an arc does not depend on their values. -/
theorem filter_overlaps_map_revalue (low high : Rat) (events : List Event) :
    (events.map (revalue f)).filter (·.overlaps low high) =
      (events.filter (·.overlaps low high)).map (revalue f) := by
  rw [List.filter_map]
  rfl

end Event

/-! ## Renderings -/

namespace Drawing

theorem liftM_map (F : α → β) (outcome : Except Fault α) :
    (liftM (F <$> outcome) : Drawing σ β) = F <$> liftM outcome := by
  cases outcome <;> rfl

/-- A map of the results of a mapping goes inside. -/
theorem map_mapM (F : β → γ) (g : α → Drawing σ β) (as : List α) :
    List.map F <$> as.mapM g = as.mapM fun a => F <$> g a := by
  induction as with
  | nil => simp
  | cons a as ih =>
    rw [List.mapM_cons, List.mapM_cons, ← ih]
    simp only [map_bind, map_pure, bind_map_left, List.map_cons]

end Drawing

namespace Rendering

open Drawing Event

/-- The rendering with the values of all its events replaced. -/
def revalued (f : Value → Value) (r : Rendering σ) : Rendering σ := fun cycle span =>
  List.map (revalue f) <$> r cycle span

variable (f : Value → Value)

/-! ### Groups -/

/-- The values of slots in a row are replaced in each of them. -/
theorem revalued_slots (cycle : Int) (start width : Rat) (rs : List (Rendering σ)) (count : Nat) :
    List.map (revalue f) <$> slots cycle start width count rs =
      slots cycle start width count (rs.map (revalued f)) := by
  induction rs generalizing count with
  | nil => simp [slots]
  | cons r rs ih =>
    rw [List.map_cons, slots, slots, ← ih, revalued]
    simp only [map_bind, map_pure, bind_map_left, List.map_append]

/-- Replacing the values of a sequence replaces those of its children. -/
theorem revalued_sequence (rs : List (Rendering σ)) :
    revalued f (sequence rs) = sequence (rs.map (revalued f)) := by
  funext cycle span
  rw [revalued, sequence, sequence, revalued_slots, List.length_map]

/-- The values of children that take turns are replaced in the one that is chosen. -/
theorem revalued_parallel (choose : Int → Int → Except Fault Int) (rs : List (Rendering σ)) :
    revalued f (parallel choose rs) = parallel choose (rs.map (revalued f)) := by
  funext cycle span
  have hpick : ∀ (i : Nat) (c : Int), (rs.map (revalued f)).getD i (fun _ _ => pure []) c span =
      List.map (revalue f) <$> rs.getD i (fun _ _ => pure []) c span := by
    intro i c
    rw [List.getD_eq_getElem?_getD, List.getD_eq_getElem?_getD, List.getElem?_map]
    cases rs[i]? with
    | none => simp
    | some r => rfl
  simp only [revalued, parallel, List.isEmpty_map, List.length_map, hpick]
  split
  · simp
  · simp only [map_bind]

/-- The values of a rhythm are those of its subject. -/
theorem revalued_euclidean (steps pulses rotation : Int) (r : Rendering σ) :
    revalued f (euclidean steps pulses rotation r) =
      euclidean steps pulses rotation (revalued f r) := by
  funext cycle span
  have hrest : revalued f (fun _ _ => pure [] : Rendering σ) = fun _ _ => pure [] := by
    funext cycle span
    simp [revalued]
  simp only [revalued, euclidean, map_bind, revalued_slots, List.map_map]
  refine bind_congr fun width => bind_congr fun mask => ?_
  congr 1
  refine List.map_congr_left fun hit _ => ?_
  cases hit with
  | true => rfl
  | false => exact hrest

/-! ### Repetition -/

/-- The values of a repetition are those of its subject. -/
theorem revalued_repeated (factor : Rat) (r : Rendering σ) :
    revalued f (repeated factor r) = repeated factor (revalued f r) := by
  funext cycle span
  by_cases hfactor : factor = 0
  · simp [revalued, repeated, hfactor]
  · have hshown : ∀ c, shown factor (revalued f r) cycle span c =
        List.map (revalue f) <$> shown factor r cycle span c := by
      intro c
      simp only [shown, revalued, map_bind, map_pure, bind_map_left, clip_map_revalue]
    have hgather := gatherFrom_map (F := List.map (revalue f)) rfl (fun _ _ => List.map_append)
      (shown factor r cycle span)
    simp only [bind_pure_comp] at hgather
    rw [revalued, repeated_eq_gatherFrom hfactor, repeated_eq_gatherFrom hfactor, hgather,
      ← funext hshown]

/-! ### Single events -/

/-- Playing backwards leaves values as they are. -/
theorem revalued_reversed (r : Rendering σ) :
    revalued f (reversed r) = reversed (revalued f r) := by
  funext cycle span
  simp only [revalued, reversed, map_bind, map_pure, bind_map_left, reflected_map_revalue]

/-- So does a palindrome. -/
theorem revalued_palindrome (r : Rendering σ) :
    revalued f (palindrome r) = palindrome (revalued f r) := by
  funext cycle span
  simp only [revalued, palindrome, map_bind, map_pure, bind_map_left, reflected_map_revalue,
    List.map_append]

/-- Pieces of an event have its value. -/
theorem pieces_revalue (parts : Int) (e : Event) :
    pieces parts (e.revalue f) = List.map (revalue f) <$> pieces parts e := by
  unfold pieces
  rw [map_bind]
  refine bind_congr fun width => ?_
  rw [map_pure, ← clip_map_revalue, List.map_map]
  rfl

/-- Chopping leaves values as they are. -/
theorem revalued_chopped (parts : Int) (r : Rendering σ) :
    revalued f (chopped parts r) = chopped parts (revalued f r) := by
  funext cycle span
  have hgather : ∀ events : List Event,
      List.map (revalue f) <$> gather (fun e => (liftM (pieces parts e) : Drawing σ _)) events =
        gather (fun e => liftM (pieces parts e)) (events.map (revalue f)) := by
    intro events
    induction events with
    | nil => simp [gather]
    | cons e es ih =>
      rw [List.map_cons, gather, gather, ← ih, pieces_revalue, Drawing.liftM_map]
      simp only [map_bind, map_pure, bind_map_left, List.map_append]
  simp only [revalued, chopped, map_bind, bind_map_left, hgather]

/-- Which events are dropped does not depend on their values. -/
theorem revalued_degraded (draw : σ → Rat × σ) (probability : Float) (r : Rendering σ) :
    revalued f (degraded draw probability r) = degraded draw probability (revalued f r) := by
  funext cycle span
  have hthin : ∀ events : List Event,
      List.map (revalue f) <$> thin draw probability events =
        thin draw probability (events.map (revalue f)) := by
    intro events
    induction events with
    | nil => simp [thin]
    | cons e es ih =>
      rw [List.map_cons, thin, thin, ← ih]
      simp only [map_bind, map_pure, bind_map_left, apply_ite (List.map (revalue f)), List.map_cons]
  simp only [revalued, degraded, map_bind, bind_map_left, hthin]

/-- How far an event is slid does not depend on its value. -/
theorem slid_revalue (amount rate : Value) (cycle : Int) (span : Span) (e : Event) :
    slid amount rate cycle span (e.revalue f) = revalue f <$> slid amount rate cycle span e := by
  unfold slid
  simp only [map_bind]
  rfl

/-- So waves leave values as they are. -/
theorem revalued_modulated (amount rate : Value) (r : Rendering σ) :
    revalued f (modulated amount rate r) = modulated amount rate (revalued f r) := by
  funext cycle span
  simp only [revalued, modulated, map_bind, bind_map_left, Drawing.map_mapM, List.mapM_map,
    Function.comp_def, slid_revalue, Drawing.liftM_map]

/-! ### Transforms -/

/-- Every transform leaves values as they are, whatever it does to the time of
events. -/
theorem acting_revalued (s : Setting σ) : s.Acting .full fun r r' => r' = revalued f r where
  decided g r r' h := by
    obtain rfl : r' = fun i => revalued f (r i) := funext h
    funext cycle span
    simp only [revalued, map_bind]
  drawn _ r r' h := by
    obtain rfl : r' = fun x => revalued f (r x) := funext h
    funext cycle span
    simp only [revalued, map_bind]
  failed _ := rfl
  repeated factor := by
    rintro r _ rfl
    exact (revalued_repeated f factor r).symm
  reversed := by
    rintro r _ rfl
    exact (revalued_reversed f r).symm
  palindrome := by
    rintro r _ rfl
    exact (revalued_palindrome f r).symm
  chopped parts := by
    rintro r _ rfl
    exact (revalued_chopped f parts r).symm
  degraded _ probability := by
    rintro r _ rfl
    exact (revalued_degraded f s.draw probability r).symm

/-- Replacing values goes through every transform. -/
theorem revalued_applyNamed (s : Setting σ) (name : String) (operands : List Value)
    (r : Rendering σ) :
    revalued f (s.applyNamed name operands (s.lastCalled operands) r) =
      s.applyNamed name operands (s.lastCalled operands) (revalued f r) :=
  have h := acting_revalued f s
  (h.applyNamed (fun _ _ => trivial) operands
    (h.lastCalled rfl operands (Value.lastWithin_full _ operands)) rfl).symm

/-! ## Values that are played -/

/-- A rendering plays values with a property only. -/
def Playing (P : Value → Prop) (r : Rendering σ) : Prop :=
  ∀ cycle span, (r cycle span).Ensures fun events => ∀ e ∈ events, P e.value

/-- After values are replaced, all of them are replacements. -/
theorem playing_revalued {P : Value → Prop} {f : Value → Value} (hf : ∀ v, P (f v))
    (r : Rendering σ) : Playing P (revalued f r) := by
  intro cycle span
  rw [revalued, map_eq_pure_bind]
  refine (ensures_true _).bind fun events _ => ensures_pure fun e he => ?_
  obtain ⟨e', -, rfl⟩ := List.mem_map.mp he
  exact hf e'.value

section Playing

variable {P : Value → Prop} [DecidablePred P] {v₀ : Value} {r : Rendering σ}
  {rs : List (Rendering σ)}

/-- A rendering plays values with a property only if nothing changes when another
value with the property takes the place of all those without. -/
theorem playing_iff (h₀ : P v₀) :
    Playing P r ↔ revalued (fun v => if P v then v else v₀) r = r := by
  constructor
  · intro h
    funext cycle span
    have hmap : ∀ events : List Event, (∀ e ∈ events, P e.value) →
        (pure (events.map (revalue fun v => if P v then v else v₀)) : Drawing σ (List Event)) =
          pure events := by
      intro events hevents
      rw [List.map_congr_left fun e he => ?_, List.map_id]
      simp [revalue, hevents e he]
    rw [revalued, map_eq_pure_bind, (h cycle span).bind_congr hmap, bind_pure]
  · intro h
    rw [← h]
    refine playing_revalued (fun v => ?_) r
    by_cases hv : P v
    · rwa [if_pos hv]
    · rwa [if_neg hv]

/-- A sequence plays the values of its children. -/
theorem playing_sequence (h₀ : P v₀) (h : ∀ r ∈ rs, Playing P r) : Playing P (sequence rs) := by
  simp only [playing_iff h₀] at h ⊢
  rw [revalued_sequence, List.map_congr_left h, List.map_id']

/-- Children that take turns play their own values. -/
theorem playing_parallel (h₀ : P v₀) (choose : Int → Int → Except Fault Int)
    (h : ∀ r ∈ rs, Playing P r) : Playing P (parallel choose rs) := by
  simp only [playing_iff h₀] at h ⊢
  rw [revalued_parallel, List.map_congr_left h, List.map_id']

/-- A rhythm plays the values of its subject. -/
theorem playing_euclidean (h₀ : P v₀) (steps pulses rotation : Int) (h : Playing P r) :
    Playing P (euclidean steps pulses rotation r) := by
  rw [playing_iff h₀] at h ⊢
  rw [revalued_euclidean, h]

/-- So does a repetition. -/
theorem playing_repeated (h₀ : P v₀) (factor : Rat) (h : Playing P r) :
    Playing P (repeated factor r) := by
  rw [playing_iff h₀] at h ⊢
  rw [revalued_repeated, h]

/-- So does a wave. -/
theorem playing_modulated (h₀ : P v₀) (amount rate : Value) (h : Playing P r) :
    Playing P (modulated amount rate r) := by
  rw [playing_iff h₀] at h ⊢
  rw [revalued_modulated, h]

/-- So does a transform under any name. -/
theorem playing_applyNamed (h₀ : P v₀) (s : Setting σ) (name : String) (operands : List Value)
    (h : Playing P r) : Playing P (s.applyNamed name operands (s.lastCalled operands) r) := by
  rw [playing_iff h₀] at h ⊢
  rw [revalued_applyNamed, h]

end Playing

end Rendering

/-! ## Arithmetic with integers -/

namespace Value

/-- Whether a value is an integer if it is a number at all. -/
def Integral : Value → Prop
  | number (.int _) => True
  | number _ => False
  | _ => True

instance : DecidablePred Integral
  | number (.int _) => .isTrue trivial
  | number (.float _) | number (.ratio _) => .isFalse id
  | text _ | flag _ | nothing | tuple _ | call .. | pattern _ => .isTrue trivial

/-- A value that is an integer or no number is one of the two. -/
theorem Integral.int_or {v : Value} (h : v.Integral) : (∃ n, v = int n) ∨ v.isNumber = false := by
  cases v with
  | number x =>
    cases x with
    | int n => exact .inl ⟨n, rfl⟩
    | float x => exact h.elim
    | ratio q => exact h.elim
  | _ => exact .inr rfl

/-- What becomes of a value under an operator with an integer: integers are computed
with. -/
def reckoned (op : Operator) (k : Int) : Value → Value
  | number (.int n) => match op.onInt n k with
    | .ok m => int m
    | .error _ => int n
  | v => v

/-- Nothing is computed with a value that is no number. -/
theorem reckoned_of_not_number (op : Operator) (k : Int) {v : Value} (h : v.isNumber = false) :
    v.reckoned op k = v := by
  cases v with
  | number x => nomatch h
  | _ => rfl

end Value

namespace Rendering

open Event Drawing

variable {op : Operator} {k : Int} {r : Rendering σ}

/-- With an integer on both sides, the value of an event is computed exactly. -/
theorem computed_of_int {e : Event} {n : Int} (he : e.value = .int n) :
    computed op (.int k) e = (fun m => { e with value := .int m }) <$> op.onInt n k := by
  unfold computed
  rw [he]
  change (Value.number <$> (Number.int <$> op.onInt n k)) >>= _ = _
  cases op.onInt n k <;> rfl

/-- An event whose value is no number is left as it is. -/
theorem computed_of_not_number {e : Event} (he : e.value.isNumber = false) (v : Value) :
    computed op v e = .ok e := by
  unfold computed
  cases hvalue : e.value with
  | number x =>
    rw [hvalue] at he
    nomatch he
  | _ => rfl

/-- An operator with an integer replaces a value that is an integer or no number. -/
theorem computed_eq_revalue (hk : op = .modulo → k ≠ 0) {e : Event} (he : e.value.Integral) :
    computed op (.int k) e = .ok (e.revalue (Value.reckoned op k)) := by
  rcases he.int_or with ⟨n, hn⟩ | hother
  · obtain ⟨m, hm⟩ := Operator.onInt_ok (a := n) hk
    have hvalue : e.value.reckoned op k = .int m := by
      rw [hn, Value.int, Value.reckoned, hm]
    rw [computed_of_int hn, hm, revalue, hvalue]
    rfl
  · rw [computed_of_not_number hother, revalue, Value.reckoned_of_not_number op k hother]

/-- Arithmetic with an integer on integers gives integers, if anything. -/
theorem playing_calculated (op : Operator) (k : Int) (h : Playing Value.Integral r) :
    Playing Value.Integral (calculated op (.int k) r) := by
  intro cycle span
  refine (h cycle span).bind fun events hevents => (ensures_mapM _ events).mono fun es hes => ?_
  intro e' he'
  obtain ⟨e, he, hcomputed⟩ := hes e' he'
  rcases (hevents e he).int_or with ⟨n, hn⟩ | hother
  · rw [computed_of_int hn] at hcomputed
    cases hm : op.onInt n k with
    | error fault =>
      rw [hm] at hcomputed
      nomatch hcomputed
    | ok m =>
      rw [hm] at hcomputed
      rw [← Except.ok.inj hcomputed]
      trivial
  · rw [computed_of_not_number hother] at hcomputed
    rw [← Except.ok.inj hcomputed]
    exact hevents e he

/-- Arithmetic with an integer on integers only replaces values. -/
theorem calculated_eq_revalued (hk : op = .modulo → k ≠ 0) (h : Playing Value.Integral r) :
    calculated op (.int k) r = revalued (Value.reckoned op k) r := by
  funext cycle span
  rw [calculated, revalued, map_eq_pure_bind]
  refine (h cycle span).bind_congr fun events hevents => ?_
  induction events with
  | nil => rfl
  | cons e es ih =>
    rw [List.forall_mem_cons] at hevents
    rw [List.mapM_cons, ih hevents.2, computed_eq_revalue hk hevents.1]
    rfl

end Rendering

/-! ## Patterns -/

namespace Pattern

/-- Patterns in which all numbers of leaves, and all operands of arithmetic, are
integers. -/
inductive Integral : Pattern → Prop
  | leaf {v : Value} (value : v.Integral) : Integral (.leaf v)
  | sequence {ps : List Pattern} (children : ∀ p ∈ ps, Integral p) : Integral (.sequence ps)
  | parallel {ps : List Pattern} (children : ∀ p ∈ ps, Integral p) : Integral (.parallel ps)
  | transform {p : Pattern} (child : Integral p) (name : String) (operands : List Value) :
      Integral (.transform p name operands)
  | euclidean {p : Pattern} (steps pulses rotation : Int) (child : Integral p) :
      Integral (.euclidean steps pulses rotation p)
  | modulation {p : Pattern} (child : Integral p) (amount rate : Value) :
      Integral (.modulation p amount rate)
  | operation {p : Pattern} (child : Integral p) (sign : String) (k : Int) :
      Integral (.operation p sign (.int k))

open Drawing Rendering

/-- Renderings of patterns that play values with a property play such values. -/
theorem playing_renderAll {P : Value → Prop} {s : Setting σ} {ps : List Pattern}
    (h : ∀ p ∈ ps, Playing P (p.render s)) : ∀ r ∈ renderAll s ps, Playing P r := by
  intro r hr
  rw [renderAll_eq_map, List.mem_map] at hr
  obtain ⟨p, hp, rfl⟩ := hr
  exact h p hp

/-- A pattern of integers plays integers and what is no number. -/
theorem Integral.playing {p : Pattern} (h : p.Integral) (s : Setting σ) :
    Playing Value.Integral (p.render s) := by
  have h₀ : (Value.int 0).Integral := trivial
  induction h with
  | leaf value => exact fun _ _ => ensures_pure (List.forall_mem_singleton.mpr value)
  | sequence children ih => exact playing_sequence h₀ (playing_renderAll ih)
  | parallel children ih => exact playing_parallel h₀ s.choose (playing_renderAll ih)
  | transform child name operands ih => exact playing_applyNamed h₀ s name operands ih
  | euclidean steps pulses rotation child ih => exact playing_euclidean h₀ steps pulses rotation ih
  | modulation child amount rate ih => exact playing_modulated h₀ amount rate ih
  | @operation p child sign k ih =>
    rw [render]
    cases hrep : sign == Operator.times.sign && !p.isNumberLeaf with
    | true =>
      rw [Setting.operated_repeats hrep]
      exact playing_repeated h₀ k ih
    | false =>
      cases hop : Operator.ofSign? sign with
      | none =>
        rw [Setting.operated_fails hrep hop]
        exact fun _ _ => ensures_throw _
      | some op =>
        rw [Setting.operated_calculates hrep hop]
        exact playing_calculated op k ih

/-- The pattern under an operator with an integer. -/
def under (op : Operator) (k : Int) (p : Pattern) : Pattern := .operation p op.sign (.int k)

/-- A pattern of integers under an operator plays its events with the values
computed. -/
theorem render_under (s : Setting σ) {op : Operator} (hop : op ≠ .times) {k : Int}
    (hk : op = .modulo → k ≠ 0) {p : Pattern} (hp : p.Integral) :
    (p.under op k).render s = revalued (Value.reckoned op k) (p.render s) := by
  rw [under, render_operation hop, calculated_eq_revalued hk (hp.playing s)]

/-- So do patterns together. -/
theorem renderAll_under (s : Setting σ) {op : Operator} (hop : op ≠ .times) {k : Int}
    (hk : op = .modulo → k ≠ 0) {ps : List Pattern} (hps : ∀ p ∈ ps, p.Integral) :
    renderAll s (ps.map (under op k)) =
      (renderAll s ps).map (revalued (Value.reckoned op k)) := by
  rw [renderAll_eq_map, renderAll_eq_map, List.map_map, List.map_map]
  exact List.map_congr_left fun p hp => render_under s hop hk (hps p hp)

/-- A pattern that plays the same with other values is found with other values. -/
theorem eventsIn_revalued {s : Setting σ} {p q : Pattern} {f : Value → Value} {cycle : Int}
    (h : q.render s = revalued f (p.render s)) (state : σ) (arc : Option Arc) :
    q.eventsIn s state cycle arc = List.map (Event.revalue f) <$> p.eventsIn s state cycle arc := by
  have hrun : (q.render s cycle Span.cycle).run' state =
      List.map (Event.revalue f) <$> (p.render s cycle Span.cycle).run' state := by
    rw [h, revalued, StateT.run'_eq, StateT.run'_eq, StateT.run_map]
    simp only [Functor.map_map]
  have hsorted : ∀ events : List Event, Event.sortByStart (events.map (Event.revalue f)) =
      (Event.sortByStart events).map (Event.revalue f) := Event.sortByStart_map fun _ => rfl
  unfold eventsIn
  rw [hrun, bind_map_left, map_bind]
  refine bind_congr fun events => ?_
  cases arc with
  | none => rw [hsorted, map_pure]
  | some ends =>
    simp only [map_bind, map_pure, Event.filter_overlaps_map_revalue, hsorted]

end Pattern

/-! ## Queries -/

namespace Performance

open Pattern

/-- **Arithmetic moves inside**: addition, subtraction, and remainders by an integer
that is not zero, applied to a group, a rhythm, a slide or any transform of patterns
whose numbers are integers, are found as when they are applied to the children, with
the same draws and the same faults.  Of each event only the value changes, and only
if it is an integer. -/
theorem query_under (perf : Performance) {op : Operator} (hop : op ≠ .times) {k : Int}
    (hk : op = .modulo → k ≠ 0) (cycle : Int) (arc : Option Arc) :
    (∀ ps : List Pattern, (∀ p ∈ ps, p.Integral) →
      perf.query ((sequence ps).under op k) cycle arc =
        perf.query (sequence (ps.map (under op k))) cycle arc ∧
      perf.query ((parallel ps).under op k) cycle arc =
        perf.query (parallel (ps.map (under op k))) cycle arc) ∧
    ∀ p : Pattern, p.Integral →
      (∀ steps pulses rotation,
        perf.query ((euclidean steps pulses rotation p).under op k) cycle arc =
          perf.query (euclidean steps pulses rotation (p.under op k)) cycle arc) ∧
      (∀ amount rate,
        perf.query ((modulation p amount rate).under op k) cycle arc =
          perf.query (modulation (p.under op k) amount rate) cycle arc) ∧
      (∀ name operands,
        perf.query ((transform p name operands).under op k) cycle arc =
          perf.query (transform (p.under op k) name operands) cycle arc) ∧
      perf.query (p.under op k) cycle arc =
        List.map (Event.revalue (Value.reckoned op k)) <$> perf.query p cycle arc := by
  refine ⟨fun ps hps => ⟨?sequence, ?parallel⟩,
    fun p hp => ⟨fun steps pulses rotation => ?euclidean, fun amount rate => ?modulation,
      fun name operands => ?transform, ?values⟩⟩
  case sequence =>
    refine query_congr (fun policy _ => ?_) arc
    rw [render_under _ hop hk (.sequence hps), render, render, renderAll_under _ hop hk hps,
      Rendering.revalued_sequence]
  case parallel =>
    refine query_congr (fun policy _ => ?_) arc
    rw [render_under _ hop hk (.parallel hps), render, render, renderAll_under _ hop hk hps,
      Rendering.revalued_parallel]
  case euclidean =>
    refine query_congr (fun policy _ => ?_) arc
    rw [render_under _ hop hk (.euclidean _ _ _ hp), render, render, render_under _ hop hk hp,
      Rendering.revalued_euclidean]
  case modulation =>
    refine query_congr (fun policy _ => ?_) arc
    rw [render_under _ hop hk (.modulation hp _ _), render, render, render_under _ hop hk hp,
      Rendering.revalued_modulated]
  case transform =>
    refine query_congr (fun policy _ => ?_) arc
    rw [render_under _ hop hk (.transform hp _ _), render, render, render_under _ hop hk hp,
      Rendering.revalued_applyNamed]
  case values =>
    unfold query
    simp only [map_bind]
    exact bind_congr fun policy => bind_congr fun stream =>
      eventsIn_revalued (render_under _ hop hk hp) stream arc

/-- Remainders by four: of two integers and a name in a row, and of a thinned rhythm
of them that may be played backwards. -/
theorem query_under_remainder :
    let row := [leaf (.int 7), leaf (.text "a"), leaf (.int (-1))]
    let rhythm := transform (euclidean 5 3 1 (sequence row)) "sometimes" [.call "degrade" []]
    default.query ((sequence row).under .modulo 4) 0 none =
      default.query (sequence (row.map (under .modulo 4))) 0 none ∧
    (default.query ((sequence row).under .modulo 4) 0 none).toOption.map
      (List.map fun e => e.value.toInt.toOption) = some [some 3, none, some 3] ∧
    default.query ((transform rhythm "rev" []).under .modulo 4) (-2) none =
      default.query (transform (rhythm.under .modulo 4) "rev" []) (-2) none := by
  intro row rhythm
  have hrow : ∀ p ∈ row, p.Integral := by
    simp only [row, List.forall_mem_cons]
    exact ⟨.leaf trivial, .leaf trivial, .leaf trivial, List.forall_mem_nil _⟩
  have hrhythm : rhythm.Integral := .transform (.euclidean 5 3 1 (.sequence hrow)) _ _
  have hop : Operator.modulo ≠ .times := by decide
  have hk : Operator.modulo = .modulo → (4 : Int) ≠ 0 := fun _ => by decide
  exact ⟨((query_under default hop hk 0 none).1 row hrow).1, by decide +kernel,
    ((query_under default hop hk (-2) none).2 rhythm hrhythm).2.2.1 "rev" []⟩

end Performance

end Ostinato
