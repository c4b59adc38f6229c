import Mathlib.Data.List.Forall2
import Mathlib.Logic.Function.Iterate
import Ostinato.Proofs.Number.Chances
import Ostinato.Proofs.Rendering.Contexts
import Ostinato.Proofs.Rendering.Gathering

/-!
# Ostinato.Proofs.Rendering.Thinning

Dropping more events at random.

There is one draw for each event, whatever comes of it.  So a greater chance drops
more of the same events and leaves the draws in the same state (`Drawing.Thins`),
and what goes on after it does so with the same draws.
-/

namespace Ostinato

variable {σ α : Type}

/-! ## Fewer events from the same draws -/

namespace Drawing

/-- Of whatever a computation yields, another yields some, and it leaves the draws in
the same state. -/
def Thins (m m' : Drawing σ (List Event)) : Prop :=
  ∀ state events state', m state = .ok (events, state') →
    ∃ fewer, m' state = .ok (fewer, state') ∧ fewer.Sublist events

/-- After a computation that yields a result, the rest goes on from it. -/
theorem bind_of_eq_ok {β : Type} {m : Drawing σ α} {state state' : σ} {a : α}
    (h : m state = .ok (a, state')) (f : α → Drawing σ β) : (m >>= f) state = f a state' := by
  change (m state >>= fun p => f p.1 p.2) = f a state'
  rw [h]
  rfl

/-- A computation yields all of its own events. -/
theorem thins_refl (m : Drawing σ (List Event)) : m.Thins m :=
  fun _ events _ h => ⟨events, h, .refl events⟩

/-- Fewer events are yielded right away. -/
theorem thins_pure {events fewer : List Event} (h : fewer.Sublist events) :
    (pure events : Drawing σ (List Event)).Thins (pure fewer) := by
  intro state result state' hresult
  obtain ⟨rfl, rfl⟩ := Prod.mk.inj (Except.ok.inj hresult)
  exact ⟨fewer, rfl, h⟩

/-- What goes on from fewer events, with the same draws, yields fewer. -/
theorem Thins.bind {m m' : Drawing σ (List Event)} {f f' : List Event → Drawing σ (List Event)}
    (hm : m.Thins m')
    (hf : ∀ events fewer, fewer.Sublist events → (f events).Thins (f' fewer)) :
    (m >>= f).Thins (m' >>= f') := by
  intro state result state'' h
  obtain ⟨events, state', hevents, hresult⟩ := bind_eq_ok h
  obtain ⟨fewer, hfewer, hsub⟩ := hm state events state' hevents
  rw [bind_of_eq_ok hfewer]
  exact hf events fewer hsub state' result state'' hresult

/-- What comes before is the same. -/
theorem thins_bind (m : Drawing σ α) {f f' : α → Drawing σ (List Event)}
    (hf : ∀ a, (f a).Thins (f' a)) : (m >>= f).Thins (m >>= f') := by
  intro state result state'' h
  obtain ⟨a, state', ha, hresult⟩ := bind_eq_ok h
  rw [bind_of_eq_ok ha]
  exact hf a state' result state'' hresult

/-- Of two computations in a row, each may yield fewer. -/
theorem Thins.append {m m' n n' : Drawing σ (List Event)} (hm : m.Thins m') (hn : n.Thins n') :
    (do
      let events ← m
      let rest ← n
      pure (events ++ rest)).Thins (do
      let events ← m'
      let rest ← n'
      pure (events ++ rest)) :=
  hm.bind fun _ _ hsub => hn.bind fun _ _ hsub' => thins_pure (hsub.append hsub')

/-- A map that keeps sublists. -/
theorem Thins.map {m m' : Drawing σ (List Event)} (hm : m.Thins m') {F : List Event → List Event}
    (hF : ∀ events fewer, fewer.Sublist events → (F fewer).Sublist (F events)) :
    (do
      let events ← m
      pure (F events)).Thins (do
      let events ← m'
      pure (F events)) :=
  hm.bind fun events fewer hsub => thins_pure (hF events fewer hsub)

end Drawing

namespace Rendering

open Drawing Event

/-- A rendering that plays some of the events of another, from the same draws. -/
def Thins (r r' : Rendering σ) : Prop := ∀ cycle span, (r cycle span).Thins (r' cycle span)

variable {r r' : Rendering σ} {rs rs' : List (Rendering σ)}

theorem Thins.refl (r : Rendering σ) : r.Thins r := fun _ _ => thins_refl _

/-- Of renderings in a row, one may play fewer events. -/
theorem forall₂_beside (before after : List (Rendering σ)) (h : r.Thins r') :
    List.Forall₂ Thins (before ++ r :: after) (before ++ r' :: after) :=
  List.rel_append (List.forall₂_same.mpr fun r _ => .refl r)
    (.cons h (List.forall₂_same.mpr fun r _ => .refl r))

/-! ### Groups -/

/-- Slots in a row play fewer events if each rendering does. -/
theorem thins_slots (h : List.Forall₂ Thins rs rs') (cycle : Int) (start width : Rat)
    (count : Nat) :
    (slots cycle start width count rs).Thins (slots cycle start width count rs') := by
  induction h generalizing count with
  | nil => exact thins_refl _
  | cons hr _ ih => exact (hr cycle _).append (ih (count + 1))

/-- A sequence plays fewer events if each child does. -/
theorem thins_sequence (h : List.Forall₂ Thins rs rs') : (sequence rs).Thins (sequence rs') := by
  intro cycle span
  rw [sequence, sequence, h.length_eq]
  exact thins_slots h cycle _ _ 0

/-- Children that take turns play fewer events if each does: the choice is the same. -/
theorem thins_parallel (choose : Int → Int → Except Fault Int) (h : List.Forall₂ Thins rs rs') :
    (parallel choose rs).Thins (parallel choose rs') := by
  intro cycle span
  have hpick : ∀ i : Nat, (rs.getD i fun _ _ => pure []).Thins (rs'.getD i fun _ _ => pure []) := by
    clear cycle span
    induction h with
    | nil => exact fun _ => .refl _
    | cons hr _ ih =>
      intro i
      cases i with
      | zero => exact hr
      | succ i => exact ih i
  cases h with
  | nil => exact thins_refl _
  | cons hr h =>
    simp only [parallel, List.isEmpty_cons, Bool.false_eq_true, if_false, List.length_cons,
      h.length_eq]
    exact thins_bind _ fun pick => hpick _ _ _

/-- A rhythm plays fewer events if its subject does. -/
theorem thins_euclidean (steps pulses rotation : Int) (h : r.Thins r') :
    (euclidean steps pulses rotation r).Thins (euclidean steps pulses rotation r') := by
  intro cycle span
  refine thins_bind _ fun width => thins_bind _ fun mask => thins_slots ?_ cycle _ _ 0
  rw [List.forall₂_map_left_iff, List.forall₂_map_right_iff, List.forall₂_same]
  intro hit _
  cases hit with
  | true => exact h
  | false => exact .refl _

/-! ### Repetition and order -/

/-- A repetition plays fewer events if its subject does: clipping goes event by
event. -/
theorem thins_repeated (factor : Rat) (h : r.Thins r') :
    (repeated factor r).Thins (repeated factor r') := by
  intro cycle span
  by_cases hfactor : factor = 0
  · simpa only [repeated, hfactor, if_true] using thins_refl _
  · rw [repeated_eq_gatherFrom hfactor, repeated_eq_gatherFrom hfactor]
    have hshown : ∀ c, (shown factor r cycle span c).Thins (shown factor r' cycle span c) :=
      fun c => (h c _).map fun _ _ hsub => hsub.filterMap _
    generalize (((cycle + 1 : Int) : Rat) * factor).ceil - (cycle * factor : Rat).floor = count
    generalize (cycle * factor : Rat).floor = first
    induction count.toNat generalizing first with
    | zero => exact thins_refl _
    | succ count ih => exact (hshown first).append (ih (first + 1))

/-- Reflecting fewer events gives fewer. -/
theorem reflected_sublist (span : Span) {events fewer : List Event} (h : fewer.Sublist events) :
    (reflected span fewer).Sublist (reflected span events) := h.reverse.map _

/-- Playing backwards plays fewer events if its subject does. -/
theorem thins_reversed (h : r.Thins r') : (reversed r).Thins (reversed r') :=
  fun cycle span => (h cycle span).map fun _ _ hsub => reflected_sublist span hsub

/-- So does a palindrome. -/
theorem thins_palindrome (h : r.Thins r') : (palindrome r).Thins (palindrome r') := by
  intro cycle span
  refine (h cycle _).bind fun _ _ hsub => (h cycle _).bind fun _ _ hsub' => thins_pure ?_
  exact hsub.append (reflected_sublist _ hsub')

/-! ### Single events -/

/-- What is made of each event without a draw is made of some of them as well. -/
theorem thins_gather (f : Event → Except Fault (List Event)) {events fewer : List Event}
    (h : fewer.Sublist events) :
    (gather (fun e => (liftM (f e) : Drawing σ _)) events).Thins
      (gather (fun e => liftM (f e)) fewer) := by
  induction h with
  | slnil => exact thins_refl _
  | cons e _ ih =>
    rw [gather]
    cases f e with
    | error fault => exact fun _ _ _ h => nomatch h
    | ok found =>
      rw [lift_ok_bind]
      intro state result state' hresult
      obtain ⟨rest, middle, hrest, hjoined⟩ := bind_eq_ok hresult
      obtain ⟨rfl, rfl⟩ := Prod.mk.inj (Except.ok.inj hjoined)
      obtain ⟨fewer, hfewer, hsub⟩ := ih state rest middle hrest
      exact ⟨fewer, hfewer, hsub.trans (List.sublist_append_right found rest)⟩
  | cons_cons e _ ih => exact (thins_refl _).append ih

/-- Going through a list of events gathers one event for each. -/
theorem mapM_eq_gather (f : Event → Except Fault Event) (events : List Event) :
    (events.mapM fun e => (liftM (f e) : Drawing σ Event)) =
      gather (fun e => liftM ((fun e' => [e']) <$> f e)) events := by
  induction events with
  | nil => rfl
  | cons e es ih =>
    rw [List.mapM_cons, gather, ih]
    cases f e <;> rfl

/-- Chopping plays fewer events if its subject does. -/
theorem thins_chopped (parts : Int) (h : r.Thins r') : (chopped parts r).Thins (chopped parts r') :=
  fun cycle span => (h cycle span).bind fun _ _ hsub => thins_gather _ hsub

/-- What is computed event by event is computed for fewer events, and fails for none
that did not fail before. -/
theorem thins_mapM (f : Event → Except Fault Event) {events fewer : List Event}
    (h : fewer.Sublist events) :
    (events.mapM fun e => (liftM (f e) : Drawing σ Event)).Thins
      (fewer.mapM fun e => liftM (f e)) := by
  rw [mapM_eq_gather, mapM_eq_gather]
  exact thins_gather _ h

/-- Whatever goes on around a place where events are dropped, except for dropping
events, drops no others and draws as often. -/
theorem surrounding_thins (s : Setting σ) : s.Surrounding .lossless Thins where
  decided _ _ _ h := fun cycle span => thins_bind _ fun i => h i cycle span
  drawn _ _ _ h := fun cycle span => thins_bind _ fun x => h x cycle span
  failed _ := .refl _
  repeated factor _ _ h := thins_repeated factor h
  reversed _ _ h := thins_reversed h
  palindrome _ _ h := thins_palindrome h
  chopped parts _ _ h := thins_chopped parts h
  degraded allowed := absurd rfl allowed
  sequence before after _ _ h := thins_sequence (forall₂_beside before after h)
  parallel before after _ _ h := thins_parallel s.choose (forall₂_beside before after h)
  euclidean steps pulses rotation _ _ h := thins_euclidean steps pulses rotation h
  calculated _ _ _ _ h := fun cycle span => (h cycle span).bind fun _ _ hsub => thins_mapM _ hsub
  modulated _ _ _ _ _ h := fun cycle span =>
    (h cycle span).bind fun _ _ hsub => thins_mapM _ hsub

/-! ## Chances -/

/-- A chance that fewer draws reach keeps fewer events. -/
theorem thins_degraded (draw : σ → Rat × σ) {x y : Float}
    (h : ∀ t, (Number.float y).lessOrSame (.ratio t) = true →
      (Number.float x).lessOrSame (.ratio t) = true) (r : Rendering σ) :
    (degraded draw x r).Thins (degraded draw y r) := by
  intro cycle span
  refine thins_bind _ fun events => ?_
  induction events with
  | nil => exact thins_refl _
  | cons e events ih =>
    refine thins_bind _ fun t => ih.bind fun rest fewer hsub => thins_pure ?_
    cases hkept : (Number.float y).lessOrSame (.ratio t) with
    | true => simpa only [h t hkept, if_true] using hsub.cons_cons e
    | false =>
      simp only [Bool.false_eq_true, if_false]
      split
      · exact hsub.cons e
      · exact hsub

/-- The subject, and a draw for each of its events, after which all of them are kept
or none. -/
def spent (draw : σ → Rat × σ) (keep : Bool) (subject : Rendering σ) : Rendering σ :=
  fun cycle span => do
    let events ← subject cycle span
    modify (fun state => (draw state).2)^[events.length]
    pure (if keep then events else [])

/-- A chance that all draws reach, or none, does not drop at random. -/
theorem degraded_eq_spent {draw : σ → Rat × σ} {x : Float} {keep : Bool}
    (h : ∀ state, (Number.float x).lessOrSame (.ratio (draw state).1) = keep) (r : Rendering σ) :
    degraded draw x r = spent draw keep r := by
  funext cycle span
  refine bind_congr fun events => ?_
  funext state
  induction events generalizing state with
  | nil => cases keep <;> rfl
  | cons e events ih =>
    have hrest : thin draw x events (draw state).2 = .ok (if keep then events else [],
        (fun state => (draw state).2)^[events.length] (draw state).2) := ih (draw state).2
    change (thin draw x events (draw state).2 >>= _) = _
    rw [hrest]
    change Except.ok (if (Number.float x).lessOrSame (.ratio (draw state).1) = true then
      e :: (if keep = true then events else []) else if keep = true then events else [], _) = _
    rw [h state]
    cases keep <;> rfl

end Rendering

end Ostinato
