import Mathlib.Data.List.Forall2
import Ostinato.Rendering.Basic

/-!
# Ostinato.Proofs.Rendering.Drawing

What holds of the result of a computation that draws and may fail.

`m.Ensures P` says that whatever `m` yields, from any state of the draws,
satisfies `P`.  It says nothing of a computation that fails.  There is one
rule for each way in which computations are put together; the rules for
`gather`, `slots` and the like name the part that a result comes from.
-/

namespace Ostinato

variable {σ α β : Type}

/-- Peels one step off a computation that does not draw. -/
theorem bind_ok {outcome : Except Fault α} {f : α → Except Fault β} {b : β}
    (h : (outcome >>= f) = .ok b) : ∃ a, outcome = .ok a ∧ f a = .ok b := by
  cases outcome with
  | error fault => nomatch h
  | ok a => exact ⟨a, rfl, h⟩

/-- What is read off a computation is read off its result. -/
theorem ok_of_toOption_map {ε : Type} {outcome : Except ε α} {f : α → β} {b : β}
    (h : outcome.toOption.map f = some b) : ∃ a, outcome = .ok a ∧ f a = b := by
  cases outcome with
  | error fault => nomatch h
  | ok a => exact ⟨a, rfl, Option.some.inj h⟩

/-- An outcome that holds a result is that result. -/
theorem ok_of_isSome {outcome : Except Fault α} (h : outcome.toOption.isSome) :
    ∃ a, outcome = .ok a := by
  cases outcome with
  | error fault => nomatch h
  | ok a => exact ⟨a, rfl⟩

/-- The fault that a computation ended with. -/
def fault? {ε : Type} : Except ε α → Option ε
  | .ok _ => none
  | .error fault => some fault

/-- The fault of a computation is the one it failed with. -/
theorem fault?_eq_some {ε : Type} {outcome : Except ε α} {fault : ε} :
    fault? outcome = some fault ↔ outcome = .error fault := by
  cases outcome <;> simp [fault?]

/-- The results of a mapping are those of the items, in order. -/
theorem forall₂_of_mapM {f : α → Except Fault β} {as : List α} {bs : List β}
    (h : as.mapM f = .ok bs) : List.Forall₂ (fun a b => f a = .ok b) as bs := by
  induction as generalizing bs with
  | nil =>
      have hnil : [] = bs := Except.ok.inj h
      rw [← hnil]
      exact List.Forall₂.nil
  | cons a as ih =>
      rw [List.mapM_cons] at h
      obtain ⟨b, hb, hrest⟩ := bind_ok h
      obtain ⟨bs', hbs', hcons⟩ := bind_ok hrest
      rw [← Except.ok.inj hcons]
      exact List.Forall₂.cons hb (ih hbs')

namespace Drawing

/-- Whatever a computation yields satisfies `P`. -/
def Ensures (m : Drawing σ α) (P : α → Prop) : Prop :=
  ∀ state a state', m state = .ok (a, state') → P a

/-! ## The monad -/

/-- What is yielded right away satisfies what holds of it. -/
theorem ensures_pure {P : α → Prop} {a : α} (h : P a) : (pure a : Drawing σ α).Ensures P := by
  intro state b state' hb
  have hpair : (a, state) = (b, state') := Except.ok.inj hb
  have hab : a = b := congrArg Prod.fst hpair
  rw [← hab]
  exact h

/-- A computation that fails yields nothing. -/
theorem ensures_throw {P : α → Prop} (fault : Fault) :
    (throw fault : Drawing σ α).Ensures P := by
  intro state b state' hb
  nomatch hb

/-- Going on with something that does not draw and succeeds. -/
theorem lift_ok_bind (a : α) (f : α → Drawing σ β) :
    ((liftM (Except.ok a : Except Fault α) : Drawing σ α) >>= f) = f a := rfl

/-- Running one computation after another. -/
theorem bind_eq_ok {m : Drawing σ α} {f : α → Drawing σ β} {state state'' : σ} {b : β}
    (h : (m >>= f) state = .ok (b, state'')) :
    ∃ a state', m state = .ok (a, state') ∧ f a state' = .ok (b, state'') := by
  change (m state >>= fun p => f p.1 p.2) = .ok (b, state'') at h
  cases hm : m state with
  | error fault => rw [hm] at h; nomatch h
  | ok p => rw [hm] at h; exact ⟨p.1, p.2, rfl, h⟩

/-- What goes on after a computation may rely on what the first part ensures. -/
theorem Ensures.bind {m : Drawing σ α} {f : α → Drawing σ β} {P : α → Prop} {Q : β → Prop}
    (hm : m.Ensures P) (hf : ∀ a, P a → (f a).Ensures Q) : (m >>= f).Ensures Q := by
  intro state b state'' h
  obtain ⟨a, state', ha, hb⟩ := bind_eq_ok h
  exact hf a (hm _ _ _ ha) _ _ _ hb

/-- What follows a computation matters only for what it may yield. -/
theorem Ensures.bind_congr {m : Drawing σ α} {f g : α → Drawing σ β} {P : α → Prop}
    (hm : m.Ensures P) (h : ∀ a, P a → f a = g a) : m >>= f = m >>= g := by
  funext state
  change (m state >>= fun p => f p.1 p.2) = m state >>= fun p => g p.1 p.2
  cases hrun : m state with
  | error fault => rfl
  | ok p =>
      change f p.1 p.2 = g p.1 p.2
      rw [h p.1 (hm _ _ _ hrun)]

/-- What a computation ensures can be weakened. -/
theorem Ensures.mono {m : Drawing σ α} {P Q : α → Prop} (hm : m.Ensures P)
    (hPQ : ∀ a, P a → Q a) : m.Ensures Q :=
  fun _ _ _ h => hPQ _ (hm _ _ _ h)

/-- Any result is a result. -/
theorem ensures_true (m : Drawing σ α) : m.Ensures fun _ => True :=
  fun _ _ _ _ => trivial

/-- A result that was computed without drawing satisfies what holds of it. -/
theorem ensures_lift {P : α → Prop} {outcome : Except Fault α} (h : ∀ a, outcome = .ok a → P a) :
    (liftM outcome : Drawing σ α).Ensures P := by
  intro state a state' ha
  cases outcome with
  | error fault => nomatch ha
  | ok b =>
      have hpair : (b, state) = (a, state') := Except.ok.inj ha
      have hba : b = a := congrArg Prod.fst hpair
      rw [← hba]
      exact h b rfl

/-- Going on with the outcome of something that does not draw. -/
theorem ensures_lift_bind {Q : β → Prop} {outcome : Except Fault α} {f : α → Drawing σ β}
    (h : ∀ a, outcome = .ok a → (f a).Ensures Q) :
    ((liftM outcome : Drawing σ α) >>= f).Ensures Q :=
  (ensures_lift (P := fun a => outcome = .ok a) fun _ ha => ha).bind h

/-! ## Lists -/

/-- Mapping the items one by one draws no more than each of them does. -/
theorem mapM_lift (f : α → Except Fault β) (as : List α) :
    (as.mapM fun a => (liftM (f a) : Drawing σ β)) = liftM (as.mapM f) := by
  induction as with
  | nil => rfl
  | cons a as ih =>
      rw [List.mapM_cons, List.mapM_cons, ih]
      cases f a with
      | error fault => rfl
      | ok b => cases as.mapM f <;> rfl

/-- Each result of a mapping is that of an item. -/
theorem ensures_mapM (f : α → Except Fault β) (as : List α) :
    (as.mapM fun a => (liftM (f a) : Drawing σ β)).Ensures
      fun bs => ∀ b ∈ bs, ∃ a ∈ as, f a = .ok b := by
  induction as with
  | nil => exact ensures_pure fun b hb => absurd hb List.not_mem_nil
  | cons a as ih =>
      rw [List.mapM_cons]
      refine ensures_lift_bind fun b hb => ih.bind fun bs hbs => ensures_pure ?_
      intro b' hb'
      rw [List.mem_cons] at hb'
      cases hb' with
      | inl here => exact ⟨a, List.mem_cons_self, by rw [hb, here]⟩
      | inr later =>
          obtain ⟨a', ha', hfa'⟩ := hbs b' later
          exact ⟨a', List.mem_cons_of_mem a ha', hfa'⟩

end Drawing

namespace Rendering

open Drawing

/-- Each gathered event comes from an item. -/
theorem ensures_gather {f : α → Drawing σ (List Event)} {as : List α}
    {P : α → Event → Prop} (h : ∀ a ∈ as, (f a).Ensures fun es => ∀ e ∈ es, P a e) :
    (gather f as).Ensures fun es => ∀ e ∈ es, ∃ a ∈ as, P a e := by
  induction as with
  | nil => exact ensures_pure fun e he => absurd he List.not_mem_nil
  | cons a as ih =>
      have htail := ih fun a' ha' => h a' (List.mem_cons_of_mem a ha')
      refine (h a List.mem_cons_self).bind fun events hevents => htail.bind fun rest hrest =>
        ensures_pure fun e he => ?_
      rw [List.mem_append] at he
      cases he with
      | inl here => exact ⟨a, List.mem_cons_self, hevents e here⟩
      | inr later =>
          obtain ⟨a', ha', hP⟩ := hrest e later
          exact ⟨a', List.mem_cons_of_mem a ha', hP⟩

/-- Each event gathered from a run of integers comes from one of them. -/
theorem ensures_gatherFrom {f : Int → Drawing σ (List Event)} {P : Event → Prop}
    (h : ∀ c, (f c).Ensures fun es => ∀ e ∈ es, P e) (count : Nat) (first : Int) :
    (gatherFrom f count first).Ensures fun es => ∀ e ∈ es, P e := by
  induction count generalizing first with
  | zero => exact ensures_pure fun e he => absurd he List.not_mem_nil
  | succ count ih =>
      refine (h first).bind fun events hevents => (ih (first + 1)).bind fun rest hrest =>
        ensures_pure fun e he => ?_
      rw [List.mem_append] at he
      cases he with
      | inl here => exact hevents e here
      | inr later => exact hrest e later

/-- Each event of renderings in slots comes from one of the slots. -/
theorem ensures_slots {cycle : Int} {start width : Rat} {rs : List (Rendering σ)}
    {P : Span → Event → Prop} (h : ∀ r ∈ rs, ∀ span, (r cycle span).Ensures fun es =>
      ∀ e ∈ es, P span e) (count : Nat) :
    (slots cycle start width count rs).Ensures fun es => ∀ e ∈ es, ∃ k : Nat,
      count ≤ k ∧ k < count + rs.length ∧ P (Span.step start width k) e := by
  induction rs generalizing count with
  | nil => exact ensures_pure fun e he => absurd he List.not_mem_nil
  | cons r rs ih =>
      have htail := ih (fun r' hr' => h r' (List.mem_cons_of_mem r hr')) (count + 1)
      refine (h r List.mem_cons_self _).bind fun events hevents => htail.bind fun rest hrest =>
        ensures_pure fun e he => ?_
      rw [List.mem_append] at he
      rw [List.length_cons]
      cases he with
      | inl here => exact ⟨count, Nat.le_refl count, by omega, hevents e here⟩
      | inr later =>
          obtain ⟨k, hlo, hhi, hP⟩ := hrest e later
          exact ⟨k, by omega, by omega, hP⟩

/-- Thinning only leaves out. -/
theorem ensures_thin (draw : σ → Rat × σ) (probability : Float) (events : List Event) :
    (thin draw probability events).Ensures fun kept => ∀ e ∈ kept, e ∈ events := by
  induction events with
  | nil => exact ensures_pure fun e he => he
  | cons e events ih =>
      refine (ensures_true _).bind fun x _ => ih.bind fun rest hrest => ensures_pure ?_
      intro e' he'
      split at he'
      · rw [List.mem_cons] at he' ⊢
        exact he'.imp id (hrest e')
      · exact List.mem_cons_of_mem e (hrest e' he')

end Rendering

end Ostinato
