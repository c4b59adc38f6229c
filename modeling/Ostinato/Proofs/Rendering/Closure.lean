import Ostinato.Proofs.Rendering.Drawing
import Ostinato.Rendering.Setting

/-!
# Ostinato.Proofs.Rendering.Closure

Properties that hold of every rendering of a pattern.

A rendering is built from those of its children by a fixed set of
combinators.  A property of renderings that each combinator keeps
(`Setting.Closed`) therefore holds of all patterns, by one induction over
patterns and the calls in them; this is `Pattern.render_closed`.

The same induction over calls relates what a transform makes of one rendering to
what it makes of another, if the combinators of transforms keep the relation
(`Setting.Acting`).

Some properties are not kept by every combinator: random draws and slides
along a wave break many laws.  A `Fragment` says which of those a pattern may
use, and closure is asked for no more than the fragment allows.
-/

namespace Ostinato

/-! ## Fragments -/

/-- Which constructs a pattern may use.  Groups, rhythms, arithmetic and
repetition are always allowed. -/
structure Fragment where
  /-- Whether events may be slid along a wave. -/
  sliding : Prop
  /-- The transforms that may be applied. -/
  applies : Action → Prop

namespace Fragment

/-- No restriction. -/
def full : Fragment := ⟨True, fun _ => True⟩

/-- No waves. -/
def still : Fragment := ⟨False, fun _ => True⟩

/-- Neither waves nor random draws. -/
def fixed : Fragment := ⟨False, fun a => a ≠ .degrade ∧ a ≠ .sometimes⟩

/-- No random draws. -/
def certain : Fragment := ⟨True, fun a => a ≠ .degrade ∧ a ≠ .sometimes⟩

/-- No events dropped at random. -/
def lossless : Fragment := ⟨True, fun a => a ≠ .degrade⟩

/-- Whether random draws are ruled out. -/
def IsCertain (F : Fragment) : Prop := ∀ a, F.applies a → a ≠ .degrade ∧ a ≠ .sometimes

theorem isCertain_fixed : fixed.IsCertain := fun _ h => h

theorem isCertain_certain : certain.IsCertain := fun _ h => h

/-- Whether a fragment allows all that another does. -/
def Allows (G F : Fragment) : Prop :=
  (F.sliding → G.sliding) ∧ ∀ a, F.applies a → G.applies a

theorem still_allows_fixed : still.Allows fixed := ⟨id, fun _ _ => trivial⟩

/-- Whether a name, if it is known at all, names an allowed transform. -/
def Names (F : Fragment) (known : Registry Transform) (name : String) : Prop :=
  ∀ t, known.get? name = some t → F.applies t.action

/-- A name stays in a fragment if what it stands for is allowed. -/
theorem names_of_applies {F : Fragment} {known : Registry Transform} {name : String} {t : Transform}
    (h : known.get? name = some t) (allowed : F.applies t.action) : F.Names known name := by
  intro t' h'
  rw [← Option.some.inj (h.symm.trans h')]
  exact allowed

end Fragment

mutual

/-- Whether a value, called as a transform, stays in a fragment, with the
calls nested in it. -/
def Value.CallsWithin (F : Fragment) (known : Registry Transform) : Value → Prop
  | .call name operands => F.Names known name ∧ Value.LastWithin F known operands
  | .pattern (.transform _ name operands) =>
    F.Names known name ∧ Value.LastWithin F known operands
  | _ => True
termination_by structural v => v

/-- Whether the last operand, if there is one, stays in a fragment when it is
called. -/
def Value.LastWithin (F : Fragment) (known : Registry Transform) : List Value → Prop
  | [] => True
  | [v] => v.CallsWithin F known
  | _ :: v :: vs => Value.LastWithin F known (v :: vs)
termination_by structural vs => vs

end

mutual

/-- Whether a pattern uses no more than a fragment allows, in its nodes and in
the calls nested in its transforms. -/
def Pattern.Within (F : Fragment) (known : Registry Transform) : Pattern → Prop
  | .leaf _ => True
  | .sequence children => Pattern.AllWithin F known children
  | .parallel children => Pattern.AllWithin F known children
  | .transform child name operands =>
    child.Within F known ∧ F.Names known name ∧ Value.LastWithin F known operands
  | .euclidean _ _ _ child => child.Within F known
  | .modulation child _ _ => F.sliding ∧ child.Within F known
  | .operation child _ _ => child.Within F known
  | .stray _ => True

/-- Whether all of some patterns use no more than a fragment allows. -/
def Pattern.AllWithin (F : Fragment) (known : Registry Transform) : List Pattern → Prop
  | [] => True
  | p :: ps => p.Within F known ∧ Pattern.AllWithin F known ps

end

mutual

/-- Every call stays in the full fragment. -/
theorem Value.callsWithin_full (known : Registry Transform) :
    (v : Value) → v.CallsWithin .full known
  | .call _ operands => by
      simp only [Value.CallsWithin]
      exact ⟨fun _ _ => trivial, Value.lastWithin_full known operands⟩
  | .pattern (.transform _ _ operands) => by
      simp only [Value.CallsWithin]
      exact ⟨fun _ _ => trivial, Value.lastWithin_full known operands⟩
  | .number _ | .text _ | .flag _ | .nothing | .tuple _ => by simp [Value.CallsWithin]
  | .pattern (.leaf _) | .pattern (.sequence _) | .pattern (.parallel _)
  | .pattern (.euclidean ..) | .pattern (.modulation ..) | .pattern (.operation ..)
  | .pattern (.stray _) => by simp [Value.CallsWithin]

/-- The last of any operands stays in the full fragment. -/
theorem Value.lastWithin_full (known : Registry Transform) :
    (vs : List Value) → Value.LastWithin .full known vs
  | [] => trivial
  | [v] => by
      simp only [Value.LastWithin]
      exact Value.callsWithin_full known v
  | _ :: v :: vs => by
      simp only [Value.LastWithin]
      exact Value.lastWithin_full known (v :: vs)

end

mutual

/-- Every pattern stays in the full fragment. -/
theorem Pattern.within_full (known : Registry Transform) :
    (p : Pattern) → p.Within .full known
  | .leaf _ | .stray _ => trivial
  | .sequence children | .parallel children => Pattern.allWithin_full known children
  | .transform child _ operands =>
      ⟨child.within_full known, fun _ _ => trivial, Value.lastWithin_full known operands⟩
  | .euclidean _ _ _ child => child.within_full known
  | .modulation child _ _ => ⟨trivial, child.within_full known⟩
  | .operation child _ _ => child.within_full known

/-- All patterns stay in the full fragment. -/
theorem Pattern.allWithin_full (known : Registry Transform) :
    (ps : List Pattern) → Pattern.AllWithin .full known ps
  | [] => trivial
  | p :: ps => ⟨p.within_full known, Pattern.allWithin_full known ps⟩

end

mutual

/-- What a call stays in, it stays in with more allowed. -/
theorem Value.CallsWithin.mono {F G : Fragment} {known : Registry Transform}
    (h : ∀ a, F.applies a → G.applies a) :
    (v : Value) → v.CallsWithin F known → v.CallsWithin G known
  | .call _ operands, hv => by
      simp only [Value.CallsWithin] at hv ⊢
      exact ⟨fun t ht => h _ (hv.1 t ht), Value.LastWithin.mono h operands hv.2⟩
  | .pattern (.transform _ _ operands), hv => by
      simp only [Value.CallsWithin] at hv ⊢
      exact ⟨fun t ht => h _ (hv.1 t ht), Value.LastWithin.mono h operands hv.2⟩
  | .number _, _ | .text _, _ | .flag _, _ | .nothing, _ | .tuple _, _ => by
      simp [Value.CallsWithin]
  | .pattern (.leaf _), _ | .pattern (.sequence _), _ | .pattern (.parallel _), _
  | .pattern (.euclidean ..), _ | .pattern (.modulation ..), _ | .pattern (.operation ..), _
  | .pattern (.stray _), _ => by simp [Value.CallsWithin]

/-- What the last operand stays in, it stays in with more allowed. -/
theorem Value.LastWithin.mono {F G : Fragment} {known : Registry Transform}
    (h : ∀ a, F.applies a → G.applies a) :
    (vs : List Value) → Value.LastWithin F known vs → Value.LastWithin G known vs
  | [], _ => trivial
  | [v], hv => by
      simp only [Value.LastWithin] at hv ⊢
      exact Value.CallsWithin.mono h v hv
  | _ :: v :: vs, hv => by
      simp only [Value.LastWithin] at hv ⊢
      exact Value.LastWithin.mono h (v :: vs) hv

end

mutual

/-- What a pattern stays in, it stays in with more allowed. -/
theorem Pattern.Within.mono {F G : Fragment} {known : Registry Transform} (h : G.Allows F) :
    (p : Pattern) → p.Within F known → p.Within G known
  | .leaf _, _ | .stray _, _ => trivial
  | .sequence children, hp | .parallel children, hp => Pattern.AllWithin.mono h children hp
  | .transform child _ operands, hp =>
      ⟨Pattern.Within.mono h child hp.1, fun t ht => h.2 _ (hp.2.1 t ht),
        Value.LastWithin.mono h.2 operands hp.2.2⟩
  | .euclidean _ _ _ child, hp => Pattern.Within.mono h child hp
  | .modulation child _ _, hp => ⟨h.1 hp.1, Pattern.Within.mono h child hp.2⟩
  | .operation child _ _, hp => Pattern.Within.mono h child hp

/-- What patterns stay in, they stay in with more allowed. -/
theorem Pattern.AllWithin.mono {F G : Fragment} {known : Registry Transform} (h : G.Allows F) :
    (ps : List Pattern) → Pattern.AllWithin F known ps → Pattern.AllWithin G known ps
  | [], _ => trivial
  | p :: ps, hps => ⟨Pattern.Within.mono h p hps.1, Pattern.AllWithin.mono h ps hps.2⟩

end

/-! ## Related renderings -/

variable {σ : Type}

/-- The one rendering or the other, as a draw turns out. -/
def Rendering.tossed (draw : σ → Rat × σ) (probability : Float) (r t : Rendering σ) : Rendering σ :=
  fun cycle span => do
    let x ← fun state => pure (draw state)
    if (Number.ratio x).less (.float probability) then r cycle span else t cycle span

/-- A relation between renderings that decisions keep: the same cycle, or the same
draw, decides on both sides. -/
structure Setting.Deciding (s : Setting σ) (draws : Prop)
    (R : Rendering σ → Rendering σ → Prop) : Prop where
  /-- A decision that may fail, taken by looking at the cycle. -/
  decided : ∀ {ι : Type} (f : Int → Except Fault ι) (r r' : ι → Rendering σ),
    (∀ i, R (r i) (r' i)) →
    R (fun cycle span => do r (← f cycle) cycle span)
      (fun cycle span => do r' (← f cycle) cycle span)
  /-- A decision that depends on a draw. -/
  drawn : draws → ∀ r r' : Rat → Rendering σ, (∀ x, R (r x) (r' x)) →
    R (fun cycle span => do
        let x ← fun state => pure (s.draw state)
        r x cycle span)
      (fun cycle span => do
        let x ← fun state => pure (s.draw state)
        r' x cycle span)

/-- A relation between renderings that the transforms keep, as far as a fragment
makes use of them. -/
structure Setting.Acting (s : Setting σ) (F : Fragment)
    (R : Rendering σ → Rendering σ → Prop) : Prop
    extends s.Deciding (F.applies .sometimes) R where
  failed : ∀ fault, R (Rendering.failed fault) (Rendering.failed fault)
  repeated : ∀ factor r r', R r r' → R (Rendering.repeated factor r) (Rendering.repeated factor r')
  reversed : ∀ r r', R r r' → R (Rendering.reversed r) (Rendering.reversed r')
  palindrome : ∀ r r', R r r' → R (Rendering.palindrome r) (Rendering.palindrome r')
  chopped : ∀ parts r r', R r r' → R (Rendering.chopped parts r) (Rendering.chopped parts r')
  degraded : F.applies .degrade → ∀ probability r r', R r r' →
    R (Rendering.degraded s.draw probability r) (Rendering.degraded s.draw probability r')

namespace Setting

variable {s : Setting σ} {F : Fragment} {R : Rendering σ → Rendering σ → Prop}
  {last last' : Rendering σ → Rendering σ} {subject subject' : Rendering σ}

/-- What is played every so many cycles is decided by the place of the cycle in its
period. -/
theorem Deciding.every {draws : Prop} (h : s.Deciding draws R) (operands : List Value)
    (hlast : R (last subject) (last' subject')) (hsubject : R subject subject') :
    R (s.act .every operands last subject) (s.act .every operands last' subject') := by
  refine h.decided (fun _ => firstOperand operands) _ _ fun v =>
    h.decided (fun cycle => phase cycle v)
      (fun place cycle span =>
        if place = 0 then last subject cycle span else subject cycle span)
      (fun place cycle span =>
        if place = 0 then last' subject' cycle span else subject' cycle span) fun place => ?_
  by_cases hp : place = 0
  · simpa only [hp, if_true] using hlast
  · simpa only [hp, if_false] using hsubject

/-- What is played under a condition is decided by the place of the cycle in its
period and a bound. -/
theorem Deciding.when {draws : Prop} (h : s.Deciding draws R) (operands : List Value)
    (hlast : R (last subject) (last' subject')) (hsubject : R subject subject') :
    R (s.act .when operands last subject) (s.act .when operands last' subject') := by
  refine h.decided (fun _ => firstOperand operands) _ _ fun v =>
    h.decided (fun cycle => phase cycle v) _ _ fun place =>
      h.decided (fun _ => secondOperand operands) _ _ fun bound =>
        h.decided (fun _ => Value.reachedBy place bound)
          (fun reached cycle span =>
            if reached then last subject cycle span else subject cycle span)
          (fun reached cycle span =>
            if reached then last' subject' cycle span else subject' cycle span) fun reached => ?_
  cases reached with
  | true => exact hlast
  | false => exact hsubject

/-- A draw decides, and it is the same draw on both sides. -/
theorem Deciding.tossed {draws : Prop} (h : s.Deciding draws R) (allowed : draws)
    (probability : Float) {r r' t t' : Rendering σ} (hr : R r r') (ht : R t t') :
    R (Rendering.tossed s.draw probability r t) (Rendering.tossed s.draw probability r' t') := by
  refine h.drawn allowed
    (fun x cycle span =>
      if (Number.ratio x).less (.float probability) then r cycle span else t cycle span)
    (fun x cycle span =>
      if (Number.ratio x).less (.float probability) then r' cycle span else t' cycle span)
    fun x => ?_
  cases hx : (Number.ratio x).less (.float probability) with
  | true => simpa only [if_true] using hr
  | false => simpa only [Bool.false_eq_true, if_false] using ht

/-- What is played sometimes is decided by a draw, once the chance has been read. -/
theorem Deciding.sometimes {draws : Prop} (h : s.Deciding draws R) (allowed : draws)
    (operands : List Value) (hlast : R (last subject) (last' subject'))
    (hsubject : R subject subject') :
    R (s.act .sometimes operands last subject) (s.act .sometimes operands last' subject') := by
  cases operands with
  | nil => exact h.tossed allowed evenChance hlast hsubject
  | cons v rest =>
      cases rest with
      | nil => exact h.tossed allowed evenChance hlast hsubject
      | cons _ _ =>
          exact h.decided (fun _ => v.toFloat) _ _ fun probability =>
            h.tossed allowed probability hlast hsubject

/-- A relation kept by the transforms is kept by every allowed action. -/
theorem Acting.act (h : s.Acting F R) {action : Action} (allowed : F.applies action)
    (operands : List Value) (hlast : R (last subject) (last' subject'))
    (hsubject : R subject subject') :
    R (s.act action operands last subject) (s.act action operands last' subject') := by
  cases action with
  | rev => exact h.reversed _ _ hsubject
  | palindrome => exact h.palindrome _ _ hsubject
  | fast =>
      exact h.decided (fun _ => firstOperand operands) _ _ fun v =>
        h.decided (fun _ => v.toTime) _ _ fun factor => h.repeated factor _ _ hsubject
  | slow =>
      exact h.decided (fun _ => firstOperand operands) _ _ fun v =>
        h.decided (fun _ => v.toTime) _ _ fun _ => h.repeated _ _ _ hsubject
  | degrade =>
      cases operands with
      | nil => exact h.degraded allowed evenChance _ _ hsubject
      | cons v _ =>
          exact h.decided (fun _ => v.toFloat) _ _ fun probability =>
            h.degraded allowed probability _ _ hsubject
  | chop =>
      exact h.decided (fun _ => firstOperand operands) _ _ fun v =>
        h.decided (fun _ => v.toInt) _ _ fun parts => h.chopped parts _ _ hsubject
  | every => exact h.toDeciding.every operands hlast hsubject
  | when => exact h.toDeciding.when operands hlast hsubject
  | sometimes => exact h.toDeciding.sometimes allowed operands hlast hsubject

/-- A transform that nobody knows fails. -/
theorem applyNamed_of_none {name : String} (hfound : s.transforms.get? name = none)
    {operands : List Value} {last : Rendering σ → Rendering σ} {subject : Rendering σ} :
    s.applyNamed name operands last subject = Rendering.failed (.unknownTransform name) := by
  funext cycle span
  unfold Setting.applyNamed
  rw [hfound]
  rfl

/-- A known transform acts. -/
theorem applyNamed_of_some {name : String} {t : Transform} (hfound : s.transforms.get? name = some t)
    {operands : List Value} {last : Rendering σ → Rendering σ} {subject : Rendering σ} :
    s.applyNamed name operands last subject = s.act t.action operands last subject := by
  funext cycle span
  unfold Setting.applyNamed
  rw [hfound]

/-- A relation kept by the transforms is kept by every allowed name. -/
theorem Acting.applyNamed (h : s.Acting F R) {name : String} (allowed : F.Names s.transforms name)
    (operands : List Value) (hlast : R (last subject) (last' subject'))
    (hsubject : R subject subject') :
    R (s.applyNamed name operands last subject) (s.applyNamed name operands last' subject') := by
  cases hfound : s.transforms.get? name with
  | none =>
      rw [applyNamed_of_none hfound, applyNamed_of_none hfound]
      exact h.failed _
  | some t =>
      rw [applyNamed_of_some hfound, applyNamed_of_some hfound]
      exact h.act (allowed t hfound) operands hlast hsubject

mutual

/-- A relation kept by the transforms is kept by every allowed call. -/
theorem Acting.called (h : s.Acting F R) (hsubject : R subject subject') :
    (v : Value) → v.CallsWithin F s.transforms → R (s.called v subject) (s.called v subject')
  | .call name operands, hv => by
      simp only [Value.CallsWithin] at hv
      exact h.applyNamed hv.1 operands (h.lastCalled hsubject operands hv.2) hsubject
  | .pattern (.transform _ name operands), hv => by
      simp only [Value.CallsWithin] at hv
      exact h.applyNamed hv.1 operands (h.lastCalled hsubject operands hv.2) hsubject
  | .number _, _ | .text _, _ | .flag _, _ | .nothing, _ | .tuple _, _ => h.failed _
  | .pattern (.leaf _), _ | .pattern (.sequence _), _ | .pattern (.parallel _), _
  | .pattern (.euclidean ..), _ | .pattern (.modulation ..), _ | .pattern (.operation ..), _
  | .pattern (.stray _), _ => h.failed _

/-- A relation kept by the transforms is kept by the call that ends allowed
operands. -/
theorem Acting.lastCalled (h : s.Acting F R) (hsubject : R subject subject') :
    (vs : List Value) → Value.LastWithin F s.transforms vs →
      R (s.lastCalled vs subject) (s.lastCalled vs subject')
  | [], _ => h.failed _
  | [v], hv => by
      simp only [Value.LastWithin] at hv
      exact h.called hsubject v hv
  | _ :: v :: vs, hv => by
      simp only [Value.LastWithin] at hv
      exact h.lastCalled hsubject (v :: vs) hv

end

/-- A star after anything but a number repeats. -/
theorem operated_repeats {onNumber : Bool} {sign : String} {operand : Value}
    {subject : Rendering σ} (hrep : (sign == Operator.times.sign && !onNumber) = true) :
    Rendering.operated onNumber sign operand subject = (fun cycle span => do
      Rendering.repeated (← operand.toTime) subject cycle span) := by
  funext cycle span
  simp only [Rendering.operated, hrep, if_true]

/-- Any other operator calculates. -/
theorem operated_calculates {onNumber : Bool} {sign : String} {operand : Value}
    {subject : Rendering σ} (hrep : (sign == Operator.times.sign && !onNumber) = false)
    {op : Operator} (hop : Operator.ofSign? sign = some op) :
    Rendering.operated onNumber sign operand subject =
      Rendering.calculated op operand subject := by
  funext cycle span
  simp only [Rendering.operated, hrep, Bool.false_eq_true, if_false, hop]

/-- A sign that is no operator fails. -/
theorem operated_fails {onNumber : Bool} {sign : String} {operand : Value}
    {subject : Rendering σ} (hrep : (sign == Operator.times.sign && !onNumber) = false)
    (hop : Operator.ofSign? sign = none) :
    Rendering.operated onNumber sign operand subject =
      Rendering.failed (.unknownOperator sign) := by
  funext cycle span
  simp only [Rendering.operated, hrep, Bool.false_eq_true, if_false, hop, Rendering.failed]

/-- A relation kept by the transforms is kept by repetition, and by arithmetic as
far as that keeps it. -/
theorem Acting.operated (h : s.Acting F R) (onNumber : Bool) (sign : String) {operand : Value}
    (hcalculated : ∀ op, R (Rendering.calculated op operand subject)
      (Rendering.calculated op operand subject'))
    (hsubject : R subject subject') :
    R (Rendering.operated onNumber sign operand subject)
      (Rendering.operated onNumber sign operand subject') := by
  cases hrep : sign == Operator.times.sign && !onNumber with
  | true =>
      rw [operated_repeats hrep, operated_repeats hrep]
      exact h.decided (fun _ => operand.toTime) _ _ fun factor => h.repeated factor _ _ hsubject
  | false =>
      cases hop : Operator.ofSign? sign with
      | none =>
          rw [operated_fails hrep hop, operated_fails hrep hop]
          exact h.failed _
      | some op =>
          rw [operated_calculates hrep hop, operated_calculates hrep hop]
          exact hcalculated op

end Setting

/-! ## Closure -/

/-- A property as a relation: of a rendering with the property to itself. -/
def Rendering.Diagonal (K : Rendering σ → Prop) (r r' : Rendering σ) : Prop := r' = r ∧ K r

/-- A property of renderings that every combinator keeps, as far as a fragment
makes use of it. -/
structure Setting.Closed (s : Setting σ) (F : Fragment) (K : Rendering σ → Prop) : Prop where
  failed : ∀ fault, K (Rendering.failed fault)
  /-- A decision that may fail, taken by looking at the cycle. -/
  decided : ∀ {ι : Type} (f : Int → Except Fault ι) (r : ι → Rendering σ), (∀ i, K (r i)) →
    K fun cycle span => do r (← f cycle) cycle span
  /-- A decision that depends on a draw. -/
  drawn : F.applies .sometimes → ∀ r : Rat → Rendering σ, (∀ x, K (r x)) →
    K fun cycle span => do
      let x ← fun state => pure (s.draw state)
      r x cycle span
  leaf : ∀ value, K (Rendering.leaf value)
  sequence : ∀ rs, (∀ r ∈ rs, K r) → K (Rendering.sequence rs)
  parallel : ∀ rs, (∀ r ∈ rs, K r) → K (Rendering.parallel s.choose rs)
  euclidean : ∀ steps pulses rotation r, K r →
    K (Rendering.euclidean steps pulses rotation r)
  repeated : ∀ factor r, K r → K (Rendering.repeated factor r)
  reversed : ∀ r, K r → K (Rendering.reversed r)
  palindrome : ∀ r, K r → K (Rendering.palindrome r)
  chopped : ∀ parts r, K r → K (Rendering.chopped parts r)
  degraded : F.applies .degrade → ∀ probability r, K r →
    K (Rendering.degraded s.draw probability r)
  calculated : ∀ op operand r, K r → K (Rendering.calculated op operand r)
  modulated : F.sliding → ∀ amount rate r, K r → K (Rendering.modulated amount rate r)

/-- A property of renderings that does not depend on which of them a cycle or a
draw decides for. -/
structure Setting.Branching (s : Setting σ) (draws : Prop) (K : Rendering σ → Prop) : Prop where
  /-- A decision that may fail, taken by looking at the cycle. -/
  decided : ∀ {ι : Type} (f : Int → Except Fault ι) (r : ι → Rendering σ), (∀ i, K (r i)) →
    K fun cycle span => do r (← f cycle) cycle span
  /-- A decision that depends on a draw. -/
  drawn : draws → ∀ r : Rat → Rendering σ, (∀ x, K (r x)) →
    K fun cycle span => do
      let x ← fun state => pure (s.draw state)
      r x cycle span

namespace Setting

variable {s : Setting σ} {F : Fragment} {K : Rendering σ → Prop}

/-- A property that does not depend on decisions, as a relation. -/
theorem Branching.deciding {draws : Prop} (h : s.Branching draws K) :
    s.Deciding draws (Rendering.Diagonal K) where
  decided f r r' hr := by
    obtain rfl : r' = r := funext fun i => (hr i).1
    exact ⟨rfl, h.decided f r' fun i => (hr i).2⟩
  drawn allowed r r' hr := by
    obtain rfl : r' = r := funext fun x => (hr x).1
    exact ⟨rfl, h.drawn allowed r' fun x => (hr x).2⟩

section

variable {last : Rendering σ → Rendering σ} {subject : Rendering σ}

/-- What is played every so many cycles is one of two renderings with the property. -/
theorem Branching.every {draws : Prop} (h : s.Branching draws K) (operands : List Value)
    (hlast : K (last subject)) (hsubject : K subject) : K (s.act .every operands last subject) :=
  (h.deciding.every operands ⟨rfl, hlast⟩ ⟨rfl, hsubject⟩).2

/-- So is what is played under a condition. -/
theorem Branching.when {draws : Prop} (h : s.Branching draws K) (operands : List Value)
    (hlast : K (last subject)) (hsubject : K subject) : K (s.act .when operands last subject) :=
  (h.deciding.when operands ⟨rfl, hlast⟩ ⟨rfl, hsubject⟩).2

/-- So is what is played sometimes. -/
theorem Branching.sometimes {draws : Prop} (h : s.Branching draws K) (allowed : draws)
    (operands : List Value) (hlast : K (last subject)) (hsubject : K subject) :
    K (s.act .sometimes operands last subject) :=
  (h.deciding.sometimes allowed operands ⟨rfl, hlast⟩ ⟨rfl, hsubject⟩).2

/-- A property kept by the combinators does not depend on decisions. -/
theorem Closed.branching (h : s.Closed F K) : s.Branching (F.applies .sometimes) K :=
  ⟨h.decided, h.drawn⟩

/-- A property kept by the combinators, as a relation. -/
theorem Closed.acting (h : s.Closed F K) : s.Acting F (Rendering.Diagonal K) where
  toDeciding := h.branching.deciding
  failed fault := ⟨rfl, h.failed fault⟩
  repeated factor := by
    rintro _ r ⟨rfl, hr⟩
    exact ⟨rfl, h.repeated factor r hr⟩
  reversed := by
    rintro _ r ⟨rfl, hr⟩
    exact ⟨rfl, h.reversed r hr⟩
  palindrome := by
    rintro _ r ⟨rfl, hr⟩
    exact ⟨rfl, h.palindrome r hr⟩
  chopped parts := by
    rintro _ r ⟨rfl, hr⟩
    exact ⟨rfl, h.chopped parts r hr⟩
  degraded allowed probability := by
    rintro _ r ⟨rfl, hr⟩
    exact ⟨rfl, h.degraded allowed probability r hr⟩

/-- A property kept by the combinators is kept by every allowed transform. -/
theorem Closed.applyNamed (h : s.Closed F K) {name : String}
    (allowed : F.Names s.transforms name) (operands : List Value) (hlast : K (last subject))
    (hsubject : K subject) : K (s.applyNamed name operands last subject) :=
  (h.acting.applyNamed allowed operands ⟨rfl, hlast⟩ ⟨rfl, hsubject⟩).2

/-- A property kept by the combinators is kept by the call that ends allowed
operands. -/
theorem Closed.lastCalled (h : s.Closed F K) (hsubject : K subject) (vs : List Value)
    (hvs : Value.LastWithin F s.transforms vs) : K (s.lastCalled vs subject) :=
  (h.acting.lastCalled ⟨rfl, hsubject⟩ vs hvs).2

end

/-- A property kept by the combinators is kept by arithmetic and repetition. -/
theorem Closed.operated (h : s.Closed F K) (onNumber : Bool) (sign : String) (operand : Value)
    {subject : Rendering σ} (hsubject : K subject) :
    K (Rendering.operated onNumber sign operand subject) :=
  (h.acting.operated onNumber sign (fun op => ⟨rfl, h.calculated op operand _ hsubject⟩)
    ⟨rfl, hsubject⟩).2

end Setting

mutual

/-- **Closure**: a property that every combinator keeps holds of the rendering
of every pattern in the fragment. -/
theorem Pattern.render_closed {s : Setting σ} {F : Fragment} {K : Rendering σ → Prop}
    (h : s.Closed F K) : (p : Pattern) → p.Within F s.transforms → K (p.render s)
  | .leaf value, _ => h.leaf value
  | .sequence children, hp => h.sequence _ (Pattern.renderAll_closed h children hp)
  | .parallel children, hp => h.parallel _ (Pattern.renderAll_closed h children hp)
  | .transform child _ operands, hp => by
      have hchild := child.render_closed h hp.1
      exact h.applyNamed hp.2.1 operands (h.lastCalled hchild operands hp.2.2) hchild
  | .euclidean steps pulses rotation child, hp =>
      h.euclidean steps pulses rotation _ (child.render_closed h hp)
  | .modulation child amount rate, hp =>
      h.modulated hp.1 amount rate _ (child.render_closed h hp.2)
  | .operation child sign operand, hp =>
      h.operated child.isNumberLeaf sign operand (child.render_closed h hp)
  | .stray value, _ => h.failed (.notAPattern value.shown)

/-- A property that every combinator keeps holds of the renderings of all
patterns in the fragment. -/
theorem Pattern.renderAll_closed {s : Setting σ} {F : Fragment} {K : Rendering σ → Prop}
    (h : s.Closed F K) :
    (ps : List Pattern) → Pattern.AllWithin F s.transforms ps →
      ∀ r ∈ Pattern.renderAll s ps, K r
  | [], _, r, hr => absurd hr List.not_mem_nil
  | p :: ps, hps, r, hr => by
      rw [Pattern.renderAll, List.mem_cons] at hr
      cases hr with
      | inl here => rw [here]; exact p.render_closed h hps.1
      | inr later => exact Pattern.renderAll_closed h ps hps.2 r later

end

/-- Each pattern has one rendering. -/
theorem Pattern.length_renderAll (s : Setting σ) (ps : List Pattern) :
    (Pattern.renderAll s ps).length = ps.length := by
  rw [Pattern.renderAll_eq_map, List.length_map]

/-! ## Known transforms -/

/-- Whether a name stands for a transform with a given action. -/
def Registry.Acts (known : Registry Transform) (name : String) (action : Action) : Prop :=
  ∃ t, known.get? name = some t ∧ t.action = action

/-- A transform under a name that stands for an action performs that action. -/
theorem Pattern.render_acts {s : Setting σ} {name : String} {action : Action}
    (h : s.transforms.Acts name action) (p : Pattern) (operands : List Value) :
    (Pattern.transform p name operands).render s =
      s.act action operands (s.lastCalled operands) (p.render s) := by
  obtain ⟨t, hname, rfl⟩ := h
  exact Setting.applyNamed_of_some hname

section

variable {s : Setting σ} {v : Value} {factor : Rat}

/-- The name for playing faster repeats by its operand. -/
theorem Pattern.render_fast (h : s.transforms.Acts "fast" .fast) (hv : v.toTime = .ok factor)
    (p : Pattern) :
    (Pattern.transform p "fast" [v]).render s = Rendering.repeated factor (p.render s) := by
  rw [render_acts h]
  funext cycle span
  simp only [Setting.act, Setting.firstOperand, Drawing.lift_ok_bind, hv]

/-- The name for playing slower repeats by the inverse of its operand, and by zero
for zero. -/
theorem Pattern.render_slow (h : s.transforms.Acts "slow" .slow) (hv : v.toTime = .ok factor)
    (p : Pattern) :
    (Pattern.transform p "slow" [v]).render s =
      Rendering.repeated (if factor = 0 then 0 else 1 / factor) (p.render s) := by
  rw [render_acts h]
  funext cycle span
  simp only [Setting.act, Setting.firstOperand, Drawing.lift_ok_bind, hv]

/-- The name for chopping cuts events into as many pieces as its operand says. -/
theorem Pattern.render_chop (h : s.transforms.Acts "chop" .chop) {parts : Int}
    (hv : v.toInt = .ok parts) (p : Pattern) :
    (Pattern.transform p "chop" [v]).render s = Rendering.chopped parts (p.render s) := by
  rw [render_acts h]
  funext cycle span
  simp only [Setting.act, Setting.firstOperand, Drawing.lift_ok_bind, hv]

/-- The name for degrading drops events with the chance that its operand says. -/
theorem Pattern.render_degrade (h : s.transforms.Acts "degrade" .degrade) {chance : Float}
    (hv : v.toFloat = .ok chance) (p : Pattern) :
    (Pattern.transform p "degrade" [v]).render s =
      Rendering.degraded s.draw chance (p.render s) := by
  rw [render_acts h]
  funext cycle span
  simp only [Setting.act, Drawing.lift_ok_bind, hv]

/-- A star with a number after anything but a number repeats. -/
theorem Pattern.render_times {p : Pattern} (hleaf : p.isNumberLeaf = false)
    (hv : v.toTime = .ok factor) :
    (Pattern.operation p Operator.times.sign v).render s =
      Rendering.repeated factor (p.render s) := by
  have hrep : (Operator.times.sign == Operator.times.sign && !p.isNumberLeaf) = true := by
    rw [hleaf]
    decide
  rw [Pattern.render, Setting.operated_repeats hrep]
  funext cycle span
  simp only [Drawing.lift_ok_bind, hv]

/-- All other operators calculate. -/
theorem Pattern.render_operation {op : Operator} (hop : op ≠ .times) (p : Pattern) (v : Value) :
    (Pattern.operation p op.sign v).render s = Rendering.calculated op v (p.render s) := by
  have hsign : (op.sign == Operator.times.sign) = false := by
    revert hop
    cases op <;> decide
  exact Setting.operated_calculates (by rw [hsign, Bool.false_and]) (Operator.ofSign?_sign op)

end

end Ostinato
