import Mathlib.Algebra.Ring.Periodic
import Mathlib.Data.Rat.Floor
import Ostinato.Proofs.Rendering.Faults
import Ostinato.Proofs.Rendering.Fixed

/-!
# Ostinato.Proofs.Rendering.Periods

Patterns that return.

Without waves a pattern sees of the cycle only whose turn it is, so it plays
the same again after a number of cycles that can be read off it
(`Pattern.period`):

1. a leaf is the same in every cycle, and children side by side return when
   all of them do;
2. a group of `n` children that take turns needs `n` times as long as they do;
3. at a speed of `p / q` in lowest terms a subject needs `q` times as long;
4. a conditional transform returns when its own period, its subject, and what
   the transform makes of the subject all do.

Random transforms return too as far as they themselves go, but every cycle
draws from a stream of its own, so a query finds the same events again only
without them (`Performance.query_periodic`).
-/

namespace Ostinato

/-! ## Periods -/

namespace Action

/-- The factor that operands begin with; zero if they begin with none. -/
def factor (operands : List Value) : Rat :=
  (Setting.firstOperand operands >>= Value.toTime).toOption.getD 0

/-- The number of cycles that operands begin with; one if they begin with
none. -/
def cycles (operands : List Value) : Nat :=
  max 1 ((Setting.firstOperand operands >>= Value.toInt).toOption.getD 1).natAbs

/-- The period of what an action makes of a subject with period `n`.  `last`
gives the period of what the transform makes of it that the last operand
calls. -/
def period (action : Action) (operands : List Value) (last : Nat → Nat) (n : Nat) : Nat :=
  match action with
  | fast => (factor operands).den * n
  | slow => (1 / factor operands).den * n
  | every | when => (cycles operands).lcm (n.lcm (last n))
  | sometimes => n.lcm (last n)
  | rev | palindrome | degrade | chop => n

end Action

namespace Value

/-- The period of what a transform, looked up by name, makes of a subject with
period `n`. -/
def namedPeriod (known : Registry Transform) (name : String) (operands : List Value)
    (last : Nat → Nat) (n : Nat) : Nat :=
  match known.get? name with
  | none => n
  | some t => t.action.period operands last n

mutual

/-- The period of what a value makes of a subject when it is called. -/
def calledPeriod (known : Registry Transform) : Value → Nat → Nat
  | .call name operands, n => namedPeriod known name operands (lastPeriod known operands) n
  | .pattern (.transform _ name operands), n =>
    namedPeriod known name operands (lastPeriod known operands) n
  | _, n => n
termination_by structural v => v

/-- The period of what the last operand makes of a subject when it is called. -/
def lastPeriod (known : Registry Transform) : List Value → Nat → Nat
  | [], n => n
  | [v], n => calledPeriod known v n
  | _ :: v :: vs, n => lastPeriod known (v :: vs) n
termination_by structural vs => vs

end

end Value

mutual

/-- The number of cycles after which a pattern plays the same again.  A group
without children, which has no turns, counts as one with a single child. -/
def Pattern.period (known : Registry Transform) : Pattern → Nat
  | .leaf _ => 1
  | .sequence children => Pattern.commonPeriod known children
  | .parallel children => max 1 children.length * Pattern.commonPeriod known children
  | .transform child name operands =>
    Value.namedPeriod known name operands (Value.lastPeriod known operands) (child.period known)
  | .euclidean _ _ _ child => child.period known
  | .modulation child _ _ => child.period known
  | .operation child sign operand =>
    if sign == Operator.times.sign && !child.isNumberLeaf then
      (Action.factor [operand]).den * child.period known
    else child.period known
  | .stray _ => 1

/-- The number of cycles after which all of some patterns play the same
again. -/
def Pattern.commonPeriod (known : Registry Transform) : List Pattern → Nat
  | [] => 1
  | p :: ps => (p.period known).lcm (Pattern.commonPeriod known ps)

end

/-! ### Periods are positive -/

/-- The period of an action is positive if that of its subject is, and if the last
call keeps periods positive. -/
theorem Action.period_pos (action : Action) (operands : List Value) {last : Nat → Nat}
    (hlast : ∀ n, 0 < n → 0 < last n) {n : Nat} (hn : 0 < n) :
    0 < action.period operands last n := by
  have hcycles : 0 < cycles operands := Nat.lt_of_lt_of_le Nat.one_pos (Nat.le_max_left ..)
  have hboth : 0 < n.lcm (last n) := Nat.lcm_pos hn (hlast n hn)
  cases action with
  | fast | slow => exact Nat.mul_pos (Rat.den_pos _) hn
  | every | when => exact Nat.lcm_pos hcycles hboth
  | sometimes => exact hboth
  | rev | palindrome | degrade | chop => exact hn

namespace Value

/-- So is the period of a transform under any name. -/
theorem namedPeriod_pos (known : Registry Transform) (name : String) (operands : List Value)
    {last : Nat → Nat} (hlast : ∀ n, 0 < n → 0 < last n) {n : Nat} (hn : 0 < n) :
    0 < namedPeriod known name operands last n := by
  unfold namedPeriod
  cases known.get? name with
  | none => exact hn
  | some t => exact t.action.period_pos operands hlast hn

mutual

/-- A value that is called keeps periods positive. -/
theorem calledPeriod_pos (known : Registry Transform) :
    (v : Value) → ∀ n, 0 < n → 0 < v.calledPeriod known n
  | .call name operands, n, hn => by
      rw [calledPeriod]
      exact namedPeriod_pos known name operands (lastPeriod_pos known operands) hn
  | .pattern (.transform _ name operands), n, hn => by
      rw [calledPeriod]
      exact namedPeriod_pos known name operands (lastPeriod_pos known operands) hn
  | .number _, _, hn | .text _, _, hn | .flag _, _, hn | .nothing, _, hn | .tuple _, _, hn
  | .pattern (.leaf _), _, hn | .pattern (.sequence _), _, hn | .pattern (.parallel _), _, hn
  | .pattern (.euclidean ..), _, hn | .pattern (.modulation ..), _, hn
  | .pattern (.operation ..), _, hn | .pattern (.stray _), _, hn => by
      simpa [calledPeriod] using hn

/-- So does the last operand. -/
theorem lastPeriod_pos (known : Registry Transform) :
    (vs : List Value) → ∀ n, 0 < n → 0 < lastPeriod known vs n
  | [], n, hn => by simpa [lastPeriod] using hn
  | [v], n, hn => by
      rw [lastPeriod]
      exact calledPeriod_pos known v n hn
  | _ :: v :: vs, n, hn => by
      rw [lastPeriod]
      exact lastPeriod_pos known (v :: vs) n hn

end

end Value

mutual

/-- The period of a pattern is positive: it is made of those of its parts, and none
of them is zero. -/
theorem Pattern.period_pos (known : Registry Transform) : (p : Pattern) → 0 < p.period known
  | .leaf _ | .stray _ => by simp [Pattern.period]
  | .sequence children => by
      rw [Pattern.period]
      exact Pattern.commonPeriod_pos known children
  | .parallel children => by
      rw [Pattern.period]
      exact Nat.mul_pos (Nat.lt_of_lt_of_le Nat.one_pos (Nat.le_max_left ..))
        (Pattern.commonPeriod_pos known children)
  | .transform child name operands => by
      rw [Pattern.period]
      exact Value.namedPeriod_pos known name operands (Value.lastPeriod_pos known operands)
        (child.period_pos known)
  | .euclidean _ _ _ child | .modulation child _ _ => by
      rw [Pattern.period]
      exact child.period_pos known
  | .operation child sign operand => by
      have hchild := child.period_pos known
      rw [Pattern.period]
      split
      · exact Nat.mul_pos (Rat.den_pos _) hchild
      · exact hchild

/-- So is the common period of patterns. -/
theorem Pattern.commonPeriod_pos (known : Registry Transform) :
    (ps : List Pattern) → 0 < Pattern.commonPeriod known ps
  | [] => by simp [Pattern.commonPeriod]
  | p :: ps => by
      rw [Pattern.commonPeriod]
      exact Nat.lcm_pos (p.period_pos known) (Pattern.commonPeriod_pos known ps)

end

/-! ## Renderings that return -/

namespace Rendering

variable {σ : Type} {r : Rendering σ} {rs : List (Rendering σ)} {m n : Nat}

/-- A rendering that is the same again after `n` cycles. -/
def Recurs (r : Rendering σ) (n : Nat) : Prop := Function.Periodic r (n : Int)

/-- What is the same after some cycles is the same after a multiple of them. -/
theorem Recurs.of_dvd (h : Recurs r m) (hdvd : m ∣ n) : Recurs r n := by
  obtain ⟨k, rfl⟩ := hdvd
  unfold Recurs
  rw [Nat.mul_comm, Nat.cast_mul]
  exact Function.Periodic.nat_mul h k

/-- A rendering that is the same in all cycles. -/
theorem recurs_of_eq (h : ∀ cycle cycle', r cycle = r cycle') (n : Nat) : Recurs r n :=
  fun _ => h _ _

/-- What fails plays no cycle differently from another. -/
theorem recurs_failed (fault : Fault) (n : Nat) : Recurs (failed fault : Rendering σ) n :=
  recurs_of_eq (fun _ _ => rfl) n

/-- A decision that returns, between renderings that return. -/
theorem recurs_decided {ι : Type} {f : Int → Except Fault ι} {r : ι → Rendering σ}
    (hf : ∀ cycle, f (cycle + n) = f cycle) (h : ∀ cycle i, f cycle = .ok i → Recurs (r i) n) :
    Recurs (fun cycle span => do r (← f cycle) cycle span) n := by
  intro cycle
  funext span
  simp only [hf cycle]
  cases hi : f cycle with
  | error fault => rfl
  | ok i => exact congrFun (h cycle i hi cycle) span

/-- Of two renderings that recur, the one that a condition picks recurs. -/
theorem recurs_ite {r' : Rendering σ} (P : Prop) [Decidable P] (h : Recurs r n)
    (h' : Recurs r' n) :
    Recurs (fun cycle span => if P then r cycle span else r' cycle span) n := by
  intro cycle
  funext span
  simp only [h cycle, h' cycle]

/-- So does the one that a draw picks. -/
theorem recurs_tossed {r' : Rendering σ} (draw : σ → Rat × σ) (probability : Float)
    (h : Recurs r n) (h' : Recurs r' n) : Recurs (tossed draw probability r r') n := by
  intro cycle
  funext span
  simp only [tossed, h cycle, h' cycle]

/-! ### Groups -/

/-- Slots look at a cycle only through the renderings in them. -/
theorem slots_congr {cycle cycle' : Int} (h : ∀ r ∈ rs, r cycle = r cycle') (start width : Rat)
    (count : Nat) : slots cycle start width count rs = slots cycle' start width count rs := by
  induction rs generalizing count with
  | nil => rfl
  | cons r rs ih =>
    rw [slots, slots, h r List.mem_cons_self, ih fun r' hr' => h r' (List.mem_cons_of_mem r hr')]

/-- A sequence recurs when all of its children do. -/
theorem recurs_sequence (h : ∀ r ∈ rs, Recurs r n) : Recurs (sequence rs) n := by
  intro cycle
  funext span
  exact slots_congr (fun r hr => h r hr cycle) _ _ 0

/-- Children that take turns are all back after as many rounds as one of them
needs cycles. -/
theorem recurs_parallel {choose : Int → Int → Except Fault Int}
    (hchoose : ∀ cycle, choose (cycle + (rs.length * n : Nat)) rs.length = choose cycle rs.length)
    (h : ∀ r ∈ rs, Recurs r n) : Recurs (parallel choose rs) (max 1 rs.length * n) := by
  cases hempty : rs with
  | nil => exact recurs_of_eq (fun _ _ => rfl) _
  | cons r others =>
    rw [← hempty]
    have hlength : 0 < rs.length := by simp [hempty]
    rw [Nat.max_eq_right hlength]
    intro cycle
    funext span
    have hround : (cycle + (rs.length * n : Nat)).fdiv rs.length = cycle.fdiv rs.length + n := by
      rw [Nat.cast_mul, Int.add_mul_fdiv_left _ _ (by omega)]
    have hpick : ∀ i : Nat, rs.getD i (fun _ _ => pure []) (cycle.fdiv rs.length + n) =
        rs.getD i (fun _ _ => pure []) (cycle.fdiv rs.length) := by
      intro i
      rw [List.getD_eq_getElem?_getD]
      cases hi : rs[i]? with
      | none => rfl
      | some r => exact h r (List.mem_of_getElem? hi) _
    simp only [parallel, hchoose, hround, hpick]

/-- A rhythm recurs with its subject; its mask is the same in every cycle. -/
theorem recurs_euclidean (steps pulses rotation : Int) (h : Recurs r n) :
    Recurs (euclidean steps pulses rotation r) n := by
  intro cycle
  funext span
  refine bind_congr fun width => bind_congr fun mask => slots_congr (fun r' hr' => ?_) _ _ 0
  obtain ⟨hit, -, rfl⟩ := List.mem_map.mp hr'
  cases hit with
  | true => exact h cycle
  | false => rfl

/-! ### Repetition -/

/-- Gathering from a later cycle on gathers what is so much later. -/
theorem gatherFrom_shift (f : Int → Drawing σ (List Event)) (k : Int) (count : Nat) (first : Int) :
    gatherFrom f count (first + k) = gatherFrom (fun c => f (c + k)) count first := by
  induction count generalizing first with
  | zero => rfl
  | succ count ih => rw [gatherFrom, gatherFrom, Int.add_right_comm, ih]

/-- After as many cycles as the denominator of the factor says, as many cycles
of the subject are over as the numerator says. -/
theorem recurs_repeated (factor : Rat) (h : Recurs r n) :
    Recurs (repeated factor r) (factor.den * n) := by
  intro cycle
  funext span
  have hturns : ∀ c : Int, ((c + (factor.den * n : Nat) : Int) : Rat) * factor =
      c * factor + ((factor.num * n : Int) : Rat) := by
    intro c
    have hfactor : (factor.den : Rat) * factor = factor.num := by
      rw [mul_comm]
      exact Rat.mul_den_eq_num factor
    push_cast
    rw [add_mul, mul_right_comm, hfactor]
  have hnext : cycle + (factor.den * n : Nat) + 1 = cycle + 1 + (factor.den * n : Nat) := by omega
  have hsubject : ∀ c : Int, r (c + factor.num * n) = r c := Function.Periodic.int_mul h factor.num
  simp only [repeated, hnext, hturns, Rat.floor_add_intCast, Rat.ceil_add_intCast,
    gatherFrom_shift, hsubject, add_sub_add_right_eq_sub]
  -- the slots lie as far after the origin as before
  simp only [Int.cast_add, add_sub_add_right_eq_sub]

/-! ### Events -/

/-- Playing backwards recurs with its subject. -/
theorem recurs_reversed (h : Recurs r n) : Recurs (reversed r) n := by
  intro cycle
  funext span
  simp only [reversed, h cycle]

/-- So does a palindrome. -/
theorem recurs_palindrome (h : Recurs r n) : Recurs (palindrome r) n := by
  intro cycle
  funext span
  simp only [palindrome, h cycle]

/-- So does cutting into pieces. -/
theorem recurs_chopped (parts : Int) (h : Recurs r n) : Recurs (chopped parts r) n := by
  intro cycle
  funext span
  simp only [chopped, h cycle]

/-- So does dropping events, from the same draws. -/
theorem recurs_degraded (draw : σ → Rat × σ) (probability : Float) (h : Recurs r n) :
    Recurs (degraded draw probability r) n := by
  intro cycle
  funext span
  simp only [degraded, h cycle]

/-- So does arithmetic. -/
theorem recurs_calculated (op : Operator) (operand : Value) (h : Recurs r n) :
    Recurs (calculated op operand r) n := by
  intro cycle
  funext span
  simp only [calculated, h cycle]

end Rendering

/-! ## Transforms -/

namespace Setting

open Rendering

variable {σ : Type} {s : Setting σ} {operands : List Value} {last : Rendering σ → Rendering σ}
  {subject : Rendering σ} {lastPeriod : Nat → Nat} {n : Nat}

/-- Children of groups take turns. -/
def TakesTurns (s : Setting σ) : Prop :=
  ∀ cycle count, s.choose cycle count = Policy.roundRobin cycle count .nothing

/-- After a number of rounds it is the same child's turn. -/
theorem TakesTurns.choose_add (h : s.TakesTurns) (cycle : Int) (count k : Nat) :
    s.choose (cycle + (count * k : Nat)) count = s.choose cycle count := by
  simp only [h _ _, Policy.roundRobin, Nat.cast_mul, Int.add_mul_fmod_self_left]

/-- The factor of an action is the value of its first operand. -/
theorem factor_eq {v : Value} {factor : Rat} (hv : firstOperand operands = .ok v)
    (hfactor : v.toTime = .ok factor) : Action.factor operands = factor := by
  simp [Action.factor, hv, hfactor, bind, Except.bind, Except.toOption]

/-- The place in a period is the same again after the period. -/
theorem phase_add {v : Value} (hv : firstOperand operands = .ok v) {k : Nat}
    (hk : Action.cycles operands ∣ k) (cycle : Int) : phase (cycle + k) v = phase cycle v := by
  unfold phase
  cases hcount : v.toInt with
  | error fault => rfl
  | ok count =>
    have hcycles : Action.cycles operands = max 1 count.natAbs := by
      simp [Action.cycles, hv, hcount, bind, Except.bind, Except.toOption]
    simp only [bind, Except.bind]
    split
    · rfl
    · rename_i hne
      rw [hcycles, Nat.max_eq_right (by omega)] at hk
      obtain ⟨j, hj⟩ := Int.natAbs_dvd.mp (Int.natCast_dvd_natCast.mpr hk)
      rw [hj, Int.add_mul_fmod_self_left]

/-- What an action makes of a subject returns. -/
theorem recurs_act (action : Action) (operands : List Value) (hsubject : Recurs subject n)
    (hlast : Recurs (last subject) (lastPeriod n)) :
    Recurs (s.act action operands last subject) (action.period operands lastPeriod n) := by
  cases action with
  | rev => exact recurs_reversed hsubject
  | palindrome => exact recurs_palindrome hsubject
  | fast =>
    refine recurs_decided (f := fun _ => firstOperand operands) (fun _ => rfl) fun _ v hv =>
      recurs_decided (f := fun _ => v.toTime) (fun _ => rfl) fun _ factor hfactor => ?_
    rw [Action.period, factor_eq hv hfactor]
    exact recurs_repeated factor hsubject
  | slow =>
    refine recurs_decided (f := fun _ => firstOperand operands) (fun _ => rfl) fun _ v hv =>
      recurs_decided (f := fun _ => v.toTime) (fun _ => rfl) fun _ factor hfactor => ?_
    have hinverse : (if factor = 0 then 0 else 1 / factor) = 1 / factor := by
      split <;> simp_all
    rw [Action.period, factor_eq hv hfactor, hinverse]
    exact recurs_repeated (1 / factor) hsubject
  | degrade =>
    cases operands with
    | nil => exact recurs_degraded s.draw evenChance hsubject
    | cons v _ =>
      exact recurs_decided (f := fun _ => v.toFloat) (fun _ => rfl) fun _ probability _ =>
        recurs_degraded s.draw probability hsubject
  | chop =>
    exact recurs_decided (f := fun _ => firstOperand operands) (fun _ => rfl) fun _ v _ =>
      recurs_decided (f := fun _ => v.toInt) (fun _ => rfl) fun _ parts _ =>
        recurs_chopped parts hsubject
  | every =>
    obtain ⟨hperiod, hboth⟩ :=
      Nat.lcm_dvd_iff.mp (dvd_refl (Action.every.period operands lastPeriod n))
    obtain ⟨hn, hl⟩ := Nat.lcm_dvd_iff.mp hboth
    exact recurs_decided (f := fun _ => firstOperand operands) (fun _ => rfl) fun _ v hv =>
      recurs_decided (phase_add hv hperiod) fun _ place _ =>
        recurs_ite (place = 0) (hlast.of_dvd hl) (hsubject.of_dvd hn)
  | when =>
    obtain ⟨hperiod, hboth⟩ :=
      Nat.lcm_dvd_iff.mp (dvd_refl (Action.when.period operands lastPeriod n))
    obtain ⟨hn, hl⟩ := Nat.lcm_dvd_iff.mp hboth
    exact recurs_decided (f := fun _ => firstOperand operands) (fun _ => rfl) fun _ v hv =>
      recurs_decided (phase_add hv hperiod) fun _ place _ =>
        recurs_decided (f := fun _ => secondOperand operands) (fun _ => rfl) fun _ bound _ =>
          recurs_decided (f := fun _ => Value.reachedBy place bound) (fun _ => rfl)
            fun _ reached _ => recurs_ite (reached = true) (hlast.of_dvd hl) (hsubject.of_dvd hn)
  | sometimes =>
    obtain ⟨hn, hl⟩ :=
      Nat.lcm_dvd_iff.mp (dvd_refl (Action.sometimes.period operands lastPeriod n))
    have htossed : ∀ probability : Float, Recurs (tossed s.draw probability (last subject) subject)
        (Action.sometimes.period operands lastPeriod n) := fun probability =>
      recurs_tossed s.draw probability (hlast.of_dvd hl) (hsubject.of_dvd hn)
    cases operands with
    | nil => exact htossed evenChance
    | cons v rest =>
      cases rest with
      | nil => exact htossed evenChance
      | cons _ _ =>
        exact recurs_decided (f := fun _ => v.toFloat) (fun _ => rfl) fun _ probability _ =>
          htossed probability

/-- A transform under any name recurs after the period of the name. -/
theorem recurs_applyNamed (name : String) (operands : List Value) (hsubject : Recurs subject n)
    (hlast : Recurs (last subject) (lastPeriod n)) :
    Recurs (s.applyNamed name operands last subject)
      (Value.namedPeriod s.transforms name operands lastPeriod n) := by
  unfold Value.namedPeriod
  cases hfound : s.transforms.get? name with
  | none =>
    rw [applyNamed_of_none hfound]
    exact recurs_failed _ n
  | some t =>
    rw [applyNamed_of_some hfound]
    exact recurs_act t.action operands hsubject hlast

mutual

/-- What a value makes of a subject when it is called recurs. -/
theorem recurs_called (hsubject : Recurs subject n) :
    (v : Value) → Recurs (s.called v subject) (v.calledPeriod s.transforms n)
  | .call name operands => by
      rw [Value.calledPeriod]
      exact recurs_applyNamed name operands hsubject (recurs_lastCalled hsubject operands)
  | .pattern (.transform _ name operands) => by
      rw [Value.calledPeriod]
      exact recurs_applyNamed name operands hsubject (recurs_lastCalled hsubject operands)
  | .number _ | .text _ | .flag _ | .nothing | .tuple _ | .pattern (.leaf _)
  | .pattern (.sequence _) | .pattern (.parallel _) | .pattern (.euclidean ..)
  | .pattern (.modulation ..) | .pattern (.operation ..) | .pattern (.stray _) =>
      recurs_failed _ _

/-- So does what the last operand makes of it. -/
theorem recurs_lastCalled (hsubject : Recurs subject n) :
    (vs : List Value) → Recurs (s.lastCalled vs subject) (Value.lastPeriod s.transforms vs n)
  | [] => recurs_failed _ _
  | [v] => by
      rw [Value.lastPeriod]
      exact recurs_called hsubject v
  | _ :: v :: vs => by
      rw [Value.lastPeriod]
      exact recurs_lastCalled hsubject (v :: vs)

end

/-- Arithmetic or repetition. -/
theorem recurs_operated (onNumber : Bool) (sign : String) (operand : Value)
    (hsubject : Recurs subject n) :
    Recurs (Rendering.operated onNumber sign operand subject)
      (if sign == Operator.times.sign && !onNumber then (Action.factor [operand]).den * n
        else n) := by
  cases hrep : sign == Operator.times.sign && !onNumber with
  | true =>
    rw [operated_repeats hrep]
    refine recurs_decided (f := fun _ => operand.toTime) (fun _ => rfl) fun _ factor hfactor => ?_
    rw [if_pos rfl, factor_eq rfl hfactor]
    exact recurs_repeated factor hsubject
  | false =>
    rw [if_neg Bool.false_ne_true]
    cases hop : Operator.ofSign? sign with
    | none =>
      rw [operated_fails hrep hop]
      exact recurs_failed _ n
    | some op =>
      rw [operated_calculates hrep hop]
      exact recurs_calculated op operand hsubject

end Setting

/-! ## Patterns -/

variable {σ : Type} {s : Setting σ} {F : Fragment}

mutual

/-- A pattern without waves, in which children take turns, plays the same again
after its period, from the same state of the draws. -/
theorem Pattern.recurs_render (hturns : s.TakesTurns) (hF : ¬F.sliding) :
    (p : Pattern) → p.Within F s.transforms →
      Rendering.Recurs (p.render s) (p.period s.transforms)
  | .leaf _, _ => Rendering.recurs_of_eq (fun _ _ => rfl) _
  | .sequence children, hp =>
      Rendering.recurs_sequence (Pattern.recurs_renderAll hturns hF children hp)
  | .parallel children, hp => by
      rw [Pattern.render, Pattern.period, ← Pattern.length_renderAll s children]
      exact Rendering.recurs_parallel (fun cycle => hturns.choose_add cycle _ _)
        (Pattern.recurs_renderAll hturns hF children hp)
  | .transform child name operands, hp => by
      have hchild := child.recurs_render hturns hF hp.1
      exact Setting.recurs_applyNamed name operands hchild
        (Setting.recurs_lastCalled hchild operands)
  | .euclidean steps pulses rotation child, hp =>
      Rendering.recurs_euclidean steps pulses rotation (child.recurs_render hturns hF hp)
  | .modulation _ _ _, hp => absurd hp.1 hF
  | .operation child sign operand, hp =>
      Setting.recurs_operated child.isNumberLeaf sign operand (child.recurs_render hturns hF hp)
  | .stray _, _ => Rendering.recurs_failed _ _

/-- Patterns together recur after their common period. -/
theorem Pattern.recurs_renderAll (hturns : s.TakesTurns) (hF : ¬F.sliding) :
    (ps : List Pattern) → Pattern.AllWithin F s.transforms ps →
      ∀ r ∈ Pattern.renderAll s ps, Rendering.Recurs r (Pattern.commonPeriod s.transforms ps)
  | [], _, r, hr => absurd hr List.not_mem_nil
  | p :: ps, hps, r, hr => by
      rw [Pattern.commonPeriod]
      rw [Pattern.renderAll, List.mem_cons] at hr
      cases hr with
      | inl here =>
        rw [here]
        exact (p.recurs_render hturns hF hps.1).of_dvd (Nat.dvd_lcm_left ..)
      | inr later =>
        exact (Pattern.recurs_renderAll hturns hF ps hps.2 r later).of_dvd (Nat.dvd_lcm_right ..)

end

/-- A name stays in the fragment without random draws if what it stands for
draws nothing. -/
theorem Fragment.names_fixed {known : Registry Transform} {name : String} {t : Transform}
    (h : known.get? name = some t) (hdraws : t.action ≠ .degrade ∧ t.action ≠ .sometimes) :
    Fragment.fixed.Names known name := names_of_applies h hdraws

/-! ## Queries -/

/-- Without random transforms a pattern plays the same from any draws. -/
theorem Pattern.eventsIn_eq {p : Pattern} (hp : p.Within .fixed s.transforms) (state state' : σ)
    (cycle : Int) (arc : Option Arc) :
    p.eventsIn s state cycle arc = p.eventsIn s state' cycle arc := by
  obtain ⟨outcome, houtcome⟩ := p.fixed_render Fragment.isCertain_fixed hp cycle Span.cycle
  unfold Pattern.eventsIn
  rw [houtcome]
  cases outcome <;> rfl

namespace Performance

/-- Under the round-robin policy a performance takes turns. -/
theorem takesTurns_setting (perf : Performance) : (perf.setting Policy.roundRobin).TakesTurns :=
  fun _ _ => rfl

/-- A cycle that can be written has its stream if the seed can be written too. -/
theorem stream_of_writable {perf : Performance} (hseed : perf.seed.isWritable = true) {cycle : Int}
    (hcycle : (Number.int cycle).isWritable = true) : ∃ stream, perf.stream cycle = .ok stream := by
  cases hstream : perf.stream cycle with
  | ok stream => exact ⟨stream, rfl⟩
  | error fault =>
    have hlong := (stream_eq_error_iff.mp hstream).2
    simp [hseed, hcycle] at hlong

/-- **Periods**: a pattern without waves and random transforms, in which
children take turns, has a period.  A query for a cycle and one for the cycle a
period later end alike, with the same events or the same fault, if both cycles
can be written or neither; a query for a cycle that cannot be written fails. -/
theorem query_periodic {perf : Performance}
    (hturns : perf.choice.resolve perf.policies = .ok Policy.roundRobin) {p : Pattern}
    (hp : p.Within .fixed perf.transforms) :
    0 < p.period perf.transforms ∧
    (∀ (cycle : Int) (arc : Option Arc),
      (Number.int (cycle + p.period perf.transforms)).isWritable = (Number.int cycle).isWritable →
        perf.query p (cycle + p.period perf.transforms) arc = perf.query p cycle arc) ∧
    ∀ (cycle : Int) (arc : Option Arc), (Number.int cycle).isWritable = false →
      perf.query p cycle arc = .error .unwritable := by
  have hlong : ∀ (cycle : Int) (arc : Option Arc),
      (perf.seed.isWritable && (Number.int cycle).isWritable) = false →
        perf.query p cycle arc = .error .unwritable :=
    fun cycle arc => query_error_of_long hturns
  refine ⟨p.period_pos perf.transforms, fun cycle arc hboth => ?_, fun cycle arc hcycle =>
    hlong cycle arc (by rw [hcycle, Bool.and_false])⟩
  cases hwritable : perf.seed.isWritable && (Number.int cycle).isWritable with
  | false => rw [hlong cycle arc hwritable, hlong _ arc (by rw [hboth, hwritable])]
  | true =>
    obtain ⟨hseed, hcycle⟩ := Bool.and_eq_true_iff.mp hwritable
    obtain ⟨stream, hstream⟩ := stream_of_writable hseed hcycle
    obtain ⟨stream', hstream'⟩ := stream_of_writable hseed (hboth.trans hcycle)
    have hrender := p.recurs_render (perf.takesTurns_setting) not_false hp cycle
    simp only [query, hturns, hstream, hstream', bind, Except.bind]
    calc p.eventsIn (perf.setting Policy.roundRobin) stream' (cycle + p.period perf.transforms) arc
        = p.eventsIn (perf.setting Policy.roundRobin) stream' cycle arc := by
          unfold Pattern.eventsIn
          rw [← hrender]
          rfl
      _ = p.eventsIn (perf.setting Policy.roundRobin) stream cycle arc :=
          Pattern.eventsIn_eq hp stream' stream cycle arc

/-- Three children that take turns, at one and a half times the speed in every
second cycle: after six cycles they are back, also before cycle zero. -/
theorem query_periodic_turns :
    let p := Pattern.transform (.parallel [.leaf (.text "a"), .leaf (.text "b"), .leaf (.text "c")])
      "every" [.int 2, .call "fast" [.number (.ratio (3 / 2))]]
    p.period Transform.builtin = 6 ∧
      (Number.int (-5 + p.period Transform.builtin)).isWritable = (Number.int (-5)).isWritable ∧
      default.query p (-5 + p.period Transform.builtin) none = default.query p (-5) none := by
  intro p
  have hperiod : p.period Transform.builtin = 6 := by decide +kernel
  have hp : p.Within .fixed default.transforms := by
    refine ⟨⟨trivial, trivial, trivial, trivial⟩, Fragment.names_fixed rfl (by decide), ?_⟩
    simp only [Value.LastWithin, Value.CallsWithin]
    exact ⟨Fragment.names_fixed rfl (by decide), trivial⟩
  have hboth : (Number.int (-5 + p.period Transform.builtin)).isWritable =
      (Number.int (-5)).isWritable := by
    rw [hperiod]
    decide +kernel
  exact ⟨hperiod, hboth, (query_periodic rfl hp).2.1 (-5) none hboth⟩

/-- The last cycle that can be written is found, the next ones are not: no
number of cycles is a period for all of them. -/
theorem leaf_aperiodic :
    (Pattern.leaf (.text "a")).Within .fixed default.transforms ∧
    ¬∃ n : Nat, 0 < n ∧ ∀ cycle : Int,
      default.query (.leaf (.text "a")) (cycle + n) none =
        default.query (.leaf (.text "a")) cycle none := by
  refine ⟨trivial, ?_⟩
  rintro ⟨n, hn, h⟩
  have hpositive : ∀ k, 0 < Nat.pow 10 k := fun k => Nat.pow_pos (by decide)
  have hlimit := hpositive Fault.digitLimit
  specialize h (Nat.pow 10 Fault.digitLimit - 1 : Nat)
  have hlong : (Number.int ((Nat.pow 10 Fault.digitLimit - 1 : Nat) + n)).isWritable = false := by
    rw [← Nat.cast_add]
    exact isWritable_of_le (by omega)
  have hshort : (Number.int (Nat.pow 10 Fault.digitLimit - 1 : Nat)).isWritable = true := by
    change Number.isShort ((Nat.pow 10 Fault.digitLimit - 1 : Nat) : Int).natAbs = true
    rw [Int.natAbs_natCast]
    exact decide_eq_true (by omega)
  have hseed : default.seed.isWritable = true := by decide +kernel
  have hpolicy : default.choice.resolve default.policies = .ok Policy.roundRobin := rfl
  obtain ⟨stream, hstream⟩ := stream_of_writable hseed hshort
  have hfound := query_of_render hpolicy hstream
    (rfl : (Pattern.leaf (.text "a")).render (default.setting Policy.roundRobin) _ Span.cycle =
      pure [⟨.text "a", Span.cycle, none, none⟩])
  rw [query_error_of_long rfl (by rw [hlong, Bool.and_false]), hfound] at h
  nomatch h

end Performance

end Ostinato
