import Ostinato.Rendering.Basic
import Ostinato.Transform

/-!
# Ostinato.Rendering.Setting

Patterns as renderings, in a setting that supplies random draws, picks among
the children of parallel groups, and knows the transforms by name.

A conditional transform is followed by a call of another one, which is its
last operand; that call is looked up only in the cycles in which it applies.
-/

namespace Ostinato

/-- What a pattern needs from outside to be rendered. -/
structure Setting (σ : Type) where
  /-- Draws a number from zero up to, not including, one. -/
  draw : σ → Rat × σ
  /-- Picks by cycle among a number of children. -/
  choose : Int → Int → Except Fault Int
  transforms : Registry Transform

namespace Setting

variable {σ : Type}

/-- The first operand. -/
def firstOperand : List Value → Except Fault Value
  | [] => .error .missingOperand
  | v :: _ => .ok v

/-- The second operand. -/
def secondOperand : List Value → Except Fault Value
  | _ :: v :: _ => .ok v
  | _ => .error .missingOperand

/-- The place of a cycle in a period. -/
def phase (cycle : Int) (period : Value) : Except Fault Int := do
  let n ← period.toInt
  if n = 0 then .error .moduloByZero else .ok (cycle.fmod n)

/-- The chance of random transforms that name none. -/
def evenChance : Float := 0.5

/-- The rendering that an action with its operands makes of a subject.  `last`
is the transform that the last operand calls. -/
def act (s : Setting σ) (action : Action) (operands : List Value)
    (last : Rendering σ → Rendering σ) (subject : Rendering σ) : Rendering σ := fun cycle span =>
  match action with
  | .rev => Rendering.reversed subject cycle span
  | .palindrome => Rendering.palindrome subject cycle span
  | .fast => do
    let factor ← (← firstOperand operands).toTime
    Rendering.repeated factor subject cycle span
  | .slow => do
    let factor ← (← firstOperand operands).toTime
    Rendering.repeated (if factor = 0 then 0 else 1 / factor) subject cycle span
  | .degrade => do
    let probability ← match operands with
      | [] => pure evenChance
      | v :: _ => liftM v.toFloat
    Rendering.degraded s.draw probability subject cycle span
  | .chop => do
    let parts ← (← firstOperand operands).toInt
    Rendering.chopped parts subject cycle span
  | .every => do
    let place ← phase cycle (← firstOperand operands)
    if place = 0 then last subject cycle span else subject cycle span
  | .when => do
    let place ← phase cycle (← firstOperand operands)
    if ← (Value.reachedBy place (← secondOperand operands)) then last subject cycle span
    else subject cycle span
  | .sometimes => do
    let probability ← match operands with
      | v :: _ :: _ => liftM v.toFloat
      | _ => pure evenChance
    let x ← fun state => pure (s.draw state)
    if (Number.ratio x).less (.float probability) then last subject cycle span
    else subject cycle span

/-- The rendering that a transform makes of a subject, looked up by name. -/
def applyNamed (s : Setting σ) (name : String) (operands : List Value)
    (last : Rendering σ → Rendering σ) (subject : Rendering σ) : Rendering σ := fun cycle span =>
  match s.transforms.get? name with
  | none => throw (.unknownTransform name)
  | some t => s.act t.action operands last subject cycle span

mutual

/-- The transform that a value calls.  A transformed pattern, used as a value,
calls the same transform again. -/
def called (s : Setting σ) : Value → Rendering σ → Rendering σ
  | .call name operands, subject => s.applyNamed name operands (lastCalled s operands) subject
  | .pattern (.transform _ name operands), subject =>
    s.applyNamed name operands (lastCalled s operands) subject
  | v, _ => Rendering.failed (.notACall v.kind)
termination_by structural v => v

/-- The transform that the last operand calls. -/
def lastCalled (s : Setting σ) : List Value → Rendering σ → Rendering σ
  | [], _ => Rendering.failed .missingOperand
  | [v], subject => called s v subject
  | _ :: v :: vs, subject => lastCalled s (v :: vs) subject
termination_by structural vs => vs

end

end Setting

/-- Whether arithmetic applies to the pattern itself: a leaf with a number. -/
def Pattern.isNumberLeaf : Pattern → Bool
  | .leaf v => v.isNumber
  | _ => false

/-- The rendering of arithmetic or, for a star after anything but a number,
of repetition. -/
def Rendering.operated {σ : Type} (onNumber : Bool) (sign : String) (operand : Value)
    (subject : Rendering σ) : Rendering σ := fun cycle span =>
  if sign == Operator.times.sign && !onNumber then do
    let factor ← operand.toTime
    Rendering.repeated factor subject cycle span
  else
    match Operator.ofSign? sign with
    | some op => Rendering.calculated op operand subject cycle span
    | none => throw (.unknownOperator sign)

mutual

/-- The rendering of a pattern. -/
def Pattern.render {σ : Type} (s : Setting σ) : Pattern → Rendering σ
  | .leaf value => Rendering.leaf value
  | .sequence children => Rendering.sequence (Pattern.renderAll s children)
  | .parallel children => Rendering.parallel s.choose (Pattern.renderAll s children)
  | .transform child name operands =>
    s.applyNamed name operands (s.lastCalled operands) (child.render s)
  | .euclidean steps pulses rotation child =>
    Rendering.euclidean steps pulses rotation (child.render s)
  | .modulation child amount rate => Rendering.modulated amount rate (child.render s)
  | .operation child sign operand =>
    Rendering.operated child.isNumberLeaf sign operand (child.render s)
  | .stray value => Rendering.failed (.notAPattern value.shown)

/-- The renderings of several patterns. -/
def Pattern.renderAll {σ : Type} (s : Setting σ) : List Pattern → List (Rendering σ)
  | [] => []
  | p :: ps => p.render s :: Pattern.renderAll s ps

end

/-- Rendering all is rendering each. -/
theorem Pattern.renderAll_eq_map {σ : Type} (s : Setting σ) (ps : List Pattern) :
    Pattern.renderAll s ps = ps.map (·.render s) := by
  induction ps with
  | nil => rfl
  | cons p ps ih => simp [Pattern.renderAll, ih]

end Ostinato
