import Ostinato.Number.Basic

/-!
# Ostinato.Number.Arithmetic

The four operators on numbers.

1. Integers stay integers, and an integer with a fraction is a fraction; both
   are exact.
2. As soon as one side is a double, the other becomes one, if it is not too
   large for that, and the result is a double.
3. The remainder has the sign of the divisor, for doubles too, where a zero
   remainder takes the divisor's sign; a divisor of zero is an error.
-/

namespace Ostinato

/-- The operators that apply to numbers. -/
inductive Operator where
  | times
  | plus
  | minus
  | modulo
deriving DecidableEq, Repr

namespace Operator

/-- The sign that stands for an operator. -/
def sign : Operator → String
  | times => "*"
  | plus => "+"
  | minus => "-"
  | modulo => "%"

/-- The operator that a sign stands for. -/
def ofSign? : String → Option Operator
  | "*" => some times
  | "+" => some plus
  | "-" => some minus
  | "%" => some modulo
  | _ => none

/-- Every operator is found by its sign. -/
theorem ofSign?_sign (op : Operator) : ofSign? op.sign = some op := by
  cases op <;> rfl

/-! ## Integers and fractions -/

/-- An operator on integers. -/
def onInt : Operator → Int → Int → Except Fault Int
  | times, a, b => .ok (a * b)
  | plus, a, b => .ok (a + b)
  | minus, a, b => .ok (a - b)
  | modulo, a, b => if b = 0 then .error .moduloByZero else .ok (a.fmod b)

/-- Only a remainder by zero fails. -/
theorem onInt_ok {op : Operator} {a b : Int} (nonzero : op = .modulo → b ≠ 0) :
    ∃ n, onInt op a b = .ok n := by
  cases op with
  | modulo => exact ⟨_, if_neg (nonzero rfl)⟩
  | _ => exact ⟨_, rfl⟩

/-- The remainder of a fraction, with the sign of the divisor. -/
def ratioModulo (a b : Rat) : Rat := a - b * (a / b).floor

/-- An operator on fractions. -/
def onRatio : Operator → Rat → Rat → Except Fault Rat
  | times, a, b => .ok (a * b)
  | plus, a, b => .ok (a + b)
  | minus, a, b => .ok (a - b)
  | modulo, a, b => if b = 0 then .error .moduloByZero else .ok (ratioModulo a b)

/-- Exact arithmetic fails only for a remainder by zero. -/
theorem onRatio_ok {op : Operator} {a b : Rat} (nonzero : op = .modulo → b ≠ 0) :
    ∃ q, onRatio op a b = .ok q := by
  cases op with
  | modulo => exact ⟨_, if_neg (nonzero rfl)⟩
  | _ => exact ⟨_, rfl⟩

/-! ## Doubles -/

/-- The remainder of two doubles with the sign of the first, exact for finite
ones.  Zero comes out positive. -/
def floatRemainder (x y : Float) : Float :=
  match Double.toRat? x, Double.toRat? y with
  | some a, some b => (Double.ofRat? (a - b * Number.truncate (a / b))).getD x
  | some _, none => if Double.isNaN y then y else x
  | none, _ => if Double.isNaN x then x else Double.nan

/-- The remainder of two doubles with the sign of the second. -/
def floatModulo (x y : Float) : Float :=
  let r := floatRemainder x y
  if r == 0.0 then (if Double.isNegative y then -0.0 else 0.0)
  else if decide (y < 0.0) != decide (r < 0.0) then r + y
  else r

/-- An operator on doubles. -/
def onFloat : Operator → Float → Float → Except Fault Float
  | times, x, y => .ok (x * y)
  | plus, x, y => .ok (x + y)
  | minus, x, y => .ok (x - y)
  | modulo, x, y => if y == 0.0 then .error .doubleModuloByZero else .ok (floatModulo x y)

/-- So does arithmetic with doubles. -/
theorem onFloat_ok {op : Operator} {x y : Float} (nonzero : op = .modulo → (y == 0.0) = false) :
    ∃ z, onFloat op x y = .ok z := by
  cases op with
  | modulo => exact ⟨_, if_neg (by simp [nonzero rfl])⟩
  | _ => exact ⟨_, rfl⟩

/-! ## All kinds -/

/-- An operator on numbers of any kinds. -/
def apply (op : Operator) : Number → Number → Except Fault Number
  | .int a, .int b => .int <$> onInt op a b
  | .int a, .ratio b => .ratio <$> onRatio op a b
  | .ratio a, .int b => .ratio <$> onRatio op a b
  | .ratio a, .ratio b => .ratio <$> onRatio op a b
  | x, y => do
    let x ← x.toFloat
    let y ← y.toFloat
    .float <$> onFloat op x y

end Operator

/-- A number with the opposite sign. -/
def Number.negate : Number → Number
  | .int n => .int (-n)
  | .float x => .float (-x)
  | .ratio q => .ratio (-q)

end Ostinato
