import Ostinato.Fault
import Ostinato.Number.ClosestFraction
import Ostinato.Number.DecimalText
import Ostinato.Number.Numeral

/-!
# Ostinato.Number.Basic

The numbers of a pattern: integers of any size, doubles, and exact fractions.
The three kinds stay apart when numbers are stored and shown, but comparisons
look at exact values only.
-/

namespace Ostinato

/-- An integer, a double, or a fraction. -/
inductive Number where
  | int (n : Int)
  | float (x : Float)
  | ratio (q : Rat)
deriving DecidableEq

namespace Number

instance : Inhabited Number := ⟨int 0⟩

/-- The name of a number's kind. -/
def kind : Number → String
  | int _ => "int"
  | float _ => "float"
  | ratio _ => "Fraction"

/-! ## Text -/

/-- A fraction as numerator and denominator around a slash, an integer alone
if the denominator is one. -/
def ratioText (q : Rat) : String :=
  if q.den = 1 then toString q.num else toString q.num ++ "/" ++ toString q.den

/-- A number as it reads inside a sentence. -/
def text : Number → String
  | int n => toString n
  | float x => Double.text x
  | ratio q => ratioText q

/-- A number as it is shown inside a pattern, where fractions carry their
name. -/
def shown : Number → String
  | ratio q => "Fraction(" ++ toString q.num ++ ", " ++ toString q.den ++ ")"
  | x => text x

/-- Whether an integer has no more digits than may be written. -/
def isShort (n : Nat) : Bool := n < Nat.pow 10 Fault.digitLimit

/-- Whether the integers in a number are short enough to be written. -/
def isWritable : Number → Bool
  | int n => isShort n.natAbs
  | float _ => true
  | ratio q => isShort q.num.natAbs && isShort q.den

/-- A number as it reads inside a sentence, where it may be too long. -/
def written (x : Number) : Except Fault String :=
  if x.isWritable then .ok x.text else .error .unwritable

/-! ## Reading -/

/-- Reads a numeral as an integer if it is one, and else as a double. -/
def ofText (s : String) : Except Fault Number :=
  match Numeral.readInt s with
  | .ok n => .ok (int n)
  | .error _ =>
    match Numeral.readFloat? s with
    | some x => .ok (float x)
    | none => .error (.unreadable .double s)

/-! ## Conversions -/

/-- The part of a rational before the point. -/
def truncate (q : Rat) : Int := q.num.tdiv q.den

/-- The nearest double. -/
def toFloat : Number → Except Fault Float
  | int n =>
    match Double.ofInt? n with
    | some x => .ok x
    | none => .error .integerTooLarge
  | float x => .ok x
  | ratio q =>
    match Double.ofRat? q with
    | some x => .ok x
    | none => .error .fractionTooLarge

/-- The integer that remains when places are cut off. -/
def toInt : Number → Except Fault Int
  | int n => .ok n
  | float x =>
    match Double.toRat? x with
    | some q => .ok (truncate q)
    | none => .error (if Double.isNaN x then .integerOfNaN else .integerOfInfinity)
  | ratio q => .ok (truncate q)

/-- Doubles become cycle time at a resolution of one millionth. -/
def timeResolution : Nat := 1000000

/-- A number as cycle time.  Integers and fractions are exact. -/
def toTime : Number → Except Fault Rat
  | int n => .ok n
  | float x =>
    match Double.toRat? x with
    | some q => .ok (closestFraction timeResolution q)
    | none => .error (if Double.isNaN x then .fractionOfNaN else .fractionOfInfinity)
  | ratio q => .ok q

/-! ## Order -/

/-- Where a number lies on the extended line. -/
inductive Extent where
  | below
  | at (q : Rat)
  | above

/-- The place of a number; NaN has none. -/
def extent? : Number → Option Extent
  | int n => some (.at n)
  | ratio q => some (.at q)
  | float x =>
    match Double.toRat? x with
    | some q => some (.at q)
    | none => if Double.isNaN x then none else some (if Double.isNegative x then .below else .above)

/-- The order of two places. -/
def Extent.compare : Extent → Extent → Ordering
  | .at x, .at y => if x < y then .lt else if x = y then .eq else .gt
  | .below, .below => .eq
  | .above, .above => .eq
  | .below, _ => .lt
  | _, .above => .lt
  | _, _ => .gt

/-- The order of two numbers by exact value.  NaN compares with nothing. -/
def compare? (x y : Number) : Option Ordering := do
  some ((← extent? x).compare (← extent? y))

/-- Equality of value across kinds. -/
def same (x y : Number) : Bool := compare? x y == some .eq

/-- Strictly less. -/
def less (x y : Number) : Bool := compare? x y == some .lt

/-- Less or equal. -/
def lessOrSame (x y : Number) : Bool :=
  match compare? x y with
  | some .lt | some .eq => true
  | _ => false

/-- The value zero, of any kind and sign. -/
def isZero (x : Number) : Bool := same x (int 0)

/-- Comparing fractions is comparing their values. -/
theorem less_ratio (p q : Rat) : less (ratio p) (ratio q) = decide (p < q) := by
  simp only [less, compare?, extent?, Extent.compare, Option.bind_eq_bind,
    Option.bind_some]
  by_cases h : p < q
  · simp [h]
  · by_cases h' : p = q <;> simp [h, h']

/-- Comparing integers is comparing their values. -/
theorem less_int (m n : Int) : less (int m) (int n) = decide (m < n) := by
  simp only [less, compare?, extent?, Extent.compare, Option.bind_eq_bind,
    Option.bind_some, Rat.intCast_lt_intCast, Rat.intCast_inj]
  by_cases h : m < n
  · simp [h]
  · by_cases h' : m = n <;> simp [h, h']

end Number

end Ostinato
