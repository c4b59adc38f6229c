/-!
# Ostinato.Number.Double

Binary floating point of 64 bits, seen through exact rationals.  A finite
double is a fraction whose denominator is a power of two; a rational becomes
the nearest double, ties going to the even significand, or none where the
nearest would lie beyond the largest finite one.
-/

namespace Ostinato.Double

/-- Fifty-two stored bits of the significand. -/
def fraction (x : Float) : Nat := (x.toBits &&& 0xFFFFFFFFFFFFF).toNat

/-- Eleven bits of the exponent. -/
def exponentField (x : Float) : Nat := ((x.toBits >>> 52) &&& 0x7FF).toNat

/-- The sign bit, which negative zero has too. -/
def isNegative (x : Float) : Bool := x.toBits >>> 63 == 1

/-- Neither an infinity nor a NaN. -/
def isFinite (x : Float) : Bool := exponentField x != 0x7FF

/-- The number that is not equal to itself. -/
def isNaN (x : Float) : Bool := !isFinite x && fraction x != 0

/-- Significand and exponent: a finite double has magnitude `m * 2 ^ e`. -/
def decompose (x : Float) : Nat × Int :=
  match exponentField x with
  | 0 => (fraction x, -1074)
  | e => (1 <<< 52 + fraction x, (e : Int) - 1075)

/-- The exact value of a finite double. -/
def toRat? (x : Float) : Option Rat :=
  if isFinite x then
    let (m, e) := decompose x
    let magnitude : Rat :=
      if e < 0 then mkRat m (1 <<< e.natAbs) else ((m <<< e.natAbs : Nat) : Int)
    some (if isNegative x then -magnitude else magnitude)
  else none

/-- A quotient of naturals rounded to the nearest, ties to the even. -/
def roundQuotient (num den : Nat) : Nat :=
  let q := num / den
  let r := 2 * (num % den)
  if r < den || (r == den && q % 2 == 0) then q else q + 1

/-- `num / den` counted in units of `2 ^ e`. -/
def inUnits (num den : Nat) (e : Int) : Nat × Nat :=
  if e < 0 then (num <<< e.natAbs, den) else (num, den <<< e.natAbs)

/-- The exponent of the last place of the double nearest to `num / den`:
53 bits stand before it, fewer below the smallest normal number. -/
def lastPlace (num den : Nat) : Int :=
  let guess : Int := (num.log2 : Int) - den.log2 - 53
  let (n, d) := inUnits num den guess
  let e := if n / d < 1 <<< 53 then guess else guess + 1
  if e < -1074 then -1074 else e

/-- The bits of the double nearest to a positive quotient, as a number that
grows with the quotient and runs on beyond the largest finite double. -/
def magnitudeBits (num den : Nat) : Nat :=
  let e := lastPlace num den
  let (n, d) := inUnits num den e
  (e + 1074).toNat <<< 52 + roundQuotient n d

/-- The nearest double, or none if that is too large to be finite. -/
def ofRat? (q : Rat) : Option Float :=
  if q.num = 0 then some 0.0 else
  let bits := magnitudeBits q.num.natAbs q.den
  if bits < 0x7FF <<< 52 then
    let x := Float.ofBits bits.toUInt64
    some (if q.num < 0 then -x else x)
  else none

/-- The nearest double of an integer, or none if that is too large. -/
def ofInt? (n : Int) : Option Float := ofRat? n

/-- Positive infinity. -/
def infinity : Float := Float.ofBits 0x7FF0000000000000

/-- The quiet NaN. -/
def nan : Float := Float.ofBits 0x7FF8000000000000

end Ostinato.Double
