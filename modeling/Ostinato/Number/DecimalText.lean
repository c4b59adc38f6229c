import Ostinato.Number.Shortest

/-!
# Ostinato.Number.DecimalText

Doubles in decimal notation, in two forms:

1. in full: the fewest digits that read back.  The point stands inside or
   beside the digits while the leading one has an exponent from -4 to 15, and
   at least one digit stands on each side of it; otherwise an exponent of at
   least two digits and its sign follow the letter `e`;
2. with three places: rounded from the exact value, a half to the even side.

Both write negative zero with its sign, and the words `inf` and `nan`.
-/

namespace Ostinato.Double

/-- The decimal digits of a natural number. -/
def digitsOf (n : Nat) : List Char := Nat.toDigits 10 n

/-- Digits with the point after the first `before` of them, filled up with
zeros on the side that lacks digits. -/
def positional (digits : List Char) (before : Int) : List Char :=
  if before ≤ 0 then '0' :: '.' :: List.replicate before.natAbs '0' ++ digits
  else
    let whole := digits.take before.toNat
    let rest := digits.drop before.toNat
    let filled := whole ++ List.replicate (before.toNat - whole.length) '0'
    filled ++ '.' :: (if rest.isEmpty then ['0'] else rest)

/-- Digits with the point after the first, and the exponent of that one. -/
def scientific (digits : List Char) (exponent : Int) : List Char :=
  let mantissa := match digits with
    | first :: rest@(_ :: _) => first :: '.' :: rest
    | _ => digits
  let size := digitsOf exponent.natAbs
  mantissa ++ 'e' :: (if exponent < 0 then '-' else '+') ::
    (List.replicate (2 - size.length) '0' ++ size)

/-- The magnitude of a finite double in full. -/
def magnitudeText (x : Float) : List Char :=
  let (m, e) := decompose x
  if m == 0 then ['0', '.', '0'] else
  let d := (Decimal.shortest m e).strip 17
  let digits := digitsOf d.digits
  let leading := d.exponent + digits.length - 1
  if -4 ≤ leading && leading < 16 then positional digits (leading + 1)
  else scientific digits leading

/-- A double whose magnitude is written by `finite`. -/
def signedText (finite : Float → List Char) (x : Float) : String :=
  if isNaN x then "nan" else
  let magnitude := if isFinite x then finite x else ['i', 'n', 'f']
  String.ofList (if isNegative x then '-' :: magnitude else magnitude)

/-- A double in full. -/
def text (x : Float) : String := signedText magnitudeText x

/-- The magnitude of a finite double in thousandths. -/
def thousandths (x : Float) : Nat :=
  let (m, e) := decompose x
  let (num, den) := Decimal.onGrid m e (-3)
  roundQuotient num den

/-- A double with three places. -/
def fixedText (x : Float) : String :=
  signedText (fun x =>
    let n := thousandths x
    let places := digitsOf (n % 1000)
    digitsOf (n / 1000) ++ '.' :: (List.replicate (3 - places.length) '0' ++ places)) x

end Ostinato.Double
