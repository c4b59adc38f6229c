import Ostinato.Fault
import Ostinato.Unicode.DecimalDigit
import Ostinato.Unicode.Space
import Ostinato.Number.Double

/-!
# Ostinato.Number.Numeral

Numbers written in text.  Three readings share the same words:

* an integer is a sign and digits;
* a double is a sign, digits with a point among them and an exponent, or one
  of the words for infinity and NaN;
* a fraction is a sign and either two integers around a slash or a decimal.

Digits of every script count, a low line may stand between two digits, and
white space around the numeral is dropped.  The number of digits of an integer
is limited; longer ones can still be read as doubles.
-/

namespace Ostinato.Numeral

/-- White space that may surround an integer or a double.  The information
separators are not among it. -/
def isBlank (c : Char) : Bool :=
  if c.toNat < 128 then c == ' ' || 9 ≤ c.toNat && c.toNat ≤ 13 else Unicode.isSpace c

/-- Text without the characters of one class at its ends. -/
def trim (blank : Char → Bool) (s : String) : List Char :=
  ((s.toList.dropWhile blank).reverse.dropWhile blank).reverse

/-- Whether a minus sign stands in front, and what follows the sign. -/
def takeSign : List Char → Bool × List Char
  | '-' :: cs => (true, cs)
  | '+' :: cs => (false, cs)
  | cs => (false, cs)

/-- The digits in front and what follows them.  `inside` tells that a digit
came just before, so that a low line before another digit is passed over. -/
def digitRun (inside : Bool) : List Char → List Nat × List Char
  | [] => ([], [])
  | c :: cs =>
    if inside && c == '_' && (cs.head?.bind Unicode.digitValue?).isSome then digitRun false cs
    else match Unicode.digitValue? c with
      | some d => let (ds, rest) := digitRun true cs; (d :: ds, rest)
      | none => ([], c :: cs)

/-- The number that digits stand for, most significant first. -/
def ofDigits (ds : List Nat) : Nat := ds.foldl (fun n d => 10 * n + d) 0

/-- A natural number with its sign. -/
def signed (negative : Bool) (n : Nat) : Int := if negative then -(n : Int) else n

/-- The number that digits stand for, if there are not too many. -/
def limited (ds : List Nat) : Except Fault Nat :=
  if ds.length ≤ Fault.digitLimit then .ok (ofDigits ds) else .error (.tooManyDigits ds.length)

/-- Reads an integer.  Too many digits are reported as such whatever follows
them, unless that is a misplaced low line. -/
def readInt (s : String) : Except Fault Int :=
  let (negative, cs) := takeSign (trim isBlank s)
  match digitRun false cs with
  | ([], _) => .error (.unreadable .integer s)
  | (_, '_' :: _) => .error (.unreadable .integer s)
  | (ds, rest) => do
    let n ← limited ds
    if rest.isEmpty then .ok (signed negative n) else .error (.unreadable .integer s)

/-- Digits of a decimal and the power of ten that scales them. -/
structure Decimals where
  digits : List Nat
  scale : Int

/-- The exponent in front: whether it is negative, and its digits, of which
there are none if there is no exponent.  Also what follows it. -/
def takeExponent : List Char → Option ((Bool × List Nat) × List Char)
  | c :: cs =>
    if c == 'e' || c == 'E' then
      let (negative, cs) := takeSign cs
      match digitRun false cs with
      | ([], _) => none
      | (ds, rest) => some ((negative, ds), rest)
    else some ((false, []), c :: cs)
  | [] => some ((false, []), [])

/-- An unsigned decimal in front and what follows it. -/
def takeDecimals (cs : List Char) : Option (Decimals × List Char) := do
  let (whole, rest) := digitRun false cs
  let (places, rest) := match rest with
    | '.' :: cs => digitRun false cs
    | _ => ([], rest)
  if whole.isEmpty && places.isEmpty then none
  let ((negative, exponent), rest) ← takeExponent rest
  some (⟨whole ++ places, signed negative (ofDigits exponent) - places.length⟩, rest)

/-- The double nearest to a decimal.  Far beyond the range of doubles the
power of ten need not be computed. -/
def Decimals.toFloat (d : Decimals) : Float :=
  let digits := d.digits.dropWhile (· == 0)
  let top := d.scale + digits.length
  if digits.isEmpty || top < -400 then 0.0
  else if 400 < top then Double.infinity
  else
    let n := ofDigits digits
    let q := if d.scale < 0 then mkRat n (Nat.pow 10 d.scale.natAbs)
      else (n * Nat.pow 10 d.scale.natAbs : Nat)
    (Double.ofRat? q).getD Double.infinity

/-- The value of a word that stands for a double. -/
def wordValue? (cs : List Char) : Option Float :=
  match String.ofList (cs.map Char.toLower) with
  | "inf" => some Double.infinity
  | "infinity" => some Double.infinity
  | "nan" => some Double.nan
  | _ => none

/-- Reads a double. -/
def readFloat? (s : String) : Option Float :=
  let (negative, cs) := takeSign (trim isBlank s)
  let magnitude := match takeDecimals cs with
    | some (d, []) => some d.toFloat
    | _ => wordValue? cs
  magnitude.map fun x => if negative then -x else x

/-! ## Fractions -/

/-- The parts of an unsigned fraction as written. -/
structure FractionParts where
  whole : List Nat
  /-- The digits under the slash, if there is one. -/
  under : Option (List Nat)
  /-- The digits after the point. -/
  places : List Nat
  /-- Letters that stand in for the digits after the point. -/
  letters : List Char
  exponent : Bool × List Nat

/-- The one letter, in both cases, that may stand where places are expected.
It has no value, so a fraction with such places is refused only once its
integers are read. -/
def isPlaceLetter (c : Char) : Bool := c == 'd' || c == 'D'

/-- The places after a point: digits or letters, and what follows them. -/
def takePlaces : List Char → (List Nat × List Char) × List Char
  | '.' :: cs =>
    match digitRun false cs with
    | ([], _) => (([], cs.takeWhile isPlaceLetter), cs.dropWhile isPlaceLetter)
    | (ds, rest) => ((ds, []), rest)
  | cs => (([], []), cs)

/-- The parts of a fraction that fills the text. -/
def fractionParts? (cs : List Char) : Option FractionParts :=
  match digitRun false cs with
  | (whole@(_ :: _), '/' :: below) =>
    match digitRun false below with
    | (under@(_ :: _), []) => some ⟨whole, some under, [], [], (false, [])⟩
    | _ => none
  | (whole, rest) =>
    let ((places, letters), rest) := takePlaces rest
    if whole.isEmpty && places.isEmpty then none
    else match takeExponent rest with
      | some (exponent, []) => some ⟨whole, none, places, letters, exponent⟩
      | _ => none

/-- A fraction from a numerator and a denominator as written. -/
def quotient (num : Int) (den : Nat) : Except Fault Rat :=
  if den = 0 then .error (.quotientByZero num) else .ok (mkRat num den)

/-- The number that the parts of a fraction stand for. -/
def FractionParts.value (negative : Bool) (p : FractionParts) : Except Fault Rat := do
  let whole ← limited p.whole
  match p.under with
  | some under => quotient (signed negative whole) (← limited under)
  | none => do
    if !p.letters.isEmpty then throw (.unreadable .integer (String.ofList p.letters))
    let places ← limited p.places
    let exponent ← limited p.exponent.2
    let scale := Nat.pow 10 p.places.length
    let power := Nat.pow 10 exponent
    let n := signed negative (whole * scale + places)
    if p.exponent.1 then quotient n (scale * power) else quotient (n * (power : Nat)) scale

/-- Reads a fraction. -/
def readFraction (s : String) : Except Fault Rat :=
  let (negative, cs) := takeSign (trim Unicode.isSpace s)
  match fractionParts? cs with
  | some p => p.value negative
  | none => .error (.unreadable .fraction s)

end Ostinato.Numeral
