import Ostinato.Number.Double

/-!
# Ostinato.Number.Shortest

The fewest decimal digits that still determine a double.

The reals that round to a double `m * 2 ^ e` fill an interval: from halfway to
the neighbour below to halfway to the neighbour above, ends included when `m`
is even.  Among the decimal grids `10 ^ g`, from coarse to fine, the first
with a point in that interval is used.  Of two points in it the nearer one is
taken, and of two equally near the even one.  All comparisons are between
naturals.
-/

namespace Ostinato

/-- The decimal `digits * 10 ^ exponent`. -/
structure Decimal where
  digits : Nat
  exponent : Int
deriving DecidableEq, Repr

namespace Decimal

/-- Compares `a * 10 ^ i` with `b * 2 ^ j` by clearing negative powers. -/
def compareScaled (a : Nat) (i : Int) (b : Nat) (j : Int) : Ordering :=
  compare (a * Nat.pow 10 i.toNat <<< (-j).toNat) (b * Nat.pow 10 (-i).toNat <<< j.toNat)

/-- Whether the decimal lies among the reals that round to `m * 2 ^ e`.  The
gap below the least significand of a binade is half as wide as the gap above. -/
def readsBack (m : Nat) (e : Int) (d : Decimal) : Bool :=
  let below := if m == 1 <<< 52 && e != -1074 then 4 * m - 1 else 4 * m - 2
  let closed := m % 2 == 0
  let low := compareScaled d.digits d.exponent below (e - 2)
  let high := compareScaled d.digits d.exponent (4 * m + 2) (e - 2)
  (low == .gt || closed && low == .eq) && (high == .lt || closed && high == .eq)

/-- The first exponent from `k` on, in at most `steps` tries, whose power of
ten exceeds `m * 2 ^ e`. -/
def magnitudeFrom (m : Nat) (e : Int) : Nat → Int → Int
  | 0, k => k
  | steps + 1, k => if compareScaled 1 k m e == .gt then k else magnitudeFrom m e steps (k + 1)

/-- The number of digits before the point of `m * 2 ^ e`, counted below zero
for small fractions.  The start is a lower bound from the binary logarithm. -/
def magnitude (m : Nat) (e : Int) : Int :=
  magnitudeFrom m e 4 (((m.log2 : Int) + e) * 30103 / 100000 - 1)

/-- `m * 2 ^ e` as a quotient in units of `10 ^ g`. -/
def onGrid (m : Nat) (e g : Int) : Nat × Nat :=
  (m * Nat.pow 10 (-g).toNat <<< e.toNat, Nat.pow 10 g.toNat <<< (-e).toNat)

/-- The best point of the grid `10 ^ g` that reads back as `m * 2 ^ e`. -/
def candidate? (m : Nat) (e g : Int) : Option Decimal :=
  let (num, den) := onGrid m e g
  let below : Decimal := ⟨num / den, g⟩
  let above : Decimal := ⟨num / den + 1, g⟩
  match readsBack m e below, readsBack m e above with
  | true, true => some ⟨Double.roundQuotient num den, g⟩
  | true, false => some below
  | false, true => some above
  | false, false => none

/-- The first grid with a point that reads back, each ten times finer than the
one before.  Seventeen digits tell any two doubles apart. -/
def shortestFrom (m : Nat) (e : Int) : Nat → Int → Decimal
  | 0, g => let (num, den) := onGrid m e g; ⟨Double.roundQuotient num den, g⟩
  | tries + 1, g => (candidate? m e g).getD (shortestFrom m e tries (g - 1))

/-- The shortest decimal of a positive `m * 2 ^ e`. -/
def shortest (m : Nat) (e : Int) : Decimal := shortestFrom m e 16 (magnitude m e - 1)

/-- What a rounding up to a power of ten leaves behind: zeros at the end of
the digits, moved to the exponent. -/
def strip : Nat → Decimal → Decimal
  | 0, d => d
  | steps + 1, d =>
    if d.digits != 0 && d.digits % 10 == 0 then strip steps ⟨d.digits / 10, d.exponent + 1⟩ else d

end Decimal

end Ostinato
