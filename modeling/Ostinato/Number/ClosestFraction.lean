/-!
# Ostinato.Number.ClosestFraction

The closest fraction whose denominator stays within a bound.

The continued fraction of a number yields its convergents `p / q`.  The walk
stops at the last convergent whose denominator fits; the only rival is the
fraction that takes as many steps as the bound allows towards the next one.
Of the two the nearer is taken, and the convergent if both are equally near.
-/

namespace Ostinato

/-- Two neighbouring convergents and the quotient still to be expanded. -/
structure Expansion where
  earlier : Int × Int
  later : Int × Int
  num : Int
  den : Int

/-- Takes up convergents while their denominators fit, at most `steps` times. -/
def Expansion.advance (bound : Int) : Nat → Expansion → Expansion
  | 0, x => x
  | steps + 1, x =>
    if x.den = 0 then x else
    let a := x.num.fdiv x.den
    let q := x.earlier.2 + a * x.later.2
    if bound < q then x else
    advance bound steps
      { earlier := x.later
        later := (x.earlier.1 + a * x.later.1, q)
        num := x.den
        den := x.num - a * x.den }

/-- The distance between two rationals. -/
def distance (x y : Rat) : Rat := if x < y then y - x else x - y

/-- The closest fraction to `x` with a denominator of at most `bound`.  The
denominators of convergents at least double every second step, which bounds
the walk. -/
def closestFraction (bound : Nat) (x : Rat) : Rat :=
  if x.den ≤ bound then x else
  let last := Expansion.advance bound (2 * bound.log2 + 4) ⟨(0, 1), (1, 0), x.num, x.den⟩
  let k := (bound - last.earlier.2).fdiv last.later.2
  let rival := mkRat (last.earlier.1 + k * last.later.1) (last.earlier.2 + k * last.later.2).toNat
  let convergent := mkRat last.later.1 last.later.2.toNat
  if distance convergent x ≤ distance rival x then convergent else rival

/-- A fraction that fits the bound stays as it is. -/
theorem closestFraction_of_den_le {bound : Nat} {x : Rat} (h : x.den ≤ bound) :
    closestFraction bound x = x := by
  simp [closestFraction, h]

end Ostinato
