/-!
# Ostinato.Unicode.InversionList

A set of code points given by its boundaries in ascending order: members run
from the first boundary up to, not including, the second, from the third up
to the fourth, and so on.  A property of a few hundred thousand characters
becomes a list of some hundred numbers, and membership is one walk along it.
-/

namespace Ostinato.Unicode

/-- Boundaries of a set of code points, in ascending order. -/
abbrev InversionList := List Nat

namespace InversionList

/-- Membership: each boundary at or below `n` changes sides once. -/
def contains : InversionList → Nat → Bool
  | [], _ => false
  | b :: bs, n => if n < b then false else !contains bs n

/-- Nothing below the first boundary is a member. -/
theorem contains_of_lt {b n : Nat} {bs : InversionList} (h : n < b) :
    contains (b :: bs) n = false := by
  simp [contains, h]

/-- A single pair of boundaries is a half-open interval. -/
theorem contains_pair {a b n : Nat} :
    contains [a, b] n = true ↔ a ≤ n ∧ n < b := by
  simp only [contains]
  by_cases ha : n < a <;> by_cases hb : n < b <;> simp [ha, hb]
  omega

end InversionList

end Ostinato.Unicode
