import Ostinato.Fault

/-!
# Ostinato.Number.Copies

How often something may be repeated.

1. A count must fit in a signed word of 64 bits, even if there is nothing to
   copy or the count is negative, which gives no copies.
2. A text may not grow beyond the largest count.
3. The copies of anything must fit in memory.
-/

namespace Ostinato.Copies

/-- The largest count. -/
def largest : Nat := 9223372036854775807

/-- More items than this are not held in memory. -/
def capacity : Nat := 68719476736

/-- A count that fits, without its sign if it is negative. -/
def fitting (count : Int) : Except Fault Nat :=
  if count < -(largest : Int) - 1 || (largest : Int) < count then .error .countTooLarge
  else .ok count.toNat

/-- The number of copies if that many of `size` items each can be held. -/
def held (count : Int) (size : Nat) : Except Fault Nat := do
  let n ← fitting count
  if capacity < n * size then .error .outOfMemory else .ok n

/-- The number of copies of a text of `size` characters. -/
def ofText (count : Int) (size : Nat) : Except Fault Nat := do
  let n ← fitting count
  if largest < n * size then .error .textTooLong else held count size

/-- Any count within memory of single items is taken. -/
theorem held_one {n : Nat} (h : n ≤ capacity) : held n 1 = .ok n := by
  have hc : capacity = 68719476736 := rfl
  have hl : largest = 9223372036854775807 := rfl
  have h1 : ¬((n : Int) < -(largest : Int) - 1) := by omega
  have h2 : ¬((largest : Int) < (n : Int)) := by omega
  have h3 : ¬(capacity < n * 1) := by omega
  simp only [held, fitting, h1, h2, decide_false, Bool.or_self, Bool.false_eq_true, if_false,
    Int.toNat_natCast, bind, Except.bind, h3]

end Ostinato.Copies
