import Mathlib.Algebra.Order.Ring.Rat
import Ostinato.Number.Basic

/-!
# Ostinato.Proofs.Number.Nearest

Rationals that have a nearest double.

Rounding fails only beyond the largest finite double, so it never fails
between zero and one (`Double.ofRat?_unit`): the last place of a quotient that
is at most one stands at `2 ^ (-52)` or lower, and its significand has at most
54 bits.
-/

namespace Ostinato

namespace Double

/-- Rounding adds at most one to the whole part of a quotient. -/
theorem roundQuotient_le (num den : Nat) : roundQuotient num den ≤ num / den + 1 := by
  unfold roundQuotient
  simp only
  split
  · exact Nat.le_succ _
  · exact le_refl _

/-- The last place lies no lower than the first guess. -/
theorem guess_le_lastPlace (num den : Nat) :
    (num.log2 : Int) - den.log2 - 53 ≤ lastPlace num den := by
  unfold lastPlace
  simp only
  split <;> split <;> omega

/-- A greater number has no fewer places. -/
theorem log2_mono {m n : Nat} (h : m ≤ n) : m.log2 ≤ n.log2 := by
  by_cases hm : m = 0
  · rw [hm, Nat.log2_zero]
    exact Nat.zero_le _
  · rw [Nat.le_log2 (by omega)]
    exact le_trans (Nat.log2_self_le hm) h

/-- The last place of a quotient that is at most one. -/
theorem lastPlace_le {num den : Nat} (h : num ≤ den) : lastPlace num den ≤ -52 := by
  have hlog := log2_mono h
  unfold lastPlace
  simp only
  split <;> split <;> omega

/-- The significand has at most 54 bits. -/
theorem quotient_lt {num den : Nat} (hden : 0 < den) {e : Int} (hneg : e < 0)
    (hguess : (num.log2 : Int) - den.log2 - 53 ≤ e) : num <<< e.natAbs / den < 2 ^ 54 := by
  rw [Nat.div_lt_iff_lt_mul hden, Nat.shiftLeft_eq]
  have hnum : num < 2 ^ (num.log2 + 1) := Nat.lt_log2_self
  have hpow : 2 ^ den.log2 ≤ den := Nat.log2_self_le (Nat.ne_of_gt hden)
  calc num * 2 ^ e.natAbs
      < 2 ^ (num.log2 + 1) * 2 ^ e.natAbs :=
        Nat.mul_lt_mul_of_pos_right hnum (Nat.two_pow_pos _)
    _ = 2 ^ (num.log2 + 1 + e.natAbs) := (pow_add 2 _ _).symm
    _ ≤ 2 ^ (54 + den.log2) := Nat.pow_le_pow_right (by decide) (by omega)
    _ = 2 ^ 54 * 2 ^ den.log2 := pow_add 2 _ _
    _ ≤ 2 ^ 54 * den := Nat.mul_le_mul_left _ hpow

/-- The bits for a quotient that is at most one are those of a finite double. -/
theorem magnitudeBits_lt {num den : Nat} (hden : 0 < den) (h : num ≤ den) :
    magnitudeBits num den < 0x7FF <<< 52 := by
  have hlast := lastPlace_le h
  have hguess := guess_le_lastPlace num den
  have hneg : lastPlace num den < 0 := by omega
  have hround := roundQuotient_le (num <<< (lastPlace num den).natAbs) den
  have hquotient := quotient_lt hden hneg hguess
  unfold magnitudeBits inUnits
  simp only [if_pos hneg, Nat.shiftLeft_eq] at *
  omega

/-- Every rational from zero to one has a nearest double. -/
theorem ofRat?_unit {q : Rat} (hpos : 0 ≤ q) (hle : q ≤ 1) : ∃ x, ofRat? q = some x := by
  unfold ofRat?
  by_cases hzero : q.num = 0
  · exact ⟨0.0, if_pos hzero⟩
  · have hnum : q.num.natAbs ≤ q.den := by
      have hnonneg := Rat.num_nonneg.mpr hpos
      have hle' := (Rat.le_iff q 1).mp hle
      rw [Rat.num_ofNat, Rat.den_ofNat] at hle'
      omega
    rw [if_neg hzero]
    simp only [if_pos (magnitudeBits_lt q.den_pos hnum)]
    exact ⟨_, rfl⟩

end Double

namespace Number

/-- Every rational from zero to one becomes a double. -/
theorem toFloat_unit {q : Rat} (hpos : 0 ≤ q) (hle : q ≤ 1) :
    ∃ x, (Number.ratio q).toFloat = .ok x := by
  obtain ⟨x, hx⟩ := Double.ofRat?_unit hpos hle
  unfold toFloat
  simp only [hx]
  exact ⟨x, rfl⟩

end Number

end Ostinato
