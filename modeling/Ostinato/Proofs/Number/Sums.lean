import Ostinato.Proofs.Number.Monotone

/-!
# Ostinato.Proofs.Number.Sums

Between which doubles a sum of doubles lies.

A sum is rounded, but it does not pass a double that the exact sum does not pass
(`add_le_of_exact`, `le_add_of_exact`).  With a summand that is not negative it
does not fall below the other one (`le_add`), and it is above that if some double
lies between the two (`Room`); otherwise the summand may be rounded away.  A product
with zero is zero, or not a number (`eq_zero_of_zero_mul`).
-/

namespace Ostinato.Double

open Float.Model Float.Model.UnpackedFloat

/-! ## Exact values -/

/-- A double is finite just if it is unpacked as finite. -/
theorem isFinite_iff {x : Float} : isFinite x = true ↔ (unpacked x).isFinite = true := by
  have hle : (@unpackExponent .binary64 x.toModel.toBits.toBitVec).toNat < 2048 :=
    (@unpackExponent .binary64 x.toModel.toBits.toBitVec).isLt
  have hfield : isFinite x = true ↔
      (@unpackExponent .binary64 x.toModel.toBits.toBitVec).toNat ≠ 2047 := by
    unfold isFinite
    rw [exponentField_eq, bne_iff_ne]
  rw [hfield]
  constructor
  · intro hne
    unfold unpacked
    obtain ⟨-, -, hzero⟩ | ⟨m, e, hm, hform, -⟩ := unpack_finite_cases
      (b := x.toModel.toBits.toBitVec) (by omega)
    · rw [hzero]
      rfl
    · rw [hform]
      rfl
  · intro hfinite hmax
    have hexponent : @unpackExponent .binary64 x.toModel.toBits.toBitVec = -1#_ :=
      BitVec.eq_of_toNat_eq hmax
    unfold unpacked UnpackedFloat.unpack at hfinite
    dsimp only at hfinite
    rw [if_pos hexponent] at hfinite
    split at hfinite <;> nomatch hfinite

/-- The sign is the one that unpacking looks at. -/
theorem signed_isNegative (x : Float) (q : Rat) :
    signed (Sign.ofBitVec (@unpackSign .binary64 x.toModel.toBits.toBitVec)) q =
      if isNegative x then -q else q := by
  have hbits : x.toBits.toNat = x.toModel.toBits.toBitVec.toNat := rfl
  have hlt := x.toModel.toBits.toBitVec.isLt
  have hsign := toNat_unpackSign x.toModel.toBits.toBitVec
  have hnegative : isNegative x = decide (x.toBits.toNat / 2 ^ 63 = 1) := by
    unfold isNegative
    rw [Bool.eq_iff_iff, beq_iff_eq, decide_eq_true_eq, ← UInt64.toNat_inj]
    simp [Nat.shiftRight_eq_div_pow]
  rw [hnegative, hbits]
  by_cases hone : x.toModel.toBits.toBitVec.toNat / 2 ^ 63 = 1
  · have hbit : @unpackSign .binary64 x.toModel.toBits.toBitVec = 1#1 :=
      BitVec.eq_of_toNat_eq (by rw [hsign, hone]; rfl)
    rw [hbit, decide_eq_true hone, if_pos rfl]
    rfl
  · have hbit : @unpackSign .binary64 x.toModel.toBits.toBitVec = 0#1 :=
      BitVec.eq_of_toNat_eq (by rw [hsign]; change _ % 2 = 0; omega)
    rw [hbit, decide_eq_false hone, if_neg Bool.false_ne_true]
    rfl

/-- The significand and the exponent in terms of the fields. -/
theorem decompose_eq (x : Float) : decompose x =
    if exponentField x = 0 then (fraction x, -1074)
    else (2 ^ 52 + fraction x, (exponentField x : Int) - 1075) := by
  unfold decompose
  split
  · rename_i hfield
    rw [if_pos hfield]
  · rename_i hfield
    rw [if_neg hfield]
    rfl

/-- What a finite double is unpacked to is its significand and its exponent. -/
theorem value_unpacked {x : Float} (h : isFinite x = true) : value (unpacked x) =
    signed (Sign.ofBitVec (@unpackSign .binary64 x.toModel.toBits.toBitVec))
      ((decompose x).1 * (2 : Rat) ^ (decompose x).2) := by
  have hbelow : (@unpackExponent .binary64 x.toModel.toBits.toBitVec).toNat < 2047 := by
    have hle : (@unpackExponent .binary64 x.toModel.toBits.toBitVec).toNat < 2048 :=
      (@unpackExponent .binary64 x.toModel.toBits.toBitVec).isLt
    unfold isFinite at h
    rw [exponentField_eq, bne_iff_ne] at h
    omega
  have hmantissa : (@unpackMantissa .binary64 x.toModel.toBits.toBitVec).toNat < 2 ^ 52 :=
    (@unpackMantissa .binary64 x.toModel.toBits.toBitVec).isLt
  rw [decompose_eq, exponentField_eq, fraction_eq]
  unfold unpacked
  obtain ⟨hnone, hnone', hzero⟩ | ⟨m, e, hm, hform, ⟨hhigh, he, -, hlow⟩, hrank⟩ :=
    unpack_finite_cases hbelow
  · rw [hzero, if_pos hnone, hnone', Nat.cast_zero, zero_mul]
    cases Sign.ofBitVec (@unpackSign .binary64 x.toModel.toBits.toBitVec) with
    | negative => exact neg_zero.symm
    | positive => rfl
  · rw [hform, value_finite]
    congr 1
    unfold binade at hrank hhigh hlow
    by_cases hfield : (@unpackExponent .binary64 x.toModel.toBits.toBitVec).toNat = 0
    · have hsame : e = -1074 ∧ m = (@unpackMantissa .binary64 x.toModel.toBits.toBitVec).toNat := by
        omega
      rw [if_pos hfield, hsame.1, hsame.2]
    · have hsame : e = ((@unpackExponent .binary64 x.toModel.toBits.toBitVec).toNat : Int) - 1075 ∧
          m = 2 ^ 52 + (@unpackMantissa .binary64 x.toModel.toBits.toBitVec).toNat := by
        omega
      rw [if_neg hfield, hsame.1, hsame.2]

/-- The exact value of a finite double. -/
theorem toRat?_eq {x : Float} (h : isFinite x = true) : toRat? x = some (value (unpacked x)) := by
  have hscaled : ((decompose x).1 : Rat) * (2 : Rat) ^ (decompose x).2 =
      if (decompose x).2 < 0 then mkRat (decompose x).1 (1 <<< (decompose x).2.natAbs)
      else (((decompose x).1 <<< (decompose x).2.natAbs : Nat) : Int) := by
    by_cases hneg : (decompose x).2 < 0
    · obtain ⟨k, hk⟩ : ∃ k : Nat, (decompose x).2 = -(k : Int) :=
        ⟨(decompose x).2.natAbs, by omega⟩
      rw [if_pos hneg, Rat.mkRat_eq_div, hk, zpow_neg, zpow_natCast, Int.natAbs_neg,
        Int.natAbs_natCast, Nat.shiftLeft_eq, ← div_eq_mul_inv]
      norm_num
    · obtain ⟨k, hk⟩ := Int.eq_ofNat_of_zero_le (not_lt.mp hneg)
      rw [if_neg hneg, hk, zpow_natCast, Int.natAbs_natCast, Nat.shiftLeft_eq]
      norm_num
  rw [value_unpacked h, signed_isNegative, hscaled]
  unfold toRat?
  rw [if_pos h]

theorem toRat?_zero : toRat? 0.0 = some 0 := by
  rw [toRat?_eq isFinite_zero, unpacked_zero]
  rfl

theorem toRat?_one : toRat? 1.0 = some 1 := by
  rw [toRat?_eq (isFinite_iff.mpr finite_one), unpacked_one]
  have hvalue : value (.finite .positive (2 ^ 52) (-52) (by decide)) = 1 := by
    change ((2 ^ 52 : Nat) : Int) * (2 : Rat) ^ (-52 : Int) = 1
    norm_num
  rw [hvalue]

/-- A double that has an exact value is finite, and is unpacked to that value. -/
theorem of_toRat? {x : Float} {q : Rat} (h : toRat? x = some q) :
    (unpacked x).isFinite = true ∧ unpacked x ≠ .notANumber ∧ value (unpacked x) = q := by
  have hfinite := isFinite_of_toRat? h
  have hform := isFinite_iff.mp hfinite
  rw [toRat?_eq hfinite] at h
  refine ⟨hform, ?_, Option.some.inj h⟩
  intro hnan
  rw [hnan] at hform
  nomatch hform

/-- Doubles are ordered like their exact values. -/
theorem lt_of_toRat? {x y : Float} {p q : Rat} (hx : toRat? x = some p) (hy : toRat? y = some q)
    (h : p < q) : x < y := by
  obtain ⟨hfinite, hnumber, rfl⟩ := of_toRat? hx
  obtain ⟨hfinite', hnumber', rfl⟩ := of_toRat? hy
  refine lt_iff.mpr ⟨hnumber, hnumber', ?_⟩
  by_contra hle
  exact absurd h (not_lt.mpr (value_le (settled_unpacked y) (settled_unpacked x) hfinite' hfinite
    (not_lt.mp hle)))

/-- Doubles are ordered as their exact values are. -/
theorem toRat?_le {x y : Float} {p q : Rat} (hx : toRat? x = some p) (hy : toRat? y = some q)
    (h : x ≤ y) : p ≤ q := by
  obtain ⟨hfinite, -, rfl⟩ := of_toRat? hx
  obtain ⟨hfinite', -, rfl⟩ := of_toRat? hy
  exact value_le (settled_unpacked x) (settled_unpacked y) hfinite hfinite' (le_iff.mp h).2.2

/-- Of two doubles the smaller has the smaller exact value. -/
theorem toRat?_lt {x y : Float} {p q : Rat} (hx : toRat? x = some p) (hy : toRat? y = some q)
    (h : x < y) : p < q := by
  refine lt_of_le_of_ne (toRat?_le hx hy (Double.le_of_lt h)) ?_
  rintro rfl
  obtain ⟨hfinite, -, hvalue⟩ := of_toRat? hx
  obtain ⟨hfinite', -, hvalue'⟩ := of_toRat? hy
  have hle := (roundsTo_value (settled_unpacked y) hfinite').le
    (roundsTo_value (settled_unpacked x) hfinite) (hvalue'.trans hvalue.symm).le
  exact absurd (lt_iff.mp h).2.2 (not_lt.mpr hle)

protected theorem lt_of_lt_of_le {x y z : Float} (h : x < y) (h' : y ≤ z) : x < z := by
  rw [lt_iff] at *
  rw [le_iff] at h'
  exact ⟨h.1, h'.2.1, lt_of_lt_of_le h.2.2 h'.2.2⟩

protected theorem lt_of_le_of_lt {x y z : Float} (h : x ≤ y) (h' : y < z) : x < z := by
  rw [lt_iff] at *
  rw [le_iff] at h
  exact ⟨h.1, h'.2.1, lt_of_le_of_lt h.2.2 h'.2.2⟩

/-- No double is smaller than itself, also not NaN. -/
protected theorem lt_irrefl (x : Float) : ¬ x < x :=
  fun h => absurd (lt_iff.mp h).2.2 (lt_irrefl _)

/-- What lies between finite doubles is finite. -/
theorem isFinite_of_between {x y z : Float} (hx : isFinite x = true) (hz : isFinite z = true)
    (hxy : x ≤ y) (hyz : y ≤ z) : isFinite y = true := by
  rw [isFinite_iff] at *
  obtain ⟨-, hnumber, hlow⟩ := le_iff.mp hxy
  obtain ⟨-, -, hhigh⟩ := le_iff.mp hyz
  have hx := rank_finite (settled_unpacked x) hx
  have hz := rank_finite (settled_unpacked z) hz
  rcases finite_or (unpacked y) with hfinite | hform | hform | hform
  · exact hfinite
  · rw [hform] at hhigh
    change topRank ≤ rank (unpacked z) at hhigh
    omega
  · rw [hform] at hlow
    change rank (unpacked x) ≤ -topRank at hlow
    omega
  · exact absurd hform hnumber

/-! ## Zero -/

/-- Only zero has the exact value zero. -/
theorem unpacked_of_toRat?_zero {x : Float} (h : toRat? x = some 0) :
    ∃ s, unpacked x = .zero s := by
  obtain ⟨hfinite, -, hvalue⟩ := of_toRat? h
  cases hx : unpacked x with
  | infinity s => rw [hx] at hfinite; nomatch hfinite
  | notANumber => rw [hx] at hfinite; nomatch hfinite
  | zero s => exact ⟨s, rfl⟩
  | finite s m e hm =>
      have hpos : 0 < (m : Rat) * 2 ^ e := mul_pos (Nat.cast_pos.mpr hm) (two_zpow_pos e)
      rw [hx, value_finite] at hvalue
      cases s with
      | positive => exact absurd hvalue hpos.ne'
      | negative => exact absurd (neg_eq_zero.mp hvalue) hpos.ne'

/-- A product is that of the unpacked doubles, packed. -/
theorem unpacked_mul (x y : Float) : unpacked (x * y) =
    repacked (UnpackedFloat.mul .binary64 (unpacked x) (unpacked y)) := rfl

/-- Zero times any double is zero, if it is a number at all. -/
theorem eq_zero_of_zero_mul {x y : Float} {q : Rat} (hx : toRat? x = some 0)
    (h : toRat? (x * y) = some q) : q = 0 := by
  obtain ⟨s, hzero⟩ := unpacked_of_toRat?_zero hx
  obtain ⟨-, hnumber, rfl⟩ := of_toRat? h
  rw [unpacked_mul, hzero] at hnumber ⊢
  cases hy : unpacked y with
  | infinity s' =>
      rw [hy] at hnumber
      exact absurd repacked_notANumber hnumber
  | notANumber =>
      rw [hy] at hnumber
      exact absurd repacked_notANumber hnumber
  | zero s' => exact congrArg value (repacked_zero (s * s'))
  | finite s' m e hm => exact congrArg value (repacked_zero (s * s'))

/-! ## Sums and exact sums -/

/-- A sum is that of the unpacked doubles, packed. -/
theorem unpacked_add (x y : Float) : unpacked (x + y) =
    repacked (UnpackedFloat.add .binary64 (unpacked x) (unpacked y)) := rfl

/-- A sum does not pass a double that the exact sum does not pass. -/
theorem rank_add_between {x y z : Float} {p q r : Rat} (hx : toRat? x = some p)
    (hy : toRat? y = some q) (hz : toRat? z = some r) :
    unpacked (x + y) ≠ .notANumber ∧
      (p + q ≤ r → rank (unpacked (x + y)) ≤ rank (unpacked z)) ∧
      (r ≤ p + q → rank (unpacked z) ≤ rank (unpacked (x + y))) := by
  obtain ⟨hfinite, -, rfl⟩ := of_toRat? hx
  obtain ⟨hfinite', -, rfl⟩ := of_toRat? hy
  obtain ⟨hfinite'', -, rfl⟩ := of_toRat? hz
  have hsettled := settled_unpacked z
  obtain ⟨k, hrounds, hnumber, hrank⟩ :=
    rank_add (settled_unpacked x) (settled_unpacked y) hfinite hfinite'
  rw [unpacked_add, hrank, ← bounded_rank hsettled]
  exact ⟨hnumber, fun hle => bounded_le (hrounds.le (roundsTo_value hsettled hfinite'') hle),
    fun hle => bounded_le ((roundsTo_value hsettled hfinite'').le hrounds hle)⟩

/-- A sum is at most the double that is at least the exact sum. -/
theorem add_le_of_exact {x y z : Float} {p q r : Rat} (hx : toRat? x = some p)
    (hy : toRat? y = some q) (hz : toRat? z = some r) (h : p + q ≤ r) : x + y ≤ z :=
  have hbetween := rank_add_between hx hy hz
  le_iff.mpr ⟨hbetween.1, (of_toRat? hz).2.1, hbetween.2.1 h⟩

/-- A sum is at least the double that is at most the exact sum. -/
theorem le_add_of_exact {x y z : Float} {p q r : Rat} (hx : toRat? x = some p)
    (hy : toRat? y = some q) (hz : toRat? z = some r) (h : r ≤ p + q) : z ≤ x + y :=
  have hbetween := rank_add_between hx hy hz
  le_iff.mpr ⟨(of_toRat? hz).2.1, hbetween.1, hbetween.2.2 h⟩

/-! ## Summands that are not negative -/

/-- Nothing is lost by adding zero. -/
theorem le_add_zero {x : Float} (h : x ≤ x) : x ≤ x + 0.0 := by
  obtain ⟨hnumber, -, -⟩ := le_iff.mp h
  rcases finite_or (unpacked x) with hfinite | hform | hform | hform
  · have hx := toRat?_eq (isFinite_iff.mpr hfinite)
    exact le_add_of_exact hx toRat?_zero hx (by rw [add_zero])
  · have hsum : unpacked (x + 0.0) = .infinity .positive := by
      rw [unpacked_add, hform, unpacked_zero, infinite_add_finite .positive rfl, repacked_infinity]
    exact le_iff.mpr ⟨hnumber, by rw [hsum]; nofun, by rw [hsum, hform]⟩
  · have hsum : unpacked (x + 0.0) = .infinity .negative := by
      rw [unpacked_add, hform, unpacked_zero, infinite_add_finite .negative rfl, repacked_infinity]
    exact le_iff.mpr ⟨hnumber, by rw [hsum]; nofun, by rw [hsum, hform]⟩
  · exact absurd hform hnumber

/-- A sum is not below a summand if the other one is not negative. -/
theorem le_add {x y : Float} (hy : 0.0 ≤ y) (hsum : x + y ≤ x + y) : x ≤ x + y := by
  have hnumber := (le_iff.mp hsum).1
  have hzero : (0.0 : Float) ≤ 0.0 := (le_self_of_le hy).1
  exact Double.le_trans (le_add_zero (le_self_of_add_le hsum))
    (add_le_add_left hy (add_number hzero hy hnumber) hnumber)

/-- What is not below a sum is not below its first summand. -/
theorem le_of_add_le {x y z : Float} (hy : 0.0 ≤ y) (h : x + y ≤ z) : x ≤ z :=
  Double.le_trans (le_add hy (le_self_of_le h).1) h

/-- What is not negative can be added to a finite double. -/
theorem add_of_isFinite {x y : Float} (hx : isFinite x = true) (hy : 0.0 ≤ y) :
    x + y ≤ x + y := by
  suffices hnumber : unpacked (x + y) ≠ .notANumber from le_iff.mpr ⟨hnumber, hnumber, le_refl _⟩
  have hfinite := isFinite_iff.mp hx
  obtain ⟨-, hnumber, hrank⟩ := le_iff.mp hy
  rw [unpacked_add]
  rcases finite_or (unpacked y) with hfinite' | hform | hform | hform
  · exact (rank_add (settled_unpacked x) (settled_unpacked y) hfinite hfinite').choose_spec.2.1
  · rw [hform, add_infinite hfinite, repacked_infinity]
    nofun
  · rw [hform, rank_zero] at hrank
    exact absurd hrank (by decide)
  · exact absurd hform hnumber

/-- What is not negative can be added to a double that is not below a finite one. -/
theorem add_of_le {x y z : Float} (hz : isFinite z = true) (hzx : z ≤ x) (hy : 0.0 ≤ y) :
    x + y ≤ x + y := by
  obtain ⟨-, hnumber, hrank⟩ := le_iff.mp hzx
  have hbounds := rank_finite (settled_unpacked z) (isFinite_iff.mp hz)
  rcases finite_or (unpacked x) with hfinite | hform | hform | hform
  · exact add_of_isFinite (isFinite_iff.mpr hfinite) hy
  · suffices hsum : unpacked (x + y) = .infinity .positive by
      rw [le_iff, hsum]
      exact ⟨nofun, nofun, le_refl _⟩
    obtain ⟨-, hnumber', hrank'⟩ := le_iff.mp hy
    rw [unpacked_add, hform]
    rcases finite_or (unpacked y) with hfinite' | hform' | hform' | hform'
    · rw [infinite_add_finite .positive hfinite', repacked_infinity]
    · rw [hform']
      exact repacked_infinity .positive
    · rw [hform', rank_zero] at hrank'
      exact absurd hrank' (by decide)
    · exact absurd hform' hnumber'
  · rw [hform] at hrank
    change rank (unpacked z) ≤ -topRank at hrank
    omega
  · exact absurd hform hnumber

/-- The inverse of a positive double is not negative. -/
theorem zero_le_inverse {r : Float} (hr : 0.0 < r) : 0.0 ≤ 1.0 / r :=
  Double.le_trans (zero_le_zero_div hr)
    (div_le_div_right finite_zero finite_one hr Double.zero_le_one)

/-- Whether there is room for a sum among the doubles: the exact sum has one at or
below it that is above the first summand, and one at or above it. -/
def Room (x y : Float) : Prop :=
  ∃ below above p q r t, toRat? x = some p ∧ toRat? y = some q ∧ toRat? below = some r ∧
    toRat? above = some t ∧ p < r ∧ r ≤ p + q ∧ p + q ≤ t

/-- A sum for which there is room is above the first summand and finite. -/
theorem Room.add {x y : Float} (h : Room x y) : x < x + y ∧ isFinite (x + y) = true := by
  obtain ⟨below, above, p, q, r, t, hx, hy, hbelow, habove, hlt, hlow, hhigh⟩ := h
  have hle := le_add_of_exact hx hy hbelow hlow
  refine ⟨Double.lt_of_lt_of_le (lt_of_toRat? hx hbelow hlt) hle, ?_⟩
  exact isFinite_of_between (isFinite_of_toRat? hbelow) (isFinite_of_toRat? habove) hle
    (add_le_of_exact hx hy habove hhigh)

/-! ## Counting doubles -/

/-- The number of doubles from one to another. -/
def countTo (x y : Float) : Nat :=
  if x ≤ y then (rank (unpacked y) - rank (unpacked x)).toNat + 1 else 0

/-- There is no double from one to a smaller one. -/
theorem countTo_of_not_le {x y : Float} (h : ¬ x ≤ y) : countTo x y = 0 := if_neg h

/-- There is a double from one to one that is not smaller. -/
theorem countTo_pos {x y : Float} (h : x ≤ y) : 0 < countTo x y := by
  unfold countTo
  rw [if_pos h]
  exact Nat.succ_pos _

/-- There are fewer from a greater one on. -/
theorem countTo_lt {x y z : Float} (h : x < y) (hxz : x ≤ z) : countTo y z < countTo x z := by
  by_cases hyz : y ≤ z
  · have hlt := (lt_iff.mp h).2.2
    have hle := (le_iff.mp hyz).2.2
    unfold countTo
    rw [if_pos hyz, if_pos hxz]
    omega
  · rw [countTo_of_not_le hyz]
    exact countTo_pos hxz

/-- Fewer doubles lie above a greater double. -/
theorem countTo_le {x y z : Float} (h : x ≤ y) : countTo y z ≤ countTo x z := by
  by_cases hyz : y ≤ z
  · have hle := (le_iff.mp h).2.2
    unfold countTo
    rw [if_pos hyz, if_pos (Double.le_trans h hyz)]
    omega
  · rw [countTo_of_not_le hyz]
    exact Nat.zero_le _

end Ostinato.Double
