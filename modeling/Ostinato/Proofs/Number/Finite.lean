import Mathlib.Data.Rat.Cast.Order
import Mathlib.Tactic.Positivity
import Ostinato.Proofs.Number.Nearest

/-!
# Ostinato.Proofs.Number.Finite

Integers whose nearest double is finite.

1. The double that rounding finds is finite (`Double.isFinite_of_ofRat?`).
2. An integer is in range if rounding finds one (`Double.InRange`).  None that
   is in range has more than 1026 bits (`Double.InRange.log2_lt`).
3. Every integer that is the exact value of a finite double is in range
   (`Double.inRange_of_toRat?`).
-/

namespace Ostinato.Double

open Float.Model Float.Model.UnpackedFloat

/-! ## Bits of finite doubles -/

/-- The exponent field is the one that unpacking looks at. -/
theorem exponentField_eq (x : Float) :
    exponentField x =
      (@unpackExponent .binary64 x.toModel.toBits.toBitVec).toNat := by
  have hbits : x.toBits = x.toModel.toBits := rfl
  unfold exponentField unpackExponent
  rw [hbits]
  simp [Format.binary64, BitVec.extractLsb]
  rw [Nat.and_two_pow_sub_one_eq_mod _ 11]

/-- A biased exponent below the largest one is packed as a finite double. -/
theorem unpackExponent_pack_finite {s : Sign} {m : Nat} {e : Int} (hm : 0 < m)
    (he : e + 1075 < 2047) :
    (unpackExponent (UnpackedFloat.pack .binary64 (.finite s m e hm))).toNat < 2047 := by
  have hbias : ((Format.binary64.exponentBias : Nat) : Int) = 1023 := rfl
  have hplaces : ((Format.binary64.mantissaBitsWithoutImplicit : Nat) : Int) = 52 := rfl
  have hbits : Format.binary64.exponentBits = 11 := rfl
  unfold UnpackedFloat.pack
  dsimp only
  rw [hbias, hplaces, if_neg (by omega)]
  split
  · rw [unpackExponent_packComponents, BitVec.toNat_ofNat]
    have hmod := Nat.mod_le (e + 1023 + 52).toNat (2 ^ Format.binary64.exponentBits)
    omega
  · rw [unpackExponent_packComponents]
    decide

/-- The significand of bits with an exponent of their own. -/
theorem toNat_significand (b : BitVec 64) : (1#1 ++ @unpackMantissa .binary64 b).toNat =
    2 ^ 52 + (@unpackMantissa .binary64 b).toNat := by
  rw [BitVec.toNat_append]
  exact (Nat.two_pow_add_eq_or_of_lt (@unpackMantissa .binary64 b).isLt 1).symm

/-- What bits with an exponent below the largest one stand for: zero, or a
significand with an exponent that is not too large. -/
theorem unpack_cases {b : BitVec 64} (h : (@unpackExponent .binary64 b).toNat < 2047) :
    (∃ s, UnpackedFloat.unpack .binary64 b = .zero s) ∨
      ∃ s m e hm, UnpackedFloat.unpack .binary64 b = .finite s m e hm ∧ e + 1075 < 2047 := by
  have hbias : ((Format.binary64.exponentBias : Nat) : Int) = 1023 := rfl
  have hplaces : ((Format.binary64.mantissaBitsWithoutImplicit : Nat) : Int) = 52 := rfl
  have hfinite : @unpackExponent .binary64 b ≠ -1#_ := by
    intro hc
    rw [hc] at h
    exact absurd h (by decide)
  unfold UnpackedFloat.unpack
  dsimp only
  rw [if_neg hfinite]
  by_cases hzero : @unpackExponent .binary64 b = 0#_
  · rw [if_pos hzero]
    by_cases hmantissa : @unpackMantissa .binary64 b = 0#_
    · rw [dif_pos hmantissa]
      exact .inl ⟨_, rfl⟩
    · have hpos : 0 < (@unpackMantissa .binary64 b).toNat :=
        Nat.pos_of_ne_zero fun h => hmantissa (BitVec.eq_of_toNat_eq h)
      rw [dif_neg hmantissa, hzero]
      exact .inr ⟨_, _, _, hpos, rfl, by decide⟩
  · have hpos : 0 < (1#1 ++ @unpackMantissa .binary64 b).toNat := by
      rw [toNat_significand]
      omega
    rw [if_neg hzero]
    exact .inr ⟨_, _, _, hpos, rfl, by omega⟩

/-- Bits of a finite double stay those of a finite double when they are
unpacked and packed again. -/
theorem unpackExponent_pack_unpack {b : BitVec 64}
    (h : (@unpackExponent .binary64 b).toNat < 2047) :
    (unpackExponent (UnpackedFloat.pack .binary64 (UnpackedFloat.unpack .binary64 b))).toNat
      < 2047 := by
  obtain ⟨s, hzero⟩ | ⟨s, m, e, hm, hvalue, he⟩ := unpack_cases h
  · rw [hzero]
    unfold UnpackedFloat.pack packedZero
    rw [unpackExponent_packComponents]
    decide
  · rw [hvalue]
    exact unpackExponent_pack_finite hm he

/-- Bits below those of infinity make a finite double. -/
theorem isFinite_ofBits {bits : Nat} (h : bits < 0x7FF <<< 52) :
    isFinite (Float.ofBits bits.toUInt64) = true := by
  have hbits : (@unpackExponent .binary64 bits.toUInt64.toBitVec).toNat < 2047 := by
    unfold unpackExponent
    simp [Format.binary64, BitVec.extractLsb, Nat.shiftRight_eq_div_pow]
    omega
  have hfield : exponentField (Float.ofBits bits.toUInt64) < 2047 := by
    rw [exponentField_eq]
    exact unpackExponent_pack_unpack hbits
  have hne : exponentField (Float.ofBits bits.toUInt64) ≠ 0x7FF := by omega
  simp [isFinite, hne]

/-- Infinity is not finite. -/
theorem isFinite_infinity : isFinite infinity = false := by decide

theorem bits_zero : (0.0 : Float).toModel.toBits.toBitVec = 0#64 := by decide +kernel

theorem bits_one : (1.0 : Float).toModel.toBits.toBitVec = 0x3FF0000000000000#64 := by
  decide +kernel

/-- Zero is finite. -/
theorem isFinite_zero : isFinite 0.0 = true := by
  unfold isFinite
  rw [exponentField_eq, bits_zero]
  decide

/-- The double nearest to a rational that is not negative is finite. -/
theorem isFinite_of_ofRat? {q : Rat} {x : Float} (hpos : 0 ≤ q) (h : ofRat? q = some x) :
    isFinite x = true := by
  have hsign : ¬q.num < 0 := not_lt.mpr (Rat.num_nonneg.mpr hpos)
  unfold ofRat? at h
  by_cases hzero : q.num = 0
  · rw [if_pos hzero] at h
    obtain rfl := Option.some.inj h
    exact isFinite_zero
  · simp only [if_neg hzero, if_neg hsign] at h
    by_cases hbits : magnitudeBits q.num.natAbs q.den < 0x7FF <<< 52
    · rw [if_pos hbits] at h
      obtain rfl := Option.some.inj h
      exact isFinite_ofBits hbits
    · rw [if_neg hbits] at h
      exact absurd h (Option.some_ne_none x).symm

/-! ## Integers in range -/

/-- The nearest double of an integer is finite. -/
def InRange (n : Int) : Prop := (ofInt? n).isSome = true

instance (n : Int) : Decidable (InRange n) := inferInstanceAs (Decidable (_ = true))

/-- An integer is in range if it is zero, or its digits leave room for the exponent. -/
theorem inRange_iff {n : Int} :
    InRange n ↔ n = 0 ∨ magnitudeBits n.natAbs 1 < 0x7FF <<< 52 := by
  have hnum : (n : Rat).num = n := Rat.num_intCast n
  have hden : (n : Rat).den = 1 := Rat.den_intCast n
  unfold InRange ofInt? ofRat?
  by_cases hzero : (n : Rat).num = 0
  · have hn : n = 0 := hnum.symm.trans hzero
    rw [if_pos hzero]
    simp [hn]
  · have hn : n ≠ 0 := fun h => hzero (hnum.trans h)
    rw [if_neg hzero, hnum, hden]
    by_cases hbits : magnitudeBits n.natAbs 1 < 0x7FF <<< 52
    · rw [if_pos hbits]
      exact iff_of_true rfl (.inr hbits)
    · rw [if_neg hbits]
      exact iff_of_false Bool.false_ne_true (not_or.mpr ⟨hn, hbits⟩)

/-- The sign does not matter. -/
theorem inRange_neg {n : Int} : InRange (-n) ↔ InRange n := by
  rw [inRange_iff, inRange_iff, Int.natAbs_neg, Int.neg_eq_zero]

/-- An integer in range has at most 1026 bits. -/
theorem InRange.log2_lt {n : Int} (h : InRange n) : n.natAbs.log2 < 1026 := by
  rcases inRange_iff.mp h with rfl | hbits
  · decide
  · have hguess := guess_le_lastPlace n.natAbs 1
    have hone : Nat.log2 1 = 0 := rfl
    unfold magnitudeBits at hbits
    simp only [Nat.shiftLeft_eq] at hbits
    omega

/-! ## Values of doubles -/

/-- Rounding keeps to a whole bound. -/
theorem roundQuotient_le_of_le {num den bound : Nat} (hden : 0 < den) (h : num ≤ bound * den) :
    roundQuotient num den ≤ bound := by
  have hquotient : num / den ≤ bound := Nat.div_le_of_le_mul (by rwa [Nat.mul_comm])
  rcases Nat.lt_or_eq_of_le hquotient with hlt | heq
  · have hround := roundQuotient_le num den
    omega
  · -- the bound is reached only without a remainder
    have hsplit := Nat.div_add_mod num den
    have hbound : den * (num / den) = bound * den := by rw [heq, Nat.mul_comm]
    have hexact : num % den = 0 := by omega
    unfold roundQuotient
    simp [hexact, hden, heq]

/-- A quotient in units of a place keeps a denominator above zero. -/
theorem inUnits_pos (num : Nat) {den : Nat} (h : 0 < den) (e : Int) :
    0 < (inUnits num den e).2 := by
  unfold inUnits
  split
  · exact h
  · rw [Nat.shiftLeft_eq]
    exact Nat.mul_pos h (Nat.two_pow_pos _)

/-- In units that leave at most 53 places an integer is below `2 ^ 53`. -/
theorem inUnits_le {n : Nat} {e : Int} (h : (n.log2 : Int) < 53 + e) :
    (inUnits n 1 e).1 ≤ 2 ^ 53 * (inUnits n 1 e).2 := by
  have hbits : n < 2 ^ (n.log2 + 1) := Nat.lt_log2_self
  unfold inUnits
  split
  · rw [Nat.shiftLeft_eq]
    calc n * 2 ^ e.natAbs
        ≤ 2 ^ (n.log2 + 1) * 2 ^ e.natAbs := Nat.mul_le_mul_right _ (Nat.le_of_lt hbits)
      _ = 2 ^ (n.log2 + 1 + e.natAbs) := (pow_add 2 _ _).symm
      _ ≤ 2 ^ 53 * 1 := by
        rw [Nat.mul_one]
        exact Nat.pow_le_pow_right (by decide) (by omega)
  · rw [Nat.one_shiftLeft, ← pow_add]
    exact le_trans (Nat.le_of_lt hbits) (Nat.pow_le_pow_right (by decide) (by omega))

/-- In units of its last place an integer has at most 53 bits. -/
theorem inUnits_lastPlace_le (n : Nat) :
    (inUnits n 1 (lastPlace n 1)).1 ≤ 2 ^ 53 * (inUnits n 1 (lastPlace n 1)).2 := by
  have hone : Nat.log2 1 = 0 := rfl
  unfold lastPlace
  simp only [hone]
  by_cases hguess : (inUnits n 1 (n.log2 - (0 : Nat) - 53)).1
      / (inUnits n 1 (n.log2 - (0 : Nat) - 53)).2 < 1 <<< 53
  · -- the first guess leaves 53 bits
    rw [if_pos hguess, if_neg (by omega)]
    have hpos := inUnits_pos n Nat.one_pos (n.log2 - (0 : Nat) - 53)
    exact Nat.le_of_lt ((Nat.div_lt_iff_lt_mul hpos).mp hguess)
  · rw [if_neg hguess, if_neg (by omega)]
    exact inUnits_le (by omega)

/-- The last place of an integer whose leading bits are few. -/
theorem lastPlace_le_of_log2 {n : Nat} {k : Nat} (h : n.log2 < 53 + k) : lastPlace n 1 ≤ k := by
  have hone : Nat.log2 1 = 0 := rfl
  unfold lastPlace
  simp only [hone]
  split <;> split <;> omega

/-- A significand of 53 bits stays in range when it is scaled up to the
largest exponent. -/
theorem inRange_of_scaled {n : Int} {m k : Nat} (hm : m < 2 ^ 53) (hk : k ≤ 971)
    (h : n.natAbs = m * 2 ^ k) : InRange n := by
  by_cases hzero : n.natAbs = 0
  · exact inRange_iff.mpr (.inl (Int.natAbs_eq_zero.mp hzero))
  have hlog : n.natAbs.log2 < 53 + k := by
    rw [Nat.log2_lt hzero, h, pow_add]
    exact Nat.mul_lt_mul_of_pos_right hm (Nat.two_pow_pos _)
  have hlast := lastPlace_le_of_log2 hlog
  have hpos := inUnits_pos n.natAbs Nat.one_pos (lastPlace n.natAbs 1)
  have hround := roundQuotient_le_of_le hpos (inUnits_lastPlace_le n.natAbs)
  apply inRange_iff.mpr
  right
  unfold magnitudeBits
  simp only [Nat.shiftLeft_eq]
  rcases lt_or_eq_of_le hlast with hlt | heq
  · omega
  · -- in the last binade the significand itself is what is rounded
    have hunits : inUnits n.natAbs 1 k = (m * 2 ^ k, 2 ^ k) := by
      unfold inUnits
      rw [if_neg (by omega), h, Int.natAbs_natCast, Nat.one_shiftLeft]
    have hexact : roundQuotient (m * 2 ^ k) (2 ^ k) ≤ m :=
      roundQuotient_le_of_le (Nat.two_pow_pos _) (le_refl _)
    simp only [heq, hunits]
    omega

/-- The significand and the exponent of a finite double are bounded. -/
theorem decompose_lt {x : Float} (h : isFinite x = true) :
    (decompose x).1 < 2 ^ 53 ∧ (decompose x).2 ≤ 971 := by
  have hfraction : fraction x < 2 ^ 52 := by
    unfold fraction
    rw [UInt64.toNat_and]
    exact Nat.lt_of_le_of_lt Nat.and_le_right (by decide)
  have hfield : exponentField x ≤ 0x7FF := by
    unfold exponentField
    rw [UInt64.toNat_and]
    exact Nat.and_le_right
  have hne : exponentField x ≠ 0x7FF := by simpa [isFinite] using h
  unfold decompose
  split
  · constructor <;> omega
  · rename_i e he
    rw [Nat.one_shiftLeft]
    constructor <;> omega

/-- The magnitude of a finite double. -/
theorem abs_of_toRat? {x : Float} {q : Rat} (h : toRat? x = some q) :
    |q| = if (decompose x).2 < 0 then ((decompose x).1 : Rat) / 2 ^ (decompose x).2.natAbs
      else ((decompose x).1 : Rat) * 2 ^ (decompose x).2.natAbs := by
  unfold toRat? at h
  by_cases hfinite : isFinite x = true
  · simp only [if_pos hfinite, Nat.shiftLeft_eq, Nat.one_mul, Rat.mkRat_eq_div,
      Option.some.injEq] at h
    rw [← h]
    have hsign : ∀ r : Rat, |if isNegative x then -r else r| = |r| := by
      intro r
      split
      · exact abs_neg r
      · rfl
    rw [hsign]
    split
    · rw [abs_of_nonneg (by positivity)]
      norm_num
    · rw [abs_of_nonneg (by positivity)]
      norm_num
  · rw [if_neg hfinite] at h
    exact absurd h (Option.some_ne_none _).symm

/-- Only a finite double has an exact value. -/
theorem isFinite_of_toRat? {x : Float} {q : Rat} (h : toRat? x = some q) : isFinite x = true := by
  by_contra hfinite
  rw [toRat?, if_neg hfinite] at h
  exact absurd h (Option.some_ne_none _).symm

/-- A finite double that is an integer is in range. -/
theorem inRange_of_toRat? {x : Float} {n : Int} (h : toRat? x = some (n : Rat)) : InRange n := by
  obtain ⟨hm, he⟩ := decompose_lt (isFinite_of_toRat? h)
  have habs := abs_of_toRat? h
  rw [← Int.cast_abs, ← Nat.cast_natAbs] at habs
  by_cases hneg : (decompose x).2 < 0
  · -- a fraction that is whole is no larger than its numerator
    rw [if_pos hneg, eq_div_iff (by positivity)] at habs
    have hscaled : n.natAbs * 2 ^ (decompose x).2.natAbs = (decompose x).1 := by exact_mod_cast habs
    have hle : n.natAbs ≤ (decompose x).1 := by
      rw [← hscaled]
      exact Nat.le_mul_of_pos_right _ (Nat.two_pow_pos _)
    exact inRange_of_scaled (Nat.lt_of_le_of_lt hle hm) (Nat.zero_le _) (Nat.mul_one _).symm
  · rw [if_neg hneg] at habs
    have hscaled : n.natAbs = (decompose x).1 * 2 ^ (decompose x).2.natAbs := by exact_mod_cast habs
    exact inRange_of_scaled hm (by omega) hscaled

end Ostinato.Double
