import Ostinato.Proofs.Number.Finite

/-!
# Ostinato.Proofs.Number.Zero

Signs of doubles, and doubles that are zero.

1. The opposite of a finite double is finite (`Double.isFinite_neg`).
2. Only a number of value zero compares equal to zero
   (`Number.beq_zero_of_isZero`).
3. An integer other than zero becomes no double that is zero
   (`Double.beq_zero_of_ofInt?`), since its exponent field is far from empty.
-/

namespace Ostinato

namespace Double

open Float.Model Float.Model.UnpackedFloat

/-! ## Unpacking -/

/-- Bits with a middling exponent stand for a significand of 53 bits. -/
theorem unpack_normal {b : BitVec 64} (hpos : 0 < (@unpackExponent .binary64 b).toNat)
    (h : (@unpackExponent .binary64 b).toNat < 2047) :
    ∃ s m e hm, UnpackedFloat.unpack .binary64 b = .finite s m e hm ∧ m.log2 = 52 ∧
      e + 1075 = (@unpackExponent .binary64 b).toNat := by
  have hbias : ((Format.binary64.exponentBias : Nat) : Int) = 1023 := rfl
  have hplaces : ((Format.binary64.mantissaBitsWithoutImplicit : Nat) : Int) = 52 := rfl
  have hfinite : @unpackExponent .binary64 b ≠ -1#_ := by
    intro hc
    rw [hc] at h
    exact absurd h (by decide)
  have hzero : @unpackExponent .binary64 b ≠ 0#_ := by
    intro hc
    rw [hc] at hpos
    exact absurd hpos (by decide)
  have hmantissa := (@unpackMantissa .binary64 b).isLt
  have hvalue := toNat_significand b
  have hsignificand : 0 < (1#1 ++ @unpackMantissa .binary64 b).toNat := by omega
  unfold UnpackedFloat.unpack
  dsimp only
  rw [if_neg hfinite, if_neg hzero]
  refine ⟨_, _, _, hsignificand, rfl, ?_, by omega⟩
  change (@unpackMantissa .binary64 b).toNat < 2 ^ 52 at hmantissa
  rw [hvalue, Nat.log2_eq_iff (by omega)]
  omega

/-- A significand of 53 bits is packed with its exponent. -/
theorem unpackExponent_pack_normal {s : Sign} {m : Nat} {e : Int} (hm : 0 < m)
    (hlog : m.log2 = 52) (hlow : 0 ≤ e + 1075) (hhigh : e + 1075 < 2047) :
    ((unpackExponent (UnpackedFloat.pack .binary64 (.finite s m e hm))).toNat : Int) =
      e + 1075 := by
  have hbias : ((Format.binary64.exponentBias : Nat) : Int) = 1023 := rfl
  have hplaces : ((Format.binary64.mantissaBitsWithoutImplicit : Nat) : Int) = 52 := rfl
  have hbits : Format.binary64.exponentBits = 11 := rfl
  have hmantissa : Format.binary64.mantissaBits = 53 := rfl
  unfold UnpackedFloat.pack
  dsimp only
  rw [hbias, hplaces, if_neg (by omega), if_pos (by rw [hlog, hmantissa]),
    unpackExponent_packComponents, BitVec.toNat_ofNat, Nat.mod_eq_of_lt (by omega)]
  omega

/-! ## Signs -/

/-- The exponent of an opposite is read off its bits. -/
theorem exponentField_neg_eq (x : Float) : exponentField (-x) = (@unpackExponent .binary64
    (UnpackedFloat.pack .binary64
      (UnpackedFloat.unpack .binary64 x.toModel.toBits.toBitVec).neg)).toNat :=
  exponentField_eq (-x)

/-- The opposite of a finite double is finite. -/
theorem isFinite_neg {x : Float} (h : isFinite x = true) : isFinite (-x) = true := by
  have hne : exponentField x ≠ 0x7FF := by simpa [isFinite] using h
  have hlt : (@unpackExponent .binary64 x.toModel.toBits.toBitVec).toNat < 2047 := by
    have hle := (@unpackExponent .binary64 x.toModel.toBits.toBitVec).isLt
    change _ < 2048 at hle
    rw [exponentField_eq] at hne
    omega
  have hneg : exponentField (-x) < 2047 := by
    rw [exponentField_neg_eq]
    obtain ⟨s, hzero⟩ | ⟨s, m, e, hm, hvalue, he⟩ := unpack_cases hlt
    · rw [hzero]
      unfold UnpackedFloat.neg UnpackedFloat.pack packedZero
      rw [unpackExponent_packComponents]
      decide
    · rw [hvalue]
      exact unpackExponent_pack_finite hm he
  have hne' : exponentField (-x) ≠ 0x7FF := by omega
  simp [isFinite, hne']

/-- The opposite of a double with a middling exponent has that exponent. -/
theorem exponentField_neg {x : Float} (hpos : 0 < exponentField x) (h : exponentField x < 2047) :
    exponentField (-x) = exponentField x := by
  rw [exponentField_eq] at hpos h
  obtain ⟨s, m, e, hm, hvalue, hlog, he⟩ := unpack_normal hpos h
  have hpacked : (unpackExponent (UnpackedFloat.pack .binary64 (.finite (-s) m e hm))).toNat =
      e + 1075 := unpackExponent_pack_normal hm hlog (by omega) (by omega)
  rw [exponentField_neg_eq, exponentField_eq, hvalue]
  exact Int.ofNat.inj (hpacked.trans he)

/-! ## Zero -/

/-- Only a double with an empty exponent field and no fraction compares equal
to zero. -/
theorem unpack_of_beq_zero {x : Float} (h : (x == 0.0) = true) :
    ∃ s, UnpackedFloat.unpack .binary64 x.toModel.toBits.toBitVec = .zero s := by
  have hzero : UnpackedFloat.unpack .binary64 0#64 = .zero .positive := rfl
  change ((UnpackedFloat.unpack .binary64 x.toModel.toBits.toBitVec).compare
    (UnpackedFloat.unpack .binary64 (0.0 : Float).toModel.toBits.toBitVec) == some .eq) = true at h
  rw [bits_zero, hzero] at h
  rcases hx : UnpackedFloat.unpack .binary64 x.toModel.toBits.toBitVec with
    s | _ | s | ⟨s, m, e, hm⟩
  · rw [hx] at h
    cases s <;> exact absurd h (by decide)
  · rw [hx] at h
    exact absurd h (by decide)
  · exact ⟨s, rfl⟩
  · rw [hx] at h
    cases s <;> exact absurd h Bool.false_ne_true

/-- What stands for zero has neither an exponent nor a fraction. -/
theorem fields_of_unpack_zero {b : BitVec 64} {s : Sign}
    (h : UnpackedFloat.unpack .binary64 b = .zero s) :
    @unpackExponent .binary64 b = 0#_ ∧ @unpackMantissa .binary64 b = 0#_ := by
  unfold UnpackedFloat.unpack at h
  dsimp only at h
  by_cases hfinite : @unpackExponent .binary64 b = -1#_
  · rw [if_pos hfinite] at h
    by_cases hmantissa : @unpackMantissa .binary64 b = 0#_
    · rw [if_pos hmantissa] at h
      nomatch h
    · rw [if_neg hmantissa] at h
      nomatch h
  · rw [if_neg hfinite] at h
    by_cases hexponent : @unpackExponent .binary64 b = 0#_
    · rw [if_pos hexponent] at h
      by_cases hmantissa : @unpackMantissa .binary64 b = 0#_
      · exact ⟨hexponent, hmantissa⟩
      · rw [dif_neg hmantissa] at h
        nomatch h
    · rw [if_neg hexponent] at h
      nomatch h

/-- The fraction is the one that unpacking looks at. -/
theorem fraction_eq (x : Float) :
    fraction x = (@unpackMantissa .binary64 x.toModel.toBits.toBitVec).toNat := by
  have hbits : x.toBits = x.toModel.toBits := rfl
  unfold fraction unpackMantissa
  rw [hbits]
  simp [Format.binary64, BitVec.extractLsb]
  rw [Nat.and_two_pow_sub_one_eq_mod _ 52]

/-- A double that equals zero has nothing in its exponent or its significand. -/
theorem fields_of_beq_zero {x : Float} (h : (x == 0.0) = true) :
    exponentField x = 0 ∧ fraction x = 0 := by
  obtain ⟨s, hzero⟩ := unpack_of_beq_zero h
  obtain ⟨hexponent, hmantissa⟩ := fields_of_unpack_zero hzero
  rw [exponentField_eq, fraction_eq, hexponent, hmantissa]
  exact ⟨rfl, rfl⟩

/-- A double that compares equal to zero has the value zero. -/
theorem toRat?_of_beq_zero {x : Float} (h : (x == 0.0) = true) : toRat? x = some 0 := by
  obtain ⟨hexponent, hfraction⟩ := fields_of_beq_zero h
  have hfinite : isFinite x = true := by simp [isFinite, hexponent]
  have hvalue : decompose x = (0, -1074) := by
    unfold decompose
    rw [hexponent, hfraction]
    rfl
  unfold toRat?
  rw [if_pos hfinite, hvalue]
  simp

/-- Bits from those of the smallest normal double on make one with that
exponent field. -/
theorem exponentField_ofBits {bits : Nat} (hlow : 1 <<< 52 ≤ bits) (hhigh : bits < 0x7FF <<< 52) :
    0 < exponentField (Float.ofBits bits.toUInt64) ∧
      exponentField (Float.ofBits bits.toUInt64) < 2047 := by
  have hfield : (@unpackExponent .binary64 bits.toUInt64.toBitVec).toNat = bits / 2 ^ 52 := by
    unfold unpackExponent
    simp [Format.binary64, BitVec.extractLsb, Nat.shiftRight_eq_div_pow]
    omega
  obtain ⟨s, m, e, hm, hvalue, hlog, he⟩ := unpack_normal (b := bits.toUInt64.toBitVec)
    (by omega) (by omega)
  have hpacked : (unpackExponent (UnpackedFloat.pack .binary64 (.finite s m e hm))).toNat =
      e + 1075 := unpackExponent_pack_normal hm hlog (by omega) (by omega)
  have hbits : exponentField (Float.ofBits bits.toUInt64) = (@unpackExponent .binary64
      (UnpackedFloat.pack .binary64
        (UnpackedFloat.unpack .binary64 bits.toUInt64.toBitVec))).toNat := exponentField_eq _
  rw [hbits, hvalue]
  change 0 < (unpackExponent (UnpackedFloat.pack .binary64 (.finite s m e hm))).toNat ∧
    (unpackExponent (UnpackedFloat.pack .binary64 (.finite s m e hm))).toNat < 2047
  omega

/-- The bits for an integer other than zero are those of a normal double: its
last place lies no lower than `2 ^ (-53)`. -/
theorem le_magnitudeBits (n : Nat) : 1 <<< 52 ≤ magnitudeBits n 1 := by
  have hguess := guess_le_lastPlace n 1
  have hone : Nat.log2 1 = 0 := rfl
  unfold magnitudeBits
  simp only [Nat.shiftLeft_eq]
  omega

/-- An integer other than zero becomes no double that compares equal to zero. -/
theorem beq_zero_of_ofInt? {n : Int} (hn : n ≠ 0) {x : Float} (h : ofInt? n = some x) :
    (x == 0.0) = false := by
  have hpos : 0 < exponentField x := by
    unfold ofInt? ofRat? at h
    rw [Rat.num_intCast, Rat.den_intCast, if_neg hn] at h
    by_cases hbits : magnitudeBits n.natAbs 1 < 0x7FF <<< 52
    · obtain ⟨hlow, hhigh⟩ := exponentField_ofBits (le_magnitudeBits n.natAbs) hbits
      simp only [if_pos hbits, Option.some.injEq] at h
      split at h
      · rw [← h, exponentField_neg hlow hhigh]
        exact hlow
      · rw [← h]
        exact hlow
    · simp only [if_neg hbits] at h
      exact absurd h (Option.some_ne_none x).symm
  by_contra hzero
  rw [Bool.not_eq_false] at hzero
  have hfield := (fields_of_beq_zero hzero).1
  omega

end Double

namespace Number

/-- A double that is not of value zero does not compare equal to zero. -/
theorem beq_zero_of_isZero {x : Float} (h : (float x).isZero = false) : (x == 0.0) = false := by
  by_contra hzero
  rw [Bool.not_eq_false] at hzero
  have hvalue : (float x).isZero = true := by
    simp [isZero, same, compare?, extent?, Double.toRat?_of_beq_zero hzero, Extent.compare]
  exact absurd (h.symm.trans hvalue) Bool.false_ne_true

end Number

end Ostinato
