import Mathlib.Algebra.Order.Ring.Rat
import Ostinato.Proofs.Number.Zero

/-!
# Ostinato.Proofs.Number.Rank

The order of doubles.

Doubles that are not NaN are compared like whole numbers: the rank of one is its
bits without the sign, negated if it has one (`Double.le_iff`).  Packing keeps
what a double stands for, and infinity takes the place of what is too large
(`Double.rank_pack`).
-/

namespace Ostinato.Double

open Float.Model Float.Model.UnpackedFloat

/-! ## Ranks -/

/-- The number of doubles that have the same sign and exponent. -/
def binade : Int := 0x10000000000000

/-- The rank of infinity. -/
def topRank : Int := 2047 * binade

/-- The rank of a double among all of them: its bits without the sign, with that
sign. -/
def rank : UnpackedFloat → Int
  | .infinity s => s.apply topRank
  | .notANumber => 0
  | .zero _ => 0
  | .finite s m e _ => s.apply ((e + 1074) * binade + m)

/-- A form in which bits are unpacked: fifty-three places, the first of which is
taken except at the lowest exponent. -/
def Settled : UnpackedFloat → Prop
  | .finite _ m e _ =>
      (m : Int) < 2 * binade ∧ -1074 ≤ e ∧ e ≤ 971 ∧ (binade ≤ m ∨ e = -1074)
  | _ => True

/-- A significand of fifty-three places has a place of its own among them. -/
theorem log2_eq_of_binade_le {m : Nat} (hlow : binade ≤ m) (hhigh : (m : Int) < 2 * binade) :
    m.log2 = 52 := by
  unfold binade at hlow hhigh
  rw [Nat.log2_eq_iff (by omega)]
  omega

/-- A significand below the first binade has fewer than fifty-three places. -/
theorem log2_lt_of_lt_binade {m : Nat} (hpos : 0 < m) (h : (m : Int) < binade) : m.log2 < 52 := by
  unfold binade at h
  rw [Nat.log2_lt (by omega)]
  omega

/-! ## Packing -/

/-- The sign that was packed is unpacked. -/
theorem unpackSign_packComponents (s : Sign) (exponent : BitVec 11) (mantissa : BitVec 52) :
    unpackSign (packComponents .binary64 s exponent mantissa) = s.toBitVec := by
  unfold unpackSign packComponents
  refine BitVec.eq_of_getLsbD_eq fun i hi => ?_
  obtain rfl : i = 0 := by omega
  rw [BitVec.getLsbD_cast, BitVec.getLsbD_extractLsb]
  simp only [BitVec.getLsbD_append]
  rfl

theorem ofBitVec_toBitVec (s : Sign) : Sign.ofBitVec s.toBitVec = s := by
  cases s <;> rfl

/-- Finite doubles of the same parts are the same. -/
theorem finite_congr {s s' : Sign} {m m' : Nat} {e e' : Int} (hm : 0 < m) (hm' : 0 < m')
    (hs : s = s') (hmm : m = m') (hee : e = e') :
    UnpackedFloat.finite s m e hm = .finite s' m' e' hm' := by
  subst hs hmm hee
  rfl

/-- Bits with an exponent of their own. -/
theorem unpack_of_exponent {b : BitVec 64} {m : Nat} {e : Int} (hm : 0 < m)
    (hexponent : ((@unpackExponent .binary64 b).toNat : Int) = e + 1075) (he : -1074 ≤ e)
    (he' : e ≤ 971) (hmantissa : 2 ^ 52 + (@unpackMantissa .binary64 b).toNat = m) :
    UnpackedFloat.unpack .binary64 b =
      .finite (Sign.ofBitVec (@unpackSign .binary64 b)) m e hm := by
  have hbias : ((Format.binary64.exponentBias : Nat) : Int) = 1023 := rfl
  have hplaces : ((Format.binary64.mantissaBitsWithoutImplicit : Nat) : Int) = 52 := rfl
  have hfinite : @unpackExponent .binary64 b ≠ -1#_ := by
    intro hc
    have hmax : (@unpackExponent .binary64 b).toNat = 2047 := congrArg BitVec.toNat hc
    omega
  have hnonzero : @unpackExponent .binary64 b ≠ 0#_ := by
    intro hc
    have hmin : (@unpackExponent .binary64 b).toNat = 0 := congrArg BitVec.toNat hc
    omega
  unfold UnpackedFloat.unpack
  dsimp only
  rw [if_neg hfinite, if_neg hnonzero]
  refine finite_congr _ _ rfl ((toNat_significand b).trans hmantissa) ?_
  rw [hexponent, hbias, hplaces]
  omega

/-- Bits at the lowest exponent. -/
theorem unpack_of_mantissa {b : BitVec 64} {m : Nat} (hm : 0 < m)
    (hexponent : @unpackExponent .binary64 b = 0#_)
    (hmantissa : (@unpackMantissa .binary64 b).toNat = m) :
    UnpackedFloat.unpack .binary64 b =
      .finite (Sign.ofBitVec (@unpackSign .binary64 b)) m (-1074) hm := by
  have hfinite : @unpackExponent .binary64 b ≠ -1#_ := by
    rw [hexponent]
    decide
  have hnonzero : @unpackMantissa .binary64 b ≠ 0#_ := by
    intro hc
    have hmin : (@unpackMantissa .binary64 b).toNat = 0 := congrArg BitVec.toNat hc
    omega
  unfold UnpackedFloat.unpack
  dsimp only
  rw [if_neg hfinite, if_pos hexponent, dif_neg hnonzero]
  refine finite_congr _ _ rfl hmantissa ?_
  rw [hexponent]
  rfl

/-- A significand with an exponent of its own is packed with it. -/
theorem unpack_pack_normal {s : Sign} {m : Nat} {e : Int} (hm : 0 < m) (hlow : binade ≤ m)
    (hhigh : (m : Int) < 2 * binade) (he : -1074 ≤ e) (he' : e ≤ 971) :
    UnpackedFloat.unpack .binary64 (UnpackedFloat.pack .binary64 (.finite s m e hm)) =
      .finite s m e hm := by
  have hbias : ((Format.binary64.exponentBias : Nat) : Int) = 1023 := rfl
  have hplaces : ((Format.binary64.mantissaBitsWithoutImplicit : Nat) : Int) = 52 := rfl
  have hbits : Format.binary64.exponentBits = 11 := rfl
  have hmantissa : Format.binary64.mantissaBits = 53 := rfl
  have hlog := log2_eq_of_binade_le hlow hhigh
  have hpack : UnpackedFloat.pack .binary64 (.finite s m e hm) =
      packComponents .binary64 s (BitVec.ofNat 11 (e + 1023 + 52).toNat) (BitVec.ofNat 52 m) := by
    unfold UnpackedFloat.pack
    dsimp only
    rw [hbias, hplaces, if_neg (by omega), if_pos (by rw [hlog, hmantissa])]
  have hexponent : ((BitVec.ofNat 11 (e + 1023 + 52).toNat).toNat : Int) = e + 1075 := by
    rw [BitVec.toNat_ofNat, Nat.mod_eq_of_lt (by omega)]
    omega
  have hvalue : 2 ^ 52 + (BitVec.ofNat 52 m).toNat = m := by
    unfold binade at hlow hhigh
    rw [BitVec.toNat_ofNat]
    omega
  rw [hpack]
  refine (unpack_of_exponent hm ?_ he he' ?_).trans ?_
  · rw [unpackExponent_packComponents]
    exact hexponent
  · rw [unpackMantissa_packComponents]
    exact hvalue
  · rw [unpackSign_packComponents, ofBitVec_toBitVec]

/-- A significand without one is packed at the lowest exponent. -/
theorem unpack_pack_subnormal {s : Sign} {m : Nat} (hm : 0 < m) (hhigh : (m : Int) < binade) :
    UnpackedFloat.unpack .binary64 (UnpackedFloat.pack .binary64 (.finite s m (-1074) hm)) =
      .finite s m (-1074) hm := by
  have hlog := log2_lt_of_lt_binade hm hhigh
  have hmantissa : Format.binary64.mantissaBits = 53 := rfl
  have hpack : UnpackedFloat.pack .binary64 (.finite s m (-1074) hm) =
      packComponents .binary64 s 0#11 (BitVec.ofNat 52 m) := by
    unfold UnpackedFloat.pack
    dsimp only
    rw [if_neg (by decide), if_neg (by rw [hmantissa]; omega)]
  rw [hpack]
  refine (unpack_of_mantissa hm unpackExponent_packComponents ?_).trans ?_
  · unfold binade at hhigh
    rw [unpackMantissa_packComponents, BitVec.toNat_ofNat]
    exact Nat.mod_eq_of_lt (show m < 2 ^ 52 by omega)
  · rw [unpackSign_packComponents, ofBitVec_toBitVec]

/-- Packing keeps what is settled. -/
theorem unpack_pack {u : UnpackedFloat} (h : Settled u) :
    UnpackedFloat.unpack .binary64 (UnpackedFloat.pack .binary64 u) = u := by
  cases u with
  | infinity s => cases s <;> rfl
  | notANumber => rfl
  | zero s => cases s <;> rfl
  | finite s m e hm =>
      obtain ⟨hhigh, he, he', hplace⟩ := h
      by_cases hlow : binade ≤ m
      · exact unpack_pack_normal hm hlow hhigh he he'
      · obtain rfl := hplace.resolve_left hlow
        exact unpack_pack_subnormal hm (not_le.mp hlow)

/-! ## Bits -/

/-- What finite bits stand for. -/
theorem unpack_finite_cases {b : BitVec 64} (h : (@unpackExponent .binary64 b).toNat < 2047) :
    ((@unpackExponent .binary64 b).toNat = 0 ∧ (@unpackMantissa .binary64 b).toNat = 0 ∧
        UnpackedFloat.unpack .binary64 b = .zero (Sign.ofBitVec (@unpackSign .binary64 b))) ∨
      ∃ m e hm, UnpackedFloat.unpack .binary64 b =
          .finite (Sign.ofBitVec (@unpackSign .binary64 b)) m e hm ∧
        Settled (.finite (Sign.ofBitVec (@unpackSign .binary64 b)) m e hm) ∧
        (e + 1074) * binade + m = (@unpackExponent .binary64 b).toNat * binade +
          (@unpackMantissa .binary64 b).toNat := by
  have hlt : (@unpackMantissa .binary64 b).toNat < 2 ^ 52 := (@unpackMantissa .binary64 b).isLt
  by_cases hzero : (@unpackExponent .binary64 b).toNat = 0
  · have hexponent : @unpackExponent .binary64 b = 0#_ := BitVec.eq_of_toNat_eq hzero
    by_cases hnone : (@unpackMantissa .binary64 b).toNat = 0
    · refine .inl ⟨hzero, hnone, ?_⟩
      have hmantissa : @unpackMantissa .binary64 b = 0#_ := BitVec.eq_of_toNat_eq hnone
      unfold UnpackedFloat.unpack
      dsimp only
      rw [if_neg (by rw [hexponent]; decide), if_pos hexponent, dif_pos hmantissa]
    · have hm := Nat.pos_of_ne_zero hnone
      refine .inr ⟨_, -1074, hm, unpack_of_mantissa hm hexponent rfl, ⟨?_, ?_⟩, ?_⟩
      · unfold binade
        omega
      · omega
      · rw [hzero]
        unfold binade
        omega
  · have hm : 0 < 2 ^ 52 + (@unpackMantissa .binary64 b).toNat := by omega
    refine .inr ⟨_, ((@unpackExponent .binary64 b).toNat : Int) - 1075, hm,
      unpack_of_exponent hm (by omega) (by omega) (by omega) rfl, ⟨?_, ?_⟩, ?_⟩
    · unfold binade
      omega
    · unfold binade
      omega
    · unfold binade
      omega

/-- Whatever is unpacked is settled. -/
theorem settled_unpack (b : BitVec 64) : Settled (UnpackedFloat.unpack .binary64 b) := by
  by_cases hfinite : (@unpackExponent .binary64 b).toNat < 2047
  · obtain ⟨-, -, hzero⟩ | ⟨m, e, hm, hvalue, hsettled, -⟩ := unpack_finite_cases hfinite
    · rw [hzero]
      trivial
    · rw [hvalue]
      exact hsettled
  · have hmax : @unpackExponent .binary64 b = -1#_ := by
      refine BitVec.eq_of_toNat_eq ?_
      have hlt : (@unpackExponent .binary64 b).toNat < 2048 := (@unpackExponent .binary64 b).isLt
      change (@unpackExponent .binary64 b).toNat = 2047
      omega
    unfold UnpackedFloat.unpack
    dsimp only
    rw [if_pos hmax]
    split <;> trivial

/-- The exponent of bits, as a number. -/
theorem toNat_unpackExponent (b : BitVec 64) :
    (@unpackExponent .binary64 b).toNat = b.toNat / 2 ^ 52 % 2048 := by
  unfold unpackExponent
  simp [Format.binary64, BitVec.extractLsb, Nat.shiftRight_eq_div_pow]

/-- The significand of bits, as a number. -/
theorem toNat_unpackMantissa (b : BitVec 64) :
    (@unpackMantissa .binary64 b).toNat = b.toNat % 2 ^ 52 := by
  unfold unpackMantissa
  simp [Format.binary64, BitVec.extractLsb]

/-- The sign of bits, as a number. -/
theorem toNat_unpackSign (b : BitVec 64) :
    (@unpackSign .binary64 b).toNat = b.toNat / 2 ^ 63 % 2 := by
  unfold unpackSign
  simp [Format.binary64, BitVec.extractLsb, Nat.shiftRight_eq_div_pow]

/-- The rank of finite bits without a sign. -/
theorem rank_unpack {b : BitVec 64} (h : b.toNat < 0x7FF <<< 52) :
    rank (UnpackedFloat.unpack .binary64 b) = b.toNat ∧
      UnpackedFloat.unpack .binary64 b ≠ .notANumber := by
  have hexponent := toNat_unpackExponent b
  have hmantissa := toNat_unpackMantissa b
  have hsign : @unpackSign .binary64 b = 0#1 := by
    refine BitVec.eq_of_toNat_eq ((toNat_unpackSign b).trans ?_)
    change b.toNat / 2 ^ 63 % 2 = 0
    omega
  have hfinite : (@unpackExponent .binary64 b).toNat < 2047 := by omega
  obtain ⟨hnone, hnone', hzero⟩ | ⟨m, e, hm, hvalue, -, hrank⟩ := unpack_finite_cases hfinite
  · rw [hzero]
    refine ⟨?_, nofun⟩
    change (0 : Int) = b.toNat
    omega
  · rw [hvalue, hsign]
    refine ⟨?_, nofun⟩
    change (e + 1074) * binade + m = b.toNat
    rw [hrank, hexponent, hmantissa]
    unfold binade
    omega

/-! ## Comparing -/

/-- The rank of a finite double other than zero, but for its sign. -/
theorem rank_bounds {s : Sign} {m : Nat} {e : Int} {hm : 0 < m} (h : Settled (.finite s m e hm)) :
    0 < (e + 1074) * binade + m ∧ (e + 1074) * binade + m < topRank := by
  obtain ⟨hhigh, he, he', -⟩ := h
  unfold topRank
  unfold binade at hhigh ⊢
  omega

/-- Of two doubles that are not zero, the exponents decide, and then the
significands. -/
theorem compare_magnitudes {s s' : Sign} {m m' : Nat} {e e' : Int} {hm : 0 < m} {hm' : 0 < m'}
    (h : Settled (.finite s m e hm)) (h' : Settled (.finite s' m' e' hm')) :
    compare ((e + 1074) * binade + m) ((e' + 1074) * binade + m') =
      (compare e e').then (compare m m') := by
  obtain ⟨hhigh, he, -, hplace⟩ := h
  obtain ⟨hhigh', he', -, hplace'⟩ := h'
  unfold binade at *
  rcases lt_trichotomy e e' with hlt | rfl | hgt
  · rw [compare_lt_iff_lt.mpr hlt]
    exact compare_lt_iff_lt.mpr (by omega)
  · rw [compare_eq_iff_eq.mpr (rfl : e = e)]
    change _ = compare m m'
    rcases lt_trichotomy m m' with hlt | rfl | hgt
    · rw [compare_lt_iff_lt.mpr hlt]
      exact compare_lt_iff_lt.mpr (by omega)
    · rw [compare_eq_iff_eq.mpr (rfl : m = m)]
      exact compare_eq_iff_eq.mpr rfl
    · rw [compare_gt_iff_gt.mpr hgt]
      exact compare_gt_iff_gt.mpr (by omega)
  · rw [compare_gt_iff_gt.mpr hgt]
    exact compare_gt_iff_gt.mpr (by omega)

/-- Opposites are compared the other way round. -/
theorem compare_neg (a b : Int) : compare (-a) (-b) = (compare a b).swap := by
  rcases lt_trichotomy a b with hlt | rfl | hgt
  · rw [compare_lt_iff_lt.mpr hlt]
    exact compare_gt_iff_gt.mpr (Int.neg_lt_neg hlt)
  · rw [compare_eq_iff_eq.mpr (rfl : a = a)]
    exact compare_eq_iff_eq.mpr rfl
  · rw [compare_gt_iff_gt.mpr hgt]
    exact compare_lt_iff_lt.mpr (Int.neg_lt_neg hgt)

/-- Doubles that are not NaN are compared by their ranks. -/
theorem compare_eq {u v : UnpackedFloat} (hu : Settled u) (hv : Settled v)
    (hu' : u ≠ .notANumber) (hv' : v ≠ .notANumber) :
    u.compare v = some (compare (rank u) (rank v)) := by
  have htop : 0 < topRank := by decide
  have hlt : ∀ {a b : Int}, a < b → some Ordering.lt = some (compare a b) := fun h =>
    congrArg some (compare_lt_iff_lt.mpr h).symm
  have hgt : ∀ {a b : Int}, b < a → some Ordering.gt = some (compare a b) := fun h =>
    congrArg some (compare_gt_iff_gt.mpr h).symm
  cases u with
  | notANumber => exact absurd rfl hu'
  | infinity s =>
      cases v with
      | notANumber => exact absurd rfl hv'
      | infinity s' => cases s <;> cases s' <;> decide
      | zero s' =>
          cases s with
          | negative => exact hlt (Int.neg_neg_of_pos htop)
          | positive => exact hgt htop
      | finite s' m' e' hm' =>
          obtain ⟨hpos, hbelow⟩ := rank_bounds hv
          cases s <;> cases s'
          · exact hlt (Int.neg_lt_neg hbelow)
          · exact hlt (show -topRank < _ by change -topRank < (e' + 1074) * binade + m'; omega)
          · exact hgt (show _ < topRank by change -((e' + 1074) * binade + m') < topRank; omega)
          · exact hgt hbelow
  | zero s =>
      cases v with
      | notANumber => exact absurd rfl hv'
      | infinity s' =>
          cases s' with
          | negative => exact hgt (Int.neg_neg_of_pos htop)
          | positive => exact hlt htop
      | zero s' => rfl
      | finite s' m' e' hm' =>
          obtain ⟨hpos, -⟩ := rank_bounds hv
          cases s' with
          | negative => exact hgt (Int.neg_neg_of_pos hpos)
          | positive => exact hlt hpos
  | finite s m e hm =>
      obtain ⟨hpos, hbelow⟩ := rank_bounds hu
      cases v with
      | notANumber => exact absurd rfl hv'
      | infinity s' =>
          cases s <;> cases s'
          · exact hgt (Int.neg_lt_neg hbelow)
          · exact hlt (show -((e + 1074) * binade + m) < topRank by omega)
          · exact hgt (show -topRank < (e + 1074) * binade + m by omega)
          · exact hlt hbelow
      | zero s' =>
          cases s with
          | negative => exact hlt (Int.neg_neg_of_pos hpos)
          | positive => exact hgt hpos
      | finite s' m' e' hm' =>
          obtain ⟨hpos', -⟩ := rank_bounds hv
          cases s <;> cases s'
          · exact congrArg some ((congrArg Ordering.swap (compare_magnitudes hu hv)).symm.trans
              (compare_neg _ _).symm)
          · exact hlt (show -((e + 1074) * binade + m) < (e' + 1074) * binade + m' by omega)
          · exact hgt (show -((e' + 1074) * binade + m') < (e + 1074) * binade + m by omega)
          · exact congrArg some (compare_magnitudes hu hv).symm

/-- NaN is not compared with anything. -/
theorem compare_of_notANumber {u v : UnpackedFloat} (h : u = .notANumber ∨ v = .notANumber) :
    u.compare v = none := by
  rcases h with rfl | rfl
  · rfl
  · cases u with
    | infinity s => cases s <;> rfl
    | finite s m e hm => cases s <;> rfl
    | _ => rfl

/-- The form of a double. -/
def unpacked (x : Float) : UnpackedFloat := UnpackedFloat.unpack .binary64 x.toModel.toBits.toBitVec

theorem settled_unpacked (x : Float) : Settled (unpacked x) := settled_unpack _

variable {x y z : Float}

/-- Doubles that are not NaN are ordered by their ranks. -/
theorem le_iff : x ≤ y ↔ unpacked x ≠ .notANumber ∧ unpacked y ≠ .notANumber ∧
    rank (unpacked x) ≤ rank (unpacked y) := by
  have hle : x ≤ y ↔ ((unpacked x).compare (unpacked y)).any (·.isLE) = true :=
    decide_eq_true_iff
  rw [hle]
  by_cases hnan : unpacked x = .notANumber ∨ unpacked y = .notANumber
  · rw [compare_of_notANumber hnan]
    exact ⟨nofun, fun h => absurd hnan (not_or.mpr ⟨h.1, h.2.1⟩)⟩
  · obtain ⟨hx, hy⟩ := not_or.mp hnan
    rw [compare_eq (settled_unpacked x) (settled_unpacked y) hx hy, Option.any_some,
      Int.isLE_compare]
    exact ⟨fun h => ⟨hx, hy, h⟩, fun h => h.2.2⟩

/-- Of doubles that are not NaN, the smaller has the lower rank. -/
theorem lt_iff : x < y ↔ unpacked x ≠ .notANumber ∧ unpacked y ≠ .notANumber ∧
    rank (unpacked x) < rank (unpacked y) := by
  have hlt : x < y ↔ ((unpacked x).compare (unpacked y) == some .lt) = true :=
    decide_eq_true_iff
  rw [hlt]
  by_cases hnan : unpacked x = .notANumber ∨ unpacked y = .notANumber
  · rw [compare_of_notANumber hnan]
    exact ⟨fun h => absurd h Bool.false_ne_true, fun h => absurd hnan (not_or.mpr ⟨h.1, h.2.1⟩)⟩
  · obtain ⟨hx, hy⟩ := not_or.mp hnan
    rw [compare_eq (settled_unpacked x) (settled_unpacked y) hx hy, beq_iff_eq, Option.some_inj,
      compare_lt_iff_lt]
    exact ⟨fun h => ⟨hx, hy, h⟩, fun h => h.2.2⟩

protected theorem le_trans (h : x ≤ y) (h' : y ≤ z) : x ≤ z := by
  rw [le_iff] at *
  exact ⟨h.1, h'.2.1, Int.le_trans h.2.2 h'.2.2⟩

protected theorem le_of_lt (h : x < y) : x ≤ y := by
  rw [lt_iff] at h
  rw [le_iff]
  exact ⟨h.1, h.2.1, Int.le_of_lt h.2.2⟩

/-- What is compared is a number. -/
theorem le_self_of_le (h : x ≤ y) : x ≤ x ∧ y ≤ y := by
  rw [le_iff] at h
  rw [le_iff, le_iff]
  exact ⟨⟨h.1, h.1, le_refl _⟩, ⟨h.2.1, h.2.1, le_refl _⟩⟩

/-- Where no double is NaN, one that is not smaller is at least as great. -/
protected theorem le_of_not_lt (hx : x ≤ x) (hy : y ≤ y) (h : ¬ x < y) : y ≤ x := by
  rw [le_iff] at *
  rw [lt_iff] at h
  exact ⟨hy.1, hx.1, Int.not_lt.mp fun hlt => h ⟨hx.1, hy.1, hlt⟩⟩

end Ostinato.Double
