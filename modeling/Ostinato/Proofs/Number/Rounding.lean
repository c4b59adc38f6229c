import Mathlib.Algebra.Order.Field.Basic
import Mathlib.Algebra.Order.Field.Rat
import Mathlib.Tactic.Linarith
import Mathlib.Tactic.Ring
import Ostinato.Proofs.Number.Rank

/-!
# Ostinato.Proofs.Number.Rounding

How numbers are rounded to doubles.

1. Digits that are kept, with two bits for the rest, read a number (`Reads`):
   they are rounded to the nearest whole number, which is monotone
   (`Reads.rounded_le`), and stay a reading when they are shifted
   (`Reads.shiftRight`).
2. A number is rounded to a rank, wherever its last place stands (`Rounds`): a
   greater one to no lower rank (`Rounds.le`).
3. The rank that rounding comes to is that of the number that was read
   (`rank_roundWithAccuracy`).
-/

namespace Ostinato.Double

open Float.Model Float.Model.UnpackedFloat

/-! ## Rounding to a place -/

/-- What the digits that are kept and the two that stand for the rest tell of a
number: that it is whole, or that it lies below, in, or above the middle of two
whole numbers. -/
def Reads (em : ExtendedMantissa) (x : Rat) : Prop :=
  if em.roundBit then
    if em.stickyBit then (em.mantissa : Rat) + 1 / 2 < x ∧ x < em.mantissa + 1
    else x = em.mantissa + 1 / 2
  else
    if em.stickyBit then (em.mantissa : Rat) < x ∧ x < em.mantissa + 1 / 2
    else x = em.mantissa

theorem reads_exact (m : Nat) : Reads (.ofMantissaAndAccuracy m .exact) m := rfl

section Reads

variable {em em' : ExtendedMantissa} {x x' : Rat}

/-- A number lies at the digits that are kept or above them, by less than one. -/
theorem Reads.floor (h : Reads em x) : (em.mantissa : Rat) ≤ x ∧ x < em.mantissa + 1 := by
  obtain ⟨m, r, s⟩ := em
  unfold Reads at h
  cases r <;> cases s <;> simp only [if_true, if_false, Bool.false_eq_true] at h ⊢ <;>
    constructor <;> linarith

/-- Rounding adds at most one to the digits that are kept. -/
theorem roundedMantissa_bounds (em : ExtendedMantissa) :
    em.mantissa ≤ em.roundedMantissa ∧ em.roundedMantissa ≤ em.mantissa + 1 := by
  obtain ⟨m, r, s⟩ := em
  unfold ExtendedMantissa.roundedMantissa ExtendedMantissa.accuracy
    Accuracy.roundToNearestEven
  cases r <;> cases s <;> simp only <;> omega

/-- A greater number is not rounded to a smaller one. -/
theorem Reads.rounded_le (h : Reads em x) (h' : Reads em' x') (hle : x ≤ x') :
    em.roundedMantissa ≤ em'.roundedMantissa := by
  have hfloor := h.floor
  have hfloor' := h'.floor
  have hmantissa : em.mantissa < em'.mantissa + 1 := by
    exact_mod_cast lt_of_le_of_lt (hfloor.1.trans hle) hfloor'.2
  rcases Nat.lt_or_eq_of_le (Nat.lt_succ_iff.mp hmantissa) with hlt | heq
  · exact (roundedMantissa_bounds em).2.trans (Nat.succ_le_of_lt hlt |>.trans
      (roundedMantissa_bounds em').1)
  · obtain ⟨m, r, s⟩ := em
    obtain ⟨m', r', s'⟩ := em'
    obtain rfl : m = m' := heq
    unfold Reads at h h'
    unfold ExtendedMantissa.roundedMantissa ExtendedMantissa.accuracy
      Accuracy.roundToNearestEven
    cases r <;> cases s <;> cases r' <;> cases s' <;>
      simp only [if_true, if_false, Bool.false_eq_true] at h h' ⊢ <;>
      first | omega | (exfalso; linarith)

/-- One digit less is kept. -/
theorem Reads.shiftRightOne (h : Reads em x) : Reads em.shiftRightOne (x / 2) := by
  obtain ⟨m, r, s⟩ := em
  have hdivided : (m : Rat) = 2 * (m / 2 : Nat) + (m % 2 : Nat) := by
    exact_mod_cast (Nat.div_add_mod m 2).symm
  unfold Reads ExtendedMantissa.shiftRightOne
  unfold Reads at h
  generalize m / 2 = half at hdivided ⊢
  rcases Nat.mod_two_eq_zero_or_one m with hbit | hbit <;> rw [hbit] at hdivided ⊢ <;>
    cases r <;> cases s <;>
      simp only [bne_self_eq_false, Nat.one_ne_zero, bne_iff_ne, ne_eq, not_false_eq_true,
        Bool.or_self, Bool.or_true, Bool.true_or, Nat.cast_zero, Nat.cast_one, if_true, if_false,
        Bool.false_eq_true] at h hdivided ⊢ <;>
      first | (constructor <;> linarith) | linarith

/-- Some digits less are kept. -/
theorem Reads.shiftRight (h : Reads em x) (k : Nat) : Reads (em >>> k) (x / 2 ^ k) := by
  change Reads (k.repeat ExtendedMantissa.shiftRightOne em) _
  induction k with
  | zero =>
      rw [pow_zero, div_one]
      exact h
  | succ k ih =>
      rw [pow_succ, ← div_div]
      exact ih.shiftRightOne

/-- The digits that are left after a shift. -/
theorem mantissa_shiftRight (em : ExtendedMantissa) (k : Nat) :
    (em >>> k).mantissa = em.mantissa / 2 ^ k := by
  change (k.repeat ExtendedMantissa.shiftRightOne em).mantissa = _
  induction k with
  | zero => exact (Nat.div_one _).symm
  | succ k ih =>
      change (k.repeat ExtendedMantissa.shiftRightOne em).mantissa / 2 = _
      rw [ih, Nat.div_div_eq_div_mul, ← Nat.pow_succ]

end Reads

/-! ## Rounding to the nearest double -/

/-- A number that is not negative is rounded to a rank, which runs on beyond that
of infinity: fifty-three places are kept, fewer at the lowest exponent. -/
def Rounds (x : Rat) (k : Int) : Prop :=
  ∃ (e : Int) (em : ExtendedMantissa), -1074 ≤ e ∧ (em.mantissa : Int) < 2 * binade ∧
    (binade ≤ em.mantissa ∨ e = -1074) ∧ Reads em (x / 2 ^ e) ∧
    k = (e + 1074) * binade + em.roundedMantissa

section Rounds

variable {x x' : Rat} {k k' : Int}

/-- A number that is not negative is rounded to no rank below zero. -/
theorem Rounds.nonneg (h : Rounds x k) : 0 ≤ k := by
  obtain ⟨e, em, he, -, -, -, rfl⟩ := h
  unfold binade
  omega

theorem two_zpow_pos (e : Int) : (0 : Rat) < 2 ^ e := zpow_pos two_pos e

/-- Powers of two at least double from one to the next. -/
theorem two_mul_zpow_le {e e' : Int} (h : e < e') : 2 * (2 : Rat) ^ e ≤ 2 ^ e' := by
  rw [mul_comm, ← zpow_add_one₀ two_ne_zero]
  exact zpow_le_zpow_right₀ one_le_two h

/-- A greater number is rounded to no lower rank. -/
theorem Rounds.le (h : Rounds x k) (h' : Rounds x' k') (hle : x ≤ x') : k ≤ k' := by
  obtain ⟨e, em, he, hhigh, hlow, hreads, rfl⟩ := h
  obtain ⟨e', em', he', hhigh', hlow', hreads', rfl⟩ := h'
  have hbounds := roundedMantissa_bounds em
  have hbounds' := roundedMantissa_bounds em'
  rcases lt_trichotomy e e' with hlt | rfl | hgt
  · unfold binade at *
    omega
  · have hplaces :=
      hreads.rounded_le hreads' ((div_le_div_iff_of_pos_right (two_zpow_pos e)).mpr hle)
    omega
  · -- the last place of the smaller number stands higher
    exfalso
    have hmantissa : binade ≤ em.mantissa := hlow.resolve_right (by omega)
    have hbelow : (em.mantissa : Rat) * 2 ^ e ≤ x := by
      rw [← le_div_iff₀ (two_zpow_pos e)]
      exact hreads.floor.1
    have habove : x' < ((em'.mantissa : Rat) + 1) * 2 ^ e' := by
      rw [← div_lt_iff₀ (two_zpow_pos e')]
      exact hreads'.floor.2
    have hcast : ((em'.mantissa : Rat) + 1) ≤ 2 * em.mantissa := by
      have hnat : em'.mantissa + 1 ≤ 2 * em.mantissa := by omega
      exact_mod_cast hnat
    have hscale := two_mul_zpow_le hgt
    have hpos := two_zpow_pos e'
    have hnonneg : (0 : Rat) ≤ em.mantissa := Nat.cast_nonneg _
    have hcontra : ((em'.mantissa : Rat) + 1) * 2 ^ e' ≤ em.mantissa * 2 ^ e :=
      calc ((em'.mantissa : Rat) + 1) * 2 ^ e'
          ≤ 2 * em.mantissa * 2 ^ e' := mul_le_mul_of_nonneg_right hcast hpos.le
        _ = em.mantissa * (2 * 2 ^ e') := by ring
        _ ≤ em.mantissa * 2 ^ e := mul_le_mul_of_nonneg_left hscale hnonneg
    linarith

end Rounds

/-- A number is rounded to a rank, away from the sign. -/
def RoundsTo (x : Rat) (k : Int) : Prop := (0 ≤ x ∧ Rounds x k) ∨ (x < 0 ∧ Rounds (-x) (-k))

/-- A greater number is rounded to no lower rank, whatever the signs. -/
theorem RoundsTo.le {x x' : Rat} {k k' : Int} (h : RoundsTo x k) (h' : RoundsTo x' k')
    (hle : x ≤ x') : k ≤ k' := by
  rcases h with ⟨hx, h⟩ | ⟨hx, h⟩ <;> rcases h' with ⟨hx', h'⟩ | ⟨hx', h'⟩
  · exact h.le h' hle
  · exact absurd (hx.trans hle) (not_le.mpr hx')
  · have hneg := h.nonneg
    have hpos := h'.nonneg
    omega
  · have hneg := h'.le h (neg_le_neg hle)
    omega

/-- Ranks end at those of the infinities. -/
def bounded (k : Int) : Int := max (-topRank) (min k topRank)

/-- Cutting ranks off keeps their order. -/
theorem bounded_le {k k' : Int} (h : k ≤ k') : bounded k ≤ bounded k' := by
  unfold bounded
  omega

/-- A number with a sign. -/
def signed : Sign → Rat → Rat
  | .negative, x => -x
  | .positive, x => x

/-- A factor goes under the sign. -/
theorem signed_mul (s : Sign) (x y : Rat) : signed s x * y = signed s (x * y) := by
  cases s with
  | negative => exact neg_mul x y
  | positive => rfl

/-- So does a divisor. -/
theorem signed_div (s : Sign) (x y : Rat) : signed s x / y = signed s (x / y) := by
  cases s with
  | negative => exact neg_div y x
  | positive => rfl

/-- The sign of an integer is that of the number. -/
theorem cast_apply (s : Sign) (n : Nat) : ((s.apply n : Int) : Rat) = signed s n := by
  cases s with
  | negative => exact (Int.cast_neg _).trans (congrArg Neg.neg (Int.cast_natCast n))
  | positive => exact Int.cast_natCast n

/-- A number with a sign is rounded to the rank with that sign. -/
theorem roundsTo_signed (s : Sign) {x : Rat} {k : Int} (hx : 0 < x) (h : Rounds x k) :
    RoundsTo (signed s x) (s.apply k) := by
  cases s with
  | positive => exact .inl ⟨hx.le, h⟩
  | negative =>
      refine .inr ⟨neg_neg_of_pos hx, ?_⟩
      change Rounds (- -x) (- -k)
      rw [neg_neg, neg_neg]
      exact h

/-- Ranks are cut off alike on both sides of zero. -/
theorem bounded_apply (s : Sign) {k : Int} (hk : 0 ≤ k) :
    bounded (s.apply k) = s.apply (min k topRank) := by
  have htop : 0 < topRank := by decide
  cases s with
  | negative =>
      change max (-topRank) (min (-k) topRank) = -(min k topRank)
      omega
  | positive =>
      change max (-topRank) (min k topRank) = min k topRank
      omega

/-! ## Packing what was rounded -/

/-- What a double is read as that was packed. -/
def repacked (u : UnpackedFloat) : UnpackedFloat :=
  UnpackedFloat.unpack .binary64 (UnpackedFloat.pack .binary64 u)

/-- Whatever was packed is settled. -/
theorem settled_repacked (u : UnpackedFloat) : Settled (repacked u) := settled_unpack _

/-- What is settled is not changed by packing. -/
theorem repacked_of_settled {u : UnpackedFloat} (hu : Settled u) : repacked u = u :=
  unpack_pack hu

theorem repacked_zero (s : Sign) : repacked (.zero s) = .zero s :=
  repacked_of_settled (u := .zero s) trivial

theorem repacked_infinity (s : Sign) : repacked (.infinity s) = .infinity s :=
  repacked_of_settled (u := .infinity s) trivial

theorem repacked_notANumber : repacked .notANumber = .notANumber :=
  repacked_of_settled (u := .notANumber) trivial

/-- What is too large becomes infinity. -/
theorem rank_repacked {s : Sign} {m : Nat} {e : Int} (hm : 0 < m) (hhigh : (m : Int) < 2 * binade)
    (he : -1074 ≤ e) (hlow : binade ≤ m ∨ e = -1074) :
    repacked (.finite s m e hm) ≠ .notANumber ∧
      rank (repacked (.finite s m e hm)) = s.apply (min ((e + 1074) * binade + m) topRank) := by
  unfold repacked
  by_cases hmax : e ≤ 971
  · have hsettled : Settled (.finite s m e hm) := ⟨hhigh, he, hmax, hlow⟩
    have hbelow := (rank_bounds hsettled).2
    rw [unpack_pack hsettled]
    refine ⟨nofun, ?_⟩
    rw [min_eq_left (le_of_lt hbelow)]
    rfl
  · have hbias : ((Format.binary64.exponentBias : Nat) : Int) = 1023 := rfl
    have hplaces : ((Format.binary64.mantissaBitsWithoutImplicit : Nat) : Int) = 52 := rfl
    have hbits : Format.binary64.exponentBits = 11 := rfl
    have hpack : UnpackedFloat.pack .binary64 (.finite s m e hm) = packedInfinity .binary64 s := by
      unfold UnpackedFloat.pack
      dsimp only
      rw [hbias, hplaces, if_pos (by omega)]
    have hinfinity : UnpackedFloat.unpack .binary64 (packedInfinity .binary64 s) =
        .infinity s := unpack_pack (u := .infinity s) trivial
    have habove : topRank ≤ (e + 1074) * binade + m := by
      have hmantissa := hlow.resolve_right (by omega)
      unfold topRank binade at *
      omega
    rw [hpack, hinfinity, min_eq_right habove]
    exact ⟨nofun, rfl⟩

/-- The exponent that leaves fifty-three places, or the lowest there is. -/
theorem targetExponent_eq (m : Nat) (e : Int) :
    Format.binary64.targetExponent (totalExponent m e) = max ((m.log2 : Int) + e - 52) (-1074) := by
  have hmin : Format.binary64.minExponent = -1074 := by decide
  have hmantissa : ((Format.binary64.mantissaBits : Nat) : Int) = 53 := rfl
  unfold Format.targetExponent totalExponent
  rw [hmin, hmantissa]
  omega

/-- A significand has at most fifty-three places. -/
theorem log2_of_lt {m : Nat} (h : (m : Int) < 2 * binade) : m.log2 ≤ 52 := by
  by_cases hzero : m = 0
  · rw [hzero, Nat.log2_zero]
    exact Nat.zero_le _
  · have hlt : m.log2 < 53 := by
      rw [Nat.log2_lt hzero]
      unfold binade at h
      omega
    omega

/-- Fifty-three places need not be shifted. -/
theorem shift_of_lt {m : Nat} {e : Int} (hm : (m : Int) < 2 * binade) (he : -1074 ≤ e) :
    shiftToTargetExponent .binary64 m e .exact = (⟨m, false, false⟩, e) := by
  have hlog := log2_of_lt hm
  have hnone : (max ((m.log2 : Int) + e - 52) (-1074) - e).toNat = 0 := by omega
  unfold shiftToTargetExponent shiftToExponent
  rw [targetExponent_eq]
  dsimp only
  rw [hnone, Nat.cast_zero, Int.add_zero]
  rfl

/-- A carry is shifted once. -/
theorem shift_of_carry {m : Nat} {e : Int} (hm : (m : Int) = 2 * binade) (he : -1074 ≤ e) :
    shiftToTargetExponent .binary64 m e .exact = (⟨0x10000000000000, false, false⟩, e + 1) := by
  obtain rfl : m = 2 ^ 53 := by
    unfold binade at hm
    omega
  have honce : (max (((2 ^ 53).log2 : Int) + e - 52) (-1074) - e).toNat = 1 := by
    rw [Nat.log2_two_pow]
    omega
  unfold shiftToTargetExponent shiftToExponent
  rw [targetExponent_eq]
  dsimp only
  rw [honce]
  rfl

/-- The places of a significand that are kept. -/
theorem kept_places {m : Nat} {e t : Int} (ht : t = max ((m.log2 : Int) + e - 52) (-1074))
    (hplaces : 52 ≤ m.log2 ∨ e ≤ -1074) :
    e ≤ t ∧ ((m / 2 ^ (t - e).toNat : Nat) : Int) < 2 * binade ∧
      (binade ≤ (m / 2 ^ (t - e).toNat : Nat) ∨ t = -1074) := by
  have hle : e ≤ t := by omega
  refine ⟨hle, ?_, ?_⟩
  · have hdivided : m / 2 ^ (t - e).toNat < 2 ^ 53 := by
      rw [Nat.div_lt_iff_lt_mul (Nat.two_pow_pos _), ← Nat.pow_add]
      exact lt_of_lt_of_le Nat.lt_log2_self (Nat.pow_le_pow_right (by decide) (by omega))
    unfold binade
    omega
  · by_cases hlowest : t = -1074
    · exact .inr hlowest
    · have hlog : 52 ≤ m.log2 := by omega
      have hnonzero : m ≠ 0 := by
        rintro rfl
        exact absurd hlog (by decide)
      have hdivided : 2 ^ 52 ≤ m / 2 ^ (t - e).toNat := by
        rw [Nat.le_div_iff_mul_le (Nat.two_pow_pos _), ← Nat.pow_add]
        exact (Nat.pow_le_pow_right (by decide) (by omega)).trans (Nat.log2_self_le hnonzero)
      unfold binade
      omega

/-- The kept digits are those that were given. -/
theorem mantissa_ofMantissaAndAccuracy (m : Nat) (a : Accuracy) :
    (ExtendedMantissa.ofMantissaAndAccuracy m a).mantissa = m := by
  cases a with
  | exact => rfl
  | inexact o => cases o <;> rfl

/-- Places that are rounded come to a rank, with a carry or without. -/
theorem rank_rounded {s : Sign} {m : Nat} {e t : Int} {a : Accuracy} {em : ExtendedMantissa}
    (hshift : shiftToTargetExponent .binary64 m e a = (em, t)) (ht : -1074 ≤ t)
    (hhigh : (em.mantissa : Int) < 2 * binade) (hlow : binade ≤ em.mantissa ∨ t = -1074) :
    repacked (roundWithAccuracy .binary64 s m e a) ≠ .notANumber ∧
      rank (repacked (roundWithAccuracy .binary64 s m e a)) =
        s.apply (min ((t + 1074) * binade + em.roundedMantissa) topRank) := by
  have hbounds := roundedMantissa_bounds em
  unfold roundWithAccuracy
  rw [hshift]
  dsimp only
  by_cases hcarry : (em.roundedMantissa : Int) < 2 * binade
  · rw [shift_of_lt hcarry ht]
    dsimp only
    by_cases hzero : em.roundedMantissa = 0
    · have hlowest : t = -1074 := by
        refine hlow.resolve_left ?_
        unfold binade
        omega
      rw [dif_pos hzero, repacked_zero, hzero, hlowest]
      refine ⟨nofun, ?_⟩
      cases s <;> decide
    · rw [dif_neg hzero]
      exact rank_repacked (Nat.pos_of_ne_zero hzero) hcarry ht
        (hlow.imp_left fun h => h.trans (Int.ofNat_le.mpr hbounds.1))
  · have hequal : (em.roundedMantissa : Int) = 2 * binade := by
      unfold binade at *
      omega
    rw [shift_of_carry hequal ht]
    dsimp only
    rw [dif_neg (by decide), hequal]
    obtain ⟨hnumber, hrank⟩ := rank_repacked (s := s) (m := 0x10000000000000) (e := t + 1)
      (by decide) (by decide) (by omega) (.inl (by decide))
    refine ⟨hnumber, hrank.trans ?_⟩
    refine congrArg (fun k => s.apply (min k topRank)) ?_
    unfold binade
    omega

/-- Rounding comes to the rank of the number that is read. -/
theorem rank_roundWithAccuracy {s : Sign} {m : Nat} {e : Int} {a : Accuracy} {x : Rat}
    (hreads : Reads (.ofMantissaAndAccuracy m a) (x / 2 ^ e)) (hplaces : 52 ≤ m.log2 ∨ e ≤ -1074) :
    ∃ k, Rounds x k ∧ repacked (roundWithAccuracy .binary64 s m e a) ≠ .notANumber ∧
      rank (repacked (roundWithAccuracy .binary64 s m e a)) = s.apply (min k topRank) := by
  obtain ⟨t, ht⟩ : ∃ t, t = max ((m.log2 : Int) + e - 52) (-1074) := ⟨_, rfl⟩
  obtain ⟨hle, hhigh, hlow⟩ := kept_places ht hplaces
  have hlowest : -1074 ≤ t := by omega
  have hexponent : e + ((t - e).toNat : Int) = t := by omega
  have hshift : shiftToTargetExponent .binary64 m e a =
      (ExtendedMantissa.ofMantissaAndAccuracy m a >>> (t - e).toNat, t) := by
    unfold shiftToTargetExponent shiftToExponent
    rw [targetExponent_eq, ← ht]
    dsimp only
    rw [hexponent]
  have hmantissa := mantissa_shiftRight (.ofMantissaAndAccuracy m a) (t - e).toNat
  rw [mantissa_ofMantissaAndAccuracy] at hmantissa
  have hshifted := hreads.shiftRight (t - e).toNat
  have hscale : x / 2 ^ e / 2 ^ (t - e).toNat = x / 2 ^ t := by
    rw [div_div, ← zpow_natCast, ← zpow_add₀ two_ne_zero, hexponent]
  rw [hscale] at hshifted
  rw [← hmantissa] at hhigh hlow
  obtain ⟨hnumber, hrank⟩ := rank_rounded (s := s) hshift hlowest hhigh hlow
  exact ⟨_, ⟨t, _, hlowest, hhigh, hlow, hshifted, rfl⟩, hnumber, hrank⟩

end Ostinato.Double
