import Ostinato.Proofs.Number.Rounding

/-!
# Ostinato.Proofs.Number.Monotone

Sums and quotients of doubles grow with their operands.

A sum and a quotient of finite doubles are rounded to the exact ones (`rank_add`,
`rank_div`), so they grow with an operand where the exact ones do
(`add_le_add_left`, `div_le_div_right`).  Every rational from zero to one becomes
a double from zero to one (`ofRat?_le_one`).
-/

namespace Ostinato.Double

open Float.Model Float.Model.UnpackedFloat

/-! ## Values -/

/-- The exact value of a double that is finite. -/
def value : UnpackedFloat → Rat
  | .finite s m e _ => (s.apply m : Int) * 2 ^ e
  | _ => 0

/-- Zero is rounded to the rank of zero. -/
theorem rounds_zero : Rounds 0 0 :=
  ⟨-1074, ⟨0, false, false⟩, by decide, by decide, .inr rfl, zero_div _, rfl⟩

/-- One is rounded to the rank of one. -/
theorem rounds_one : Rounds 1 (1023 * binade) := by
  refine ⟨-52, ⟨2 ^ 52, false, false⟩, by decide, by decide, .inl (by decide), ?_, by decide⟩
  change (1 : Rat) / 2 ^ (-52 : Int) = (2 ^ 52 : Nat)
  norm_num

/-- The value of a finite double is its significand at its exponent, with its sign. -/
theorem value_finite (s : Sign) {m : Nat} (e : Int) (hm : 0 < m) :
    value (.finite s m e hm) = signed s (m * 2 ^ e) := by
  change ((s.apply m : Int) : Rat) * 2 ^ e = _
  rw [cast_apply, signed_mul]

/-- The value of a double is rounded to that double. -/
theorem roundsTo_value {u : UnpackedFloat} (hu : Settled u) (hfinite : u.isFinite = true) :
    RoundsTo (value u) (rank u) := by
  cases u with
  | infinity s => nomatch hfinite
  | notANumber => nomatch hfinite
  | zero s => exact .inl ⟨le_refl 0, rounds_zero⟩
  | finite s m e hm =>
      obtain ⟨hhigh, he, -, hlow⟩ := hu
      have hrounds : Rounds (m * 2 ^ e) ((e + 1074) * binade + m) := by
        refine ⟨e, ⟨m, false, false⟩, he, hhigh, hlow, ?_, rfl⟩
        rw [mul_div_cancel_right₀ _ (two_zpow_pos e).ne']
        rfl
      rw [value_finite]
      exact roundsTo_signed s (mul_pos (Nat.cast_pos.mpr hm) (two_zpow_pos e)) hrounds

/-- A double is finite, infinite, or NaN. -/
theorem finite_or (u : UnpackedFloat) :
    u.isFinite = true ∨ u = .infinity .positive ∨ u = .infinity .negative ∨ u = .notANumber := by
  cases u with
  | infinity s => cases s <;> simp
  | notANumber => simp
  | zero s => exact .inl rfl
  | finite s m e hm => exact .inl rfl

/-- Ranks of finite doubles lie between those of the infinities. -/
theorem rank_finite {u : UnpackedFloat} (hu : Settled u) (h : u.isFinite = true) :
    -topRank < rank u ∧ rank u < topRank := by
  have htop : 0 < topRank := by decide
  cases u with
  | infinity s => nomatch h
  | notANumber => nomatch h
  | zero s =>
      change -topRank < 0 ∧ 0 < topRank
      omega
  | finite s m e hm =>
      obtain ⟨hpos, hbelow⟩ := rank_bounds hu
      cases s with
      | negative =>
          change -topRank < -((e + 1074) * binade + m) ∧ -((e + 1074) * binade + m) < topRank
          omega
      | positive =>
          change -topRank < (e + 1074) * binade + m ∧ (e + 1074) * binade + m < topRank
          omega

/-- No rank lies beyond those of the infinities. -/
theorem rank_bounded {u : UnpackedFloat} (hu : Settled u) :
    -topRank ≤ rank u ∧ rank u ≤ topRank := by
  rcases finite_or u with hfinite | rfl | rfl | rfl
  · obtain ⟨hlow, hhigh⟩ := rank_finite hu hfinite
    exact ⟨le_of_lt hlow, le_of_lt hhigh⟩
  all_goals decide

/-- Ranks of doubles are not cut off. -/
theorem bounded_rank {u : UnpackedFloat} (hu : Settled u) : bounded (rank u) = rank u := by
  have h := rank_bounded hu
  unfold bounded
  omega

/-- Doubles of one rank have one value. -/
theorem value_eq_of_rank_eq {u v : UnpackedFloat} (hu : Settled u) (hv : Settled v)
    (hu' : u.isFinite = true) (hv' : v.isFinite = true) (h : rank u = rank v) :
    value u = value v := by
  cases u with
  | infinity s => nomatch hu'
  | notANumber => nomatch hu'
  | zero s =>
      cases v with
      | infinity s' => nomatch hv'
      | notANumber => nomatch hv'
      | zero s' => rfl
      | finite s' m' e' hm' =>
          have hpos := (rank_bounds hv).1
          change 0 = s'.apply ((e' + 1074) * binade + m') at h
          cases s' <;> simp only [Sign.apply] at h <;> omega
  | finite s m e hm =>
      have hpos := (rank_bounds hu).1
      cases v with
      | infinity s' => nomatch hv'
      | notANumber => nomatch hv'
      | zero s' =>
          change s.apply ((e + 1074) * binade + m) = 0 at h
          cases s <;> simp only [Sign.apply] at h <;> omega
      | finite s' m' e' hm' =>
          have hpos' := (rank_bounds hv).1
          obtain ⟨hhigh, he, -, hlow⟩ := hu
          obtain ⟨hhigh', he', -, hlow'⟩ := hv
          change s.apply ((e + 1074) * binade + m) = s'.apply ((e' + 1074) * binade + m') at h
          have hsame : s = s' ∧ e = e' ∧ m = m' := by
            unfold binade at *
            cases s <;> cases s' <;> simp only [Sign.apply] at h <;> simp <;> omega
          obtain ⟨rfl, rfl, rfl⟩ := hsame
          rfl

/-- Doubles are ordered like their values. -/
theorem value_le {u v : UnpackedFloat} (hu : Settled u) (hv : Settled v)
    (hu' : u.isFinite = true) (hv' : v.isFinite = true) (h : rank u ≤ rank v) :
    value u ≤ value v := by
  by_contra hgt
  have hback := (roundsTo_value hv hv').le (roundsTo_value hu hu') (le_of_lt (not_le.mp hgt))
  exact hgt (value_eq_of_rank_eq hu hv hu' hv' (Int.le_antisymm h hback)).le

/-! ## Sums -/

/-- A shifted number has as many places more. -/
theorem log2_shiftLeft {m : Nat} (hm : m ≠ 0) (k : Nat) : (m <<< k).log2 = m.log2 + k := by
  have hlow := Nat.log2_self_le hm
  have hhigh := @Nat.lt_log2_self m
  have hpos := Nat.two_pow_pos k
  rw [Nat.shiftLeft_eq, Nat.log2_eq_iff (Nat.mul_ne_zero hm hpos.ne')]
  refine ⟨?_, ?_⟩
  · rw [Nat.pow_add]
    exact Nat.mul_le_mul_right _ hlow
  · rw [Nat.add_right_comm, Nat.pow_add]
    exact Nat.mul_lt_mul_of_pos_right hhigh hpos

/-- Shifting to the left is multiplying by a power of two. -/
theorem cast_shiftLeft (m k : Nat) : ((m <<< k : Nat) : Rat) = m * 2 ^ (k : Int) := by
  rw [Nat.shiftLeft_eq, zpow_natCast]
  push_cast
  rfl

/-- A significand and an exponent are rounded to the number that they make. -/
theorem rank_round {s : Sign} {m : Nat} (hm : m ≠ 0) (e : Int) :
    ∃ k, Rounds (m * 2 ^ e) k ∧ repacked (UnpackedFloat.round .binary64 s m e) ≠ .notANumber ∧
      rank (repacked (UnpackedFloat.round .binary64 s m e)) = s.apply (min k topRank) := by
  obtain ⟨shift, hshift⟩ : ∃ shift, shift = (e - max ((m.log2 : Int) + e - 52) (-1074)).toNat :=
    ⟨_, rfl⟩
  have hround : UnpackedFloat.round .binary64 s m e =
      roundWithAccuracy .binary64 s (m <<< shift) (e - shift) .exact := by
    unfold UnpackedFloat.round decreaseExponent
    rw [targetExponent_eq]
    dsimp only
    rw [← hshift]
  rw [hround]
  refine rank_roundWithAccuracy ?_ ?_
  · have hvalue : (m : Rat) * 2 ^ e / 2 ^ (e - shift) = (m <<< shift : Nat) := by
      rw [cast_shiftLeft, mul_div_assoc, ← zpow_sub₀ two_ne_zero]
      congr 2
      omega
    rw [hvalue]
    exact reads_exact _
  · rw [log2_shiftLeft hm]
    omega

/-- An integer at an exponent is rounded to the number that it makes, whatever its
sign. -/
theorem rank_normalize (m : Int) (e : Int) (z : Sign) :
    ∃ k, RoundsTo (m * 2 ^ e) k ∧ repacked (UnpackedFloat.normalize .binary64 m e z) ≠ .notANumber ∧
      rank (repacked (UnpackedFloat.normalize .binary64 m e z)) = bounded k := by
  have hrounded : ∀ (s : Sign) (n : Nat), n ≠ 0 → m = s.apply n →
      ∃ k, RoundsTo (m * 2 ^ e) k ∧ repacked (UnpackedFloat.round .binary64 s n e) ≠ .notANumber ∧
        rank (repacked (UnpackedFloat.round .binary64 s n e)) = bounded k := by
    intro s n hn hm
    obtain ⟨k, hrounds, hnumber, hrank⟩ := rank_round (s := s) hn e
    refine ⟨s.apply k, ?_, hnumber, hrank.trans (bounded_apply s hrounds.nonneg).symm⟩
    rw [hm, cast_apply, signed_mul]
    exact roundsTo_signed s
      (mul_pos (Nat.cast_pos.mpr (Nat.pos_of_ne_zero hn)) (two_zpow_pos e)) hrounds
  unfold UnpackedFloat.normalize
  rcases lt_trichotomy m 0 with hneg | hzero | hpos
  · rw [compare_lt_iff_lt.mpr hneg]
    refine hrounded .negative (-m).toNat (by omega) ?_
    change m = -((-m).toNat : Int)
    omega
  · rw [compare_eq_iff_eq.mpr hzero, hzero, Int.cast_zero, zero_mul]
    refine ⟨0, .inl ⟨le_refl 0, rounds_zero⟩, ?_⟩
    change repacked (.zero z) ≠ .notANumber ∧ rank (repacked (.zero z)) = bounded 0
    rw [repacked_zero]
    exact ⟨nofun, rfl⟩
  · rw [compare_gt_iff_gt.mpr hpos]
    refine hrounded .positive m.toNat (by omega) ?_
    change m = (m.toNat : Int)
    omega

/-- Where a number is brought to a lower exponent, its value stays. -/
theorem value_decreaseExponent (s : Sign) {m : Nat} {e t : Int} (hm : 0 < m) (h : t ≤ e) :
    ((s.apply (decreaseExponent m e t).1 : Int) : Rat) * 2 ^ t = value (.finite s m e hm) := by
  have hvalue : ((m <<< (e - t).toNat : Nat) : Rat) * 2 ^ t = m * 2 ^ e := by
    rw [cast_shiftLeft, mul_assoc, ← zpow_add₀ two_ne_zero]
    congr 2
    omega
  rw [cast_apply, signed_mul, value_finite]
  exact congrArg (signed s) hvalue

/-- A sum of finite doubles is rounded to their exact sum. -/
theorem rank_add {u v : UnpackedFloat} (hu : Settled u) (hv : Settled v)
    (hu' : u.isFinite = true) (hv' : v.isFinite = true) :
    ∃ k, RoundsTo (value u + value v) k ∧
      repacked (UnpackedFloat.add .binary64 u v) ≠ .notANumber ∧
      rank (repacked (UnpackedFloat.add .binary64 u v)) = bounded k := by
  have hsingle : ∀ w : UnpackedFloat, Settled w → w.isFinite = true →
      ∃ k, RoundsTo (value w) k ∧ repacked w ≠ .notANumber ∧ rank (repacked w) = bounded k := by
    intro w hw hfinite
    refine ⟨rank w, roundsTo_value hw hfinite, ?_, ?_⟩ <;> rw [repacked_of_settled hw]
    · rintro rfl
      nomatch hfinite
    · exact (bounded_rank hw).symm
  cases u with
  | infinity s => nomatch hu'
  | notANumber => nomatch hu'
  | zero s =>
      rw [show value (.zero s) = 0 from rfl, zero_add]
      cases v with
      | infinity s' => nomatch hv'
      | notANumber => nomatch hv'
      | zero s' =>
          obtain ⟨t, ht⟩ : ∃ t, UnpackedFloat.add .binary64 (.zero s) (.zero s') = .zero t := by
            cases s <;> cases s' <;> exact ⟨_, rfl⟩
          rw [ht]
          exact hsingle (.zero t) trivial rfl
      | finite s' m' e' hm' => exact hsingle _ hv rfl
  | finite s m e hm =>
      cases v with
      | infinity s' => nomatch hv'
      | notANumber => nomatch hv'
      | zero s' =>
          rw [show value (.zero s') = 0 from rfl, add_zero]
          exact hsingle _ hu rfl
      | finite s' m' e' hm' =>
          have hsum : value (.finite s m e hm) + value (.finite s' m' e' hm') =
              ((s.apply (decreaseExponent m e (min e e')).1 +
                s'.apply (decreaseExponent m' e' (min e e')).1 : Int) : Rat) * 2 ^ min e e' := by
            rw [Int.cast_add, add_mul, value_decreaseExponent s hm (min_le_left e e'),
              value_decreaseExponent s' hm' (min_le_right e e')]
          rw [hsum]
          exact rank_normalize _ _ _

/-! ## Quotients -/

/-- A remainder tells how a quotient goes on. -/
theorem reads_quotient (m : Nat) {d : Nat} (hd : 0 < d) :
    Reads (.ofMantissaAndAccuracy (m / d) (accuracyOfFraction (m % d) d)) ((m : Rat) / d) := by
  have hpos : (0 : Rat) < d := Nat.cast_pos.mpr hd
  have hrest : m % d < d := Nat.mod_lt m hd
  have hquotient : (m : Rat) / d = (m / d : Nat) + (m % d : Nat) / d := by
    rw [← mul_div_cancel_left₀ (((m / d : Nat) : Rat)) hpos.ne', ← add_div]
    exact_mod_cast congrArg (fun n : Nat => (n : Rat) / d) (Nat.div_add_mod m d).symm
  rw [hquotient]
  generalize m / d = q
  generalize m % d = r at hrest
  unfold accuracyOfFraction
  by_cases hzero : r = 0
  · rw [if_pos hzero, hzero, Nat.cast_zero, zero_div, add_zero]
    exact reads_exact q
  · have hsome : (0 : Rat) < r / d := div_pos (Nat.cast_pos.mpr (Nat.pos_of_ne_zero hzero)) hpos
    have hless : (r : Rat) / d < 1 := (div_lt_one hpos).mpr (Nat.cast_lt.mpr hrest)
    rw [if_neg hzero]
    rcases lt_trichotomy (2 * r) d with hlt | heq | hgt
    · have hhalf : (r : Rat) / d < 1 / 2 := by
        rw [div_lt_div_iff₀ hpos two_pos, one_mul, mul_comm]
        exact_mod_cast hlt
      rw [compare_lt_iff_lt.mpr hlt]
      change (q : Rat) < q + r / d ∧ (q : Rat) + r / d < q + 1 / 2
      constructor <;> linarith
    · have hhalf : (r : Rat) / d = 1 / 2 := by
        rw [div_eq_div_iff hpos.ne' two_ne_zero, one_mul, mul_comm]
        exact_mod_cast heq
      rw [compare_eq_iff_eq.mpr heq, hhalf]
      rfl
    · have hhalf : 1 / 2 < (r : Rat) / d := by
        rw [div_lt_div_iff₀ two_pos hpos, one_mul, mul_comm (r : Rat)]
        exact_mod_cast hgt
      rw [compare_gt_iff_gt.mpr hgt]
      change (q : Rat) + 1 / 2 < q + r / d ∧ (q : Rat) + r / d < q + 1
      constructor <;> linarith

/-- Rounding a quotient by its remainder rounds the digits that are kept. -/
theorem roundedMantissa_quotient (m : Nat) {d : Nat} (hd : 0 < d) :
    (ExtendedMantissa.ofMantissaAndAccuracy (m / d)
      (accuracyOfFraction (m % d) d)).roundedMantissa = roundQuotient m d := by
  unfold accuracyOfFraction roundQuotient
  generalize m / d = q
  generalize m % d = r
  by_cases hzero : r = 0
  · simp only [hzero, if_true, Nat.mul_zero, hd, decide_true, Bool.true_or]
    rfl
  · rw [if_neg hzero]
    rcases lt_trichotomy (2 * r) d with hlt | heq | hgt
    · rw [compare_lt_iff_lt.mpr hlt]
      simp only [hlt, decide_true, Bool.true_or, if_true]
      rfl
    · rw [compare_eq_iff_eq.mpr heq, heq]
      change q + q % 2 = _
      rcases Nat.mod_two_eq_zero_or_one q with hbit | hbit <;> simp [hbit]
    · rw [compare_gt_iff_gt.mpr hgt]
      simp only [not_lt.mpr hgt.le, decide_false, beq_eq_false_iff_ne.mpr hgt.ne', Bool.false_and,
        Bool.or_false, Bool.false_eq_true, if_false]
      rfl

/-- Enough places are kept of a quotient. -/
theorem quotient_places {m m' : Nat} (hm : 0 < m) (hm' : 0 < m') {e t : Int}
    (ht : t = min e (max ((m.log2 : Int) - m'.log2 + e - 53) (-1074))) :
    52 ≤ (m <<< (e - t).toNat / m').log2 ∨ t ≤ -1074 := by
  by_cases hlowest : t ≤ -1074
  · exact .inr hlowest
  · left
    have hdivided : 2 ^ 52 ≤ m <<< (e - t).toNat / m' := by
      rw [Nat.le_div_iff_mul_le hm', Nat.shiftLeft_eq]
      calc 2 ^ 52 * m'
          ≤ 2 ^ 52 * 2 ^ (m'.log2 + 1) := Nat.mul_le_mul_left _ Nat.lt_log2_self.le
        _ = 2 ^ (52 + (m'.log2 + 1)) := (Nat.pow_add 2 _ _).symm
        _ ≤ 2 ^ (m.log2 + (e - t).toNat) := Nat.pow_le_pow_right (by decide) (by omega)
        _ = 2 ^ m.log2 * 2 ^ (e - t).toNat := Nat.pow_add 2 _ _
        _ ≤ m * 2 ^ (e - t).toNat := Nat.mul_le_mul_right _ (Nat.log2_self_le hm.ne')
    have hnonzero : m <<< (e - t).toNat / m' ≠ 0 := by
      have hpos := Nat.two_pow_pos 52
      omega
    exact (Nat.le_log2 hnonzero).mpr hdivided

/-- A quotient of two finite doubles, neither of them zero, is rounded to their
exact quotient. -/
theorem rank_div_finite {s : Sign} {m m' : Nat} {e e' : Int} (hm : 0 < m) (hm' : 0 < m') :
    ∃ k, RoundsTo (value (.finite s m e hm) / value (.finite .positive m' e' hm')) k ∧
      repacked (UnpackedFloat.div .binary64 (.finite s m e hm) (.finite .positive m' e' hm')) ≠
        .notANumber ∧
      rank (repacked (UnpackedFloat.div .binary64 (.finite s m e hm)
        (.finite .positive m' e' hm'))) = bounded k := by
  obtain ⟨t, ht⟩ : ∃ t, t = min (e - e') (max ((m.log2 : Int) - m'.log2 + (e - e') - 53) (-1074)) :=
    ⟨_, rfl⟩
  have hle : t ≤ e - e' := by omega
  have htarget : min (e - e') (Format.binary64.targetExponent
      (totalExponent m e - totalExponent m' e')) = t := by
    have hmin : Format.binary64.minExponent = -1074 := by decide
    have hmantissa : ((Format.binary64.mantissaBits : Nat) : Int) = 53 := rfl
    unfold Format.targetExponent totalExponent
    rw [hmin, hmantissa]
    omega
  have hsign : s / Sign.positive = s := by cases s <;> rfl
  have hdiv : UnpackedFloat.div .binary64 (.finite s m e hm) (.finite .positive m' e' hm') =
      roundWithAccuracy .binary64 s (m <<< (e - e' - t).toNat / m') t
        (accuracyOfFraction (m <<< (e - e' - t).toNat % m') m') := by
    unfold UnpackedFloat.div divCore
    dsimp only
    rw [htarget, hsign]
  have hvalue : value (.finite s m e hm) / value (.finite .positive m' e' hm') =
      signed s (m * 2 ^ e / (m' * 2 ^ e')) := by
    rw [value_finite, value_finite, signed_div]
    rfl
  have hexact : (m : Rat) * 2 ^ e / (m' * 2 ^ e') / 2 ^ t =
      ((m <<< (e - e' - t).toNat : Nat) : Rat) / m' := by
    rw [cast_shiftLeft, Int.toNat_of_nonneg (by omega), zpow_sub₀ two_ne_zero,
      zpow_sub₀ two_ne_zero]
    ring
  obtain ⟨k, hrounds, hnumber, hrank⟩ := rank_roundWithAccuracy (s := s)
    (hexact ▸ reads_quotient _ hm') (quotient_places hm hm' ht)
  rw [hvalue, hdiv]
  refine ⟨s.apply k, roundsTo_signed s ?_ hrounds, hnumber,
    hrank.trans (bounded_apply s hrounds.nonneg).symm⟩
  exact div_pos (mul_pos (Nat.cast_pos.mpr hm) (two_zpow_pos e))
    (mul_pos (Nat.cast_pos.mpr hm') (two_zpow_pos e'))

/-- A quotient of finite doubles is rounded to their exact quotient. -/
theorem rank_div {u : UnpackedFloat} (hu' : u.isFinite = true) {m : Nat} (e : Int) (hm : 0 < m) :
    ∃ k, RoundsTo (value u / value (.finite .positive m e hm)) k ∧
      repacked (UnpackedFloat.div .binary64 u (.finite .positive m e hm)) ≠ .notANumber ∧
      rank (repacked (UnpackedFloat.div .binary64 u (.finite .positive m e hm))) = bounded k := by
  cases u with
  | infinity s => nomatch hu'
  | notANumber => nomatch hu'
  | zero s =>
      obtain ⟨t, ht⟩ : ∃ t, UnpackedFloat.div .binary64 (.zero s) (.finite .positive m e hm) =
          .zero t := ⟨_, rfl⟩
      have hvalue : value (.zero s) / value (.finite .positive m e hm) = 0 := zero_div _
      rw [hvalue, ht, repacked_zero]
      exact ⟨0, .inl ⟨le_refl 0, rounds_zero⟩, nofun, rfl⟩
  | finite s m' e' hm' => exact rank_div_finite hm' hm

/-! ## Operations on doubles -/

/-- Adding an infinity to a finite double gives that infinity. -/
theorem add_infinite {u : UnpackedFloat} (hu : u.isFinite = true) (s : Sign) :
    UnpackedFloat.add .binary64 u (.infinity s) = .infinity s := by
  cases u with
  | infinity s => nomatch hu
  | notANumber => nomatch hu
  | zero s' => rfl
  | finite s' m e hm => rfl

/-- Adding to an infinity gives that infinity, unless it gives NaN. -/
theorem infinite_add (s : Sign) {u : UnpackedFloat}
    (h : UnpackedFloat.add .binary64 (.infinity s) u ≠ .notANumber) :
    UnpackedFloat.add .binary64 (.infinity s) u = .infinity s := by
  cases u with
  | infinity s' => cases s <;> cases s' <;> first | rfl | exact absurd rfl h
  | notANumber => exact absurd rfl h
  | zero s' => rfl
  | finite s' m e hm => rfl

/-- Adding to NaN gives NaN. -/
theorem notANumber_add (u : UnpackedFloat) :
    UnpackedFloat.add .binary64 .notANumber u = .notANumber := by
  cases u <;> rfl

/-- Sums grow with their second operand. -/
theorem rank_add_le {u v w : UnpackedFloat} (hu : Settled u) (hv : Settled v) (hw : Settled w)
    (hv' : v ≠ .notANumber) (hw' : w ≠ .notANumber) (hle : rank v ≤ rank w)
    (huv : repacked (UnpackedFloat.add .binary64 u v) ≠ .notANumber)
    (huw : repacked (UnpackedFloat.add .binary64 u w) ≠ .notANumber) :
    rank (repacked (UnpackedFloat.add .binary64 u v)) ≤
      rank (repacked (UnpackedFloat.add .binary64 u w)) := by
  have hsum : ∀ x, repacked (UnpackedFloat.add .binary64 u x) ≠ .notANumber →
      UnpackedFloat.add .binary64 u x ≠ .notANumber := by
    intro x hx hnan
    rw [hnan] at hx
    exact hx repacked_notANumber
  by_cases hfinite : u.isFinite = true
  · have hbounds := rank_bounded (settled_repacked (UnpackedFloat.add .binary64 u w))
    have hbounds' := rank_bounded (settled_repacked (UnpackedFloat.add .binary64 u v))
    rcases finite_or w with hwf | rfl | rfl | rfl
    · rcases finite_or v with hvf | rfl | rfl | rfl
      · obtain ⟨k, hrounds, -, hrank⟩ := rank_add hu hv hfinite hvf
        obtain ⟨k', hrounds', -, hrank'⟩ := rank_add hu hw hfinite hwf
        rw [hrank, hrank']
        exact bounded_le (hrounds.le hrounds'
          (add_le_add_right (value_le hv hw hvf hwf hle) _))
      · exact absurd hle (not_le.mpr (rank_finite hw hwf).2)
      · rw [add_infinite hfinite, repacked_infinity]
        exact hbounds.1
      · exact absurd rfl hv'
    · rw [add_infinite hfinite .positive, repacked_infinity]
      exact hbounds'.2
    · rcases finite_or v with hvf | rfl | rfl | rfl
      · exact absurd hle (not_le.mpr (rank_finite hv hvf).1)
      · exact absurd hle (by decide)
      · exact le_refl _
      · exact absurd rfl hv'
    · exact absurd rfl hw'
  · obtain ⟨s, rfl⟩ | rfl : (∃ s, u = .infinity s) ∨ u = .notANumber := by
      rcases finite_or u with h | h | h | h
      · exact absurd h hfinite
      · exact .inl ⟨_, h⟩
      · exact .inl ⟨_, h⟩
      · exact .inr h
    · rw [infinite_add s (hsum v huv), infinite_add s (hsum w huw)]
    · exact absurd (notANumber_add v) (hsum v huv)

/-- Sums with the same first operand are ordered like the second ones, where they
are not NaN. -/
theorem add_le_add_left {a b c : Float} (hab : a ≤ b) (ha : unpacked (c + a) ≠ .notANumber)
    (hb : unpacked (c + b) ≠ .notANumber) : c + a ≤ c + b := by
  obtain ⟨hna, hnb, hle⟩ := le_iff.mp hab
  exact le_iff.mpr ⟨ha, hb, rank_add_le (settled_unpacked c) (settled_unpacked a)
    (settled_unpacked b) hna hnb hle ha hb⟩

theorem unpacked_zero : unpacked 0.0 = .zero .positive := by
  unfold unpacked
  rw [bits_zero]
  rfl

theorem unpacked_one : unpacked 1.0 = .finite .positive (2 ^ 52) (-52) (by decide) := by
  unfold unpacked
  rw [bits_one]
  rfl

theorem finite_zero : (unpacked 0.0).isFinite = true := by
  rw [unpacked_zero]
  rfl

theorem finite_one : (unpacked 1.0).isFinite = true := by
  rw [unpacked_one]
  rfl

theorem rank_zero : rank (unpacked 0.0) = 0 := by
  rw [unpacked_zero]
  rfl

theorem rank_one : rank (unpacked 1.0) = 1023 * binade := by
  rw [unpacked_one]
  rfl

protected theorem zero_le_one : (0.0 : Float) ≤ 1.0 := by
  rw [le_iff, unpacked_zero, unpacked_one]
  exact ⟨nofun, nofun, by decide⟩

/-- A positive double is finite or infinite. -/
theorem unpacked_of_pos {r : Float} (hr : 0.0 < r) : unpacked r = .infinity .positive ∨
    ∃ m e hm, unpacked r = .finite .positive m e hm := by
  obtain ⟨-, -, hrank⟩ := lt_iff.mp hr
  rw [rank_zero] at hrank
  rcases hform : unpacked r with s | _ | s | ⟨s, m, e, hm⟩ <;> rw [hform] at hrank
  · cases s with
    | negative => exact absurd hrank (by decide)
    | positive => exact .inl rfl
  · exact absurd hrank (by decide)
  · exact absurd hrank (lt_irrefl 0)
  · cases s with
    | negative =>
        have hsettled := settled_unpacked r
        rw [hform] at hsettled
        have hpos := (rank_bounds hsettled).1
        change 0 < -((e + 1074) * binade + m) at hrank
        omega
    | positive => exact .inr ⟨m, e, hm, rfl⟩

/-- A finite double divided by infinity is a zero. -/
theorem div_infinite {u : UnpackedFloat} (hu : u.isFinite = true) :
    ∃ s, UnpackedFloat.div .binary64 u (.infinity .positive) = .zero s := by
  cases u with
  | infinity s => nomatch hu
  | notANumber => nomatch hu
  | zero s => exact ⟨_, rfl⟩
  | finite s m e hm => exact ⟨_, rfl⟩

/-- Quotients of finite doubles by the same positive one are ordered like them. -/
theorem div_le_div_right {a b r : Float} (ha : (unpacked a).isFinite = true)
    (hb : (unpacked b).isFinite = true) (hr : 0.0 < r) (hab : a ≤ b) : a / r ≤ b / r := by
  have hle := (le_iff.mp hab).2.2
  have hquotient : ∀ x : Float, unpacked (x / r) =
      repacked (UnpackedFloat.div .binary64 (unpacked x) (unpacked r)) := fun _ => rfl
  rw [le_iff, hquotient, hquotient]
  obtain hform | ⟨m, e, hm, hform⟩ := unpacked_of_pos hr <;> rw [hform]
  · obtain ⟨s, hs⟩ := div_infinite ha
    obtain ⟨s', hs'⟩ := div_infinite hb
    rw [hs, hs', repacked_zero, repacked_zero]
    exact ⟨nofun, nofun, le_refl 0⟩
  · obtain ⟨k, hrounds, hnumber, hrank⟩ := rank_div ha e hm
    obtain ⟨k', hrounds', hnumber', hrank'⟩ := rank_div hb e hm
    have hpos : 0 < value (.finite .positive m e hm) := by
      rw [value_finite]
      exact mul_pos (Nat.cast_pos.mpr hm) (two_zpow_pos e)
    rw [hrank, hrank']
    refine ⟨hnumber, hnumber', bounded_le (hrounds.le hrounds' ?_)⟩
    rw [div_le_div_iff_of_pos_right hpos]
    exact value_le (settled_unpacked a) (settled_unpacked b) ha hb hle

/-- Adding a finite double to an infinity gives that infinity. -/
theorem infinite_add_finite (s : Sign) {u : UnpackedFloat} (hu : u.isFinite = true) :
    UnpackedFloat.add .binary64 (.infinity s) u = .infinity s := by
  cases u with
  | infinity s => nomatch hu
  | notANumber => nomatch hu
  | zero s' => rfl
  | finite s' m e hm => rfl

/-- If the greater of two that are not negative can be added to a double, so can the
smaller one. -/
theorem add_number {a b c : Float} (ha : 0.0 ≤ a) (hab : a ≤ b)
    (hb : unpacked (c + b) ≠ .notANumber) : unpacked (c + a) ≠ .notANumber := by
  have hsum : ∀ x : Float, unpacked (c + x) =
      repacked (UnpackedFloat.add .binary64 (unpacked c) (unpacked x)) := fun _ => rfl
  obtain ⟨-, hna, hnonneg⟩ := le_iff.mp ha
  obtain ⟨-, hnb, hle⟩ := le_iff.mp hab
  rw [rank_zero] at hnonneg
  rw [hsum] at hb ⊢
  have hc := settled_unpacked c
  have hsettled := settled_unpacked a
  have hsettled' := settled_unpacked b
  generalize unpacked a = u at hna hnonneg hle hsettled ⊢
  generalize unpacked b = v at hnb hle hb hsettled'
  generalize unpacked c = w at hb hc ⊢
  have hinfinite : ∀ s, repacked (.infinity s) ≠ .notANumber := by
    intro s
    rw [repacked_infinity]
    nofun
  rcases finite_or u with hu | rfl | rfl | rfl
  · rcases finite_or w with hw | rfl | rfl | rfl
    · exact (rank_add hc hsettled hw hu).choose_spec.2.1
    · rw [infinite_add_finite .positive hu]
      exact hinfinite _
    · rw [infinite_add_finite .negative hu]
      exact hinfinite _
    · rw [notANumber_add, repacked_notANumber] at hb
      exact absurd rfl hb
  · -- the greater one is infinite as well
    have hv : v = .infinity .positive := by
      rcases finite_or v with hv | rfl | rfl | rfl
      · exact absurd hle (not_le.mpr (rank_finite hsettled' hv).2)
      · rfl
      · exact absurd hle (by decide)
      · exact absurd rfl hnb
    rw [← hv]
    exact hb
  · exact absurd hnonneg (by decide)
  · exact absurd rfl hna

/-! ## Fractions -/

/-- Shifted by as many places as leave fifty-three digits, a quotient that is at
most one has its last place there, or at the lowest exponent. -/
theorem lastPlace_eq {num den : Nat} (hnum : 0 < num) (hden : 0 < den) (h : num ≤ den) :
    ∃ places : Nat, lastPlace num den = max (-(places : Int)) (-1074) ∧
      2 ^ 52 * den ≤ num <<< places ∧ num <<< places < 2 ^ 53 * den := by
  have hlog := log2_mono h
  obtain ⟨guess, hguess⟩ : ∃ guess, guess + num.log2 = den.log2 + 53 :=
    ⟨den.log2 + 53 - num.log2, by omega⟩
  have hneg : (num.log2 : Int) - den.log2 - 53 < 0 := by omega
  have habs : ((num.log2 : Int) - den.log2 - 53).natAbs = guess := by omega
  have hden_pow : 2 ^ den.log2 ≤ den := Nat.log2_self_le hden.ne'
  have hden_lt : den < 2 ^ (den.log2 + 1) := Nat.lt_log2_self
  by_cases hfits : num <<< guess < 2 ^ 53 * den
  · refine ⟨guess, ?_, ?_, hfits⟩
    · have hquotient : num <<< guess / den < 2 ^ 53 := (Nat.div_lt_iff_lt_mul hden).mpr hfits
      unfold lastPlace inUnits
      simp only [if_pos hneg, habs, Nat.one_shiftLeft, if_pos hquotient]
      split <;> omega
    · calc 2 ^ 52 * den ≤ 2 ^ 52 * 2 ^ (den.log2 + 1) := Nat.mul_le_mul_left _ hden_lt.le
        _ = 2 ^ num.log2 * 2 ^ guess := by rw [← Nat.pow_add, ← Nat.pow_add]; congr 1; omega
        _ ≤ num * 2 ^ guess := Nat.mul_le_mul_right _ (Nat.log2_self_le hnum.ne')
        _ = num <<< guess := (Nat.shiftLeft_eq _ _).symm
  · obtain ⟨places, rfl⟩ : ∃ places, guess = places + 1 := ⟨guess - 1, by omega⟩
    rw [not_lt, Nat.shiftLeft_succ] at hfits
    refine ⟨places, ?_, by omega, ?_⟩
    · have hquotient : ¬ num <<< (places + 1) / den < 2 ^ 53 := by
        rw [not_lt, Nat.le_div_iff_mul_le hden, Nat.shiftLeft_succ]
        exact hfits
      unfold lastPlace inUnits
      simp only [if_pos hneg, habs, Nat.one_shiftLeft, if_neg hquotient]
      split <;> omega
    · calc num <<< places = num * 2 ^ places := Nat.shiftLeft_eq _ _
        _ < 2 ^ (num.log2 + 1) * 2 ^ places :=
          Nat.mul_lt_mul_of_pos_right Nat.lt_log2_self (Nat.two_pow_pos _)
        _ = 2 ^ 53 * 2 ^ den.log2 := by rw [← Nat.pow_add, ← Nat.pow_add]; congr 1; omega
        _ ≤ 2 ^ 53 * den := Nat.mul_le_mul_left _ hden_pow

/-- The bits for a quotient that is at most one are the rank it is rounded to. -/
theorem rounds_magnitudeBits {num den : Nat} (hnum : 0 < num) (hden : 0 < den) (h : num ≤ den) :
    Rounds ((num : Rat) / den) (magnitudeBits num den) := by
  obtain ⟨places, hlast, hlow, hhigh⟩ := lastPlace_eq hnum hden h
  have hlast_le := lastPlace_le h
  obtain ⟨shift, hshift⟩ : ∃ shift : Nat, lastPlace num den = -(shift : Int) :=
    ⟨min places 1074, by omega⟩
  have hbits : (magnitudeBits num den : Int) =
      (-(shift : Int) + 1074) * binade + roundQuotient (num <<< shift) den := by
    have hneg : -(shift : Int) < 0 := by omega
    have habs : (-(shift : Int)).natAbs = shift := by omega
    unfold magnitudeBits inUnits
    simp only [hshift, if_pos hneg, habs, Nat.shiftLeft_eq]
    unfold binade
    omega
  refine ⟨-shift, .ofMantissaAndAccuracy (num <<< shift / den)
    (accuracyOfFraction (num <<< shift % den) den), by omega, ?_, ?_, ?_, ?_⟩
  · have hquotient : num <<< shift / den < 2 ^ 53 := by
      rw [Nat.div_lt_iff_lt_mul hden]
      refine lt_of_le_of_lt ?_ hhigh
      rw [Nat.shiftLeft_eq, Nat.shiftLeft_eq]
      exact Nat.mul_le_mul_left _ (Nat.pow_le_pow_right (by decide) (by omega))
    rw [mantissa_ofMantissaAndAccuracy]
    unfold binade
    omega
  · rw [mantissa_ofMantissaAndAccuracy]
    by_cases hlowest : places ≤ 1074
    · obtain rfl : shift = places := by omega
      have hquotient := (Nat.le_div_iff_mul_le hden).mpr hlow
      unfold binade
      omega
    · exact .inr (by omega)
  · have hscaled : (num : Rat) / den / 2 ^ (-shift : Int) = ((num <<< shift : Nat) : Rat) / den := by
      rw [cast_shiftLeft, zpow_neg, div_inv_eq_mul]
      ring
    rw [hscaled]
    exact reads_quotient _ hden
  · rw [roundedMantissa_quotient _ hden, hbits]

/-- The rank of a double that is made of finite bits without a sign. -/
theorem rank_ofBits {bits : Nat} (h : bits < 0x7FF <<< 52) :
    rank (unpacked (Float.ofBits bits.toUInt64)) = bits ∧
      (unpacked (Float.ofBits bits.toUInt64)).isFinite = true := by
  have hform : unpacked (Float.ofBits bits.toUInt64) =
      UnpackedFloat.unpack .binary64 bits.toUInt64.toBitVec := unpack_pack (settled_unpack _)
  have hbits : bits.toUInt64.toBitVec.toNat = bits := Nat.mod_eq_of_lt (by omega)
  obtain ⟨hrank, hnumber⟩ := rank_unpack (b := bits.toUInt64.toBitVec) (by rw [hbits]; exact h)
  have hbelow : (bits : Int) < topRank := by
    unfold topRank binade
    omega
  rw [hform]
  rw [hbits] at hrank
  refine ⟨hrank, ?_⟩
  rcases finite_or (UnpackedFloat.unpack .binary64 bits.toUInt64.toBitVec) with h | h | h | h
  · exact h
  · rw [h] at hrank
    change topRank = bits at hrank
    omega
  · rw [h] at hrank
    change -topRank = bits at hrank
    have htop : 0 < topRank := by decide
    omega
  · exact absurd h hnumber

/-- Every rational from zero to one is rounded to a double. -/
theorem roundsTo_ofRat? {q : Rat} (hpos : 0 ≤ q) (hle : q ≤ 1) :
    ∃ x, ofRat? q = some x ∧ (unpacked x).isFinite = true ∧ RoundsTo q (rank (unpacked x)) := by
  by_cases hzero : q.num = 0
  · obtain rfl := Rat.num_eq_zero.mp hzero
    refine ⟨0.0, if_pos hzero, finite_zero, .inl ⟨le_refl 0, ?_⟩⟩
    rw [rank_zero]
    exact rounds_zero
  · have hnonneg := Rat.num_nonneg.mpr hpos
    have hnum : q.num.natAbs ≤ q.den := by
      have hle' := (Rat.le_iff q 1).mp hle
      rw [Rat.num_ofNat, Rat.den_ofNat] at hle'
      omega
    have hbits := magnitudeBits_lt q.den_pos hnum
    obtain ⟨hrank, hfinite⟩ := rank_ofBits hbits
    have hquotient : ((q.num.natAbs : Nat) : Rat) / q.den = q := by
      rw [← Int.cast_natCast, Int.natAbs_of_nonneg hnonneg]
      exact Rat.num_div_den q
    refine ⟨Float.ofBits (magnitudeBits q.num.natAbs q.den).toUInt64, ?_, hfinite,
      .inl ⟨hpos, ?_⟩⟩
    · unfold ofRat?
      simp only [if_neg hzero, if_pos hbits, if_neg (not_lt.mpr hnonneg)]
    · have hrounds := rounds_magnitudeBits (Int.natAbs_pos.mpr hzero) q.den_pos hnum
      rwa [hquotient, ← hrank] at hrounds

/-- Every rational from zero to one becomes a double from zero to one. -/
theorem ofRat?_le_one {q : Rat} {x : Float} (hpos : 0 ≤ q) (hle : q ≤ 1) (h : ofRat? q = some x) :
    (unpacked x).isFinite = true ∧ 0.0 ≤ x ∧ x ≤ 1.0 := by
  obtain ⟨x', hx', hfinite, hrounds⟩ := roundsTo_ofRat? hpos hle
  obtain rfl := Option.some.inj (h.symm.trans hx')
  have hnumber : unpacked x ≠ .notANumber := by
    intro hnan
    rw [hnan] at hfinite
    nomatch hfinite
  obtain ⟨hzeroNumber, honeNumber, -⟩ := le_iff.mp Double.zero_le_one
  refine ⟨hfinite, le_iff.mpr ⟨hzeroNumber, hnumber, ?_⟩, le_iff.mpr ⟨hnumber, honeNumber, ?_⟩⟩
  · rw [rank_zero]
    exact RoundsTo.le (.inl ⟨le_refl 0, rounds_zero⟩) hrounds hpos
  · rw [rank_one]
    exact hrounds.le (.inl ⟨zero_le_one, rounds_one⟩) hle

/-! ## Times -/

/-- Zero divided by a positive double is zero. -/
theorem zero_le_zero_div {r : Float} (hr : 0.0 < r) : 0.0 ≤ 0.0 / r := by
  have hquotient : unpacked (0.0 / r) =
      repacked (UnpackedFloat.div .binary64 (unpacked 0.0) (unpacked r)) := rfl
  have hdiv : ∃ s, UnpackedFloat.div .binary64 (unpacked 0.0) (unpacked r) = .zero s := by
    rw [unpacked_zero]
    obtain hform | ⟨m, e, hm, hform⟩ := unpacked_of_pos hr <;> rw [hform] <;> exact ⟨_, rfl⟩
  obtain ⟨s, hs⟩ := hdiv
  rw [le_iff, hquotient, hs, repacked_zero, rank_zero]
  exact ⟨(le_iff.mp Double.zero_le_one).1, nofun, le_refl 0⟩

/-- A sum is a number only if its first summand is. -/
theorem le_self_of_add_le {c x t : Float} (h : c + x ≤ t) : c ≤ c := by
  obtain ⟨hsum, -, -⟩ := le_iff.mp h
  have hnumber : unpacked c ≠ .notANumber := by
    intro hnan
    refine hsum ?_
    change repacked (UnpackedFloat.add .binary64 (unpacked c) (unpacked x)) = .notANumber
    rw [hnan, notANumber_add, repacked_notANumber]
  exact le_iff.mpr ⟨hnumber, hnumber, le_refl _⟩

/-- A part of a unit that is divided by a positive rate is over by the time at
which the unit is over. -/
theorem add_div_le {c x r t : Float} (hfinite : (unpacked x).isFinite = true) (hpos : 0.0 ≤ x)
    (hone : x ≤ 1.0) (hr : 0.0 < r) (h : c + 1.0 / r ≤ t) : c + x / r ≤ t := by
  have hle : x / r ≤ 1.0 / r := div_le_div_right hfinite finite_one hr hone
  have hnonneg : 0.0 ≤ x / r :=
    Double.le_trans (zero_le_zero_div hr) (div_le_div_right finite_zero hfinite hr hpos)
  have hnumber := (le_iff.mp h).1
  exact Double.le_trans (add_le_add_left hle (add_number hnonneg hle hnumber) hnumber) h

end Ostinato.Double
