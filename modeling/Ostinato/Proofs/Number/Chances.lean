import Ostinato.Proofs.Number.Sums
import Ostinato.Pattern.Basic

/-!
# Ostinato.Proofs.Number.Chances

Numbers from zero to one as chances.

A chance is compared with draws as a double, so it is rounded first.  Numbers of
all kinds are rounded in their order (`Double.Nearest.le`), and zero and one are
kept (`Double.Nearest.eq_self`).  The operands that pass for probabilities are all
rounded (`Value.isProbability_iff`, `Value.nearest_toFloat`).
-/

namespace Ostinato

open Double

/-! ## Rounding -/

namespace Double

/-- Whether a double with the exact value `p` is what a number is rounded to. -/
def Nearest (a : Rat) (x : Float) (p : Rat) : Prop :=
  toRat? x = some p ∧ RoundsTo a (rank (unpacked x))

/-- Numbers are rounded in their order. -/
theorem Nearest.le {a b p q : Rat} {x y : Float} (ha : Nearest a x p) (hb : Nearest b y q)
    (hab : a ≤ b) : p ≤ q := by
  obtain ⟨hfinite, -, rfl⟩ := of_toRat? ha.1
  obtain ⟨hfinite', -, rfl⟩ := of_toRat? hb.1
  exact value_le (settled_unpacked x) (settled_unpacked y) hfinite hfinite' (ha.2.le hb.2 hab)

theorem nearest_zero : Nearest 0 0.0 0 := by
  refine ⟨toRat?_zero, .inl ⟨le_refl 0, ?_⟩⟩
  rw [rank_zero]
  exact rounds_zero

theorem nearest_one : Nearest 1 1.0 1 := by
  refine ⟨toRat?_one, .inl ⟨zero_le_one, ?_⟩⟩
  rw [rank_one]
  exact rounds_one

/-- Zero is kept, and so is one. -/
theorem Nearest.eq_self {a p : Rat} {x : Float} (h : Nearest a x p) (ha : a = 0 ∨ a = 1) :
    p = a := by
  rcases ha with rfl | rfl
  · exact le_antisymm (h.le nearest_zero le_rfl) (nearest_zero.le h le_rfl)
  · exact le_antisymm (h.le nearest_one le_rfl) (nearest_one.le h le_rfl)

end Double

/-! ## Exact values -/

namespace Number

/-- The exact value of a number that has one. -/
def rational? : Number → Option Rat
  | int n => some n
  | ratio q => some q
  | float x => toRat? x

/-- The extent of a rational number is itself. -/
theorem extent?_of_rational {x : Number} {q : Rat} (h : x.rational? = some q) :
    x.extent? = some (.at q) := by
  cases x with
  | int n => exact congrArg (Option.map Extent.at) h
  | ratio r => exact congrArg (Option.map Extent.at) h
  | float x =>
    have hx : toRat? x = some q := h
    simp only [extent?, hx]

/-- Numbers with exact values are compared by them. -/
theorem lessOrSame_of_rational {x y : Number} {p q : Rat} (hx : x.rational? = some p)
    (hy : y.rational? = some q) : x.lessOrSame y = decide (p ≤ q) := by
  simp only [lessOrSame, compare?, extent?_of_rational hx, extent?_of_rational hy,
    Option.bind_eq_bind, Option.bind_some, Extent.compare]
  rcases lt_trichotomy p q with hlt | rfl | hgt
  · simp [hlt, hlt.le]
  · simp
  · simp [hgt.not_gt, hgt.ne', hgt]

/-- A rounded number is compared by what it is rounded to. -/
theorem lessOrSame_of_nearest {a p : Rat} {x : Float} (h : Nearest a x p) (t : Rat) :
    (float x).lessOrSame (ratio t) = decide (p ≤ t) := by
  have hx : (float x).rational? = some p := h.1
  have ht : (ratio t).rational? = some t := rfl
  exact lessOrSame_of_rational hx ht

/-- What lies between two integers has an exact value. -/
theorem rational?_of_between {x : Number} {m n : Int} (hlow : (int m).lessOrSame x = true)
    (hhigh : x.lessOrSame (int n) = true) : ∃ q, x.rational? = some q := by
  cases x with
  | int k => exact ⟨k, rfl⟩
  | ratio q => exact ⟨q, rfl⟩
  | float x =>
    cases hx : toRat? x with
    | some q => exact ⟨q, hx⟩
    | none =>
      -- NaN compares with nothing, and an infinity is on the wrong side of one of them
      exfalso
      simp only [lessOrSame, compare?, extent?, hx, Option.bind_eq_bind, Option.bind_some]
        at hlow hhigh
      cases hnan : isNaN x <;> cases hsign : isNegative x <;>
        simp [hnan, hsign, Extent.compare] at hlow hhigh

/-- A number from zero to one is rounded to a double. -/
theorem nearest_toFloat {y : Number} {q : Rat} (hy : y.rational? = some q) (hpos : 0 ≤ q)
    (hle : q ≤ 1) :
    ∃ x p, y.toFloat = .ok x ∧ Nearest q x p := by
  have hrational : ∃ x p, ofRat? q = some x ∧ Nearest q x p := by
    obtain ⟨x, hx, hfinite, hrounds⟩ := roundsTo_ofRat? hpos hle
    exact ⟨x, _, hx, toRat?_eq (isFinite_iff.mpr hfinite), hrounds⟩
  cases y with
  | int n =>
    obtain rfl : (n : Rat) = q := Option.some.inj hy
    obtain ⟨x, p, hx, hnearest⟩ := hrational
    refine ⟨x, p, ?_, hnearest⟩
    simp only [toFloat, ofInt?, hx]
  | ratio r =>
    obtain rfl : r = q := Option.some.inj hy
    obtain ⟨x, p, hx, hnearest⟩ := hrational
    refine ⟨x, p, ?_, hnearest⟩
    simp only [toFloat, hx]
  | float x =>
    obtain ⟨hfinite, -, hvalue⟩ := of_toRat? hy
    have hrounds := roundsTo_value (settled_unpacked x) hfinite
    rw [hvalue] at hrounds
    exact ⟨x, q, rfl, hy, hrounds⟩

end Number

/-! ## Operands -/

namespace Value

/-- The exact value of an operand that stands for a number with one. -/
def rational? (v : Value) : Option Rat := v.asNumber?.bind Number.rational?

/-- The operands that pass for probabilities are those with a value from zero to
one. -/
theorem isProbability_iff {v : Value} :
    v.isProbability = .ok true ↔ ∃ q, v.rational? = some q ∧ 0 ≤ q ∧ q ≤ 1 := by
  unfold isProbability rational?
  cases v.asNumber? with
  | none => simp
  | some x =>
    have hone : (Number.int 1).rational? = some 1 := rfl
    have hzero : (Number.int 0).rational? = some 0 := rfl
    simp only [Except.ok.injEq, Bool.and_eq_true, Option.bind_some]
    constructor
    · rintro ⟨hlow, hhigh⟩
      obtain ⟨q, hq⟩ := Number.rational?_of_between hlow hhigh
      rw [Number.lessOrSame_of_rational hzero hq] at hlow
      rw [Number.lessOrSame_of_rational hq hone] at hhigh
      exact ⟨q, hq, of_decide_eq_true hlow, of_decide_eq_true hhigh⟩
    · rintro ⟨q, hq, hpos, hle⟩
      rw [Number.lessOrSame_of_rational hzero hq, Number.lessOrSame_of_rational hq hone]
      exact ⟨decide_eq_true hpos, decide_eq_true hle⟩

/-- An operand with a value from zero to one is a chance near that value. -/
theorem nearest_toFloat {v : Value} {q : Rat} (hv : v.rational? = some q) (hpos : 0 ≤ q)
    (hle : q ≤ 1) : ∃ x p, v.toFloat = .ok x ∧ Nearest q x p := by
  unfold rational? at hv
  cases hx : v.asNumber? with
  | none =>
    rw [hx] at hv
    nomatch hv
  | some y =>
    rw [hx] at hv
    obtain ⟨x, p, hfloat, hnearest⟩ := Number.nearest_toFloat hv hpos hle
    refine ⟨x, p, ?_, hnearest⟩
    simp only [toFloat, hx, hfloat]

end Value

end Ostinato
