import Ostinato.Unicode.DecimalDigit
import Ostinato.Unicode.Space
import Ostinato.Unicode.Word
import Ostinato.Proofs.Unicode.Lowercase

/-!
# Ostinato.Proofs.Unicode.Classes

How the classes of characters lie to each other.

The tables of the classes are independent of each other, so the facts that
splitting text into words rests on are facts about the tables: every decimal
digit is a word character (`Unicode.isWord_of_isDigit`), and no white space is
one (`Unicode.isWord_of_isSpace`).
-/

namespace Ostinato.Unicode

namespace InversionList

/-- Members lie between the first two boundaries or further on. -/
theorem contains_cons_cons {a b n : Nat} {bs : InversionList} :
    contains (a :: b :: bs) n = true ↔ a ≤ n ∧ (n < b ∨ contains bs n = true) := by
  simp only [contains]
  by_cases ha : n < a <;> by_cases hb : n < b <;> simp [ha, hb] <;> omega

/-- All members, if the boundaries come in pairs. -/
def members : InversionList → List Nat
  | a :: b :: bs => List.range' a (b - a) ++ members bs
  | _ => []

/-- Boundaries in pairs enclose each member in one of their intervals. -/
theorem mem_members {bs : InversionList} {n : Nat} (hpairs : bs.length % 2 = 0)
    (h : contains bs n = true) : n ∈ members bs := by
  induction bs using members.induct with
  | case1 a b bs ih =>
    rw [members, List.mem_append, List.mem_range'_1]
    obtain ⟨ha, hb | hbs⟩ := contains_cons_cons.mp h
    · exact .inl (by omega)
    · simp only [List.length_cons] at hpairs
      exact .inr (ih (by omega) hbs)
  | case2 bs hbs =>
    cases bs with
    | nil => exact absurd h (by simp [contains])
    | cons a bs =>
      cases bs with
      | nil => exact absurd hpairs (by simp)
      | cons b bs => exact absurd rfl (hbs a b bs)

/-- Whether an interval lies between two boundaries that enclose members. -/
def covers : InversionList → Nat → Nat → Bool
  | a :: b :: bs, low, high => a.ble low && (high.ble b || covers bs low high)
  | _, _, _ => false

/-- What lies in a covered interval is a member. -/
theorem contains_of_covers {bs : InversionList} {low high n : Nat}
    (h : covers bs low high = true) (hlow : low ≤ n) (hhigh : n < high) :
    contains bs n = true := by
  induction bs using members.induct with
  | case1 a b bs ih =>
    simp only [covers, Bool.and_eq_true, Bool.or_eq_true, Nat.ble_eq] at h
    exact contains_cons_cons.mpr ⟨by omega, h.2.imp (by omega) ih⟩
  | case2 bs hbs =>
    unfold covers at h
    split at h
    · exact absurd rfl (hbs _ _ _)
    · exact absurd h Bool.false_ne_true

end InversionList

/-- Digits follow one of the zeros. -/
theorem exists_zero_of_isDigit {c : Char} (h : isDigit c = true) :
    ∃ z ∈ digitZeros, z ≤ c.toNat ∧ c.toNat < z + 10 := by
  simp only [isDigit, digitValue?, Option.isSome_map] at h
  obtain ⟨z, hz⟩ := Option.isSome_iff_exists.mp h
  have hrange := List.find?_some hz
  exact ⟨z, List.mem_of_find?_eq_some hz, by simpa using hrange⟩

/-- Decimal digits are word characters. -/
theorem isWord_of_isDigit {c : Char} (h : isDigit c = true) : isWord c = true := by
  have htable : ∀ z ∈ digitZeros, z = 48 ∨ 128 ≤ z ∧ wordTable.covers z (z + 10) = true := by
    decide +kernel
  have hascii : ∀ n < 128, 48 ≤ (Char.ofNat n).toNat → (Char.ofNat n).toNat < 58 →
      isWord (Char.ofNat n) = true := by decide +kernel
  obtain ⟨z, hz, hlow, hhigh⟩ := exists_zero_of_isDigit h
  obtain rfl | ⟨hbeyond, hcovers⟩ := htable z hz
  · exact forall_ascii (P := fun c => 48 ≤ c.toNat → c.toNat < 58 → isWord c = true) hascii
      (by omega) hlow hhigh
  · rw [isWord, if_neg (by omega)]
    exact InversionList.contains_of_covers hcovers hlow hhigh

/-- White space is no word character. -/
theorem isWord_of_isSpace {c : Char} (h : isSpace c = true) : isWord c = false := by
  have htable : ∀ n ∈ spaceTable.members, isWord (Char.ofNat n) = false := by decide +kernel
  have hmem := htable c.toNat (InversionList.mem_members (by decide) h)
  rwa [Char.ofNat_toNat] at hmem

end Ostinato.Unicode
