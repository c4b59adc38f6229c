import Ostinato.Unicode.Lowercase

/-!
# Ostinato.Proofs.Unicode.Lowercase

Lower-casing text that is lower-case already.

Lower-casing leaves ASCII text without capitals as it is
(`Unicode.lowerFrom_of_settled`), and it never leaves a capital.  Only the
kelvin sign becomes an ASCII character from outside of ASCII, so ASCII text
without the letter `k` that arises by lower-casing twice arises by
lower-casing once (`Unicode.lowercase_lowercase`).
-/

namespace Ostinato.Unicode

/-! ## ASCII -/

/-- An ASCII character that is no capital. -/
def Settled (c : Char) : Prop := c.toNat < 128 ∧ c.isUpper = false

/-- What holds of the characters with codes below 128 holds of ASCII characters. -/
theorem forall_ascii {P : Char → Prop} (h : ∀ n < 128, P (Char.ofNat n)) {c : Char}
    (hc : c.toNat < 128) : P c := by
  have hP := h c.toNat hc
  rwa [Char.ofNat_toNat] at hP

/-- An ASCII character that is no capital is its own lower case. -/
theorem toLower_of_settled {c : Char} (h : Settled c) : c.toLower = c := by
  have hall : ∀ n < 128, (Char.ofNat n).isUpper = false →
      (Char.ofNat n).toLower = Char.ofNat n := by decide +kernel
  exact forall_ascii (P := fun c => c.isUpper = false → c.toLower = c) hall h.1 h.2

/-- In lower case no ASCII character is a capital. -/
theorem isUpper_toLower {c : Char} (h : c.toNat < 128) : c.toLower.isUpper = false := by
  have hall : ∀ n < 128, (Char.ofNat n).toLower.isUpper = false := by decide +kernel
  exact forall_ascii (P := fun c => c.toLower.isUpper = false) hall h

/-- Capitals are ASCII characters. -/
theorem isUpper_of_toNat {c : Char} (h : 128 ≤ c.toNat) : c.isUpper = false := by
  refine decide_eq_false fun hupper => ?_
  have hle : c.toNat ≤ 90 := hupper.2
  omega

/-- No ASCII character lies beyond ASCII. -/
theorem ne_of_toNat_lt {c d : Char} (h : c.toNat < 128) (hd : 128 ≤ d.toNat) : c ≠ d := by
  rintro rfl
  omega

/-- ASCII text without capitals stays as it is. -/
theorem lowerFrom_of_settled {passed cs : List Char} (h : ∀ c ∈ cs, Settled c) :
    lowerFrom passed cs = cs := by
  induction cs generalizing passed with
  | nil => rfl
  | cons c cs ih =>
    have hc := h c List.mem_cons_self
    have hsigma : ¬(c == 'Σ') = true := by
      rw [beq_iff_eq]
      exact ne_of_toNat_lt hc.1 (by decide)
    have hdotted : ¬(c == 'İ') = true := by
      rw [beq_iff_eq]
      exact ne_of_toNat_lt hc.1 (by decide)
    rw [lowerFrom]
    simp only [if_neg hsigma, if_neg hdotted]
    have hcs : ∀ d ∈ cs, Settled d := fun d hd => h d (List.mem_cons_of_mem c hd)
    rw [lowerChar, if_pos hc.1, toLower_of_settled hc, ih hcs]
    rfl

/-! ## Beyond ASCII -/

/-- Every run but that of the kelvin sign ends beyond ASCII. -/
theorem lowercaseRuns_beyond : ∀ run ∈ lowercaseRuns, (run.1 = 8490 ∧ run.2.1 = 8490 ∧
    run.2.2.2 = -8383) ∨ (128 ≤ run.1 + run.2.2.2 ∧ (run.2.1 + run.2.2.2 < 0xD800 ∨
    0xE000 ≤ run.1 + run.2.2.2 ∧ run.2.1 + run.2.2.2 < 0x110000)) := by
  decide +kernel

/-- A code that is no surrogate is that of its character. -/
theorem toNat_ofNat {n : Nat} (h : n < 0xD800 ∨ 0xE000 ≤ n ∧ n < 0x110000) :
    (Char.ofNat n).toNat = n := by
  have hvalid : n.isValidChar := h
  rw [Char.ofNat, dif_pos hvalid]
  rfl

/-- From beyond ASCII only the kelvin sign comes back to it. -/
theorem lowerChar_beyond {c : Char} (h : 128 ≤ c.toNat) :
    128 ≤ (lowerChar c).toNat ∨ lowerChar c = 'k' := by
  unfold lowerChar
  simp only [if_neg (Nat.not_lt.mpr h)]
  split
  · rename_i first last step shift hrun
    have hmem := lowercaseRuns_beyond _ (List.mem_of_find?_eq_some hrun)
    have hin := List.find?_some hrun
    simp only [Bool.and_eq_true, decide_eq_true_eq] at hin hmem
    rcases hmem with ⟨hfirst, hlast, hshift⟩ | ⟨htarget, hvalid⟩
    · right
      have hc : c.toNat = 8490 := by omega
      rw [hc, hshift]
      decide
    · left
      rw [toNat_ofNat (by omega)]
      omega
  · exact .inl h

/-- In lower case no character is a capital. -/
theorem isUpper_lowerChar (c : Char) : (lowerChar c).isUpper = false := by
  by_cases hascii : c.toNat < 128
  · rw [lowerChar]
    simp only [if_pos hascii]
    exact isUpper_toLower hascii
  · rcases lowerChar_beyond (Nat.not_lt.mp hascii) with hbeyond | hkelvin
    · exact isUpper_of_toNat hbeyond
    · rw [hkelvin]
      decide

/-- Lower-casing leaves no capitals. -/
theorem isUpper_of_mem_lowerFrom {passed cs : List Char} :
    ∀ d ∈ lowerFrom passed cs, d.isUpper = false := by
  induction cs generalizing passed with
  | nil => exact List.forall_mem_nil _
  | cons c cs ih =>
    refine List.forall_mem_append.mpr ⟨?_, ih⟩
    split
    · split <;> exact List.forall_mem_singleton.mpr (by decide)
    · split
      · exact List.forall_mem_cons.mpr ⟨by decide, List.forall_mem_singleton.mpr (by decide)⟩
      · exact List.forall_mem_singleton.mpr (isUpper_lowerChar c)

/-- Text that becomes ASCII without a `k` was ASCII. -/
theorem toNat_lt_of_lowerFrom {passed cs : List Char}
    (h : ∀ d ∈ lowerFrom passed cs, d.toNat < 128 ∧ d ≠ 'k') : ∀ c ∈ cs, c.toNat < 128 := by
  induction cs generalizing passed with
  | nil => exact List.forall_mem_nil _
  | cons c cs ih =>
    rw [lowerFrom] at h
    obtain ⟨hhere, hrest⟩ := List.forall_mem_append.mp h
    refine List.forall_mem_cons.mpr ⟨?_, ih hrest⟩
    rcases Nat.lt_or_ge c.toNat 128 with hlt | hbeyond
    · exact hlt
    split at hhere
    · split at hhere <;> exact absurd (List.forall_mem_singleton.mp hhere).1 (by decide)
    · split at hhere
      · have hdot := List.forall_mem_singleton.mp (List.forall_mem_cons.mp hhere).2
        exact absurd hdot.1 (by decide)
      · obtain ⟨hascii, hkelvin⟩ := List.forall_mem_singleton.mp hhere
        rcases lowerChar_beyond hbeyond with hlow | hlow
        · omega
        · exact absurd hlow hkelvin

/-- Lower-casing twice is lower-casing once, if the result is ASCII without the
letter that the kelvin sign becomes. -/
theorem lowercase_lowercase {s : String}
    (h : ∀ d ∈ (lowercase (lowercase s)).toList, d.toNat < 128 ∧ d ≠ 'k') :
    lowercase (lowercase s) = lowercase s := by
  unfold lowercase at h ⊢
  rw [String.toList_ofList, String.toList_ofList] at h
  rw [String.toList_ofList, lowerFrom_of_settled]
  exact fun c hc => ⟨toNat_lt_of_lowerFrom h c hc, isUpper_of_mem_lowerFrom c hc⟩

end Ostinato.Unicode
