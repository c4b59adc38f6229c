import Ostinato.Proofs.Number.Finite

/-!
# Ostinato.Proofs.Number.Numeral

Integers in text.

1. A natural number in range, written in decimal digits, reads back
   (`Numeral.readInt_toString`).
2. Text that reads as an integer reads as a double too, and that double is
   finite exactly if the integer is in range (`Numeral.readFloat?_of_readInt`).
-/

namespace Ostinato.Numeral

open Double (InRange)

/-! ## Digits -/

/-- The value of an ASCII digit. -/
def digitOf (c : Char) : Nat := c.toNat - '0'.toNat

/-- Codes of the ten digits follow each other. -/
theorem toNat_of_isDigit {c : Char} (h : c.isDigit = true) : 48 ≤ c.toNat ∧ c.toNat < 58 := by
  have hdigit := Char.isDigit_iff_toNat.mp h
  have hzero : '0'.toNat = 48 := rfl
  have hnine : '9'.toNat = 57 := rfl
  omega

/-- The digits that text is made of are digits of the reader. -/
theorem digitValue?_of_isDigit {c : Char} (h : c.isDigit = true) :
    Unicode.digitValue? c = some (digitOf c) := by
  have hbounds := toNat_of_isDigit h
  unfold Unicode.digitValue? Unicode.digitZeros
  rw [List.find?_cons_of_pos (by simpa using hbounds)]
  rfl

/-- A run of digits is read to its end. -/
theorem digitRun_of_isDigit {cs : List Char} (inside : Bool) (h : ∀ c ∈ cs, c.isDigit = true) :
    digitRun inside cs = (cs.map digitOf, []) := by
  induction cs generalizing inside with
  | nil => rfl
  | cons c cs ih =>
    have hc := h c List.mem_cons_self
    have hline : (c == '_') = false := by
      rw [beq_eq_false_iff_ne]
      rintro rfl
      exact absurd hc (by decide)
    unfold digitRun
    rw [hline, Bool.and_false, Bool.false_and, if_neg Bool.false_ne_true,
      digitValue?_of_isDigit hc]
    simp only [ih true fun d hd => h d (List.mem_cons_of_mem c hd), List.map_cons]

/-- The digits that a number is written with stand for it. -/
theorem ofDigits_toDigits (n : Nat) : ofDigits ((Nat.toDigits 10 n).map digitOf) = n := by
  unfold ofDigits
  rw [List.foldl_map]
  exact Nat.ofDigitChars_ten_toDigits

/-- A number is written with digits only. -/
theorem isDigit_of_mem_toDigits {n : Nat} {c : Char} (h : c ∈ Nat.toDigits 10 n) :
    c.isDigit = true :=
  Nat.isDigit_of_mem_toDigits (by decide) (by decide) h

/-- Leading zeros do not count. -/
theorem ofDigits_dropWhile (ds : List Nat) : ofDigits (ds.dropWhile (· == 0)) = ofDigits ds := by
  induction ds with
  | nil => rfl
  | cons d ds ih =>
    by_cases hd : d = 0
    · subst hd
      rw [List.dropWhile_cons_of_pos (by decide), ih]
      rfl
    · rw [List.dropWhile_cons_of_neg (by simpa using hd)]

/-- What stands before some digits counts at least for its place. -/
theorem le_foldl_digits (ds : List Nat) (n : Nat) :
    n * 10 ^ ds.length ≤ ds.foldl (fun n d => 10 * n + d) n := by
  induction ds generalizing n with
  | nil => simp
  | cons d ds ih =>
    calc n * 10 ^ (d :: ds).length
        = 10 * n * 10 ^ ds.length := by
          rw [List.length_cons, pow_succ', ← Nat.mul_assoc, Nat.mul_comm n 10]
      _ ≤ (10 * n + d) * 10 ^ ds.length := Nat.mul_le_mul_right _ (Nat.le_add_right _ _)
      _ ≤ (d :: ds).foldl (fun n d => 10 * n + d) n := ih (10 * n + d)

/-- A number is at least the power of ten of its leading digit. -/
theorem pow_le_ofDigits {d : Nat} {ds : List Nat} (h : d ≠ 0) :
    10 ^ ds.length ≤ ofDigits (d :: ds) :=
  calc 10 ^ ds.length = 1 * 10 ^ ds.length := (Nat.one_mul _).symm
    _ ≤ (10 * 0 + d) * 10 ^ ds.length := Nat.mul_le_mul_right _ (by omega)
    _ ≤ ofDigits (d :: ds) := le_foldl_digits ds _

/-! ## Sign and blanks -/

/-- Trimming adds no character. -/
theorem mem_of_mem_trim {blank : Char → Bool} {s : String} {c : Char} (h : c ∈ trim blank s) :
    c ∈ s.toList := by
  unfold trim at h
  rw [List.mem_reverse] at h
  have hdropped := (List.dropWhile_sublist blank).subset h
  rw [List.mem_reverse] at hdropped
  exact (List.dropWhile_sublist blank).subset hdropped

/-- Nothing is dropped where no character is a blank. -/
theorem dropWhile_of_none {blank : Char → Bool} {cs : List Char} (h : ∀ c ∈ cs, blank c = false) :
    cs.dropWhile blank = cs := by
  cases cs with
  | nil => rfl
  | cons c cs =>
    exact List.dropWhile_cons_of_neg (by rw [h c List.mem_cons_self]; exact Bool.false_ne_true)

/-- Nothing is trimmed where no character is a blank. -/
theorem trim_of_none {blank : Char → Bool} {s : String} (h : ∀ c ∈ s.toList, blank c = false) :
    trim blank s = s.toList := by
  unfold trim
  rw [dropWhile_of_none h, dropWhile_of_none fun c hc => h c (List.mem_reverse.mp hc),
    List.reverse_reverse]

/-- Without a minus sign a numeral is not negative. -/
theorem takeSign_of_not_mem {cs : List Char} (h : '-' ∉ cs) : (takeSign cs).1 = false := by
  unfold takeSign
  split
  · exact absurd List.mem_cons_self h
  · rfl
  · rfl

/-- Digits begin with no sign. -/
theorem takeSign_of_isDigit {cs : List Char} (h : ∀ c ∈ cs, c.isDigit = true) :
    takeSign cs = (false, cs) := by
  unfold takeSign
  split
  · exact absurd (h '-' List.mem_cons_self) (by decide)
  · exact absurd (h '+' List.mem_cons_self) (by decide)
  · rfl

/-- No digit is a blank. -/
theorem isBlank_of_isDigit {c : Char} (h : c.isDigit = true) : isBlank c = false := by
  have hbounds := toNat_of_isDigit h
  have hspace : (c == ' ') = false := by
    rw [beq_eq_false_iff_ne]
    rintro rfl
    exact absurd h (by decide)
  have hcontrol : ¬c.toNat ≤ 13 := by omega
  unfold isBlank
  rw [if_pos (by omega), hspace]
  simp [hcontrol]

/-! ## Integers -/

theorem toList_toString (n : Nat) : (toString n).toList = Nat.toDigits 10 n := by
  rw [Nat.toString_eq_repr, Nat.toList_repr]

/-- Decimal digits that are not too many read back. -/
theorem readInt_toString {n : Nat} (h : (Nat.toDigits 10 n).length ≤ Fault.digitLimit) :
    readInt (toString n) = .ok n := by
  have hdigit : ∀ c ∈ (toString n).toList, c.isDigit = true := by
    rw [toList_toString]
    exact fun c => isDigit_of_mem_toDigits
  have hvalue := ofDigits_toDigits n
  have hlimited : limited ((Nat.toDigits 10 n).map digitOf) = .ok n := by
    rw [limited, if_pos (by rwa [List.length_map]), hvalue]
  obtain ⟨d, ds, hds⟩ : ∃ d ds, (Nat.toDigits 10 n).map digitOf = d :: ds := by
    rw [← List.ne_nil_iff_exists_cons, Ne, List.map_eq_nil_iff]
    exact Nat.toDigits_ne_nil
  have hrun : digitRun false (toString n).toList = (d :: ds, []) := by
    rw [digitRun_of_isDigit false hdigit, toList_toString, hds]
  rw [hds] at hlimited
  unfold readInt
  rw [trim_of_none fun c hc => isBlank_of_isDigit (hdigit c hc), takeSign_of_isDigit hdigit]
  simp only [hrun, hlimited]
  rfl

/-- The digits of a natural number in range are not too many. -/
theorem readInt_of_inRange {n : Nat} (h : InRange n) : readInt (toString n) = .ok n := by
  have hlog : n.log2 < 1026 := h.log2_lt
  have hlimit : Fault.digitLimit = 4300 := rfl
  have hpow : n < 10 ^ (n.log2 + 1) :=
    Nat.lt_of_lt_of_le Nat.lt_log2_self (Nat.pow_le_pow_left (by decide) _)
  have hlength := (Nat.length_toDigits_le_iff (by decide) (Nat.succ_pos n.log2)).mpr hpow
  exact readInt_toString (by omega)

/-- The parts of text that reads as an integer. -/
theorem of_readInt {s : String} {n : Int} (h : readInt s = .ok n) :
    ∃ negative cs ds, takeSign (trim isBlank s) = (negative, cs) ∧
      digitRun false cs = (ds, []) ∧ ds ≠ [] ∧ n = signed negative (ofDigits ds) := by
  rcases hsign : takeSign (trim isBlank s) with ⟨negative, cs⟩
  rcases hrun : digitRun false cs with ⟨ds, rest⟩
  refine ⟨negative, cs, ds, rfl, ?_⟩
  unfold readInt at h
  simp only [hsign, hrun] at h
  split at h
  · exact absurd h (by simp)
  · exact absurd h (by simp)
  · rename_i hempty _ heq
    obtain ⟨rfl, rfl⟩ := Prod.mk.inj heq
    by_cases hlength : ds.length ≤ Fault.digitLimit
    · rw [limited, if_pos hlength] at h
      by_cases hrest : rest.isEmpty = true
      · have hvalue : signed negative (ofDigits ds) = n := by
          simpa [bind, Except.bind, hrest] using h
        obtain rfl := List.isEmpty_iff.mp hrest
        exact ⟨hrun, hempty, hvalue.symm⟩
      · exact absurd h (by simp [bind, Except.bind, hrest])
    · rw [limited, if_neg hlength] at h
      exact absurd h (by simp [bind, Except.bind])

/-! ## Doubles -/

/-- Digits alone are a decimal without places. -/
theorem takeDecimals_of_digitRun {cs : List Char} {ds : List Nat}
    (h : digitRun false cs = (ds, [])) (hne : ds ≠ []) :
    takeDecimals cs = some (⟨ds, 0⟩, []) := by
  unfold takeDecimals
  simp [h, hne, takeExponent, ofDigits, signed]

/-- A number of more than 400 digits is beyond the doubles. -/
theorem not_inRange_of_length {d : Nat} {ds : List Nat} (hd : d ≠ 0) (h : 400 ≤ ds.length) :
    ¬InRange (ofDigits (d :: ds)) := by
  intro hrange
  have hlog : (ofDigits (d :: ds)).log2 < 1026 := hrange.log2_lt
  have hpow : 2 ^ (3 * ds.length) ≤ ofDigits (d :: ds) :=
    calc 2 ^ (3 * ds.length) = 8 ^ ds.length := pow_mul 2 3 _
      _ ≤ 10 ^ ds.length := Nat.pow_le_pow_left (by decide) _
      _ ≤ ofDigits (d :: ds) := pow_le_ofDigits hd
  have hpos : ofDigits (d :: ds) ≠ 0 := by
    have := Nat.two_pow_pos (3 * ds.length)
    omega
  have hbits := (Nat.le_log2 hpos).mpr hpow
  omega

/-- The double of whole digits is finite exactly if their number is in range. -/
theorem isFinite_toFloat (ds : List Nat) :
    Double.isFinite (Decimals.toFloat ⟨ds, 0⟩) = true ↔ InRange (ofDigits ds) := by
  rw [← ofDigits_dropWhile]
  unfold Decimals.toFloat
  simp only
  rcases hdigits : ds.dropWhile (· == 0) with _ | ⟨d, rest⟩
  · exact iff_of_true Double.isFinite_zero (Double.inRange_iff.mpr (.inl rfl))
  · have hd : d ≠ 0 := by
      have hhead := List.head?_dropWhile_not (· == 0) ds
      simpa [hdigits] using hhead
    have hnear :
        ((d :: rest).isEmpty || decide (0 + ((d :: rest).length : Int) < -400)) ≠ true := by
      simp
      omega
    rw [if_neg hnear]
    by_cases htop : 400 < 0 + ((d :: rest).length : Int)
    · rw [if_pos htop]
      refine iff_of_false ?_ (not_inRange_of_length hd ?_)
      · rw [Double.isFinite_infinity]
        exact Bool.false_ne_true
      · rw [List.length_cons] at htop
        omega
    · have hscale : ((ofDigits (d :: rest) * Nat.pow 10 (0 : Int).natAbs : Nat) : Rat)
          = ((ofDigits (d :: rest) : Int) : Rat) := by
        rw [Int.natAbs_zero, Nat.pow_eq, Nat.pow_zero, Nat.mul_one, Int.cast_natCast]
      have hrange : InRange (ofDigits (d :: rest)) ↔
          (Double.ofRat? ((ofDigits (d :: rest) : Int) : Rat)).isSome = true := Iff.rfl
      rw [if_neg htop, if_neg (lt_irrefl 0), hscale, hrange]
      rcases hx : Double.ofRat? ((ofDigits (d :: rest) : Int) : Rat) with _ | x
      · exact iff_of_false (by simp [Double.isFinite_infinity]) Bool.false_ne_true
      · exact iff_of_true (Double.isFinite_of_ofRat? (by positivity) hx) rfl

/-- Text that reads as an integer reads as a double, which is finite exactly
if the integer is in range. -/
theorem readFloat?_of_readInt {s : String} {n : Int} (hsign : '-' ∉ s.toList)
    (h : readInt s = .ok n) :
    0 ≤ n ∧ ∃ x, readFloat? s = some x ∧ (Double.isFinite x = true ↔ InRange n) := by
  obtain ⟨negative, cs, ds, htake, hrun, hne, rfl⟩ := of_readInt h
  have hnegative : negative = false := by
    have hfirst : (takeSign (trim isBlank s)).1 = false :=
      takeSign_of_not_mem fun hmem => hsign (mem_of_mem_trim hmem)
    rwa [htake] at hfirst
  subst hnegative
  refine ⟨Int.natCast_nonneg _, (⟨ds, 0⟩ : Decimals).toFloat, ?_, isFinite_toFloat ds⟩
  unfold readFloat?
  simp [htake, takeDecimals_of_digitRun hrun hne]

end Ostinato.Numeral
