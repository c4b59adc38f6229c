import Ostinato.Proofs.Notation.Lexemes
import Ostinato.Proofs.Number.Numeral
import Ostinato.Transform

/-!
# Ostinato.Proofs.Notation.Words

Words without their places, and how they are written.

Written one after another with single spaces between them, words that each
stand for themselves are what the text is split into (`Word.tokenize_spell`).
The words that stand for themselves are structural characters, text that lacks
a quote, decimal digits of an integer in range, and names.  Conversely each
word of a text is one that its kind allows (`Word.plain_of_tokenize`).
-/

namespace Ostinato

namespace Word

/-! ## Spelling -/

/-- A quote that a text does not hold, if it lacks one. -/
def quoteFor (cs : List Char) : Char := if '"' ∈ cs then '\'' else '"'

/-- The characters that stand for a word: text between quotes, any other word
as it is. -/
def spelled (w : Word) : List Char :=
  match w.kind with
  | .string => quoteFor w.text.toList :: w.text.toList ++ [quoteFor w.text.toList]
  | _ => w.text.toList

/-- Words one after another, with single spaces between them. -/
def spell : List Word → List Char
  | [] => []
  | [w] => w.spelled
  | w :: v :: ws => w.spelled ++ ' ' :: spell (v :: ws)

/-! ## Words in front of text -/

/-- Nothing follows, or a space. -/
def IsSpaced (rest : List Char) : Prop := ∀ c ∈ rest.head?, c = ' '

theorem isSpaced_nil : IsSpaced [] := fun _ h => absurd h (Option.not_mem_none _)

/-- A space is white space. -/
theorem IsSpaced.startsBlank {rest : List Char} (h : IsSpaced rest) : Lexer.StartsBlank rest := by
  intro c hc
  rw [h c hc]
  decide

/-- The word is what its spelling is split into before a space and at the
end. -/
def Stands (w : Word) : Prop :=
  ∃ c cs, w.spelled = c :: cs ∧ Unicode.isSpace c = false ∧
    ∀ rest, IsSpaced rest → ∀ position, ∃ size,
      Lexer.piece position c (cs ++ rest) = .ok ⟨some (w.kind, w.text), size, rest⟩

/-- A word that has a lexeme is spelled by one. -/
theorem lexeme_spelled {w : Word} {l : List Char} (h : Lexer.Lexeme w l) :
    Lexer.Lexeme w w.spelled := by
  refine h.respelled ?_
  by_cases hstring : w.kind = .string
  · have hspelling := h.isSpelling
    simp only [IsSpelling, spelled, hstring] at hspelling ⊢
    obtain ⟨quote, hquote, hbody, -⟩ := hspelling
    refine ⟨_, ?_, ?_, rfl⟩ <;> unfold quoteFor <;> split
    · exact .inr rfl
    · exact .inl rfl
    · obtain rfl | rfl := hquote
      · exact absurd ‹_› hbody
      · exact hbody
    · assumption
  · refine (isSpelling_of_ne hstring).mpr ?_
    unfold spelled
    split
    · exact absurd ‹_› hstring
    · rfl

/-- The words that stand for themselves are those that have a lexeme. -/
theorem stands_iff {w : Word} : Stands w ↔ ∃ l, Lexer.Lexeme w l := by
  constructor
  · rintro ⟨c, cs, -, hspace, hpiece⟩
    obtain ⟨size, hpiece⟩ := hpiece [] isSpaced_nil 0
    rw [List.append_nil] at hpiece
    obtain ⟨v, l, rest, hsplit, hlexeme, hends⟩ | ⟨e, hstuck⟩ := Lexer.lexeme_or_stuck 0 hspace cs
    · obtain ⟨d, ds, rfl⟩ := List.exists_cons_of_ne_nil hlexeme.ne_nil
      obtain ⟨rfl, rfl⟩ := List.cons.inj hsplit
      have hsame := (hlexeme.piece hends (n := 0) rfl).symm.trans hpiece
      simp only [Except.ok.injEq, Lexer.Piece.mk.injEq, Option.some.injEq, Prod.mk.injEq] at hsame
      obtain ⟨⟨hkind, htext⟩, -⟩ := hsame
      obtain rfl : v = w := by cases v; cases w; simp_all
      exact ⟨_, hlexeme⟩
    · rw [hstuck.piece] at hpiece
      exact absurd hpiece (by simp)
  · rintro ⟨l, h⟩
    have hlexeme := lexeme_spelled h
    obtain ⟨c, cs, hspelled⟩ := List.exists_cons_of_ne_nil hlexeme.ne_nil
    refine ⟨c, cs, hspelled, (hspelled ▸ hlexeme).isSpace_head, fun rest hrest position => ?_⟩
    have hends : Lexer.EndsBefore w rest := fun _ => Lexer.ends_blank hrest.startsBlank
    exact ⟨_, hlexeme.piece hends hspelled⟩

/-- A structural character stands for itself. -/
theorem stands_structural {c : Char} {kind : TokenKind}
    (h : TokenKind.ofStructural? c = some kind) : Stands ⟨kind, String.singleton c⟩ :=
  stands_iff.mpr ⟨_, .structural h⟩

/-- Text that lacks a quote stands between such quotes. -/
theorem stands_text {text : String} (h : '"' ∉ text.toList ∨ '\'' ∉ text.toList) :
    Stands ⟨.string, text⟩ := by
  have hlexeme : ∀ quote, IsQuote quote → quote ∉ text.toList →
      Lexer.Lexeme ⟨.string, text⟩ (quote :: text.toList ++ [quote]) := by
    intro quote hquote hbody
    have hquoted := Lexer.Lexeme.quoted hquote hbody
    rwa [String.ofList_toList] at hquoted
  obtain h | h := h
  · exact stands_iff.mpr ⟨_, hlexeme '"' (.inl rfl) h⟩
  · exact stands_iff.mpr ⟨_, hlexeme '\'' (.inr rfl) h⟩

/-- A run of word characters stands for itself. -/
theorem stands_run {s : String} {kind : TokenKind} (hne : s.toList ≠ [])
    (hword : ∀ c ∈ s.toList, Lexer.isWordChar c = true) (hkind : Lexer.wordKind s = kind) :
    Stands ⟨kind, s⟩ := by
  have hrun := Lexer.Lexeme.run hne hword
  rw [Lexer.runWord, String.ofList_toList, hkind] at hrun
  exact stands_iff.mpr ⟨_, hrun⟩

/-! ### Numbers and names -/

/-- Text without a minus sign that reads as an integer is a numeral exactly if
the integer is in range, and it is not negative. -/
theorem isNumeral_of_readInt {s : String} {n : Int} (hsign : '-' ∉ s.toList)
    (h : Numeral.readInt s = .ok n) :
    0 ≤ n ∧ (Lexer.isNumeral s = true ↔ Double.InRange n) := by
  obtain ⟨hnonneg, x, hx, hfinite⟩ := Numeral.readFloat?_of_readInt hsign h
  refine ⟨hnonneg, ?_⟩
  rw [Lexer.isNumeral, hx]
  exact hfinite

/-- A decimal digit is a word character. -/
theorem isWordChar_of_isDigit {c : Char} (h : c.isDigit = true) : Lexer.isWordChar c = true := by
  have hbounds := Numeral.toNat_of_isDigit h
  unfold Lexer.isWordChar Unicode.isWord
  rw [if_pos (by omega)]
  simp [Char.isAlphanum, h]

/-- The digits of a number in range stand for themselves. -/
theorem stands_number {n : Nat} (h : Double.InRange n) : Stands ⟨.number, toString n⟩ := by
  have hdigit : ∀ c ∈ (toString n).toList, c.isDigit = true := by
    rw [Numeral.toList_toString]
    exact fun c => Numeral.isDigit_of_mem_toDigits
  have hsign : '-' ∉ (toString n).toList := fun hmem => absurd (hdigit '-' hmem) (by decide)
  have hnumeral : Lexer.isNumeral (toString n) = true :=
    (isNumeral_of_readInt hsign (Numeral.readInt_of_inRange h)).2.mpr h
  refine stands_run ?_ (fun c hc => isWordChar_of_isDigit (hdigit c hc)) ?_
  · rw [Numeral.toList_toString]
    exact Nat.toDigits_ne_nil
  · rw [Lexer.wordKind, if_pos hnumeral]

/-- The names of the transforms known from the start stand for themselves. -/
theorem stands_name {name : String} (h : name ∈ Transform.builtin.names) :
    Stands ⟨.symbol, name⟩ := by
  have hnames : ∀ name ∈ Transform.builtin.names, name.toList ≠ [] ∧
      name.toList.all Lexer.isWordChar = true ∧ Lexer.wordKind name = .symbol := by decide +kernel
  obtain ⟨hne, hall, hkind⟩ := hnames name h
  exact stands_run hne (List.all_eq_true.mp hall) hkind

/-! ## Splitting a spelling -/

/-- Words are put together with single spaces between them. -/
theorem spell_eq (ws : List Word) : spell ws = [' '].intercalate (ws.map spelled) := by
  induction ws with
  | nil => rfl
  | cons w ws ih =>
    cases ws with
    | nil => simp [spell]
    | cons v vs => simp [spell, ih]

/-- Words that stand for themselves are read back from their spelling. -/
theorem tokenize_spell {ws : List Word} (h : ∀ w ∈ ws, Stands w) :
    ∃ ts, tokenize (String.ofList (spell ws)) = .ok ts ∧ ts.map Token.word = ws := by
  have hlexemes : List.Forall₂ Lexer.Lexeme ws (ws.map spelled) :=
    List.forall₂_map_right_iff.mpr <| List.forall₂_same.mpr fun w hw =>
      (stands_iff.mp (h w hw)).elim fun _ hlexeme => lexeme_spelled hlexeme
  obtain ⟨ts, hscans, hwords⟩ := Lexer.scans_spaced hlexemes 0
  refine ⟨ts, Lexer.Scans.tokenize_ok ?_, hwords⟩
  rwa [String.toList_ofList, spell_eq]

/-! ## Words of a text -/

/-- The characters of numbers and names. -/
def isRunChar (c : Char) : Bool := Lexer.isWordChar c || Unicode.isDigit c || c == '.'

/-- What the kind of a word says about its text. -/
def Plain (w : Word) : Prop :=
  match w.kind with
  | .number => Lexer.isNumeral w.text = true ∧ ∀ c ∈ w.text.toList, isRunChar c = true
  | .symbol => ∀ c ∈ w.text.toList, isRunChar c = true
  | .string => '"' ∉ w.text.toList ∨ '\'' ∉ w.text.toList
  | kind => ∃ c, TokenKind.ofStructural? c = some kind ∧ w.text = String.singleton c

/-- A plain number is a numeral, and made of the characters of numbers. -/
theorem Plain.number {w : Word} (h : w.Plain) (hkind : w.kind = .number) :
    Lexer.isNumeral w.text = true ∧ ∀ c ∈ w.text.toList, isRunChar c = true := by
  rw [Plain, hkind] at h
  exact h

/-- A plain name is made of the characters of names. -/
theorem Plain.symbol {w : Word} (h : w.Plain) (hkind : w.kind = .symbol) :
    ∀ c ∈ w.text.toList, isRunChar c = true := by
  rw [Plain, hkind] at h
  exact h

/-- Plain quoted text lacks one of the quotes. -/
theorem Plain.string {w : Word} (h : w.Plain) (hkind : w.kind = .string) :
    '"' ∉ w.text.toList ∨ '\'' ∉ w.text.toList := by
  rw [Plain, hkind] at h
  exact h

/-- Characters of numbers and names make a plain number or a plain name. -/
theorem plain_wordKind {cs : List Char} (h : ∀ c ∈ cs, isRunChar c = true) :
    Plain ⟨Lexer.wordKind (String.ofList cs), String.ofList cs⟩ := by
  have hchars : ∀ c ∈ (String.ofList cs).toList, isRunChar c = true := by
    rwa [String.toList_ofList]
  by_cases hnumeral : Lexer.isNumeral (String.ofList cs) = true
  · rw [Lexer.wordKind, if_pos hnumeral]
    exact ⟨hnumeral, hchars⟩
  · rw [Lexer.wordKind, if_neg hnumeral]
    exact hchars

/-- A structural character is a plain word of its kind. -/
theorem plain_structural {c : Char} {kind : TokenKind}
    (h : TokenKind.ofStructural? c = some kind) : Plain ⟨kind, String.singleton c⟩ := by
  have hself : ∃ d, TokenKind.ofStructural? d = some kind ∧
      String.singleton c = String.singleton d := ⟨c, h, rfl⟩
  unfold TokenKind.ofStructural? at h
  split at h <;> first
    | (obtain rfl := Option.some.inj h; exact hself)
    | exact absurd h (Option.some_ne_none kind).symm

/-- A word that has a lexeme is one that its kind allows. -/
theorem plain_of_lexeme {w : Word} {l : List Char} (h : Lexer.Lexeme w l) : Plain w := by
  have hrun : ∀ c, Lexer.isWordChar c = true → isRunChar c = true := by
    intro c hc
    simp [isRunChar, hc]
  cases h with
  | @quoted quote body hquote hbody =>
    show '"' ∉ (String.ofList body).toList ∨ '\'' ∉ (String.ofList body).toList
    rw [String.toList_ofList]
    obtain rfl | rfl := hquote
    · exact .inl hbody
    · exact .inr hbody
  | run hne hword => exact plain_wordKind fun c hc => hrun c (hword c hc)
  | decimal hne hwhole hplace hplaces =>
    refine plain_wordKind fun c hc => ?_
    obtain hc | hc := List.mem_append.mp hc
    · simp [isRunChar, hwhole c hc]
    · obtain rfl | hc := List.mem_cons.mp hc
      · decide
      · exact hrun c (hplaces c hc)
  | structural hkind => exact plain_structural hkind

/-- Each word of a text is one that its kind allows. -/
theorem plain_of_tokenize {text : String} {ts : List Token} (h : tokenize text = .ok ts) :
    ∀ t ∈ ts, Plain t.word := by
  intro t ht
  obtain ⟨l, hlexeme⟩ := (Lexer.scans_of_tokenize h).lexeme t ht
  exact plain_of_lexeme hlexeme

end Word

end Ostinato
