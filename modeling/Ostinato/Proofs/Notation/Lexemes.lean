import Mathlib.Data.List.Forall2
import Mathlib.Data.List.TakeWhile
import Ostinato.Notation.Lexer
import Ostinato.Proofs.Unicode.Classes

/-!
# Ostinato.Proofs.Notation.Lexemes

What text is split into, without the splitting.

1. Characters that are a word together are a lexeme.  It has one of four forms
   (`Lexer.Lexeme`), and a run of word characters goes as far as it can
   (`Lexer.Ends`).
2. Lexemes and white space are passed, one after another, up to some place
   (`Lexer.Scans`).
3. There is no passing a character that begins neither (`Lexer.Stuck`).

This is what splitting does: it passes a text up to its end, or up to where it
is stuck (`Lexer.tokenize_outcome`).  What is passed does not depend on what
stands behind white space (`Lexer.Scans.blank_end`), nor behind any other
character that belongs to no run (`Lexer.Scans.apart_end`).
-/

namespace Ostinato

/-- A word without its place. -/
structure Word where
  kind : TokenKind
  text : String
deriving DecidableEq, Repr

/-- A word of a text without its place. -/
def Token.word (t : Token) : Word := ⟨t.kind, t.text⟩

/-- A structural character is none of quotes, word characters and white space. -/
theorem Word.of_ofStructural? {c : Char} {kind : TokenKind}
    (h : TokenKind.ofStructural? c = some kind) :
    (c == '"' || c == '\'') = false ∧ Lexer.isWordChar c = false ∧ Unicode.isSpace c = false ∧
      kind ≠ .string := by
  unfold TokenKind.ofStructural? at h
  split at h <;> first
    | (obtain rfl := Option.some.inj h; decide)
    | exact absurd h (Option.some_ne_none kind).symm

/-- The characters that stand around quoted text. -/
def IsQuote (c : Char) : Prop := c = '"' ∨ c = '\''

instance (c : Char) : Decidable (IsQuote c) := inferInstanceAs (Decidable (_ ∨ _))

/-- Characters that spell a word: its text between two quotes that the text
lacks, or its text alone. -/
def Word.IsSpelling (w : Word) (cs : List Char) : Prop :=
  match w.kind with
  | .string => ∃ quote, IsQuote quote ∧ quote ∉ w.text.toList ∧
      cs = quote :: w.text.toList ++ [quote]
  | _ => cs = w.text.toList

/-- A word that is not quoted is spelled by its text. -/
theorem Word.isSpelling_of_ne {w : Word} (h : w.kind ≠ .string) {cs : List Char} :
    w.IsSpelling cs ↔ cs = w.text.toList := by
  unfold IsSpelling
  split
  · exact absurd ‹_› h
  · rfl

namespace Lexer

/-! ## Lexemes -/

/-- What ends a run of word characters: no word character, and after digits no
point that has a digit behind it. -/
structure Ends (cs rest : List Char) : Prop where
  word : ∀ c ∈ rest.head?, isWordChar c = false
  point : (∀ c ∈ cs, Unicode.isDigit c = true) → ∀ d after, rest = '.' :: d :: after →
    Unicode.isDigit d = false

/-- What may stand behind a word. -/
def EndsBefore (w : Word) (rest : List Char) : Prop :=
  w.kind = .number ∨ w.kind = .symbol → Ends w.text.toList rest

/-- The word that a run of word characters is. -/
def runWord (cs : List Char) : Word := ⟨wordKind (String.ofList cs), String.ofList cs⟩

/-- The text of a run is its characters. -/
@[simp] theorem toList_runWord (cs : List Char) : (runWord cs).text.toList = cs :=
  String.toList_ofList

/-- Characters that are a word together. -/
inductive Lexeme : Word → List Char → Prop
  | quoted {quote : Char} {body : List Char} (hquote : IsQuote quote) (hbody : quote ∉ body) :
      Lexeme ⟨.string, String.ofList body⟩ (quote :: body ++ [quote])
  | run {cs : List Char} (hne : cs ≠ []) (hword : ∀ c ∈ cs, isWordChar c = true) :
      Lexeme (runWord cs) cs
  | decimal {whole places : List Char} (hne : whole ≠ [])
      (hwhole : ∀ c ∈ whole, Unicode.isDigit c = true)
      (hplace : places.head?.any Unicode.isDigit = true)
      (hplaces : ∀ c ∈ places, isWordChar c = true) :
      Lexeme (runWord (whole ++ '.' :: places)) (whole ++ '.' :: places)
  | structural {c : Char} {kind : TokenKind} (h : TokenKind.ofStructural? c = some kind) :
      Lexeme ⟨kind, String.singleton c⟩ [c]

/-- A character that begins neither a word nor white space. -/
inductive Stuck (position : Nat) : List Char → LexError → Prop
  | unterminated {quote : Char} {cs : List Char} (hquote : IsQuote quote) (hcs : quote ∉ cs) :
      Stuck position (quote :: cs) (.unterminated position)
  | unrecognized {c : Char} {cs : List Char} (hspace : Unicode.isSpace c = false)
      (hword : isWordChar c = false) (hquote : ¬IsQuote c)
      (hstructural : TokenKind.ofStructural? c = none) :
      Stuck position (c :: cs) (.unrecognized c position)

/-- The characters in front of others are passed, from a position on, and
give words. -/
inductive Scans (rest : List Char) : Nat → List Char → List Token → Prop
  | done (n : Nat) : Scans rest n [] []
  | blank {n : Nat} {c : Char} {cs : List Char} {ts : List Token}
      (hc : Unicode.isSpace c = true) (h : Scans rest (n + 1) cs ts) : Scans rest n (c :: cs) ts
  | word {n : Nat} {w : Word} {l cs : List Char} {ts : List Token} (hw : Lexeme w l)
      (hends : EndsBefore w (cs ++ rest)) (h : Scans rest (n + l.length) cs ts) :
      Scans rest n (l ++ cs) (⟨w.kind, w.text, n⟩ :: ts)

/-! ### Characters -/

/-- A digit is a word character. -/
theorem isWordChar_of_isDigit {c : Char} (h : Unicode.isDigit c = true) : isWordChar c = true := by
  simp [isWordChar, Unicode.isWord_of_isDigit h]

/-- White space is no word character. -/
theorem isWordChar_of_isSpace {c : Char} (h : Unicode.isSpace c = true) :
    isWordChar c = false := by
  have hsharp : c ≠ '#' := by
    rintro rfl
    exact absurd h (by decide)
  simp [isWordChar, Unicode.isWord_of_isSpace h, hsharp]

/-- A word character is no white space. -/
theorem isSpace_of_isWordChar {c : Char} (h : isWordChar c = true) :
    Unicode.isSpace c = false := by
  cases hspace : Unicode.isSpace c with
  | false => rfl
  | true => exact absurd h (by simp [isWordChar_of_isSpace hspace])

/-- A word character is no quote. -/
theorem not_isQuote_of_isWordChar {c : Char} (h : isWordChar c = true) : ¬IsQuote c := by
  rintro (rfl | rfl) <;> exact absurd h (by decide)

/-- A quote is no white space. -/
theorem isSpace_of_isQuote {c : Char} (h : IsQuote c) : Unicode.isSpace c = false := by
  obtain rfl | rfl := h <;> decide

theorem isQuote_iff {c : Char} : (c == '"' || c == '\'') = true ↔ IsQuote c := by
  simp [IsQuote]

/-- A run of word characters is a number or a name. -/
theorem kind_runWord (cs : List Char) :
    (runWord cs).kind = .number ∨ (runWord cs).kind = .symbol := by
  simp only [runWord, wordKind]
  split
  · exact .inl rfl
  · exact .inr rfl

/-- What ends the word of a run ends the run. -/
theorem Ends.of_runWord {cs rest : List Char} (h : EndsBefore (runWord cs) rest) :
    Ends cs rest := by
  have hends := h (kind_runWord cs)
  rwa [toList_runWord] at hends

/-- What ends a run ends its word. -/
theorem Ends.runWord {cs rest : List Char} (h : Ends cs rest) : EndsBefore (runWord cs) rest := by
  intro _
  rwa [toList_runWord]

/-- The kind of a structural character is neither of the two. -/
theorem kind_of_ofStructural? {c : Char} {kind : TokenKind}
    (h : TokenKind.ofStructural? c = some kind) : ¬(kind = .number ∨ kind = .symbol) := by
  unfold TokenKind.ofStructural? at h
  split at h <;> first
    | (obtain rfl := Option.some.inj h; decide)
    | exact absurd h (Option.some_ne_none kind).symm

/-! ### Spellings -/

/-- No lexeme is empty. -/
theorem Lexeme.ne_nil {w : Word} {l : List Char} (h : Lexeme w l) : l ≠ [] := by
  cases h <;> simp_all

/-- No lexeme begins with white space. -/
theorem Lexeme.isSpace_head {w : Word} {c : Char} {cs : List Char} (h : Lexeme w (c :: cs)) :
    Unicode.isSpace c = false := by
  generalize hl : c :: cs = l at h
  cases h with
  | quoted hquote =>
    obtain ⟨rfl, -⟩ := List.cons.inj hl
    exact isSpace_of_isQuote hquote
  | run hne hword =>
    obtain rfl := hl
    exact isSpace_of_isWordChar (hword c List.mem_cons_self)
  | @decimal whole places hne hwhole =>
    obtain ⟨d, ds, rfl⟩ := List.exists_cons_of_ne_nil hne
    obtain ⟨rfl, -⟩ := List.cons.inj hl
    exact isSpace_of_isWordChar (isWordChar_of_isDigit (hwhole c List.mem_cons_self))
  | structural hkind =>
    obtain ⟨rfl, -⟩ := List.cons.inj hl
    exact (Word.of_ofStructural? hkind).2.2.1

/-- A lexeme spells its word. -/
theorem Lexeme.isSpelling {w : Word} {l : List Char} (h : Lexeme w l) : w.IsSpelling l := by
  have hrun : ∀ cs, (runWord cs).IsSpelling cs := by
    intro cs
    refine (Word.isSpelling_of_ne fun hstring => ?_).mpr (toList_runWord cs).symm
    obtain hkind | hkind := kind_runWord cs <;> simp [hkind] at hstring
  cases h with
  | quoted hquote hbody => exact ⟨_, hquote, by simpa using hbody, by simp⟩
  | run => exact hrun _
  | decimal => exact hrun _
  | structural hkind =>
    exact (Word.isSpelling_of_ne (Word.of_ofStructural? hkind).2.2.2).mpr (by simp)

/-- Quoted text may stand between either quote that it lacks. -/
theorem Lexeme.respelled {w : Word} {l l' : List Char} (h : Lexeme w l) (hl : w.IsSpelling l') :
    Lexeme w l' := by
  by_cases hstring : w.kind = .string
  · rcases w with ⟨kind, text⟩
    obtain rfl : kind = .string := hstring
    obtain ⟨quote, hquote, hbody, rfl⟩ := hl
    have hlexeme := Lexeme.quoted hquote hbody
    rwa [String.ofList_toList] at hlexeme
  · have hspelled := (Word.isSpelling_of_ne hstring).mp h.isSpelling
    rwa [(Word.isSpelling_of_ne hstring).mp hl, ← hspelled]

/-! ### Ends -/

/-- Nothing comes first, or white space. -/
def StartsBlank (cs : List Char) : Prop := ∀ c ∈ cs.head?, Unicode.isSpace c = true

theorem startsBlank_nil : StartsBlank [] := fun _ h => absurd h (Option.not_mem_none _)

theorem startsBlank_cons {c : Char} {cs : List Char} (h : Unicode.isSpace c = true) :
    StartsBlank (c :: cs) := fun _ hd => Option.mem_some_iff.mp hd ▸ h

/-- Nothing comes first, or a character that belongs to no run of word characters,
nor to a point between digits. -/
def StartsApart (cs : List Char) : Prop := ∀ c ∈ cs.head?, isWordChar c = false ∧ c ≠ '.'

/-- White space stands apart from what is before it. -/
theorem StartsBlank.apart {cs : List Char} (h : StartsBlank cs) : StartsApart cs := by
  refine fun c hc => ⟨isWordChar_of_isSpace (h c hc), ?_⟩
  rintro rfl
  exact absurd (h '.' hc) (by decide)

/-- Such a character ends a run wherever it comes, since neither a word character nor
a digit behind a point is lost. -/
theorem Ends.apart {cs mid rest rest' : List Char} (h : Ends cs (mid ++ rest))
    (hrest : StartsApart rest') : Ends cs (mid ++ rest') := by
  cases mid with
  | nil =>
    refine ⟨fun c hc => (hrest c hc).1, fun _ d after hpoint => ?_⟩
    exact absurd rfl (hrest '.' (by simp_all)).2
  | cons c mid =>
    refine ⟨h.word, fun hdigits d after hpoint => ?_⟩
    cases mid with
    | nil =>
      have hword := (hrest d (by simp_all)).1
      cases hdigit : Unicode.isDigit d with
      | false => rfl
      | true => exact absurd (hword.symm.trans (isWordChar_of_isDigit hdigit)) Bool.false_ne_true
    | cons e mid =>
      simp only [List.cons_append, List.cons.injEq] at hpoint
      obtain ⟨rfl, rfl, -⟩ := hpoint
      exact h.point hdigits e (mid ++ rest) rfl

/-- White space ends a run. -/
theorem ends_blank {cs rest : List Char} (h : StartsBlank rest) : Ends cs rest := by
  have hnil : Ends cs ([] ++ []) := ⟨by simp, by simp⟩
  exact hnil.apart h.apart

/-- What ends a word in front of some characters does so in front of others that
stand apart. -/
theorem EndsBefore.apart {w : Word} {mid rest rest' : List Char} (h : EndsBefore w (mid ++ rest))
    (hrest : StartsApart rest') : EndsBefore w (mid ++ rest') :=
  fun hkind => (h hkind).apart hrest

/-- What was passed is passed also before a character that belongs to no run. -/
theorem Scans.apart_end {n : Nat} {cs rest rest' : List Char} {ts : List Token}
    (h : Scans rest n cs ts) (hrest : StartsApart rest') : Scans rest' n cs ts := by
  induction h with
  | done n => exact .done n
  | blank hc _ ih => exact .blank hc ih
  | word hw hends _ ih => exact .word hw (hends.apart hrest) ih

/-- What was passed is passed also before white space, and at the end. -/
theorem Scans.blank_end {n : Nat} {cs rest rest' : List Char} {ts : List Token}
    (h : Scans rest n cs ts) (hrest : StartsBlank rest') : Scans rest' n cs ts :=
  h.apart_end hrest.apart

/-- White space is passed and gives no words. -/
theorem scans_blank {n : Nat} {cs rest : List Char} (h : ∀ c ∈ cs, Unicode.isSpace c = true) :
    Scans rest n cs [] := by
  induction cs generalizing n with
  | nil => exact .done n
  | cons c cs ih =>
    exact .blank (h c List.mem_cons_self) (ih fun d hd => h d (List.mem_cons_of_mem c hd))

/-- What is passed in two parts is passed together. -/
theorem Scans.append {n : Nat} {cs ds rest : List Char} {ts us : List Token}
    (h : Scans (ds ++ rest) n cs ts) (h' : Scans rest (n + cs.length) ds us) :
    Scans rest n (cs ++ ds) (ts ++ us) := by
  induction h with
  | done n => exact h'
  | blank hc _ ih =>
    refine .blank hc (ih ?_)
    rwa [Nat.add_right_comm, Nat.add_assoc]
  | @word n w l cs ts hw hends _ ih =>
    rw [List.append_assoc]
    refine .word hw (by rwa [List.append_assoc]) (ih ?_)
    rwa [List.length_append, ← Nat.add_assoc] at h'

/-- Each word that was passed has a lexeme. -/
theorem Scans.lexeme {n : Nat} {cs rest : List Char} {ts : List Token} (h : Scans rest n cs ts) :
    ∀ t ∈ ts, ∃ l, Lexeme t.word l := by
  induction h with
  | done n => simp
  | blank hc _ ih => exact ih
  | word hw hends _ ih =>
    rintro t (_ | ⟨_, ht⟩)
    · exact ⟨_, hw⟩
    · exact ih t ht

/-- Lexemes with single spaces between them are passed one by one. -/
theorem scans_spaced {ws : List Word} {ls : List (List Char)} (h : List.Forall₂ Lexeme ws ls)
    (n : Nat) : ∃ ts, Scans [] n ([' '].intercalate ls) ts ∧ ts.map Token.word = ws := by
  induction h generalizing n with
  | nil => exact ⟨[], .done n, rfl⟩
  | @cons w l ws ls hw hrest ih =>
    cases ls with
    | nil =>
      cases hrest
      have hlast := Scans.word hw (fun _ => ends_blank startsBlank_nil) (.done (n + l.length))
      rw [List.append_nil] at hlast
      rw [List.intercalate_singleton]
      exact ⟨_, hlast, rfl⟩
    | cons l' ls =>
      obtain ⟨ts, hscans, hwords⟩ := ih (n + l.length + 1)
      rw [List.intercalate_cons_cons, List.append_assoc, List.singleton_append]
      have hspace : Unicode.isSpace ' ' = true := by decide
      refine ⟨_, .word hw (fun _ => ?_) (.blank hspace hscans), ?_⟩
      · exact ends_blank (startsBlank_cons hspace)
      · rw [List.map_cons, hwords]
        rfl

/-! ## Pieces -/

/-- A run goes as far as its characters do, where no such character follows. -/
theorem takeWhile_run {p : Char → Bool} {cs rest : List Char} (hcs : ∀ c ∈ cs, p c = true)
    (hrest : ∀ c ∈ rest.head?, p c = false) : (cs ++ rest).takeWhile p = cs := by
  rw [List.takeWhile_append_of_pos hcs]
  cases rest with
  | nil => simp
  | cons c rest => simp [hrest c rfl]

/-- What is left behind a run is what follows it. -/
theorem dropWhile_run {p : Char → Bool} {cs rest : List Char} (hcs : ∀ c ∈ cs, p c = true)
    (hrest : ∀ c ∈ rest.head?, p c = false) : (cs ++ rest).dropWhile p = rest := by
  rw [List.dropWhile_append_of_pos hcs]
  cases rest with
  | nil => rfl
  | cons c rest => simp [hrest c rfl]

/-- Of a run of word characters the digits may be taken first. -/
theorem takeWhile_isDigit (cs : List Char) :
    cs.takeWhile Unicode.isDigit ++ (cs.dropWhile Unicode.isDigit).takeWhile isWordChar =
      cs.takeWhile isWordChar := by
  induction cs with
  | nil => rfl
  | cons c cs ih =>
    cases hdigit : Unicode.isDigit c with
    | false => simp [hdigit]
    | true => simp [hdigit, isWordChar_of_isDigit hdigit, ih]

/-- Dropping digits first makes no difference to dropping word characters. -/
theorem dropWhile_isDigit (cs : List Char) :
    (cs.dropWhile Unicode.isDigit).dropWhile isWordChar = cs.dropWhile isWordChar := by
  induction cs with
  | nil => rfl
  | cons c cs ih =>
    cases hdigit : Unicode.isDigit c with
    | false => simp [hdigit]
    | true => simp [hdigit, isWordChar_of_isDigit hdigit, ih]

/-- Behind a run of digits that ends there is no digit. -/
theorem not_isDigit_of_ends {cs rest : List Char} (h : Ends cs rest) :
    ∀ c ∈ rest.head?, Unicode.isDigit c = false := by
  intro c hc
  cases hdigit : Unicode.isDigit c with
  | false => rfl
  | true => exact absurd (isWordChar_of_isDigit hdigit) (by simp [h.word c hc])

/-- A run of word characters holds no decimal point. -/
theorem decimalPart_run {cs rest : List Char} (hcs : ∀ c ∈ cs, isWordChar c = true)
    (hends : Ends cs rest) : decimalPart (cs ++ rest) = ([], cs ++ rest) := by
  have hpoint : ∀ after, (cs ++ rest).dropWhile Unicode.isDigit = '.' :: after →
      after.head?.any Unicode.isDigit = false := by
    intro after hafter
    rw [List.dropWhile_append] at hafter
    split at hafter
    · rename_i hempty
      have hdigits : ∀ c ∈ cs, Unicode.isDigit c = true := by simpa using hempty
      have hrest : rest = '.' :: after := by
        have hdrop := dropWhile_run (List.forall_mem_nil fun c => Unicode.isDigit c = true)
          (not_isDigit_of_ends hends)
        rw [← hafter]
        exact hdrop.symm
      cases after with
      | nil => rfl
      | cons d after => simp [hends.point hdigits d after hrest]
    · -- what the digits leave of the run begins with a word character
      rename_i hleft
      cases hdrop : cs.dropWhile Unicode.isDigit with
      | nil => exact absurd (by simp [hdrop]) hleft
      | cons c left =>
        have hmem : c ∈ cs := (List.dropWhile_sublist Unicode.isDigit).subset (by simp [hdrop])
        rw [hdrop] at hafter
        obtain ⟨rfl, -⟩ := List.cons.inj hafter
        exact absurd (hcs '.' hmem) (by decide)
  unfold decimalPart
  split
  · rename_i after hafter
    simp [hpoint after hafter]
  · rfl

/-- Digits, a point and a digit begin a decimal, which goes on as far as there are
digits. -/
theorem decimalPart_decimal {whole tail : List Char} (hne : whole ≠ [])
    (hwhole : ∀ c ∈ whole, Unicode.isDigit c = true)
    (htail : tail.head?.any Unicode.isDigit = true) :
    decimalPart (whole ++ '.' :: tail) =
      (whole ++ '.' :: tail.takeWhile Unicode.isDigit, tail.dropWhile Unicode.isDigit) := by
  have hpoint : ∀ c ∈ ('.' :: tail).head?, Unicode.isDigit c = false := by
    rintro c ⟨⟩
    decide
  have hhead : (whole ++ '.' :: tail).head?.any Unicode.isDigit = true := by
    cases whole with
    | nil => exact absurd rfl hne
    | cons c cs => simp [hwhole c List.mem_cons_self]
  simp only [decimalPart, takeWhile_run hwhole hpoint, dropWhile_run hwhole hpoint, hhead, htail,
    Bool.and_self, if_true]

/-- A run of word characters is the piece in front. -/
theorem wordPiece_run {cs rest : List Char} (hcs : ∀ c ∈ cs, isWordChar c = true)
    (hends : Ends cs rest) :
    wordPiece (cs ++ rest) =
      ⟨some ((runWord cs).kind, (runWord cs).text), cs.length, rest⟩ := by
  simp [wordPiece, runWord, decimalPart_run hcs hends, takeWhile_run hcs hends.word,
    dropWhile_run hcs hends.word]

/-- A number with a point in it is the piece in front. -/
theorem wordPiece_decimal {whole places rest : List Char} (hne : whole ≠ [])
    (hwhole : ∀ c ∈ whole, Unicode.isDigit c = true)
    (hplace : places.head?.any Unicode.isDigit = true)
    (hplaces : ∀ c ∈ places, isWordChar c = true)
    (hends : Ends (whole ++ '.' :: places) rest) :
    wordPiece (whole ++ '.' :: places ++ rest) =
      ⟨some ((runWord (whole ++ '.' :: places)).kind, (runWord (whole ++ '.' :: places)).text),
        (whole ++ '.' :: places).length, rest⟩ := by
  have hhead : (places ++ rest).head?.any Unicode.isDigit = true := by
    cases places with
    | nil => exact absurd hplace (by simp)
    | cons c cs => simpa using hplace
  have htaken : (places ++ rest).takeWhile Unicode.isDigit ++
      ((places ++ rest).dropWhile Unicode.isDigit).takeWhile isWordChar = places := by
    rw [takeWhile_isDigit, takeWhile_run hplaces hends.word]
  have hleft : ((places ++ rest).dropWhile Unicode.isDigit).dropWhile isWordChar = rest := by
    rw [dropWhile_isDigit, dropWhile_run hplaces hends.word]
  have hchars : whole ++ '.' :: (places ++ rest).takeWhile Unicode.isDigit ++
      ((places ++ rest).dropWhile Unicode.isDigit).takeWhile isWordChar =
        whole ++ '.' :: places := by
    rw [List.append_assoc, List.cons_append, htaken]
  rw [List.append_assoc, List.cons_append]
  simp only [wordPiece, runWord, decimalPart_decimal hne hwhole hhead, hchars, hleft]

/-- A word character begins a run. -/
theorem piece_of_isWordChar {n : Nat} {c : Char} {cs : List Char} (h : isWordChar c = true) :
    piece n c cs = .ok (wordPiece (c :: cs)) := by
  have hquote : ¬(c == '"' || c == '\'') = true :=
    mt isQuote_iff.mp (not_isQuote_of_isWordChar h)
  simp only [piece, if_neg hquote, if_pos h]

/-- Characters other than a quote are passed on the way to it. -/
theorem bne_of_not_mem {quote : Char} {cs : List Char} (h : quote ∉ cs) :
    ∀ c ∈ cs, (c != quote) = true := by
  intro c hc
  rw [bne_iff_ne]
  rintro rfl
  exact h hc

/-- Text between quotes that it lacks is a piece. -/
theorem piece_quoted {n : Nat} {quote : Char} (hquote : IsQuote quote) {body rest : List Char}
    (hbody : quote ∉ body) :
    piece n quote (body ++ [quote] ++ rest) =
      .ok ⟨some (.string, String.ofList body), body.length + 2, rest⟩ := by
  have hothers := bne_of_not_mem hbody
  have hself : ∀ c ∈ (quote :: rest).head?, (c != quote) = false := by
    rintro c ⟨⟩
    simp
  rw [List.append_assoc, List.singleton_append]
  simp [piece, isQuote_iff.mpr hquote, quotedPiece?, takeWhile_run hothers hself,
    dropWhile_run hothers hself]

/-- A structural character is a piece by itself. -/
theorem piece_structural {n : Nat} {c : Char} {kind : TokenKind}
    (h : TokenKind.ofStructural? c = some kind) (rest : List Char) :
    piece n c rest = .ok ⟨some (kind, String.singleton c), 1, rest⟩ := by
  obtain ⟨hquote, hword, -, -⟩ := Word.of_ofStructural? h
  simp [piece, hquote, hword, h]

/-- White space is a piece without a word. -/
theorem piece_blank {n : Nat} {c : Char} {cs : List Char} (hc : Unicode.isSpace c = true) :
    piece n c cs =
      .ok ⟨none, 1 + (cs.takeWhile Unicode.isSpace).length, cs.dropWhile Unicode.isSpace⟩ := by
  have hquote : ¬(c == '"' || c == '\'') = true := by
    rw [isQuote_iff]
    intro hquote
    exact absurd hc (by simp [isSpace_of_isQuote hquote])
  have hstructural : TokenKind.ofStructural? c = none := by
    cases hkind : TokenKind.ofStructural? c with
    | none => rfl
    | some kind => exact absurd hc (by simp [(Word.of_ofStructural? hkind).2.2.1])
  simp only [piece, if_neg hquote, isWordChar_of_isSpace hc, hstructural, hc,
    if_neg Bool.false_ne_true, if_true]

/-- A lexeme that does not go on is the piece in front. -/
theorem Lexeme.piece {w : Word} {l : List Char} (hw : Lexeme w l) {rest : List Char}
    (hends : EndsBefore w rest) {n : Nat} {c : Char} {cs : List Char} (hl : l = c :: cs) :
    piece n c (cs ++ rest) = .ok ⟨some (w.kind, w.text), l.length, rest⟩ := by
  cases hw with
  | @quoted quote body hquote hbody =>
    obtain ⟨rfl, rfl⟩ := List.cons.inj hl
    exact (piece_quoted hquote hbody).trans (by simp)
  | run hne hword =>
    have hrun := wordPiece_run hword (.of_runWord hends)
    obtain rfl := hl
    rw [piece_of_isWordChar (hword c List.mem_cons_self), ← List.cons_append, hrun]
  | @decimal whole places hne hwhole hplace hplaces =>
    -- it begins with a digit, which is a word character, so it is read as a run
    have hdecimal := wordPiece_decimal hne hwhole hplace hplaces (.of_runWord hends)
    have hc : c ∈ whole := by
      cases whole with
      | nil => exact absurd rfl hne
      | cons d ds => exact (List.cons.inj hl).1 ▸ List.mem_cons_self
    rw [piece_of_isWordChar (isWordChar_of_isDigit (hwhole c hc)), ← List.cons_append, ← hl,
      hdecimal]
  | structural hkind =>
    obtain ⟨rfl, rfl⟩ := List.cons.inj hl
    exact piece_structural hkind rest

/-- No piece begins where splitting is stuck. -/
theorem Stuck.piece {n : Nat} {c : Char} {cs : List Char} {e : LexError}
    (h : Stuck n (c :: cs) e) : piece n c cs = .error e := by
  cases h with
  | unterminated hquote hcs =>
    have hothers : cs.dropWhile (· != c) = [] :=
      List.dropWhile_eq_nil_iff.mpr (bne_of_not_mem hcs)
    simp [Lexer.piece, isQuote_iff.mpr hquote, quotedPiece?, hothers]
  | unrecognized hspace hword hquote hstructural =>
    have hquote : ¬(c == '"' || c == '\'') = true := mt isQuote_iff.mp hquote
    simp only [Lexer.piece, if_neg hquote, hword, hstructural, hspace, if_neg Bool.false_ne_true]

/-! ## Splitting -/

/-- What splitting gives, for any bound on the pieces that the characters
allow. -/
def Yields (position : Nat) (cs : List Char) (outcome : Except LexError (List Token)) : Prop :=
  ∀ left, cs.length ≤ left → tokensFrom left position cs = outcome

theorem yields_nil (n : Nat) : Yields n [] (.ok []) := by
  intro left _
  cases left <;> rfl

/-- Splitting goes on behind white space. -/
theorem tokensFrom_blank {left n : Nat} {c : Char} {cs : List Char}
    (hc : Unicode.isSpace c = true) :
    tokensFrom (left + 1) n (c :: cs) =
      tokensFrom left (n + 1 + (cs.takeWhile Unicode.isSpace).length)
        (cs.dropWhile Unicode.isSpace) := by
  rw [tokensFrom, piece_blank hc, Nat.add_assoc]
  simp only [bind, Except.bind]
  split <;> simp_all

/-- White space is dropped one character at a time as well as at once. -/
theorem Yields.blank {n : Nat} {c : Char} {cs : List Char}
    {outcome : Except LexError (List Token)} (hc : Unicode.isSpace c = true)
    (h : Yields (n + 1) cs outcome) : Yields n (c :: cs) outcome := by
  intro left hleft
  cases left with
  | zero => exact absurd hleft (by simp)
  | succ left =>
    rw [List.length_cons, Nat.add_le_add_iff_right] at hleft
    rw [tokensFrom_blank hc]
    cases cs with
    | nil => exact h left hleft
    | cons d cs =>
      cases hd : Unicode.isSpace d with
      | false => simpa [hd] using h left hleft
      | true =>
        -- both times what is left is what stands behind the whole run of white space
        have hplace : n + 1 + ((cs.takeWhile Unicode.isSpace).length + 1) =
            n + 1 + 1 + (cs.takeWhile Unicode.isSpace).length := by omega
        rw [← h (left + 1) (Nat.le_succ_of_le hleft), tokensFrom_blank hd]
        simp [hd, hplace]

/-- Splitting gives a lexeme that ends where it should, and goes on behind it. -/
theorem Yields.word {n : Nat} {w : Word} {l rest : List Char} (hw : Lexeme w l)
    (hends : EndsBefore w rest) {outcome : Except LexError (List Token)}
    (h : Yields (n + l.length) rest outcome) :
    Yields n (l ++ rest) (outcome.map (⟨w.kind, w.text, n⟩ :: ·)) := by
  intro left hleft
  cases hl : l with
  | nil => exact absurd hl hw.ne_nil
  | cons c cs =>
    cases left with
    | zero => exact absurd hleft (by simp [hl])
    | succ left =>
      have hlength : rest.length ≤ left := by
        simp only [hl, List.cons_append, List.length_cons, List.length_append] at hleft
        omega
      rw [List.cons_append, tokensFrom, hw.piece hends hl]
      simp only [bind, Except.bind, h left hlength]
      cases outcome <;> rfl

/-- Splitting fails where there is no passing. -/
theorem Stuck.yields {n : Nat} {rest : List Char} {e : LexError} (h : Stuck n rest e) :
    Yields n rest (.error e) := by
  intro left hleft
  cases rest with
  | nil => nomatch h
  | cons c cs =>
    cases left with
    | zero => exact absurd hleft (by simp)
    | succ left => simp [tokensFrom, h.piece, bind, Except.bind]

/-- Splitting goes on with what is not yet passed. -/
theorem Scans.yields {n : Nat} {cs rest : List Char} {ts : List Token} (h : Scans rest n cs ts)
    {outcome : Except LexError (List Token)} (hrest : Yields (n + cs.length) rest outcome) :
    Yields n (cs ++ rest) (outcome.map (ts ++ ·)) := by
  induction h with
  | done n => cases outcome <;> exact hrest
  | blank hc _ ih =>
    refine .blank hc (ih ?_)
    rwa [Nat.add_right_comm, Nat.add_assoc]
  | @word n w l cs ts hw hends _ ih =>
    have hword := Yields.word hw hends (n := n) <| ih <| by
      rwa [List.length_append, ← Nat.add_assoc] at hrest
    rw [List.append_assoc]
    cases outcome <;> exact hword

/-! ### Progress -/

/-- Dropping word characters stops in front of something else. -/
theorem isWordChar_head_dropWhile (cs : List Char) :
    ∀ c ∈ (cs.dropWhile isWordChar).head?, isWordChar c = false := by
  intro c hc
  have hnot := List.head?_dropWhile_not isWordChar cs
  rw [Option.mem_def.mp hc] at hnot
  exact hnot

/-- A word character begins a number or a name. -/
theorem lexeme_of_isWordChar {c : Char} (hc : isWordChar c = true) (cs : List Char) :
    ∃ w l rest, c :: cs = l ++ rest ∧ Lexeme w l ∧ EndsBefore w rest := by
  have hsplit := (List.takeWhile_append_dropWhile (p := isWordChar) (l := c :: cs)).symm
  have hstop := isWordChar_head_dropWhile (c :: cs)
  have hword : ∀ d ∈ (c :: cs).takeWhile isWordChar, isWordChar d = true :=
    fun d hd => List.mem_takeWhile_imp hd
  have hne : (c :: cs).takeWhile isWordChar ≠ [] := by simp [hc]
  generalize (c :: cs).takeWhile isWordChar = run at hsplit hword hne
  generalize (c :: cs).dropWhile isWordChar = left at hsplit hstop
  -- the run goes on behind a point only between digits
  by_cases hpoint : (∀ d ∈ run, Unicode.isDigit d = true) ∧
      ∃ d after, left = '.' :: d :: after ∧ Unicode.isDigit d = true
  · obtain ⟨hdigits, d, after, rfl, hd⟩ := hpoint
    have hplaces : ∀ e ∈ (d :: after).takeWhile isWordChar, isWordChar e = true :=
      fun e he => List.mem_takeWhile_imp he
    have hplace : ((d :: after).takeWhile isWordChar).head?.any Unicode.isDigit = true := by
      simp [isWordChar_of_isDigit hd, hd]
    have hends : Ends (run ++ '.' :: (d :: after).takeWhile isWordChar)
        ((d :: after).dropWhile isWordChar) := by
      refine ⟨isWordChar_head_dropWhile _, fun hall => ?_⟩
      have hself := hall '.' (by simp)
      exact absurd hself (by decide)
    refine ⟨_, _, _, ?_, .decimal hne hdigits hplace hplaces, hends.runWord⟩
    rw [hsplit, List.append_assoc, List.cons_append, List.takeWhile_append_dropWhile]
  · have hends : Ends run left := by
      refine ⟨hstop, fun hdigits d after hleft => ?_⟩
      cases hd : Unicode.isDigit d with
      | false => rfl
      | true => exact absurd ⟨hdigits, d, after, hleft, hd⟩ hpoint
    exact ⟨_, run, left, hsplit, .run hne hword, hends.runWord⟩

/-- A character that is not white space begins a word, or splitting is stuck. -/
theorem lexeme_or_stuck (n : Nat) {c : Char} (hc : Unicode.isSpace c = false) (cs : List Char) :
    (∃ w l rest, c :: cs = l ++ rest ∧ Lexeme w l ∧ EndsBefore w rest) ∨
      ∃ e, Stuck n (c :: cs) e := by
  by_cases hquote : IsQuote c
  · by_cases hmem : c ∈ cs
    · obtain ⟨body, rest, rfl, hbody⟩ := List.eq_append_cons_of_mem hmem
      exact .inl ⟨_, c :: body ++ [c], rest, by simp, .quoted hquote hbody, by simp [EndsBefore]⟩
    · exact .inr ⟨_, .unterminated hquote hmem⟩
  cases hword : isWordChar c with
  | true => exact .inl (lexeme_of_isWordChar hword cs)
  | false =>
    cases hkind : TokenKind.ofStructural? c with
    | none => exact .inr ⟨_, .unrecognized hc hword hquote hkind⟩
    | some kind =>
      exact .inl ⟨_, [c], cs, rfl, .structural hkind,
        fun hrun => absurd hrun (kind_of_ofStructural? hkind)⟩

/-- Splitting passes words and white space up to the end, or to where it is
stuck. -/
theorem exists_scans (n : Nat) (cs : List Char) :
    ∃ l rest ts, cs = l ++ rest ∧ Scans rest n l ts ∧
      (rest = [] ∨ ∃ e, Stuck (n + l.length) rest e) := by
  induction hlength : cs.length using Nat.strong_induction_on generalizing n cs with
  | _ length ih =>
    cases cs with
    | nil => exact ⟨[], [], [], rfl, .done n, .inl rfl⟩
    | cons c cs =>
      subst hlength
      cases hc : Unicode.isSpace c with
      | true =>
        obtain ⟨l, rest, ts, rfl, hscans, hrest⟩ := ih cs.length (by simp) (n + 1) cs rfl
        refine ⟨c :: l, rest, ts, rfl, .blank hc hscans, hrest.imp_right ?_⟩
        rw [List.length_cons, Nat.add_right_comm, Nat.add_assoc]
        exact id
      | false =>
        obtain ⟨w, l, tail, hsplit, hlexeme, hends⟩ | hstuck := lexeme_or_stuck n hc cs
        · -- a lexeme has a character, so there is less to pass behind it
          rw [hsplit] at ih ⊢
          have hshorter : tail.length < (l ++ tail).length := by
            have hpos := List.length_pos_iff.mpr hlexeme.ne_nil
            rw [List.length_append]
            omega
          obtain ⟨l', rest, ts, rfl, hscans, hrest⟩ :=
            ih tail.length hshorter (n + l.length) tail rfl
          refine ⟨l ++ l', rest, _, (List.append_assoc ..).symm, .word hlexeme hends hscans, ?_⟩
          rwa [List.length_append, ← Nat.add_assoc]
        · exact ⟨[], c :: cs, [], rfl, .done n, .inr hstuck⟩

/-- A text gives the words of the characters that are passed, and then what the
others give. -/
theorem Scans.tokenize {l rest : List Char} {ts : List Token} (h : Scans rest 0 l ts)
    {outcome : Except LexError (List Token)} (hrest : Yields l.length rest outcome)
    {text : String} (htext : text.toList = l ++ rest) :
    tokenize text = outcome.map (ts ++ ·) := by
  have hall := h.yields (by rwa [Nat.zero_add])
  rw [Ostinato.tokenize, htext]
  exact hall _ (le_refl _)

/-- A text that is passed to its end is split into the words passed. -/
theorem Scans.tokenize_ok {text : String} {ts : List Token} (h : Scans [] 0 text.toList ts) :
    Ostinato.tokenize text = .ok ts := by
  have hall : Ostinato.tokenize text = _ := h.tokenize (yields_nil _) (List.append_nil _).symm
  simpa [Except.map] using hall

/-- Splitting passes a text to its end, or up to where it is stuck. -/
theorem tokenize_outcome (text : String) :
    ∃ l rest ts, text.toList = l ++ rest ∧ Scans rest 0 l ts ∧
      (rest = [] ∧ tokenize text = .ok ts ∨
        ∃ e, Stuck l.length rest e ∧ tokenize text = .error e) := by
  obtain ⟨l, rest, ts, htext, hscans, hrest⟩ := exists_scans 0 text.toList
  refine ⟨l, rest, ts, htext, hscans, ?_⟩
  obtain rfl | ⟨e, he⟩ := hrest
  · rw [List.append_nil] at htext
    exact .inl ⟨rfl, (htext ▸ hscans).tokenize_ok⟩
  · rw [Nat.zero_add] at he
    exact .inr ⟨e, he, hscans.tokenize he.yields htext⟩

/-- A text that was split was passed to its end. -/
theorem scans_of_tokenize {text : String} {ts : List Token} (h : tokenize text = .ok ts) :
    Scans [] 0 text.toList ts := by
  obtain ⟨l, rest, us, htext, hscans, ⟨rfl, hus⟩ | ⟨e, -, he⟩⟩ := tokenize_outcome text
  · rw [h] at hus
    obtain rfl := Except.ok.inj hus
    rwa [htext, List.append_nil]
  · rw [h] at he
    exact absurd he (by simp)

end Lexer

end Ostinato
