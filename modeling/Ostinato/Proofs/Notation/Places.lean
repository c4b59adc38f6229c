import Ostinato.Proofs.Notation.Lexemes

/-!
# Ostinato.Proofs.Notation.Places

Where the words of a text are.

1. Behind each other, the words of a text and the white space around them are
   the text, as far as it can be split (`tokenize_covers`).
2. Splitting begins anew after white space (`tokenize_append`).
-/

namespace Ostinato

/-! ## Places of words -/

/-- How many characters a word takes up, its quotes included. -/
def Token.size (t : Token) : Nat :=
  match t.kind with
  | .string => t.text.length + 2
  | _ => t.text.length

/-- The place behind a word. -/
def Token.stop (t : Token) : Int := t.position + t.size

/-- Where a word lies in a text whose first character is at a position: its
characters begin at its place and spell it, and a run of word characters does
not go on behind them. -/
def Token.LiesIn (t : Token) (start : Nat) (text : List Char) : Prop :=
  ∃ before lexeme after, text = before ++ lexeme ++ after ∧
    t.position = (start + before.length : Nat) ∧ lexeme ≠ [] ∧ t.word.IsSpelling lexeme ∧
    (t.kind = .number ∨ t.kind = .symbol → ∀ c ∈ after.head?, Lexer.isWordChar c = false)

/-- Words lie in a text, one behind the other, with nothing but white space
around them. -/
structure Covers (text : List Char) (ts : List Token) : Prop where
  lies : ∀ t ∈ ts, t.LiesIn 0 text
  ordered : ts.Pairwise fun t u => t.stop ≤ u.position
  blank : ∀ (i : Nat) (c : Char), text[i]? = some c →
    (∀ t ∈ ts, ¬(t.position ≤ i ∧ (i : Int) < t.stop)) → Unicode.isSpace c = true

/-- A word is spelled with as many characters as it takes up. -/
theorem Word.IsSpelling.length {t : Token} {cs : List Char} (h : t.word.IsSpelling cs) :
    cs.length = t.size := by
  unfold Token.size
  split
  · rename_i hkind
    have hstring : t.word.kind = .string := hkind
    simp only [IsSpelling, hstring] at h
    obtain ⟨quote, -, -, rfl⟩ := h
    simp [Token.word, ← String.length_toList]
  · rename_i hkind
    have hspelled := (isSpelling_of_ne (w := t.word) hkind).mp h
    simp [hspelled, Token.word, ← String.length_toList]

/-- A word lies in more text where it lies in the text behind. -/
theorem Token.LiesIn.append {t : Token} {start : Nat} {text : List Char} (h : t.LiesIn start text)
    {n : Nat} {l : List Char} (hstart : start = n + l.length) : t.LiesIn n (l ++ text) := by
  obtain ⟨before, lexeme, after, rfl, hposition, hne, hspelling, hafter⟩ := h
  refine ⟨l ++ before, lexeme, after, by simp, ?_, hne, hspelling, hafter⟩
  rw [hposition, hstart, List.length_append, Nat.add_assoc]

namespace Lexer

variable {n : Nat} {cs rest : List Char} {ts : List Token}

/-- Each word that was passed lies in the text, at its own place. -/
theorem Scans.liesIn (h : Scans rest n cs ts) : ∀ t ∈ ts, t.LiesIn n (cs ++ rest) := by
  induction h with
  | done n => simp
  | @blank n c cs ts hc _ ih =>
    exact fun t ht => (ih t ht).append (l := [c]) rfl
  | @word n w l cs ts hw hends _ ih =>
    rintro t (_ | ⟨_, ht⟩)
    · refine ⟨[], l, cs ++ rest, by simp, by simp, hw.ne_nil, hw.isSpelling, fun hkind => ?_⟩
      exact (hends hkind).word
    · rw [List.append_assoc]
      exact (ih t ht).append rfl

/-- No word lies before the position from where it was passed. -/
theorem Scans.le_position (h : Scans rest n cs ts) : ∀ t ∈ ts, (n : Int) ≤ t.position := by
  intro t ht
  obtain ⟨before, -, -, -, hposition, -⟩ := h.liesIn t ht
  omega

/-- Words that were passed lie one behind the other. -/
theorem Scans.ordered (h : Scans rest n cs ts) : ts.Pairwise fun t u => t.stop ≤ u.position := by
  induction h with
  | done n => exact .nil
  | blank hc _ ih => exact ih
  | @word n w l cs ts hw hends h ih =>
    have hlength := Word.IsSpelling.length (t := ⟨w.kind, w.text, n⟩) hw.isSpelling
    refine .cons (fun u hu => ?_) ih
    have hposition := h.le_position u hu
    simp only [Token.stop]
    omega

/-- A character that is passed belongs to a word or is white space. -/
theorem Scans.blank_outside (h : Scans rest n cs ts) {i : Nat} {c : Char} (hi : cs[i]? = some c)
    (houtside : ∀ t ∈ ts, ¬(t.position ≤ (n + i : Nat) ∧ ((n + i : Nat) : Int) < t.stop)) :
    Unicode.isSpace c = true := by
  induction h generalizing i with
  | done n => exact absurd hi (by simp)
  | @blank n d cs ts hd _ ih =>
    cases i with
    | zero => simpa [← Option.some.inj hi] using hd
    | succ i =>
      refine ih hi ?_
      rwa [Nat.add_right_comm, Nat.add_assoc]
  | @word n w l cs ts hw hends _ ih =>
    have hlength := Word.IsSpelling.length (t := ⟨w.kind, w.text, n⟩) hw.isSpelling
    have hfirst := houtside _ List.mem_cons_self
    simp only [Token.stop] at hfirst
    have hi' : l.length ≤ i := by omega
    obtain ⟨k, rfl⟩ := Nat.exists_eq_add_of_le hi'
    rw [List.getElem?_append_right hi', Nat.add_sub_cancel_left] at hi
    refine ih hi fun t ht => ?_
    rw [Nat.add_assoc]
    exact houtside t (List.mem_cons_of_mem _ ht)

/-- Words cover a text that was passed to its end. -/
theorem Scans.covers {text : List Char} (h : Scans [] 0 text ts) : Covers text ts where
  lies t ht := by simpa using h.liesIn t ht
  ordered := h.ordered
  blank i c hi houtside := h.blank_outside hi (by simpa using houtside)

/-- The complaint is about the character where splitting is stuck. -/
theorem Stuck.position {e : LexError} (h : Stuck n rest e) : e.position = n := by
  cases h <;> rfl

end Lexer

/-- **Nothing is lost.**  The words of a text lie in it in their order, and all
around them is white space.  Text that cannot be split is refused at a
character that begins neither a word nor white space, and what stands in front
of this character can be split. -/
theorem tokenize_covers (text : String) :
    (∃ ts, tokenize text = .ok ts ∧ Covers text.toList ts) ∨
    ∃ e, tokenize text = .error e ∧ ∃ before rest, text.toList = before ++ rest ∧
      e.position = before.length ∧ Lexer.Stuck before.length rest e ∧
      ∃ ts, tokenize (String.ofList before) = .ok ts := by
  obtain ⟨l, rest, ts, htext, hscans, ⟨rfl, hts⟩ | ⟨e, hstuck, he⟩⟩ :=
    Lexer.tokenize_outcome text
  · rw [List.append_nil] at htext
    exact .inl ⟨ts, hts, htext ▸ hscans.covers⟩
  · have hbefore := hscans.blank_end Lexer.startsBlank_nil
    refine .inr ⟨e, he, l, rest, htext, hstuck.position, hstuck, ts, ?_⟩
    exact Lexer.Scans.tokenize_ok (by rwa [String.toList_ofList])

/-! ## White space between texts -/

/-- A word at another place. -/
def Token.moved (g : Int → Int) (t : Token) : Token := { t with position := g t.position }

/-- A complaint about a character so many places further on. -/
def LexError.later (k : Nat) : LexError → LexError
  | unterminated p => unterminated (p + k)
  | unrecognized c p => unrecognized c (p + k)

namespace Lexer

variable {n : Nat} {cs rest : List Char} {ts : List Token}

/-- Splitting does not depend on where the characters stand. -/
theorem Scans.later (h : Scans rest n cs ts) (k : Nat) :
    Scans rest (n + k) cs (ts.map (Token.moved (· + k))) := by
  induction h with
  | done n => exact .done _
  | blank hc _ ih =>
    rw [Nat.add_right_comm] at ih
    exact .blank hc ih
  | word hw hends _ ih =>
    rw [Nat.add_right_comm] at ih
    have hword := Scans.word hw hends ih
    simpa [Token.moved] using hword

/-- White space lets what stands behind it be passed as if it stood alone. -/
theorem Scans.across {us : List Token} {w l : List Char} (h : Scans [] 0 cs ts) (hne : w ≠ [])
    (hw : ∀ c ∈ w, Unicode.isSpace c = true) (hl : Scans rest 0 l us) :
    Scans rest 0 (cs ++ (w ++ l))
      (ts ++ us.map (Token.moved (· + (cs.length + w.length : Nat)))) := by
  have hblank : StartsBlank (w ++ l ++ rest) := by
    obtain ⟨c, w, rfl⟩ := List.exists_cons_of_ne_nil hne
    exact startsBlank_cons (hw c List.mem_cons_self)
  have hlater := hl.later (cs.length + w.length)
  refine (h.blank_end hblank).append ?_
  rw [Nat.zero_add] at hlater ⊢
  exact (scans_blank hw).append hlater

/-- Splitting is stuck at the same characters wherever they begin. -/
theorem Stuck.later {e : LexError} (h : Stuck n rest e) (k : Nat) :
    Stuck (n + k) rest (e.later k) := by
  cases h with
  | unterminated hquote hcs => exact .unterminated hquote hcs
  | unrecognized hspace hword hquote hstructural =>
    exact .unrecognized hspace hword hquote hstructural

end Lexer

/-- **White space.**  Behind a text that can be split and white space, splitting
begins anew: there are the words of what follows, or the complaint about
it, each so many places further on. -/
theorem tokenize_append {a w b : String} {ts : List Token} (ha : tokenize a = .ok ts)
    (hne : w ≠ "") (hw : ∀ c ∈ w.toList, Unicode.isSpace c = true) :
    (∀ us, tokenize b = .ok us → tokenize (a ++ w ++ b) =
      .ok (ts ++ us.map (Token.moved (· + (a.length + w.length : Nat))))) ∧
    ∀ e, tokenize b = .error e → tokenize (a ++ w ++ b) =
      .error (e.later (a.length + w.length)) := by
  obtain ⟨l, rest, us, hb, hscans, houtcome⟩ := Lexer.tokenize_outcome b
  have hpassed := (Lexer.scans_of_tokenize ha).across
    (fun hnil => hne (String.toList_eq_nil_iff.mp hnil)) hw hscans
  rw [String.length_toList, String.length_toList] at hpassed
  have htext : (a ++ w ++ b).toList = a.toList ++ (w.toList ++ l) ++ rest := by simp [hb]
  have hlength : (a.toList ++ (w.toList ++ l)).length = l.length + (a.length + w.length) := by
    rw [List.length_append, List.length_append, String.length_toList, String.length_toList]
    omega
  obtain ⟨rfl, hus⟩ | ⟨e, hstuck, he⟩ := houtcome
  · refine ⟨fun us' hus' => ?_, fun e he => absurd (hus.symm.trans he) (by simp)⟩
    obtain rfl := Except.ok.inj (hus.symm.trans hus')
    simpa [Except.map] using hpassed.tokenize (Lexer.yields_nil _) htext
  · refine ⟨fun us' hus' => absurd (he.symm.trans hus') (by simp), fun e' he' => ?_⟩
    obtain rfl := Except.error.inj (he.symm.trans he')
    have hlater := hstuck.later (a.length + w.length)
    rw [← hlength] at hlater
    exact hpassed.tokenize hlater.yields htext

/-- Words and an open quote behind the end of a line. -/
theorem tokenize_append_lines :
    tokenize ("bd 0.5" ++ "\n\t" ++ "c#") =
      .ok [⟨.symbol, "bd", 0⟩, ⟨.number, "0.5", 3⟩, ⟨.symbol, "c#", 8⟩] ∧
    tokenize ("bd 0.5" ++ "\n\t" ++ "7 'x") = .error (.unterminated 10) := by
  have ha : tokenize "bd 0.5" = .ok [⟨.symbol, "bd", 0⟩, ⟨.number, "0.5", 3⟩] := by decide +kernel
  have hw : ∀ c ∈ "\n\t".toList, Unicode.isSpace c = true :=
    List.all_eq_true.mp (by decide)
  have hb : tokenize "c#" = .ok [⟨.symbol, "c#", 0⟩] := by decide +kernel
  have hb' : tokenize "7 'x" = .error (.unterminated 2) := by decide +kernel
  exact ⟨(tokenize_append ha (by decide) hw).1 _ hb, (tokenize_append ha (by decide) hw).2 _ hb'⟩

end Ostinato
