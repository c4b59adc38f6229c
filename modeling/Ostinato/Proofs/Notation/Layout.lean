import Ostinato.Proofs.Notation.Complaints
import Ostinato.Proofs.Notation.Moving

/-!
# Ostinato.Proofs.Notation.Layout

The words of a text say everything, and their layout says nothing.

1. Texts with the same words form the same pattern, or are refused at words of
   the same number (`readAlike_of_words`): both are read as the words are that
   stand at their own numbers (`Word.numbered`).
2. A text is read as its words with single spaces between them are, whichever
   quotes stand around quoted text (`readAlike_spaced`).
-/

namespace Ostinato

/-! ## The number of a word -/

/-- Words at their own numbers, counted from zero. -/
def Word.numbered (ws : List Word) : List Token := ws.mapIdx fun i w => ⟨w.kind, w.text, i⟩

/-- The place of the word with a number. -/
def placeOf (ts : List Token) (i : Int) : Int := (ts[i.toNat]?.map Token.position).getD 0

/-- The place of a word is the place of the word with its number. -/
theorem placeOf_eq {ts : List Token} {i : Nat} {t : Token} (h : ts[i]? = some t) :
    placeOf ts i = t.position := by
  simp [placeOf, h]

/-- Moved from their numbers to their places, the words of a text are what they
were. -/
theorem Word.numbered_moved (ts : List Token) :
    (numbered (ts.map Token.word)).map (Token.moved (placeOf ts)) = ts := by
  refine List.ext_getElem? fun i => ?_
  rw [numbered, List.getElem?_map, List.getElem?_mapIdx, List.getElem?_map]
  cases ht : ts[i]? with
  | none => rfl
  | some t => simp [Token.moved, Token.word, placeOf_eq ht]

/-- A text is read as its words at their numbers are, and the complaint, if
there is one, is about the words with these numbers. -/
theorem parse_eq_numbered (transforms : Registry Transform) {text : String} {ts : List Token}
    (h : tokenize text = .ok ts) :
    parse transforms text =
      (parseTokens transforms (Word.numbered (ts.map Token.word))).1.mapError
        fun e => .grammatical (e.moved (placeOf ts)) := by
  have hmoved := parseTokens_moved (g := placeOf ts) transforms
    (Word.numbered (ts.map Token.word))
  rw [Word.numbered_moved] at hmoved
  simp only [parse, h, hmoved]
  cases (parseTokens transforms (Word.numbered (ts.map Token.word))).1 <;> rfl

/-- Words at their numbers are refused at one of their numbers. -/
theorem position_of_numbered {ts : List Token} (hplain : ∀ t ∈ ts, t.word.Plain) {e : ParseError}
    (h : (parseTokens Transform.builtin (Word.numbered (ts.map Token.word))).1 = .error e) :
    ∃ i : Nat, i < ts.length ∧ e.position = some (i : Int) := by
  have hwords : ∀ t ∈ Word.numbered (ts.map Token.word), t.word.Plain ∧
      ∃ i : Nat, i < ts.length ∧ t.position = i := by
    intro t ht
    obtain ⟨i, hi⟩ := List.mem_iff_getElem?.mp ht
    rw [Word.numbered, List.getElem?_mapIdx, List.getElem?_map] at hi
    cases hu : ts[i]? with
    | none => simp [hu] at hi
    | some u =>
      obtain rfl := by simpa [hu] using hi
      exact ⟨hplain u (List.mem_of_getElem? hu), i, (List.getElem?_eq_some_iff.mp hu).1, rfl⟩
  have hstart : Parser.Within (Word.numbered (ts.map Token.word))
      (Cursor.start (Word.numbered (ts.map Token.word))) :=
    ⟨⟨rfl, fun t ht => (hwords t ht).1⟩, fun t ht => ht⟩
  obtain ⟨t, ht, hposition⟩ := Parser.blames_pattern hstart e h
  obtain ⟨-, i, hi, hi'⟩ := hwords t ht
  exact ⟨i, hi, by rw [hposition, hi']⟩

/-- Two texts, which are split into words, form the same pattern, or both form
none and the complaints are about words of the same number. -/
def ReadAlike (text text' : String) (ts ts' : List Token) : Prop :=
  (∃ p, parse Transform.builtin text = .ok p ∧ parse Transform.builtin text' = .ok p) ∨
  ∃ e e', parse Transform.builtin text = .error (.grammatical e) ∧
    parse Transform.builtin text' = .error (.grammatical e') ∧
    ∃ (i : Nat) (t t' : Token), ts[i]? = some t ∧ ts'[i]? = some t' ∧
      e.position = some t.position ∧ e'.position = some t'.position

/-- Texts with the same words are read alike. -/
theorem readAlike_of_words {text text' : String} {ts ts' : List Token} (h : tokenize text = .ok ts)
    (h' : tokenize text' = .ok ts') (hwords : ts'.map Token.word = ts.map Token.word) :
    ReadAlike text text' ts ts' := by
  have hparse := parse_eq_numbered Transform.builtin h
  have hparse' := parse_eq_numbered Transform.builtin h'
  rw [hwords] at hparse'
  cases hresult : (parseTokens Transform.builtin (Word.numbered (ts.map Token.word))).1 with
  | ok p =>
    rw [hresult] at hparse hparse'
    exact .inl ⟨p, hparse, hparse'⟩
  | error e =>
    rw [hresult] at hparse hparse'
    obtain ⟨i, hi, hposition⟩ := position_of_numbered (Word.plain_of_tokenize h) hresult
    have hi' : i < ts'.length := by
      rwa [← List.length_map (f := Token.word), hwords, List.length_map]
    have hplace : ∀ {us : List Token} (hu : i < us.length),
        (e.moved (placeOf us)).position = some us[i].position := by
      intro us hu
      rw [ParseError.position_moved, hposition, Option.map_some,
        placeOf_eq (List.getElem?_eq_getElem hu)]
    exact .inr ⟨_, _, hparse, hparse', i, ts[i], ts'[i], List.getElem?_eq_getElem hi,
      List.getElem?_eq_getElem hi', hplace hi, hplace hi'⟩

/-! ## Single spaces -/

/-- **Layout does not matter.**  A text is split into the same words as these
words written with single spaces between them, whichever quotes stand around
quoted text, and is read alike. -/
theorem readAlike_spaced {text : String} {ts : List Token} (h : tokenize text = .ok ts) :
    (∃ ls, List.Forall₂ (fun t l => t.word.IsSpelling l) ts ls) ∧
    ∀ ls, List.Forall₂ (fun t l => t.word.IsSpelling l) ts ls →
      ∃ ts', tokenize (String.ofList ([' '].intercalate ls)) = .ok ts' ∧
        ts'.map Token.word = ts.map Token.word ∧
        ReadAlike text (String.ofList ([' '].intercalate ls)) ts ts' := by
  have hlexeme := (Lexer.scans_of_tokenize h).lexeme
  constructor
  · choose! spelling hspelling using hlexeme
    refine ⟨ts.map spelling, List.forall₂_map_right_iff.mpr (List.forall₂_same.mpr ?_)⟩
    exact fun t ht => (hspelling t ht).isSpelling
  · intro ls hls
    have hlexemes : List.Forall₂ Lexer.Lexeme (ts.map Token.word) ls :=
      List.forall₂_map_left_iff.mpr <| ((List.forall₂_and_left ts ls).mpr ⟨hlexeme, hls⟩).imp
        fun t l h => h.1.elim fun _ hlexeme => hlexeme.respelled h.2
    obtain ⟨ts', hscans, hwords⟩ := Lexer.scans_spaced hlexemes 0
    have htokens : tokenize (String.ofList ([' '].intercalate ls)) = .ok ts' :=
      Lexer.Scans.tokenize_ok (by rwa [String.toList_ofList])
    exact ⟨ts', htokens, hwords, readAlike_of_words h htokens hwords⟩

/-- Words of a group that is not closed, with the other quotes. -/
theorem readAlike_spaced_unclosed :
    ∃ ts', tokenize (String.ofList ([' '].intercalate
        ["[".toList, "bd".toList, "*".toList, "2".toList, "\"a b\"".toList])) = .ok ts' ∧
      ReadAlike "[bd*2'a b'" (String.ofList ([' '].intercalate
        ["[".toList, "bd".toList, "*".toList, "2".toList, "\"a b\"".toList]))
        [⟨.listStart, "[", 0⟩, ⟨.symbol, "bd", 1⟩, ⟨.star, "*", 3⟩, ⟨.number, "2", 4⟩,
          ⟨.string, "a b", 5⟩] ts' := by
  have htokens : tokenize "[bd*2'a b'" = .ok [⟨.listStart, "[", 0⟩, ⟨.symbol, "bd", 1⟩,
      ⟨.star, "*", 3⟩, ⟨.number, "2", 4⟩, ⟨.string, "a b", 5⟩] := by decide +kernel
  have htext : Word.IsSpelling ⟨.string, "a b"⟩ "\"a b\"".toList :=
    ⟨'"', .inl rfl, by decide, by decide⟩
  obtain ⟨ts', htokens', -, halike⟩ := (readAlike_spaced htokens).2 _
    (.cons rfl (.cons rfl (.cons rfl (.cons rfl (.cons htext .nil)))))
  exact ⟨ts', htokens', halike⟩

end Ostinato
