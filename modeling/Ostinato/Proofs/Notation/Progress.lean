import Ostinato.Proofs.Notation.Image

/-!
# Ostinato.Proofs.Notation.Progress

How far readers get.

Readers of numbers, suffixes and atoms pass at least one word, and so does each
step of a repetition that goes on.  The words ahead therefore bound how often
anything is repeated.
-/

namespace Ostinato

namespace Cursor

/-- Further on there are no more words ahead. -/
theorem Leads.length_le {c c' : Cursor} (h : c.Leads c') : c'.ahead.length ≤ c.ahead.length := by
  obtain ⟨-, mid, hahead, -⟩ := h
  simp [hahead]

/-- Behind the next word fewer words are ahead. -/
theorem length_next {c : Cursor} (h : c.ahead.head?.isSome = true) :
    c.next.ahead.length < c.ahead.length := by
  cases hahead : c.ahead with
  | nil => simp [hahead] at h
  | cons t ts => simp [hahead]

/-- So there are if it is known which word that is. -/
theorem length_next_of_head? {c : Cursor} {t : Token} (h : c.ahead.head? = some t) :
    c.next.ahead.length < c.ahead.length :=
  length_next (by rw [h]; rfl)

end Cursor

namespace Parser

variable {α β : Type} {c c' : Cursor}

/-- Behind a reader there are no more words ahead than in front of it. -/
theorem Keeps.length_le {p : Parser α} (hp : Keeps p) {a : α} (h : Runs p c a c') :
    c'.ahead.length ≤ c.ahead.length :=
  (hp.of_runs h).length_le

/-- A number that was read was a word. -/
theorem shorter_expectNumber {after : Token} {isSigned : Bool} {x : Number}
    (h : Runs (expectNumber after isSigned) c x c') : c'.ahead.length < c.ahead.length := by
  obtain ⟨t, y, hhead, -, -, -, rfl⟩ := runs_expectNumber.mp h
  have hlast := Cursor.length_next_of_head? hhead
  split at hlast
  · have hnext := (Cursor.leads_next c).length_le
    simp_all only [if_true]
    omega
  · simp_all

/-- A suffix that was read began with a word. -/
theorem shorter_suffixStep {child q : Pattern} (h : Runs (suffixStep child) c (.inl q) c') :
    c'.ahead.length < c.ahead.length := by
  obtain ⟨hdone, -⟩ | ⟨t, q, hhead, -, -, hread⟩ := suffixStep_reads h
  · exact absurd hdone (by simp)
  have hnext := Cursor.length_next_of_head? hhead
  obtain ⟨-, hread⟩ | ⟨-, hread⟩ | ⟨-, -, x, hread, -⟩ := hread
  · exact Nat.lt_of_le_of_lt ((keeps_euclid child t).length_le hread) hnext
  · exact Nat.lt_of_le_of_lt ((keeps_modulation child t).length_le hread) hnext
  · exact Nat.lt_trans (shorter_expectNumber hread) hnext

/-- Suffixes pass the suffix that they begin with. -/
theorem shorter_suffixes {child q : Pattern} {t : Token} (hhead : c.ahead.head? = some t)
    (hsuffix : t.kind.isSuffix = true) (h : Runs (suffixes child) c q c') :
    c'.ahead.length < c.ahead.length := by
  replace h := runs_ahead_bind.mp h
  obtain ⟨q', d, hstep, hrest⟩ | hstep := runs_loop_succ.mp h
  · exact Nat.lt_of_le_of_lt ((keeps_loop keeps_suffixStep _ q').length_le hrest)
      (shorter_suffixStep hstep)
  · obtain ⟨-, -, hnone⟩ | ⟨_, _, -, -, hdone, -⟩ := suffixStep_reads hstep
    · exact absurd ((hnone t hhead).symm.trans hsuffix) Bool.false_ne_true
    · exact absurd hdone (by simp)

/-- An atom that was read began with a word. -/
theorem shorter_atomWith {group : TokenKind → Token → Parser (List Pattern)} {q : Pattern}
    (hkeeps : ∀ closer opener, Keeps (group closer opener)) (h : Runs (atomWith group) c q c') :
    c'.ahead.length < c.ahead.length := by
  obtain ⟨f, hf, hrest⟩ := atomWith_eq_advance hkeeps
  rw [hf] at h
  obtain ⟨t, hhead, h⟩ := runs_advance_bind.mp h
  exact Nat.lt_of_le_of_lt ((hrest t).length_le h) (Cursor.length_next_of_head? hhead)

/-- One more part of a group began with a word: an element with its atom or suffix,
a transform with its point. -/
theorem shorter_itemStep {transforms : Registry Transform}
    {group : TokenKind → Token → Parser (List Pattern)} {enclosing : Option (TokenKind × Token)}
    {items items' : List Pattern} (hkeeps : ∀ closer opener, Keeps (group closer opener))
    (h : Runs (itemStep transforms group enclosing items) c (.inl items') c') :
    c'.ahead.length < c.ahead.length := by
  obtain ⟨hdone, -⟩ | ⟨dot, q, hhead, hrun, -⟩ | ⟨sign, last, others, q, hhead, hsuffix, -, hrun, -⟩ |
    ⟨atom, d, q, -, hrun, hrun', -⟩ := itemStep_cases h
  · exact absurd hdone (by simp)
  · exact Nat.lt_of_le_of_lt ((keeps_transform transforms _ dot).length_le hrun)
      (Cursor.length_next_of_head? hhead)
  · exact shorter_suffixes hhead hsuffix hrun
  · exact Nat.lt_of_le_of_lt ((keeps_suffixes atom).length_le hrun') (shorter_atomWith hkeeps hrun)

end Parser

end Ostinato
