import Ostinato.Proofs.Notation.Image
import Ostinato.Proofs.Notation.Moving
import Ostinato.Proofs.Rendering.Grouping
import Ostinato.Query

/-!
# Ostinato.Proofs.Notation.Brackets

Text between brackets.

A whole text is read as what stands between brackets is: to a reader, a closing
bracket is what the end of the words is.

1. A text between brackets is split into its own words and the brackets
   (`tokenize_bracketed`).
2. A reader that gives a result among some words gives it also where these
   words stand between others, of which a closing bracket is the next one behind
   them (`Parser.Stays`).
3. So brackets around a text make a group of its items, and a sequence in
   brackets plays what it plays without them (`parse_bracketed`).
-/

namespace Ostinato

/-! ## Splitting -/

/-- A text between two structural characters is split into its own words, one
place further on, and the two characters. -/
theorem tokenize_bracketed {text : String} {ts : List Token} (h : tokenize text = .ok ts)
    {left right : Char} {opens closes : TokenKind}
    (hleft : TokenKind.ofStructural? left = some opens)
    (hright : TokenKind.ofStructural? right = some closes) (hpoint : right ≠ '.') :
    tokenize (String.singleton left ++ text ++ String.singleton right) =
      .ok (⟨opens, String.singleton left, 0⟩ :: (ts.map (Token.moved (· + 1)) ++
        [⟨closes, String.singleton right, (text.length + 1 : Nat)⟩])) := by
  have hapart : Lexer.StartsApart [right] := by
    intro c hc
    obtain rfl := Option.mem_some_iff.mp hc
    exact ⟨(Word.of_ofStructural? hright).2.1, hpoint⟩
  have hends : ∀ {kind : TokenKind} {c : Char} (rest : List Char),
      TokenKind.ofStructural? c = some kind →
        Lexer.EndsBefore ⟨kind, String.singleton c⟩ rest :=
    fun _ hkind hrun => absurd hrun (Lexer.kind_of_ofStructural? hkind)
  have htext : Lexer.Scans [right] 1 text.toList (ts.map (Token.moved (· + 1))) := by
    have hlater := ((Lexer.scans_of_tokenize h).apart_end hapart).later 1
    rwa [Nat.zero_add] at hlater
  have hclose : Lexer.Scans [] (1 + text.toList.length) [right]
      [⟨closes, String.singleton right, (text.length + 1 : Nat)⟩] := by
    rw [String.length_toList, Nat.add_comm]
    exact .word (.structural hright) (hends _ hright) (.done _)
  have hall := Lexer.Scans.word (n := 0) (Lexer.Lexeme.structural hleft) (hends _ hleft)
    (htext.append hclose)
  refine Lexer.Scans.tokenize_ok ?_
  simpa using hall

/-! ## Reading -/

/-- The same place in words that stand between others. -/
def Cursor.between (front back : List Token) (c : Cursor) : Cursor :=
  { c with passed := c.passed ++ front, ahead := c.ahead ++ back }

/-- A word that is next among some words is next where these stand between others. -/
theorem Cursor.next_between (front back : List Token) {c : Cursor} {t : Token}
    (h : c.ahead.head? = some t) :
    (c.between front back).ahead.head? = some t ∧
      (c.between front back).next = c.next.between front back := by
  obtain ⟨ts, hahead⟩ := List.head?_eq_some_iff.mp h
  simp [Cursor.between, Cursor.next, hahead]

/-- What a closing bracket is not. -/
theorem TokenKind.other_of_isCloser {kind : TokenKind} (h : kind.isCloser = true) :
    kind.isSuffix = false ∧ kind.isValue = false ∧ kind ≠ .minus ∧ kind ≠ .number ∧
      kind ≠ .colon := by
  cases kind <;> first | decide | exact absurd h Bool.false_ne_true

namespace Parser

variable {α β : Type} {p q : Parser α} {front rest : List Token} {closer : Token}

/-- What the first reader gives among some words, the second one gives where
they stand between others. -/
def Stays (front back : List Token) (p q : Parser α) : Prop :=
  ∀ (c : Cursor) (a : α) (c' : Cursor), Runs p c a c' →
    Runs q (c.between front back) a (c'.between front back)

/-! ### Building readers -/

section

variable {back : List Token}

/-- A result that takes no reading is given anywhere. -/
theorem stays_pure (a : α) : Stays front back (pure a) (pure a) := by
  intro c b c' h
  obtain ⟨rfl, rfl⟩ := runs_pure.mp h
  exact runs_pure.mpr ⟨rfl, rfl⟩

/-- A reader that fails gives nothing. -/
theorem stays_throw (e : ParseError) (q : Parser α) : Stays front back (throw e) q :=
  fun _ _ _ h => absurd h runs_throw

/-- Readers in a row that give the same where their words stand between others do so
together. -/
theorem stays_bind {f f' : α → Parser β} (hp : Stays front back p q)
    (hf : ∀ a, Stays front back (f a) (f' a)) : Stays front back (p >>= f) (q >>= f') := by
  intro c b c'' h
  obtain ⟨a, c', hrun, hrest⟩ := runs_bind.mp h
  exact runs_bind.mpr ⟨a, _, hp c a c' hrun, hf a c' b c'' hrest⟩

/-- A test picks readers that give the same, however it turns out. -/
theorem stays_ite {P : Prop} [Decidable P] {p' q' : Parser α} (hp : Stays front back p q)
    (hp' : Stays front back p' q') :
    Stays front back (if P then p else p') (if P then q else q') := by
  split
  · exact hp
  · exact hp'

/-- A refusal in front of a reader. -/
theorem stays_guard {P : Prop} [Decidable P] {e : ParseError} {f f' : Unit → Parser α}
    (h : Stays front back (f ()) (f' ())) :
    Stays front back (if P then throw e >>= f else f ()) (if P then throw e >>= f' else f' ()) :=
  stays_ite (fun _ _ _ hrun => absurd (runs_bind.mp hrun) (by simp)) h

/-- Inside one more modulation the words stand between the same others. -/
theorem stays_deeper (hp : Stays front back p q) : Stays front back (deeper p) (deeper q) := by
  intro c a c' h
  obtain ⟨d, hrun, rfl⟩ := runs_deeper.mp h
  exact runs_deeper.mpr ⟨_, hp _ a d hrun, rfl⟩

/-! ### Primitive readers -/

/-- A reader that looks at all words ahead also sees those behind. -/
theorem stays_ahead_bind {f f' : List Token → Parser β}
    (h : ∀ ts, Stays front back (f ts) (f' (ts ++ back))) :
    Stays front back (ahead >>= f) (ahead >>= f') :=
  fun c b c' hrun => runs_ahead_bind.mpr (h c.ahead c b c' (runs_ahead_bind.mp hrun))

/-- A word that is passed is the same word. -/
theorem stays_advance_bind {f f' : Token → Parser β} (h : ∀ t, Stays front back (f t) (f' t)) :
    Stays front back (advance >>= f) (advance >>= f') := by
  intro c b c' hrun
  obtain ⟨t, hhead, hrest⟩ := runs_advance_bind.mp hrun
  obtain ⟨hhead', hnext⟩ := Cursor.next_between front back hhead
  refine runs_advance_bind.mpr ⟨t, hhead', ?_⟩
  rw [hnext]
  exact h t _ b c' hrest

/-- What a word spells does not depend on its place. -/
theorem stays_spelled (t : Token) : Stays front back (spelled t) (spelled t) := by
  unfold spelled
  split
  · exact stays_pure _
  · exact stays_throw _ _

/-- A repetition gives its result where it may take more steps, too. -/
theorem stays_loop {step step' : α → Parser (α ⊕ β)}
    (h : ∀ a, Stays front back (step a) (step' a)) {limit limit' : Nat} (hle : limit ≤ limit')
    (a : α) : Stays front back (loop step limit a) (loop step' limit' a) := by
  intro c b c' hrun
  induction limit generalizing a c limit' with
  | zero => exact absurd hrun runs_throw
  | succ limit ih =>
    obtain ⟨k, rfl⟩ := Nat.exists_eq_add_of_le' (Nat.lt_of_lt_of_le (Nat.succ_pos limit) hle)
    rcases runs_loop_succ.mp hrun with ⟨a', d, hstep, hrest⟩ | hstep
    · refine runs_loop_succ.mpr (.inl ⟨a', _, h a c _ d hstep, ?_⟩)
      exact ih (Nat.le_of_succ_le_succ hle) a' d hrest
    · exact runs_loop_succ.mpr (.inr (h a c _ c' hstep))

/-- There are more words ahead where some stand behind, so there may be more steps. -/
theorem stays_repeatUntil {step step' : α → Parser (α ⊕ β)}
    (h : ∀ a, Stays front back (step a) (step' a)) (a : α) :
    Stays front back (repeatUntil step a) (repeatUntil step' a) :=
  stays_ahead_bind fun ts => stays_loop h (by simp) a

end

/-! ### Looking ahead -/

/-- Where the words end, the closing bracket comes next. -/
theorem stays_peek_bind {f f' : Option Token → Parser β}
    (hsome : ∀ t, Stays front (closer :: rest) (f (some t)) (f' (some t)))
    (hnone : ∀ (c : Cursor) (b : β) (c' : Cursor), c.ahead = [] → Runs (f none) c b c' →
      Runs (f' (some closer)) (c.between front (closer :: rest)) b
        (c'.between front (closer :: rest))) :
    Stays front (closer :: rest) (peek >>= f) (peek >>= f') := by
  intro c b c' hrun
  replace hrun := runs_peek_bind.mp hrun
  refine runs_peek_bind.mpr ?_
  cases hahead : c.ahead with
  | nil =>
    rw [hahead] at hrun
    have hlast : (c.between front (closer :: rest)).ahead.head? = some closer := by
      simp [Cursor.between, hahead]
    rw [hlast]
    exact hnone c b c' hahead hrun
  | cons t ts =>
    rw [hahead] at hrun
    have hhead : (c.between front (closer :: rest)).ahead.head? = some t := by
      simp [Cursor.between, hahead]
    rw [hhead]
    exact hsome t c b c' hrun

section

variable (hcloser : closer.kind.isCloser = true)

include hcloser

/-- Whether words begin with a number does not depend on a closing bracket behind
them: it is neither a digit nor a sign. -/
theorem startsNumber_between (ts : List Token) :
    startsNumber (ts ++ closer :: rest) = startsNumber ts := by
  obtain ⟨-, -, hminus, hnumber, -⟩ := TokenKind.other_of_isCloser hcloser
  rcases ts with _ | ⟨t, _ | ⟨u, us⟩⟩
  · simp [startsNumber, hminus, hnumber]
  · by_cases ht : t.kind = .minus <;> simp [startsNumber, ht, hnumber]
  · simp [startsNumber]

/-- Whether a number comes next does not depend on it either. -/
theorem stays_atNumber : Stays front (closer :: rest) atNumber atNumber := by
  refine stays_ahead_bind fun ts => ?_
  rw [startsNumber_between hcloser]
  exact stays_pure _

/-! ### Numbers and suffixes -/

/-- A closing bracket is no sign. -/
theorem isSign_between (isSigned : Bool) (c : Cursor) :
    isSign isSigned (c.between front (closer :: rest)) = isSign isSigned c := by
  have hminus := (TokenKind.other_of_isCloser hcloser).2.2.1
  unfold isSign Cursor.between
  cases c.ahead <;> simp [hminus]

/-- A sign is passed in front of a closing bracket as it is at the end. -/
theorem stays_takeSign (isSigned : Bool) :
    Stays front (closer :: rest) (takeSign isSigned) (takeSign isSigned) := by
  intro c negative c' h
  obtain ⟨rfl, rfl⟩ := runs_takeSign.mp h
  refine runs_takeSign.mpr ⟨isSign_between hcloser isSigned c, ?_⟩
  rw [isSign_between hcloser]
  by_cases hsign : isSign isSigned c = true
  · obtain ⟨⟨t, ht, -⟩, -⟩ := isSign_iff.mp hsign
    rw [if_pos hsign, if_pos hsign, (Cursor.next_between _ _ ht).2]
  · rw [if_neg hsign, if_neg hsign]

/-- A number is read in front of a closing bracket as it is at the end. -/
theorem stays_expectNumber (after : Token) (isSigned : Bool) :
    Stays front (closer :: rest) (expectNumber after isSigned) (expectNumber after isSigned) := by
  refine stays_bind (stays_takeSign hcloser isSigned) fun negative => stays_peek_bind (fun t => ?_)
    fun c x c' _ h => absurd h runs_throw
  refine stays_ite ?_ (stays_throw _ _)
  exact stays_advance_bind fun _ => stays_bind (stays_spelled t) fun x => stays_pure _

/-- Where a rotation may follow, a closing bracket says as well as the end that
there is none. -/
theorem stays_rotation : Stays front (closer :: rest) rotation rotation := by
  have hcolon := (TokenKind.other_of_isCloser hcloser).2.2.2.2
  refine stays_peek_bind (fun t => ?_) fun c x c' _ h => ?_
  · exact stays_ite (stays_advance_bind fun colon => stays_expectNumber hcloser colon true)
      (stays_pure _)
  · simpa only [beq_iff_eq, hcolon, if_false] using stays_pure _ c x c' h

omit hcloser in
/-- A whole number is taken from a number that was read, whatever stands behind it. -/
theorem stays_rhythmPart (slash : Token) (what : String) (x : Number) :
    Stays front (closer :: rest) (rhythmPart slash what x) (rhythmPart slash what x) := by
  unfold rhythmPart
  split
  · exact stays_pure _
  · exact stays_throw _ _

/-- A rhythm is read in front of a closing bracket as it is at the end. -/
theorem stays_euclid (child : Pattern) (slash : Token) :
    Stays front (closer :: rest) (euclid child slash) (euclid child slash) := by
  refine stays_bind (stays_expectNumber hcloser slash false) fun steps =>
    stays_peek_bind (fun t => ?_) fun c x c' _ h => absurd h runs_throw
  exact stays_guard <| stays_advance_bind fun colon =>
    stays_bind (stays_expectNumber hcloser colon false) fun pulses =>
    stays_bind (stays_rotation hcloser) fun turned =>
    stays_bind (stays_rhythmPart slash _ steps) fun steps =>
    stays_bind (stays_rhythmPart slash _ pulses) fun pulses =>
    stays_bind (stays_rhythmPart slash _ turned) fun turned => stays_guard (stays_pure _)

/-- The rate may be missing in front of a closing bracket, as it may at the end. -/
theorem stays_modulationOperands (tilde : Token) :
    Stays front (closer :: rest) (modulationOperands tilde) (modulationOperands tilde) :=
  stays_bind (stays_expectNumber hcloser tilde false) fun _ =>
    stays_bind (stays_atNumber hcloser) fun _ =>
      stays_ite (stays_bind (stays_expectNumber hcloser tilde false) fun _ => stays_pure _)
        (stays_pure _)

/-- A modulation is read in front of a closing bracket as it is at the end. -/
theorem stays_modulation (child : Pattern) (tilde : Token) :
    Stays front (closer :: rest) (modulation child tilde) (modulation child tilde) := by
  refine stays_bind (stays_deeper (stays_modulationOperands hcloser tilde)) fun operands => ?_
  refine stays_bind (fun c u c' h => ?_) fun _ => stays_pure _
  obtain rfl := runs_modify.mp h
  exact runs_modify.mpr rfl

/-- A closing bracket is no suffix, so a child is complete in front of it as it is
at the end. -/
theorem stays_suffixStep (child : Pattern) :
    Stays front (closer :: rest) (suffixStep child) (suffixStep child) := by
  have hsuffix := (TokenKind.other_of_isCloser hcloser).1
  refine stays_peek_bind (fun t => ?_) fun c r c' _ h => ?_
  · refine stays_ite (stays_pure _) (stays_advance_bind fun _ => ?_)
    split
    · exact stays_bind (stays_euclid hcloser child t) fun _ => stays_pure _
    · exact stays_bind (stays_modulation hcloser child t) fun _ => stays_pure _
    · exact stays_bind (stays_expectNumber hcloser t false) fun _ => stays_guard (stays_pure _)
  · simpa only [hsuffix, Bool.not_false, if_true] using stays_pure _ c r c' h

/-- So are all suffixes of a child. -/
theorem stays_suffixes (child : Pattern) :
    Stays front (closer :: rest) (suffixes child) (suffixes child) :=
  stays_repeatUntil (stays_suffixStep hcloser) child

/-! ### Atoms and calls -/

/-- A closing bracket is no colon, so a name is complete in front of it. -/
theorem stays_variantStep (name : String) :
    Stays front (closer :: rest) (variantStep name) (variantStep name) := by
  have hcolon := (TokenKind.other_of_isCloser hcloser).2.2.2.2
  refine stays_ahead_bind fun ts => ?_
  rcases ts with _ | ⟨colon, _ | ⟨word, words⟩⟩
  · simpa [hcolon] using stays_pure _
  · exact stays_ite (stays_pure _) (stays_throw _ _)
  · exact stays_ite (stays_pure _) <| stays_guard <| stays_advance_bind fun _ =>
      stays_advance_bind fun _ => stays_pure _

/-- An atom is read in front of a closing bracket if groups are. -/
theorem stays_atomWith {group group' : TokenKind → Token → Parser (List Pattern)}
    (h : ∀ kind opener, Stays front (closer :: rest) (group kind opener) (group' kind opener)) :
    Stays front (closer :: rest) (atomWith group) (atomWith group') := by
  refine stays_advance_bind fun t => ?_
  cases t.kind with
  | number => exact stays_bind (stays_spelled t) fun _ => stays_pure _
  | string => exact stays_pure _
  | symbol =>
    exact stays_bind (stays_repeatUntil (stays_variantStep hcloser) _) fun _ => stays_pure _
  | listStart | angleStart =>
    exact stays_bind (h _ t) fun _ => stays_advance_bind fun _ => stays_pure _
  | slash => exact stays_euclid hcloser _ t
  | minus =>
    refine stays_peek_bind (fun next => ?_) fun c x c' _ h => absurd h runs_throw
    exact stays_guard <| stays_advance_bind fun u => stays_bind (stays_spelled u) fun _ =>
      stays_pure _
  | star | plus | modulo | tilde => exact stays_throw _ _
  | listEnd | angleEnd | dot | colon => exact stays_throw _ _

/-- A closing bracket is no operand, so a list of operands is complete in front of
it. -/
theorem stays_operandStep (t : Transform) (name : Token) (operands : List Value) :
    Stays front (closer :: rest) (operandStep t name operands) (operandStep t name operands) :=
  stays_bind (stays_atNumber hcloser) fun _ =>
    stays_ite (stays_bind (stays_expectNumber hcloser name true) fun _ => stays_pure _)
      (stays_pure _)

/-- A closing bracket is no further value, so it is not refused as one. -/
theorem stays_refuseExtra (name : String) :
    Stays front (closer :: rest) (refuseExtra name) (refuseExtra name) := by
  have hvalue := (TokenKind.other_of_isCloser hcloser).2.1
  refine stays_peek_bind (fun t => ?_) fun c u c' hahead h => ?_
  · exact stays_bind (stays_atNumber hcloser) fun _ => stays_ite (stays_throw _ _) (stays_pure _)
  · have hnumber : startsNumber (c.between front (closer :: rest)).ahead = false := by
      show startsNumber (c.ahead ++ closer :: rest) = false
      rw [startsNumber_between hcloser, hahead]
      rfl
    refine runs_atNumber_bind.mpr ?_
    simpa only [hnumber, hvalue, Bool.or_self, Bool.false_eq_true, if_false] using
      stays_pure _ c u c' h

omit hcloser in
/-- What the check of a transform says depends on the operands alone. -/
theorem stays_checkOperands (t : Transform) (name : String) (token : Token)
    (operands : List Value) :
    Stays front (closer :: rest) (checkOperands t name token operands)
      (checkOperands t name token operands) := by
  unfold checkOperands
  split
  · exact stays_pure _
  · split
    · exact stays_pure _
    · exact stays_throw _ _

variable (transforms : Registry Transform)

/-- A call is read in front of a closing bracket as it is at the end, by induction
on the calls inside it. -/
theorem stays_callWithin {limit limit' : Nat} (hle : limit ≤ limit') (after : Token) :
    Stays front (closer :: rest) (callWithin transforms limit after)
      (callWithin transforms limit' after) := by
  induction limit generalizing limit' after with
  | zero => exact stays_throw _ _
  | succ limit ih =>
    obtain ⟨k, rfl⟩ := Nat.exists_eq_add_of_le' (Nat.lt_of_lt_of_le (Nat.succ_pos limit) hle)
    refine stays_peek_bind (fun token => ?_) fun c r c' _ h => absurd h runs_throw
    refine stays_guard (stays_advance_bind fun _ => ?_)
    dsimp only
    cases transforms.get? (Unicode.lowercase token.text) with
    | none => exact stays_throw _ _
    | some t =>
      refine stays_bind (stays_repeatUntil (stays_operandStep hcloser t token) []) fun operands => ?_
      refine stays_guard (stays_ite ?_ ?_)
      · exact stays_bind (ih (Nat.le_of_succ_le_succ hle) token) fun inner =>
          stays_bind (stays_checkOperands t _ token _) fun _ => stays_pure _
      · exact stays_bind (stays_refuseExtra hcloser _) fun _ =>
          stays_bind (stays_checkOperands t _ token _) fun _ => stays_pure _

/-- So is a transform of what stands before it. -/
theorem stays_transform (items : List Pattern) (dot : Token) :
    Stays front (closer :: rest) (transform transforms items dot)
      (transform transforms items dot) := by
  cases items with
  | nil => exact stays_throw _ _
  | cons first others =>
    refine stays_bind (stays_ahead_bind fun ts => ?_) fun _ => stays_pure _
    exact stays_callWithin hcloser transforms (by simp) dot

/-! ### Groups -/

/-- A group that the end of the words ends, ends before the closing bracket. -/
theorem stays_itemStep {group group' : TokenKind → Token → Parser (List Pattern)}
    (h : ∀ kind opener, Stays front (closer :: rest) (group kind opener) (group' kind opener))
    (enclosing : Option (TokenKind × Token)) (opener : Token) (items : List Pattern) :
    Stays front (closer :: rest) (itemStep transforms group enclosing items)
      (itemStep transforms group' (enclosing.or (some (closer.kind, opener))) items) := by
  refine stays_peek_bind (fun t => ?_) fun c r c' _ hrun => ?_
  · refine stays_ite ?_ (stays_ite ?_ ?_)
    · cases enclosing with
      | none => exact stays_throw _ _
      | some e => exact stays_ite (stays_pure _) (stays_throw _ _)
    · exact stays_advance_bind fun _ =>
        stays_bind (stays_transform hcloser transforms _ t) fun _ => stays_pure _
    · split
      · exact stays_bind (stays_suffixes hcloser _) fun _ => stays_pure _
      · exact stays_bind (stays_atomWith hcloser h) fun atom =>
          stays_bind (stays_suffixes hcloser atom) fun _ => stays_pure _
  · cases enclosing with
    | none => simpa [hcloser] using stays_pure _ c r c' hrun
    | some e => exact absurd hrun runs_throw

/-- A list of items that ends at the end of the words ends at a closing bracket.
The items of a group that is open inside are read up to its own bracket. -/
theorem stays_itemsWithin {limit limit' : Nat} (hle : limit ≤ limit')
    (enclosing : Option (TokenKind × Token)) (opener : Token) :
    Stays front (closer :: rest) (itemsWithin transforms limit enclosing)
      (itemsWithin transforms limit' (enclosing.or (some (closer.kind, opener)))) := by
  induction limit generalizing limit' enclosing with
  | zero => exact stays_throw _ _
  | succ limit ih =>
    obtain ⟨k, rfl⟩ := Nat.exists_eq_add_of_le' (Nat.lt_of_lt_of_le (Nat.succ_pos limit) hle)
    refine stays_repeatUntil (stays_itemStep hcloser transforms ?_ enclosing opener) []
    exact fun kind inner => ih (Nat.le_of_succ_le_succ hle) (some (kind, inner))

end

/-! ### Whole texts -/

variable {transforms : Registry Transform} {c c' : Cursor} {limit : Nat} {ps : List Pattern}

/-- Words at other places are read with the same result. -/
theorem Moves.runs {g : Int → Int} {a : α} (h : Moves g p q) (hrun : Runs p c a c') :
    Runs q (c.moved g) a (c'.moved g) := by
  unfold Runs at hrun ⊢
  rw [h c, hrun]
  rfl

/-- The step that ends a group that no bracket opens is taken where the words
end. -/
theorem ahead_of_itemStep {group : TokenKind → Token → Parser (List Pattern)}
    {items : List Pattern} (h : Runs (itemStep transforms group none items) c (.inr ps) c') :
    c'.ahead = [] := by
  replace h := runs_peek_bind.mp h
  rcases hhead : c.ahead.head? with _ | t
  · simp only [hhead] at h
    rw [← (runs_pure.mp h).2]
    exact List.head?_eq_none_iff.mp hhead
  simp only [hhead, Option.any_none, Bool.false_eq_true, if_false] at h
  split at h
  · exact absurd h runs_throw
  split at h
  · simp at h
  split at h <;> simp at h

/-- Items that nothing encloses are read to the end of the words. -/
theorem ahead_of_items (h : Runs (itemsWithin transforms limit none) c ps c') : c'.ahead = [] := by
  cases limit with
  | zero => exact absurd h runs_throw
  | succ limit =>
    exact repeatUntil_induction (P := fun _ _ => True) (Q := fun _ d => d.ahead = [])
      (fun _ _ _ _ _ _ => trivial) (fun _ _ _ _ _ hstep => ahead_of_itemStep hstep) trivial h

/-- The brackets around a group, and what the items between them form. -/
inductive Enclose : TokenKind → TokenKind → (List Pattern → Pattern) → Prop
  | list : Enclose .listStart .listEnd .sequence
  | angle : Enclose .angleStart .angleEnd .parallel

variable {opener : Token} {opens closes : TokenKind} {make : List Pattern → Pattern}

/-- What ends a group is a closing bracket. -/
theorem Enclose.isCloser (h : Enclose opens closes make) : closes.isCloser = true := by
  cases h <;> rfl

/-- Where brackets open a group and its items are read up to the closing one, the
atom is the group. -/
theorem runs_atomWith_enclosed {group : TokenKind → Token → Parser (List Pattern)}
    (hkinds : Enclose opener.kind closer.kind make) (hhead : c.ahead.head? = some opener)
    (hgroup : Runs (group closer.kind opener) c.next ps c')
    (hcloser : c'.ahead.head? = some closer) :
    Runs (atomWith group) c (make ps) c'.next := by
  refine runs_advance_bind.mpr ⟨opener, hhead, ?_⟩
  have hclose (a : Pattern) : Runs (advance >>= fun _ => pure a) c' a c'.next :=
    runs_advance_bind.mpr ⟨closer, hcloser, runs_pure.mpr ⟨rfl, rfl⟩⟩
  generalize closer.kind = closes at hkinds hgroup
  obtain ⟨opens, text, place⟩ := opener
  cases hkinds with
  | list => exact runs_bind.mpr ⟨ps, c', hgroup, hclose _⟩
  | angle => exact runs_bind.mpr ⟨ps, c', hgroup, hclose _⟩

/-- There are no suffixes where the words end. -/
theorem runs_suffixes_end (p : Pattern) (h : c.ahead = []) : Runs (suffixes p) c p c := by
  refine runs_ahead_bind.mpr (runs_loop_succ.mpr (.inr (runs_peek_bind.mpr ?_)))
  rw [h]
  exact runs_pure.mpr ⟨rfl, rfl⟩

/-- An opening bracket begins an atom. -/
theorem runs_itemStep_enclosed {group : TokenKind → Token → Parser (List Pattern)}
    {atom p : Pattern} {d : Cursor} (hkinds : Enclose opener.kind closes make)
    (hhead : c.ahead.head? = some opener) (hatom : Runs (atomWith group) c atom d)
    (hsuffixes : Runs (suffixes atom) d p c') :
    Runs (itemStep transforms group none []) c (.inl [p]) c' := by
  have hkind : opener.kind.isCloser = false ∧ (opener.kind == .dot) = false ∧
      opener.kind.isSuffix = false := by
    generalize opener.kind = opens at hkinds
    cases hkinds <;> decide
  refine runs_peek_bind.mpr ?_
  rw [hhead]
  simp only [hkind.1, hkind.2.1, hkind.2.2, Bool.false_eq_true, if_false]
  refine runs_bind.mpr ⟨atom, d, hatom, ?_⟩
  exact runs_bind.mpr ⟨p, c', hsuffixes, runs_pure.mpr ⟨rfl, rfl⟩⟩

/-- The words of a sequence in brackets form a sequence of one group, which has
the same items. -/
theorem runs_pattern_enclosed (opener closer : Token) {ts : List Token} {d : Cursor}
    (hkinds : Enclose opener.kind closer.kind make)
    (h : Runs (pattern transforms) (Cursor.start ts) (.sequence ps) d) :
    ∃ e, Runs (pattern transforms) (Cursor.start (opener :: (ts ++ [closer])))
      (.sequence [make ps]) e := by
  obtain ⟨items, c', hitems, hdone⟩ := runs_bind.mp h
  obtain ⟨hsame, rfl⟩ := runs_pure.mp hdone
  obtain rfl := Pattern.sequence.inj hsame
  replace hitems := runs_ahead_bind.mp hitems
  have hend := ahead_of_items hitems
  let start := Cursor.start (opener :: (ts ++ [closer]))
  let last := (c'.between [opener] [closer]).next
  have hlast : last.ahead = [] := by simp [last, Cursor.between, hend]
  have hgroup : Runs (itemsWithin transforms start.ahead.length (some (closer.kind, opener)))
      start.next items (c'.between [opener] [closer]) := by
    refine stays_itemsWithin hkinds.isCloser transforms ?_ none opener _ items c' hitems
    simp [start, Cursor.start]
  have hcloser : (c'.between [opener] [closer]).ahead.head? = some closer := by
    simp [Cursor.between, hend]
  have hatom : Runs (atomWith fun closes opener =>
      itemsWithin transforms start.ahead.length (some (closes, opener))) start (make items) last :=
    runs_atomWith_enclosed hkinds rfl hgroup hcloser
  refine ⟨last, runs_bind.mpr ⟨[make items], last, runs_ahead_bind.mpr ?_, by simp⟩⟩
  refine runs_ahead_bind.mpr (runs_loop_succ.mpr (.inl ⟨[make items], last, ?_, ?_⟩))
  · exact runs_itemStep_enclosed hkinds rfl hatom (runs_suffixes_end _ hlast)
  · refine runs_loop_succ.mpr (.inr (runs_peek_bind.mpr ?_))
    rw [hlast]
    exact runs_pure.mpr ⟨rfl, rfl⟩

/-- A text that stands for a sequence stands, in brackets, for a sequence of one
group. -/
theorem parse_enclosed {text : String} (left right : Char)
    (h : parse transforms text = .ok (.sequence ps))
    (hleft : TokenKind.ofStructural? left = some opens)
    (hright : TokenKind.ofStructural? right = some closes) (hkinds : Enclose opens closes make) :
    parse transforms (String.singleton left ++ text ++ String.singleton right) =
      .ok (.sequence [make ps]) := by
  have hpoint : right ≠ '.' := by
    rintro rfl
    have hdot : closes = .dot := (Option.some.inj hright).symm
    subst hdot
    exact absurd hkinds nofun
  obtain ⟨ts, htokens, hrun⟩ := runs_of_parse h
  have hmoved := (moves_pattern (g := (· + 1)) transforms).runs hrun
  rw [Cursor.moved_start] at hmoved
  obtain ⟨e, he⟩ := runs_pattern_enclosed ⟨opens, String.singleton left, 0⟩
    ⟨closes, String.singleton right, (text.length + 1 : Nat)⟩ hkinds hmoved
  have hresult := congrArg Prod.fst he
  simp only [parse, tokenize_bracketed htokens hleft hright hpoint]
  unfold parseTokens
  rw [hresult]

end Parser

/-! ## Playing -/

/-- **The implicit bracket.**  Square brackets around a text form a sequence of
what it stands for, which plays the same, and angle brackets form a group of its
parts that take turns. -/
theorem parse_bracketed {transforms : Registry Transform} {text : String} {p : Pattern}
    (h : parse transforms text = .ok p) :
    ∃ children, p = .sequence children ∧
      parse transforms ("[" ++ text ++ "]") = .ok (.sequence [p]) ∧
      parse transforms ("<" ++ text ++ ">") = .ok (.sequence [.parallel children]) ∧
      ∀ (perf : Performance) (cycle : Int) (arc : Option Arc),
        perf.query (.sequence [p]) cycle arc = perf.query p cycle arc := by
  obtain ⟨ts, -, hrun⟩ := Parser.runs_of_parse h
  obtain ⟨children, _, -, hdone⟩ := Parser.runs_bind.mp hrun
  obtain ⟨rfl, -⟩ := Parser.runs_pure.mp hdone
  have hsquare := Parser.parse_enclosed '[' ']' h rfl rfl .list
  have hangle := Parser.parse_enclosed '<' '>' h rfl rfl .angle
  refine ⟨children, rfl, hsquare, hangle, fun perf cycle arc => ?_⟩
  simp only [Performance.query, Pattern.eventsIn, Pattern.render_singleton]

/-- A rhythm without its turn, a call inside a call, and a modulation without its
rate, which a bracket ends. -/
theorem parse_bracketed_calls :
    ∃ p children, parse Transform.builtin "bd/8:3 . every 2 fast 3 <a 5>~2" = .ok p ∧
      p.canonicalText = "\"bd\" / 8 : 3 : 0 . every 2 fast 3 < \"a\" 5 > ~ 2 1" ∧
      p = .sequence children ∧
      parse Transform.builtin ("[" ++ "bd/8:3 . every 2 fast 3 <a 5>~2" ++ "]") =
        .ok (.sequence [p]) ∧
      parse Transform.builtin ("<" ++ "bd/8:3 . every 2 fast 3 <a 5>~2" ++ ">") =
        .ok (.sequence [.parallel children]) ∧
      Performance.default.query (.sequence [p]) (-3) none =
        Performance.default.query p (-3) none := by
  have hread : (parse Transform.builtin "bd/8:3 . every 2 fast 3 <a 5>~2").toOption.map
      Pattern.canonicalText =
        some "\"bd\" / 8 : 3 : 0 . every 2 fast 3 < \"a\" 5 > ~ 2 1" := by
    decide +kernel
  obtain ⟨p, hp, htext⟩ := ok_of_toOption_map hread
  obtain ⟨children, hchildren, hsquare, hangle, hplays⟩ := parse_bracketed hp
  exact ⟨p, children, hp, htext, hchildren, hsquare, hangle, hplays Performance.default (-3) none⟩

end Ostinato
