import Ostinato.Proofs.Notation.Places
import Ostinato.Proofs.Notation.Runs

/-!
# Ostinato.Proofs.Notation.Moving

Readers do not look at the places of words.

Words at other places are read alike: a reader gives the same result, or
complains about the same words, and ends behind the same words
(`Parser.Moves`).  Readers take words from the cursor and from each other, so
what a reader is asked to do is moved along with the words ahead; all else that
they pass on is the same in both runs.
-/

namespace Ostinato

variable {g : Int → Int}

namespace ParseError

/-- The same complaint about words at other places. -/
def moved (g : Int → Int) : ParseError → ParseError
  | unexpectedEnd => unexpectedEnd
  | numberExpected after found => numberExpected (after.moved g) (found.map (Token.moved g))
  | unclosed t => unclosed (t.moved g)
  | unmatched t => unmatched (t.moved g)
  | danglingColon t => danglingColon (t.moved g)
  | nothingBefore t => nothingBefore (t.moved g)
  | unexpected t => unexpected (t.moved g)
  | moduloByZero t => moduloByZero (t.moved g)
  | stepsExpected t => stepsExpected (t.moved g)
  | rhythmOutOfRange t => rhythmOutOfRange (t.moved g)
  | rhythmFault t cause => rhythmFault (t.moved g) cause
  | nothingToTransform t => nothingToTransform (t.moved g)
  | nameExpected t => nameExpected (t.moved g)
  | unknownTransform t => unknownTransform (t.moved g)
  | tooFewOperands name t fewest given => tooFewOperands name (t.moved g) fewest given
  | tooManyOperands name t => tooManyOperands name (t.moved g)
  | operandFault name t cause => operandFault name (t.moved g) cause
  | fault cause => fault cause

/-- A complaint about words at other places has its place moved as well. -/
theorem position_moved (e : ParseError) : (e.moved g).position = e.position.map g := by
  cases e with
  | numberExpected after found => cases found <;> rfl
  | _ => rfl

end ParseError

/-- The same place between words at other places. -/
def Cursor.moved (g : Int → Int) (c : Cursor) : Cursor :=
  { c with passed := c.passed.map (Token.moved g), ahead := c.ahead.map (Token.moved g) }

/-- Reading starts before the same words at other places. -/
theorem Cursor.moved_start (ts : List Token) :
    (Cursor.start ts).moved g = Cursor.start (ts.map (Token.moved g)) := rfl

namespace Parser

variable {α β : Type} {p q : Parser α}

/-- Between words at other places, the second reader does what the first one
does. -/
def Moves (g : Int → Int) (p q : Parser α) : Prop :=
  ∀ c : Cursor, q.run.run (c.moved g) =
    ((p.run.run c).1.mapError (ParseError.moved g), (p.run.run c).2.moved g)

/-! ## Building readers -/

theorem moves_pure (a : α) : Moves g (pure a) (pure a) := fun _ => rfl

/-- A complaint is made about the word at its other place. -/
theorem moves_throw (e : ParseError) : Moves g (throw e : Parser α) (throw (e.moved g)) :=
  fun _ => rfl

/-- Readers in a row do the same at other places if each does. -/
theorem moves_bind {f f' : α → Parser β} (hp : Moves g p q) (hf : ∀ a, Moves g (f a) (f' a)) :
    Moves g (p >>= f) (q >>= f') := by
  intro c
  rw [run_bind, run_bind, hp c]
  rcases p.run.run c with ⟨e | a, d⟩
  · rfl
  · exact hf a d

/-- A test picks readers that do the same, however it turns out. -/
theorem moves_ite {P : Prop} [Decidable P] {p' q' : Parser α} (hp : Moves g p q)
    (hp' : Moves g p' q') : Moves g (if P then p else p') (if P then q else q') := by
  split
  · exact hp
  · exact hp'

/-- A refusal in front of a reader. -/
theorem moves_guard {P : Prop} [Decidable P] {e : ParseError} {f f' : Unit → Parser α}
    (h : Moves g (f ()) (f' ())) :
    Moves g (if P then throw e >>= f else f ()) (if P then throw (e.moved g) >>= f' else f' ()) :=
  moves_ite (fun _ => rfl) h

/-- How many modulations are being read does not depend on places. -/
theorem moves_deeper (hp : Moves g p q) : Moves g (deeper p) (deeper q) := by
  intro c
  have hinner := hp { c with depth := c.depth + 1 }
  simp only [Cursor.moved] at hinner
  simp only [run_deeper, Cursor.moved, hinner]

/-! ## Primitive readers -/

theorem moves_get_bind {f f' : Cursor → Parser β} (h : ∀ c, Moves g (f c) (f' (c.moved g))) :
    Moves g (get >>= f) (get >>= f') := fun c => h c c

/-- A reader that looks at all words ahead sees them at their other places. -/
theorem moves_ahead_bind {f f' : List Token → Parser β}
    (h : ∀ ts, Moves g (f ts) (f' (ts.map (Token.moved g)))) :
    Moves g (ahead >>= f) (ahead >>= f') := fun c => h c.ahead c

/-- So does one that looks at the next word. -/
theorem moves_peek_bind {f f' : Option Token → Parser β}
    (h : ∀ t, Moves g (f t) (f' (t.map (Token.moved g)))) :
    Moves g (peek >>= f) (peek >>= f') := by
  intro c
  have hrun := h c.ahead.head? c
  rw [← List.head?_map] at hrun
  exact hrun

/-- Whether words begin with a number depends on their kinds alone. -/
theorem startsNumber_moved (ts : List Token) :
    startsNumber (ts.map (Token.moved g)) = startsNumber ts := by
  rcases ts with _ | ⟨t, _ | ⟨u, us⟩⟩ <;> rfl

theorem moves_atNumber : Moves g atNumber atNumber := by
  refine moves_ahead_bind fun ts => ?_
  rw [startsNumber_moved]
  exact moves_pure _

/-- A word that is passed is the word at its other place. -/
theorem moves_advance_bind {f f' : Token → Parser β}
    (h : ∀ t, Moves g (f t) (f' (t.moved g))) : Moves g (advance >>= f) (advance >>= f') := by
  rintro ⟨passed, _ | ⟨t, ts⟩, depth, modulations⟩
  · rfl
  · exact h t ⟨t :: passed, ts, depth, modulations⟩

/-- What a word spells does not depend on its place. -/
theorem moves_spelled (t : Token) : Moves g (spelled t) (spelled (t.moved g)) := by
  unfold spelled
  simp only [Token.moved]
  split
  · exact moves_pure _
  · exact moves_throw _

/-- A repetition does the same at other places if its steps do. -/
theorem moves_loop {step : α → Parser (α ⊕ β)} {step' : α → Parser (α ⊕ β)}
    (h : ∀ a, Moves g (step a) (step' a)) (limit : Nat) (a : α) :
    Moves g (loop step limit a) (loop step' limit a) := by
  induction limit generalizing a with
  | zero => exact moves_throw _
  | succ limit ih =>
    refine moves_bind (h a) fun r => ?_
    cases r with
    | inl a' => exact ih a'
    | inr b => exact moves_pure b

/-- There are as many words ahead at other places, so the limit of the repetition is
the same. -/
theorem moves_repeatUntil {step step' : α → Parser (α ⊕ β)}
    (h : ∀ a, Moves g (step a) (step' a)) (a : α) :
    Moves g (repeatUntil step a) (repeatUntil step' a) := by
  refine moves_ahead_bind fun ts => ?_
  rw [List.length_map]
  exact moves_loop h _ a

/-! ## Numbers and suffixes -/

/-- Whether a sign belongs to a number depends on the kind of the next word. -/
theorem moves_takeSign (isSigned : Bool) : Moves g (takeSign isSigned) (takeSign isSigned) := by
  refine moves_get_bind fun c => ?_
  have hsign : ((c.moved g).ahead.head?.any fun t => t.kind == .minus) =
      c.ahead.head?.any fun t => t.kind == .minus := by
    simp only [Cursor.moved, List.head?_map, Option.any_map]
    rfl
  rw [hsign]
  exact moves_ite (moves_advance_bind fun _ => moves_pure true) (moves_pure false)

/-- A number is read alike, or missed about the word at its other place. -/
theorem moves_expectNumber (after : Token) (isSigned : Bool) :
    Moves g (expectNumber after isSigned) (expectNumber (after.moved g) isSigned) := by
  refine moves_bind (moves_takeSign isSigned) fun negative => moves_peek_bind fun t => ?_
  cases t with
  | none => exact moves_throw (.numberExpected after none)
  | some t =>
    refine moves_ite ?_ (moves_throw (.numberExpected after (some t)))
    exact moves_advance_bind fun _ => moves_bind (moves_spelled t) fun x => moves_pure _

/-- A rotation is read alike at other places. -/
theorem moves_rotation : Moves g rotation rotation := by
  refine moves_peek_bind fun t => ?_
  cases t with
  | none => exact moves_pure _
  | some t =>
    exact moves_ite (moves_advance_bind fun colon => moves_expectNumber colon true)
      (moves_pure _)

/-- A part of a rhythm is taken alike, or complained about at the slash in its other
place. -/
theorem moves_rhythmPart (slash : Token) (what : String) (x : Number) :
    Moves g (rhythmPart slash what x) (rhythmPart (slash.moved g) what x) := by
  unfold rhythmPart
  split
  · exact moves_pure _
  · split
    · exact moves_throw (.rhythmFault slash _)
    · exact moves_throw (.fault _)

/-- A rhythm is read alike at other places. -/
theorem moves_euclid (child : Pattern) (slash : Token) :
    Moves g (euclid child slash) (euclid child (slash.moved g)) := by
  refine moves_bind (moves_expectNumber slash false) fun steps => moves_peek_bind fun t => ?_
  cases t with
  | none => exact moves_throw (.stepsExpected slash)
  | some t =>
    exact moves_guard (e := .stepsExpected slash) <| moves_advance_bind fun colon =>
      moves_bind (moves_expectNumber colon false) fun pulses =>
      moves_bind moves_rotation fun turned =>
      moves_bind (moves_rhythmPart slash _ steps) fun steps =>
      moves_bind (moves_rhythmPart slash _ pulses) fun pulses =>
      moves_bind (moves_rhythmPart slash _ turned) fun turned =>
      moves_guard (e := .rhythmOutOfRange slash) (moves_pure _)

/-- So are the operands of a modulation. -/
theorem moves_modulationOperands (tilde : Token) :
    Moves g (modulationOperands tilde) (modulationOperands (tilde.moved g)) :=
  moves_bind (moves_expectNumber tilde false) fun _ => moves_bind moves_atNumber fun _ =>
    moves_ite (moves_bind (moves_expectNumber tilde false) fun _ => moves_pure _) (moves_pure _)

/-- So is a modulation, whose operands the cursor keeps without places. -/
theorem moves_modulation (child : Pattern) (tilde : Token) :
    Moves g (modulation child tilde) (modulation child (tilde.moved g)) := by
  refine moves_bind (moves_deeper (moves_modulationOperands tilde)) fun operands => ?_
  exact moves_bind (fun c => rfl) fun _ => moves_pure _

/-- So is a suffix. -/
theorem moves_suffixStep (child : Pattern) : Moves g (suffixStep child) (suffixStep child) := by
  refine moves_peek_bind fun t => ?_
  cases t with
  | none => exact moves_pure _
  | some t =>
    refine moves_ite (moves_pure _) (moves_advance_bind fun _ => ?_)
    have hkind : (t.moved g).kind = t.kind := rfl
    simp only [hkind]
    split
    · exact moves_bind (moves_euclid child t) fun _ => moves_pure _
    · exact moves_bind (moves_modulation child t) fun _ => moves_pure _
    · exact moves_bind (moves_expectNumber t false) fun _ =>
        moves_guard (e := .moduloByZero t) (moves_pure _)

/-- So are all suffixes of a child. -/
theorem moves_suffixes (child : Pattern) : Moves g (suffixes child) (suffixes child) :=
  moves_repeatUntil moves_suffixStep child

/-! ## Atoms, calls and groups -/

/-- A name is put together from the texts of its words, not from their places. -/
theorem moves_variantStep (name : String) : Moves g (variantStep name) (variantStep name) := by
  refine moves_ahead_bind fun ts => ?_
  rcases ts with _ | ⟨colon, _ | ⟨word, rest⟩⟩
  · exact moves_pure _
  · exact moves_ite (moves_pure _) (moves_throw (.danglingColon colon))
  · exact moves_ite (moves_pure _) <| moves_guard (e := .danglingColon colon) <|
      moves_advance_bind fun _ => moves_advance_bind fun _ => moves_pure _

/-- Groups that begin at words at other places are read alike. -/
def MovesGroups (g : Int → Int) (group group' : TokenKind → Token → Parser (List Pattern)) : Prop :=
  ∀ closer opener, Moves g (group closer opener) (group' closer (opener.moved g))

/-- An atom is read alike at other places if groups are. -/
theorem moves_atomWith {group group' : TokenKind → Token → Parser (List Pattern)}
    (h : MovesGroups g group group') : Moves g (atomWith group) (atomWith group') := by
  refine moves_advance_bind fun t => ?_
  have hkind : (t.moved g).kind = t.kind := rfl
  simp only [hkind]
  cases t.kind with
  | number => exact moves_bind (moves_spelled t) fun _ => moves_pure _
  | string => exact moves_pure _
  | symbol => exact moves_bind (moves_repeatUntil moves_variantStep _) fun _ => moves_pure _
  | listStart | angleStart =>
    exact moves_bind (h _ t) fun _ => moves_advance_bind fun _ => moves_pure _
  | slash => exact moves_euclid _ t
  | minus =>
    refine moves_peek_bind fun next => ?_
    cases next with
    | none => exact moves_throw (.nothingBefore t)
    | some next =>
      exact moves_guard (e := .nothingBefore t) <| moves_advance_bind fun u =>
        moves_bind (moves_spelled u) fun _ => moves_pure _
  | star | plus | modulo | tilde => exact moves_throw (.nothingBefore t)
  | listEnd | angleEnd | dot | colon => exact moves_throw (.unexpected t)

/-- An operand is read alike at other places. -/
theorem moves_operandStep (t : Transform) (name : Token) (operands : List Value) :
    Moves g (operandStep t name operands) (operandStep t (name.moved g) operands) :=
  moves_bind moves_atNumber fun _ =>
    moves_ite (moves_bind (moves_expectNumber name true) fun _ => moves_pure _) (moves_pure _)

/-- A further value is refused at its other place. -/
theorem moves_refuseExtra (name : String) : Moves g (refuseExtra name) (refuseExtra name) := by
  refine moves_peek_bind fun t => ?_
  cases t with
  | none => exact moves_pure _
  | some t =>
    exact moves_bind moves_atNumber fun _ =>
      moves_ite (moves_throw (.tooManyOperands name t)) (moves_pure _)

/-- A check looks at the operands alone; what it refuses is complained about at the
name in its other place. -/
theorem moves_checkOperands (t : Transform) (name : String) (token : Token)
    (operands : List Value) :
    Moves g (checkOperands t name token operands)
      (checkOperands t name (token.moved g) operands) := by
  unfold checkOperands
  split
  · exact moves_pure _
  · split
    · exact moves_pure _
    · split
      · exact moves_throw (.operandFault name token _)
      · exact moves_throw (.fault _)

variable (transforms : Registry Transform)

/-- A call is read alike at other places, by induction on the limit for calls inside
it. -/
theorem moves_callWithin (limit : Nat) (after : Token) :
    Moves g (callWithin transforms limit after) (callWithin transforms limit (after.moved g)) := by
  induction limit generalizing after with
  | zero => exact moves_throw _
  | succ limit ih =>
    refine moves_peek_bind fun token => ?_
    cases token with
    | none => exact moves_throw (.nameExpected after)
    | some token =>
      refine moves_guard (e := .nameExpected after) (moves_advance_bind fun _ => ?_)
      have htext : (token.moved g).text = token.text := rfl
      dsimp only
      simp only [htext]
      cases transforms.get? (Unicode.lowercase token.text) with
      | none => exact moves_throw (.unknownTransform token)
      | some t =>
        refine moves_bind (moves_repeatUntil (moves_operandStep t token) []) fun operands => ?_
        refine moves_guard (e := .tooFewOperands _ token _ _) (moves_ite ?_ ?_)
        · exact moves_bind (ih token) fun inner =>
            moves_bind (moves_checkOperands t _ token _) fun _ => moves_pure _
        · exact moves_bind (moves_refuseExtra _) fun _ =>
            moves_bind (moves_checkOperands t _ token _) fun _ => moves_pure _

/-- So is a transform of what stands before it. -/
theorem moves_transform (items : List Pattern) (dot : Token) :
    Moves g (transform transforms items dot) (transform transforms items (dot.moved g)) := by
  cases items with
  | nil => exact moves_throw (.nothingToTransform dot)
  | cons first others =>
    refine moves_bind (moves_ahead_bind fun ts => ?_) fun _ => moves_pure _
    rw [List.length_map]
    exact moves_callWithin transforms _ dot

/-- One more part of a group is read alike at other places if groups are. -/
theorem moves_itemStep {group group' : TokenKind → Token → Parser (List Pattern)}
    (h : MovesGroups g group group') (enclosing : Option (TokenKind × Token))
    (items : List Pattern) :
    Moves g (itemStep transforms group enclosing items)
      (itemStep transforms group' (enclosing.map (Prod.map id (Token.moved g))) items) := by
  refine moves_peek_bind fun t => ?_
  cases t with
  | none =>
    cases enclosing with
    | none => exact moves_pure _
    | some e => exact moves_throw (.unclosed e.2)
  | some t =>
    refine moves_ite ?_ (moves_ite ?_ ?_)
    · cases enclosing <;> exact moves_ite (moves_pure _) (moves_throw (.unmatched t))
    · exact moves_advance_bind fun _ =>
        moves_bind (moves_transform transforms _ t) fun _ => moves_pure _
    · have hkind : (t.moved g).kind = t.kind := rfl
      simp only [hkind]
      split
      · exact moves_bind (moves_suffixes _) fun _ => moves_pure _
      · exact moves_bind (moves_atomWith h) fun atom =>
          moves_bind (moves_suffixes atom) fun _ => moves_pure _

/-- So are items, by induction on the limit for groups inside groups. -/
theorem moves_itemsWithin (limit : Nat) (enclosing : Option (TokenKind × Token)) :
    Moves g (itemsWithin transforms limit enclosing)
      (itemsWithin transforms limit (enclosing.map (Prod.map id (Token.moved g)))) := by
  induction limit generalizing enclosing with
  | zero => exact moves_throw _
  | succ limit ih =>
    refine moves_repeatUntil (moves_itemStep transforms ?_ enclosing) []
    exact fun closer opener => ih (some (closer, opener))

/-- So is a whole pattern. -/
theorem moves_pattern : Moves g (pattern transforms) (pattern transforms) := by
  refine moves_bind (moves_ahead_bind fun ts => ?_) fun _ => moves_pure _
  rw [List.length_map]
  exact moves_itemsWithin transforms _ none

end Parser

/-- Words at other places form the same pattern, or are refused with the same
complaint about the same words. -/
theorem parseTokens_moved (transforms : Registry Transform) (ts : List Token) :
    (parseTokens transforms (ts.map (Token.moved g))).1 =
      (parseTokens transforms ts).1.mapError (ParseError.moved g) :=
  congrArg Prod.fst (Parser.moves_pattern transforms (Cursor.start ts))

end Ostinato
