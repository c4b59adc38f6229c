import Ostinato.Proofs.Notation.Runs

/-!
# Ostinato.Proofs.Notation.Keeping

Where readers leave the cursor.

Whether it gives a result or fails, every reader ends after some of the words
that were ahead, and inside as many modulations as it began
(`Parser.Keeps`).  What holds of all words ahead therefore still holds after
any reader (`Cursor.Leads.forall_ahead`).
-/

namespace Ostinato

namespace Cursor

/-- A place further on, inside as many modulations. -/
def Leads (c c' : Cursor) : Prop :=
  c'.depth = c.depth ∧ ∃ mid, c.ahead = mid ++ c'.ahead ∧ c'.passed = mid.reverse ++ c.passed

theorem Leads.refl (c : Cursor) : c.Leads c := ⟨rfl, [], rfl, rfl⟩

/-- What is further on from a place further on is further on. -/
theorem Leads.trans {c d e : Cursor} (h : c.Leads d) (h' : d.Leads e) : c.Leads e := by
  obtain ⟨hdepth, mid, hahead, hpassed⟩ := h
  obtain ⟨hdepth', mid', hahead', hpassed'⟩ := h'
  refine ⟨hdepth'.trans hdepth, mid ++ mid', ?_, ?_⟩
  · rw [hahead, hahead', List.append_assoc]
  · rw [hpassed', hpassed, List.reverse_append, List.append_assoc]

/-- Behind the next word is further on. -/
theorem leads_next (c : Cursor) : c.Leads c.next := by
  refine ⟨rfl, c.ahead.head?.toList, ?_, ?_⟩
  · cases hahead : c.ahead <;> simp [hahead]
  · cases hahead : c.ahead <;> simp [next, hahead]

/-- The words ahead are among those that were. -/
theorem Leads.forall_ahead {c c' : Cursor} (h : c.Leads c') {P : Token → Prop}
    (hP : ∀ t ∈ c.ahead, P t) : ∀ t ∈ c'.ahead, P t := by
  obtain ⟨-, mid, hahead, -⟩ := h
  intro t ht
  exact hP t (by rw [hahead]; exact List.mem_append_right mid ht)

end Cursor

namespace Parser

variable {α β : Type} {p : Parser α} {f : α → Parser β}

/-- The reader ends further on, inside as many modulations, also if it
fails. -/
def Keeps (p : Parser α) : Prop := ∀ c : Cursor, c.Leads (p.run.run c).2

/-- A reader that gives a result ends further on. -/
theorem Keeps.of_runs (h : Keeps p) {c c' : Cursor} {a : α} (hrun : Runs p c a c') :
    c.Leads c' := by
  have hleads := h c
  rwa [hrun] at hleads

/-! ## Building readers -/

theorem keeps_pure (a : α) : Keeps (pure a : Parser α) := fun c => Cursor.Leads.refl c

theorem keeps_throw (e : ParseError) : Keeps (throw e : Parser α) := fun c => Cursor.Leads.refl c

/-- Readers in a row end further on if each does. -/
theorem keeps_bind (hp : Keeps p) (hf : ∀ a, Keeps (f a)) : Keeps (p >>= f) := by
  intro c
  have hfirst := hp c
  rw [run_bind]
  revert hfirst
  rcases p.run.run c with ⟨e | a, d⟩
  · exact id
  · exact fun hfirst => hfirst.trans (hf a d)

/-- So does the reader that a test picks. -/
theorem keeps_ite {P : Prop} [Decidable P] {q : Parser α} (hp : Keeps p) (hq : Keeps q) :
    Keeps (if P then p else q) := by
  split
  · exact hp
  · exact hq

/-- A refusal in front of a reader. -/
theorem keeps_guard {P : Prop} [Decidable P] {e : ParseError} {q : Unit → Parser α}
    (h : Keeps (q ())) : Keeps (if P then throw e >>= q else q ()) :=
  keeps_ite (keeps_bind (keeps_throw e) fun _ => h) h

/-- Inside one more modulation a reader leaves as many as it began with. -/
theorem keeps_deeper (hp : Keeps p) : Keeps (deeper p) := by
  intro c
  obtain ⟨hdepth, mid, hahead, hpassed⟩ := hp { c with depth := c.depth + 1 }
  refine ⟨?_, mid, hahead, hpassed⟩
  show (p.run.run { c with depth := c.depth + 1 }).2.depth - 1 = c.depth
  rw [hdepth]
  exact Int.add_sub_cancel c.depth 1

/-- A repetition ends further on if each step does. -/
theorem keeps_loop {step : α → Parser (α ⊕ β)} (h : ∀ a, Keeps (step a)) (limit : Nat) (a : α) :
    Keeps (loop step limit a) := by
  induction limit generalizing a with
  | zero => exact keeps_throw _
  | succ limit ih =>
    refine keeps_bind (h a) fun r => ?_
    cases r with
    | inl a' => exact ih a'
    | inr b => exact keeps_pure b

/-! ## Primitive readers -/

theorem keeps_get : Keeps get := fun c => Cursor.Leads.refl c

theorem keeps_ahead : Keeps ahead := fun c => Cursor.Leads.refl c

theorem keeps_peek : Keeps peek := fun c => Cursor.Leads.refl c

theorem keeps_peekAt (offset : Int) : Keeps (peekAt offset) :=
  keeps_bind keeps_get fun _ => keeps_ite (keeps_pure _) (keeps_ite (keeps_pure _) (keeps_throw _))

theorem keeps_atNumber : Keeps atNumber := fun c => Cursor.Leads.refl c

/-- Passing a word ends behind it, or fails without moving. -/
theorem keeps_advance : Keeps advance := by
  intro c
  rcases c with ⟨passed, _ | ⟨t, ts⟩, depth, modulations⟩
  · exact Cursor.Leads.refl _
  · exact Cursor.leads_next ⟨passed, t :: ts, depth, modulations⟩

/-- Spelling a number passes nothing. -/
theorem keeps_spelled (t : Token) : Keeps (spelled t) := by
  unfold spelled
  split
  · exact keeps_pure _
  · exact keeps_throw _

/-- Repeating until there is a result ends further on if each step does. -/
theorem keeps_repeatUntil {step : α → Parser (α ⊕ β)} (h : ∀ a, Keeps (step a)) (a : α) :
    Keeps (repeatUntil step a) :=
  keeps_bind keeps_ahead fun _ => keeps_loop h _ a

/-! ## Numbers and suffixes -/

/-- Passing a sign ends further on. -/
theorem keeps_takeSign (isSigned : Bool) : Keeps (takeSign isSigned) :=
  keeps_bind keeps_get fun _ =>
    keeps_ite (keeps_bind keeps_advance fun _ => keeps_pure true) (keeps_pure false)

/-- So does reading a number. -/
theorem keeps_expectNumber (after : Token) (isSigned : Bool) :
    Keeps (expectNumber after isSigned) := by
  refine keeps_bind (keeps_takeSign isSigned) fun negative => keeps_bind keeps_peek fun t => ?_
  cases t with
  | none => exact keeps_throw _
  | some t =>
    refine keeps_ite ?_ (keeps_throw _)
    exact keeps_bind keeps_advance fun _ => keeps_bind (keeps_spelled t) fun x => keeps_pure _

/-- So does a rotation. -/
theorem keeps_rotation : Keeps rotation := by
  refine keeps_bind keeps_peek fun t => ?_
  cases t with
  | none => exact keeps_pure _
  | some t =>
    exact keeps_ite (keeps_bind keeps_advance fun colon => keeps_expectNumber colon true)
      (keeps_pure _)

/-- A part of a rhythm passes nothing. -/
theorem keeps_rhythmPart (slash : Token) (what : String) (x : Number) :
    Keeps (rhythmPart slash what x) := by
  unfold rhythmPart
  split
  · exact keeps_pure _
  · exact keeps_throw _

/-- A rhythm ends further on. -/
theorem keeps_euclid (child : Pattern) (slash : Token) : Keeps (euclid child slash) := by
  refine keeps_bind (keeps_expectNumber slash false) fun steps => keeps_bind keeps_peek fun t => ?_
  cases t with
  | none => exact keeps_throw _
  | some t =>
    exact keeps_guard <| keeps_bind keeps_advance fun colon =>
      keeps_bind (keeps_expectNumber colon false) fun pulses =>
      keeps_bind keeps_rotation fun turned =>
      keeps_bind (keeps_rhythmPart slash _ steps) fun steps =>
      keeps_bind (keeps_rhythmPart slash _ pulses) fun pulses =>
      keeps_bind (keeps_rhythmPart slash _ turned) fun turned => keeps_guard (keeps_pure _)

/-- So do the operands of a modulation. -/
theorem keeps_modulationOperands (tilde : Token) : Keeps (modulationOperands tilde) :=
  keeps_bind (keeps_expectNumber tilde false) fun _ => keeps_bind keeps_atNumber fun _ =>
    keeps_ite (keeps_bind (keeps_expectNumber tilde false) fun _ => keeps_pure _) (keeps_pure _)

/-- A modulation leaves as many modulations as it began with. -/
theorem keeps_modulation (child : Pattern) (tilde : Token) : Keeps (modulation child tilde) := by
  refine keeps_bind (keeps_deeper (keeps_modulationOperands tilde)) fun operands => ?_
  refine keeps_bind (fun c => ⟨rfl, [], rfl, rfl⟩) fun _ => keeps_pure _

/-- A suffix ends further on, if there is one. -/
theorem keeps_suffixStep (child : Pattern) : Keeps (suffixStep child) := by
  refine keeps_bind keeps_peek fun t => ?_
  cases t with
  | none => exact keeps_pure _
  | some t =>
    refine keeps_ite (keeps_pure _) (keeps_bind keeps_advance fun _ => ?_)
    split
    · exact keeps_bind (keeps_euclid child t) fun _ => keeps_pure _
    · exact keeps_bind (keeps_modulation child t) fun _ => keeps_pure _
    · exact keeps_bind (keeps_expectNumber t false) fun _ => keeps_guard (keeps_pure _)

/-- So do all suffixes of a child. -/
theorem keeps_suffixes (child : Pattern) : Keeps (suffixes child) :=
  keeps_repeatUntil keeps_suffixStep child

/-! ## Atoms, calls and groups -/

/-- A colon and a word of a name are passed together. -/
theorem keeps_variantStep (name : String) : Keeps (variantStep name) := by
  refine keeps_bind keeps_ahead fun ts => ?_
  cases ts with
  | nil => exact keeps_pure _
  | cons colon rest =>
    refine keeps_ite (keeps_pure _) ?_
    split
    · exact keeps_guard <| keeps_bind keeps_advance fun _ =>
        keeps_bind keeps_advance fun _ => keeps_pure _
    · exact keeps_throw _

/-- An atom begins with a word. -/
theorem atomWith_eq_advance {group : TokenKind → Token → Parser (List Pattern)}
    (h : ∀ closer opener, Keeps (group closer opener)) :
    ∃ f : Token → Parser Pattern, atomWith group = advance >>= f ∧ ∀ t, Keeps (f t) := by
  refine ⟨_, rfl, fun t => ?_⟩
  dsimp only
  split
  · exact keeps_bind (keeps_spelled t) fun _ => keeps_pure _
  · exact keeps_pure _
  · exact keeps_bind (keeps_repeatUntil keeps_variantStep _) fun _ => keeps_pure _
  · exact keeps_bind (h _ t) fun _ => keeps_bind keeps_advance fun _ => keeps_pure _
  · exact keeps_bind (h _ t) fun _ => keeps_bind keeps_advance fun _ => keeps_pure _
  · exact keeps_euclid _ t
  · refine keeps_bind keeps_peek fun next => ?_
    cases next with
    | none => exact keeps_throw _
    | some next =>
      exact keeps_guard <| keeps_bind keeps_advance fun u =>
        keeps_bind (keeps_spelled u) fun _ => keeps_pure _
  all_goals exact keeps_throw _

/-- An atom ends further on if groups do. -/
theorem keeps_atomWith {group : TokenKind → Token → Parser (List Pattern)}
    (h : ∀ closer opener, Keeps (group closer opener)) : Keeps (atomWith group) := by
  obtain ⟨f, hf, hkeeps⟩ := atomWith_eq_advance h
  rw [hf]
  exact keeps_bind keeps_advance hkeeps

/-- An operand ends further on, if there is one. -/
theorem keeps_operandStep (t : Transform) (name : Token) (operands : List Value) :
    Keeps (operandStep t name operands) :=
  keeps_bind keeps_atNumber fun _ =>
    keeps_ite (keeps_bind (keeps_expectNumber name true) fun _ => keeps_pure _) (keeps_pure _)

/-- A further value is refused without being passed. -/
theorem keeps_refuseExtra (name : String) : Keeps (refuseExtra name) := by
  refine keeps_bind keeps_peek fun t => ?_
  cases t with
  | none => exact keeps_pure _
  | some t => exact keeps_bind keeps_atNumber fun _ => keeps_ite (keeps_throw _) (keeps_pure _)

/-- The check of a transform passes nothing. -/
theorem keeps_checkOperands (t : Transform) (name : String) (token : Token)
    (operands : List Value) : Keeps (checkOperands t name token operands) := by
  unfold checkOperands
  split
  · exact keeps_pure _
  · split
    · exact keeps_pure _
    · exact keeps_throw _

/-- Reads the name of a transform and its operands, where another reader reads a
call inside. -/
def callWith (transforms : Registry Transform) (inner : Token → Parser (String × List Value))
    (after : Token) : Parser (String × List Value) := do
  match ← peek with
  | none => throw (.nameExpected after)
  | some token =>
    if token.kind != .symbol then throw (.nameExpected after)
    let _ ← advance
    let name := Unicode.lowercase token.text
    match transforms.get? name with
    | none => throw (.unknownTransform token)
    | some transform =>
      let operands ← repeatUntil (operandStep transform token) []
      if (operands.length : Int) < transform.fewest then
        throw (.tooFewOperands name token transform.fewest operands.length)
      if transform.nested then
        let (called, calledOperands) ← inner token
        let operands := operands ++ [.call called calledOperands]
        checkOperands transform name token operands
        return (name, operands)
      else
        refuseExtra name
        checkOperands transform name token operands
        return (name, operands)

/-- A call is read with one level of calls less inside it. -/
theorem callWithin_succ (transforms : Registry Transform) (limit : Nat) :
    callWithin transforms (limit + 1) = callWith transforms (callWithin transforms limit) := rfl

/-- A call ends further on if the call inside it does. -/
theorem keeps_callWith {transforms : Registry Transform}
    {inner : Token → Parser (String × List Value)} (h : ∀ token, Keeps (inner token))
    (after : Token) : Keeps (callWith transforms inner after) := by
  refine keeps_bind keeps_peek fun token => ?_
  cases token with
  | none => exact keeps_throw _
  | some token =>
    refine keeps_guard (keeps_bind keeps_advance fun _ => ?_)
    dsimp only
    cases transforms.get? (Unicode.lowercase token.text) with
    | none => exact keeps_throw _
    | some t =>
      refine keeps_bind (keeps_repeatUntil (keeps_operandStep t token) []) fun operands => ?_
      refine keeps_guard (keeps_ite ?_ ?_)
      · exact keeps_bind (h token) fun call =>
          keeps_bind (keeps_checkOperands t _ token _) fun _ => keeps_pure _
      · exact keeps_bind (keeps_refuseExtra _) fun _ =>
          keeps_bind (keeps_checkOperands t _ token _) fun _ => keeps_pure _

/-- So do calls inside calls. -/
theorem keeps_callWithin (transforms : Registry Transform) (limit : Nat) (after : Token) :
    Keeps (callWithin transforms limit after) := by
  induction limit generalizing after with
  | zero => exact keeps_throw _
  | succ limit ih =>
    rw [callWithin_succ]
    exact keeps_callWith ih after

/-- So does a transform of what stands before it. -/
theorem keeps_transform (transforms : Registry Transform) (items : List Pattern) (dot : Token) :
    Keeps (transform transforms items dot) := by
  cases items with
  | nil => exact keeps_throw _
  | cons first others =>
    exact keeps_bind (keeps_bind keeps_ahead fun _ => keeps_callWithin transforms _ dot)
      fun _ => keeps_pure _

/-- One more part of a group ends further on if groups do. -/
theorem keeps_itemStep {transforms : Registry Transform}
    {group : TokenKind → Token → Parser (List Pattern)}
    (h : ∀ closer opener, Keeps (group closer opener)) (enclosing : Option (TokenKind × Token))
    (items : List Pattern) : Keeps (itemStep transforms group enclosing items) := by
  refine keeps_bind keeps_peek fun t => ?_
  cases t with
  | none =>
    cases enclosing with
    | none => exact keeps_pure _
    | some opener => exact keeps_throw _
  | some t =>
    refine keeps_ite (keeps_ite (keeps_pure _) (keeps_throw _)) (keeps_ite ?_ ?_)
    · exact keeps_bind keeps_advance fun _ =>
        keeps_bind (keeps_transform transforms _ t) fun _ => keeps_pure _
    · split
      · exact keeps_bind (keeps_suffixes _) fun _ => keeps_pure _
      · exact keeps_bind (keeps_atomWith h) fun atom =>
          keeps_bind (keeps_suffixes atom) fun _ => keeps_pure _

/-- So do items, with groups inside groups. -/
theorem keeps_itemsWithin (transforms : Registry Transform) (limit : Nat)
    (enclosing : Option (TokenKind × Token)) : Keeps (itemsWithin transforms limit enclosing) := by
  induction limit generalizing enclosing with
  | zero => exact keeps_throw _
  | succ limit ih =>
    exact keeps_repeatUntil (keeps_itemStep (fun closer opener => ih (closer, opener)) enclosing) []

end Parser

end Ostinato
