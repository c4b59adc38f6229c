import Ostinato.Proofs.Notation.Brackets
import Ostinato.Proofs.Notation.Progress

/-!
# Ostinato.Proofs.Notation.Termination

Reading comes to an end, and leaves the cursor in order.

A reader that calls itself is given a limit, the number of words ahead, and
never reaches it, since it passes a word before it calls itself.

1. Readers that agree where few words are ahead agree with one more word ahead
   once that word is passed (`agree_advance_bind`).  An equation in which a
   reader is asked for only then is *guarded* (`Guarded`).
2. A guarded equation has a solution that, with fewer than `n` words ahead, does
   not depend on what stands at the bottom of `n` unfoldings of the equation:
   reading ends before it gets there (`Terminates`, `Guarded.terminates`).
3. A repetition is guarded if each step that goes on passes a word
   (`Advances`), and so are calls inside calls and groups inside groups.
4. Whatever is read and however it ends, the cursor stands further on among the
   same words, inside as many modulations (`Cursor.Precedes`).
-/

namespace Ostinato

namespace Cursor

/-- All words, those before the place and those after it. -/
def tokens (c : Cursor) : List Token := c.passed.reverse ++ c.ahead

/-- All words are those before the place and those ahead. -/
theorem length_tokens (c : Cursor) : c.tokens.length = c.position + c.ahead.length := by
  simp [tokens, position]

/-- The second place is further on among the same words, inside as many
modulations. -/
structure Precedes (c c' : Cursor) : Prop where
  tokens : c'.tokens = c.tokens
  onward : c.position ≤ c'.position
  inside : c'.position ≤ c'.tokens.length
  depth : c'.depth = c.depth

variable {c c' : Cursor}

/-- Further on there are the same words. -/
theorem Leads.tokens (h : c.Leads c') : c'.tokens = c.tokens := by
  obtain ⟨-, mid, hahead, hpassed⟩ := h
  simp [Cursor.tokens, hahead, hpassed]

/-- Each word is before the place or ahead of it, further on as well. -/
theorem Leads.position_add (h : c.Leads c') :
    c'.position + c'.ahead.length = c.position + c.ahead.length := by
  rw [← length_tokens, ← length_tokens, h.tokens]

/-- A reader that leads further on leads so among the same words. -/
theorem Leads.precedes (h : c.Leads c') : c.Precedes c' where
  tokens := h.tokens
  onward := by
    have hshorter := h.length_le
    have hsame := h.position_add
    omega
  inside := by
    rw [length_tokens]
    exact Nat.le_add_right _ _
  depth := h.1

/-- A word was passed if and only if fewer are ahead. -/
theorem Leads.position_lt_iff (h : c.Leads c') :
    c.position < c'.position ↔ c'.ahead.length < c.ahead.length := by
  have hsame := h.position_add
  omega

end Cursor

namespace Parser

variable {α β ι : Type} {n : Nat} {p q : Parser α} {f g : ι → Parser α}

theorem ext_run (h : ∀ c : Cursor, p.run.run c = q.run.run c) : p = q := funext h

theorem run_ahead_bind {f : List Token → Parser α} (c : Cursor) :
    (ahead >>= f).run.run c = (f c.ahead).run.run c := rfl

/-! ## Agreement -/

/-- With fewer than `n` words ahead, the readers do the same. -/
def AgreeBelow (n : Nat) (p q : Parser α) : Prop :=
  ∀ c : Cursor, c.ahead.length < n → p.run.run c = q.run.run c

theorem agree_refl (p : Parser α) : AgreeBelow n p p := fun _ _ => rfl

/-- Readers that agree with more words ahead agree with fewer. -/
theorem agree_mono {m : Nat} (hle : m ≤ n) (h : AgreeBelow n p q) : AgreeBelow m p q :=
  fun c hc => h c (Nat.lt_of_lt_of_le hc hle)

/-- Readers in a row agree if each of them does: the first one leaves no more words
ahead than it found. -/
theorem agree_bind {f g : α → Parser β} (hq : Keeps q) (h : AgreeBelow n p q)
    (hf : ∀ a, AgreeBelow n (f a) (g a)) : AgreeBelow n (p >>= f) (q >>= g) := by
  intro c hc
  have hlater := (hq c).length_le
  rw [run_bind, run_bind, h c hc]
  revert hlater
  rcases q.run.run c with ⟨e | a, d⟩
  · exact fun _ => rfl
  · exact fun hlater => hf a d (Nat.lt_of_le_of_lt hlater hc)

/-- After a word, one word fewer is ahead. -/
theorem agree_advance_bind {f g : Token → Parser β} (h : ∀ t, AgreeBelow n (f t) (g t)) :
    AgreeBelow (n + 1) (advance >>= f) (advance >>= g) := by
  rintro ⟨passed, _ | ⟨t, ts⟩, depth, modulations⟩ hc
  · rfl
  · exact h t ⟨t :: passed, ts, depth, modulations⟩ (Nat.lt_of_succ_lt_succ hc)

/-- A test picks readers that agree, however it turns out. -/
theorem agree_ite {P : Prop} [Decidable P] {p' q' : Parser α} (hp : AgreeBelow n p q)
    (hp' : AgreeBelow n p' q') : AgreeBelow n (if P then p else p') (if P then q else q') := by
  split
  · exact hp
  · exact hp'

/-- A refusal in front of a reader. -/
theorem agree_guard {P : Prop} [Decidable P] {e : ParseError} {f g : Unit → Parser α}
    (h : AgreeBelow n (f ()) (g ())) :
    AgreeBelow n (if P then throw e >>= f else f ()) (if P then throw e >>= g else g ()) :=
  agree_ite (fun _ _ => rfl) h

/-- A repetition agrees with another if their steps do. -/
theorem agree_loop {step step' : α → Parser (α ⊕ β)} (hkeeps : ∀ a, Keeps (step' a))
    (h : ∀ a, AgreeBelow n (step a) (step' a)) (limit : Nat) (a : α) :
    AgreeBelow n (loop step limit a) (loop step' limit a) := by
  induction limit generalizing a with
  | zero => exact agree_refl _
  | succ limit ih =>
    refine agree_bind (hkeeps a) (h a) fun r => ?_
    cases r with
    | inl a' => exact ih a'
    | inr b => exact agree_refl _

/-- So does a repetition until there is a result, whose limit is the same on both
sides. -/
theorem agree_repeatUntil {step step' : α → Parser (α ⊕ β)} (hkeeps : ∀ a, Keeps (step' a))
    (h : ∀ a, AgreeBelow n (step a) (step' a)) (a : α) :
    AgreeBelow n (repeatUntil step a) (repeatUntil step' a) :=
  agree_bind keeps_ahead (agree_refl _) fun _ => agree_loop hkeeps h _ a

/-! ## Guarded equations -/

/-- An equation for readers in which they are asked for only after a word has
been passed. -/
structure Guarded (unfold : (ι → Parser α) → ι → Parser α) : Prop where
  keeps : ∀ {f : ι → Parser α}, (∀ i, Keeps (f i)) → ∀ i, Keeps (unfold f i)
  agrees : ∀ {n : Nat} {f g : ι → Parser α}, (∀ i, Keeps (g i)) → (∀ i, AgreeBelow n (f i) (g i)) →
    ∀ i, AgreeBelow (n + 1) (unfold f i) (unfold g i)

/-- Readers that solve an equation by unfolding it.  Where fewer than `n` words
are ahead, they are what `n` unfoldings make of any readers whatever, which are
therefore never run. -/
structure Terminates (unfold : (ι → Parser α) → ι → Parser α) (f : ι → Parser α) : Prop where
  unfolds : unfold f = f
  settles : ∀ (bottom : ι → Parser α) (n : Nat) (i : ι), AgreeBelow n (unfold^[n] bottom i) (f i)

namespace Guarded

variable {unfold : (ι → Parser α) → ι → Parser α}

/-- Unfoldings of a guarded equation end further on if what is at the bottom does. -/
theorem keeps_iterate (h : Guarded unfold) (hg : ∀ i, Keeps (g i)) (n : Nat) (i : ι) :
    Keeps (unfold^[n] g i) := by
  induction n generalizing i with
  | zero => exact hg i
  | succ n ih =>
    rw [Function.iterate_succ_apply']
    exact h.keeps ih i

/-- What two readers make of `n` unfoldings is the same with fewer than `n` words
ahead: none are left where they are asked for. -/
theorem agree_iterate (h : Guarded unfold) (hg : ∀ i, Keeps (g i)) (n : Nat) (i : ι) :
    AgreeBelow n (unfold^[n] f i) (unfold^[n] g i) := by
  induction n generalizing i with
  | zero => exact fun _ hc => absurd hc (Nat.not_lt_zero _)
  | succ n ih =>
    rw [Function.iterate_succ_apply', Function.iterate_succ_apply']
    exact h.agrees (h.keeps_iterate hg n) ih i

section

variable {within : Nat → ι → Parser α} (hsucc : ∀ n, within (n + 1) = unfold (within n))

include hsucc

/-- A limit raised by some steps is as many unfoldings. -/
theorem within_add (n k : Nat) : within (n + k) = unfold^[n] (within k) := by
  induction n with
  | zero => rw [Nat.zero_add, Function.iterate_zero_apply]
  | succ n ih => rw [Nat.succ_add, hsucc, ih, Function.iterate_succ_apply']

variable (hzero : ∀ i, Keeps (within 0 i))

include hzero

/-- Readers with a limit end further on if those with the limit zero do. -/
theorem keeps_within (h : Guarded unfold) (n : Nat) (i : ι) : Keeps (within n i) := by
  rw [← Nat.add_zero n, within_add hsucc]
  exact h.keeps_iterate hzero n i

/-- Under a limit above the number of words ahead, the limit makes no
difference. -/
theorem agree_within (h : Guarded unfold) (n : Nat) (i : ι) :
    AgreeBelow n (ahead >>= fun ts => within (ts.length + 1) i) (within n i) := by
  intro c hc
  obtain ⟨k, rfl⟩ := Nat.exists_eq_add_of_lt hc
  have hagree := h.agree_iterate (f := within 0) (h.keeps_within hsucc hzero k)
    (c.ahead.length + 1) i c (Nat.lt_succ_self _)
  rw [← within_add hsucc, ← within_add hsucc] at hagree
  rw [run_ahead_bind, Nat.add_right_comm]
  exact hagree

/-- Readers limited by the number of words ahead solve their equation. -/
theorem terminates (h : Guarded unfold) :
    Terminates unfold fun i => ahead >>= fun ts => within (ts.length + 1) i := by
  have hunfolds : unfold (fun i => ahead >>= fun ts => within (ts.length + 1) i) =
      fun i => ahead >>= fun ts => within (ts.length + 1) i := by
    refine funext fun i => ext_run fun c => ?_
    -- one more word is ahead than inside the unfolding, whose limit is one lower
    have hagree := h.agrees (h.keeps_within hsucc hzero c.ahead.length)
      (h.agree_within hsucc hzero c.ahead.length) i c (Nat.lt_succ_self _)
    rw [← hsucc] at hagree
    exact hagree
  refine ⟨hunfolds, fun bottom n i => ?_⟩
  have hagree := h.agree_iterate (f := bottom)
    (fun i => keeps_bind keeps_ahead fun ts => h.keeps_within hsucc hzero (ts.length + 1) i) n i
  rwa [Function.iterate_fixed hunfolds] at hagree

end

end Guarded

/-! ## Repetition -/

/-- One step, and what is done next if it goes on. -/
def pass (step : α → Parser (α ⊕ β)) (again : α → Parser β) (a : α) : Parser β := do
  match ← step a with
  | .inl a => again a
  | .inr b => return b

/-- With one step more, a repetition passes on to one with a step less. -/
theorem loop_succ (step : α → Parser (α ⊕ β)) (limit : Nat) :
    loop step (limit + 1) = pass step (loop step limit) := rfl

/-- Each step that goes on has passed a word. -/
def Advances (step : α → Parser (α ⊕ β)) : Prop :=
  ∀ (a : α) (c : Cursor) (a' : α) (c' : Cursor), Runs (step a) c (.inl a') c' →
    c.position < c'.position

/-- Steps that leave fewer words ahead advance. -/
theorem advances_of_shorter {step : α → Parser (α ⊕ β)} (hkeeps : ∀ a, Keeps (step a))
    (h : ∀ {a c a' c'}, Runs (step a) c (.inl a') c' → c'.ahead.length < c.ahead.length) :
    Advances step :=
  fun a _ _ _ hstep => ((hkeeps a).of_runs hstep).position_lt_iff.mpr (h hstep)

/-- A step that goes on has passed a word, so the equation of a repetition is
guarded. -/
theorem guarded_pass {step : α → Parser (α ⊕ β)} (hkeeps : ∀ a, Keeps (step a))
    (hadvances : Advances step) : Guarded (pass step) where
  keeps := by
    intro f hf a
    refine keeps_bind (hkeeps a) fun r => ?_
    cases r with
    | inl a' => exact hf a'
    | inr b => exact keeps_pure b
  agrees := by
    intro n f g hg hfg a c hc
    have hnext := hadvances a c
    have hleads := hkeeps a c
    unfold pass
    rw [run_bind, run_bind]
    unfold Runs at hnext
    revert hnext hleads
    rcases (step a).run.run c with ⟨e | a' | b, d⟩
    · exact fun _ _ => rfl
    · intro hnext hleads
      have hshorter : d.ahead.length < c.ahead.length :=
        hleads.position_lt_iff.mp (hnext a' d rfl)
      exact hfg a' d (by omega)
    · exact fun _ _ => rfl

/-- A repetition whose steps advance comes to an end. -/
theorem terminates_repeatUntil {step : α → Parser (α ⊕ β)} (hkeeps : ∀ a, Keeps (step a))
    (hadvances : Advances step) : Terminates (pass step) (repeatUntil step) :=
  (guarded_pass hkeeps hadvances).terminates (loop_succ step) fun _ => keeps_throw _

/-- A suffix advances. -/
theorem advances_suffixStep : Advances suffixStep :=
  advances_of_shorter keeps_suffixStep shorter_suffixStep

/-- A colon and a word of a name advance. -/
theorem advances_variantStep : Advances variantStep := by
  refine advances_of_shorter keeps_variantStep fun {name c name' c'} h => ?_
  obtain hdone | ⟨_, -, -, -, hhead, rfl⟩ := variantStep_cases h
  · exact absurd hdone (by simp)
  · have hsecond := (Cursor.leads_next c.next).length_le
    exact Nat.lt_of_le_of_lt hsecond (Cursor.length_next hhead)

/-- An operand advances. -/
theorem advances_operandStep (t : Transform) (name : Token) : Advances (operandStep t name) := by
  refine advances_of_shorter (keeps_operandStep t name) fun {operands c operands' c'} h => ?_
  obtain hdone | ⟨-, x, hoperand, -⟩ := operandStep_cases h
  · exact absurd hdone (by simp)
  · exact shorter_expectNumber hoperand

/-! ## Calls inside calls -/

variable (transforms : Registry Transform)

/-- A call inside a call is read after the name of the outer one, so the equation of
calls is guarded. -/
theorem guarded_callWith : Guarded (callWith transforms) where
  keeps := keeps_callWith
  agrees := by
    intro n inner inner' hkeeps h after
    refine agree_bind keeps_peek (agree_refl _) fun token => ?_
    cases token with
    | none => exact agree_refl _
    | some token =>
      refine agree_guard (agree_advance_bind fun _ => ?_)
      dsimp only
      cases transforms.get? (Unicode.lowercase token.text) with
      | none => exact agree_refl _
      | some t =>
        refine agree_bind (keeps_repeatUntil (keeps_operandStep t token) []) (agree_refl _)
          fun operands => agree_guard (agree_ite ?_ (agree_refl _))
        exact agree_bind (hkeeps token) (h token) fun _ => agree_refl _

/-- Reading a call comes to an end. -/
theorem terminates_call : Terminates (callWith transforms) (call transforms) :=
  (guarded_callWith transforms).terminates (callWithin_succ transforms) fun _ => keeps_throw _

/-! ## Groups inside groups -/

section

variable {group group' : TokenKind → Token → Parser (List Pattern)}
  (hkeeps : ∀ closer opener, Keeps (group' closer opener))
  (h : ∀ closer opener, AgreeBelow n (group closer opener) (group' closer opener))

include hkeeps h

/-- A group in an atom is read after its opening bracket. -/
theorem agree_atomWith : AgreeBelow (n + 1) (atomWith group) (atomWith group') := by
  refine agree_advance_bind fun t => ?_
  cases t.kind with
  | listStart | angleStart => exact agree_bind (hkeeps _ t) (h _ t) fun _ => agree_refl _
  | _ => exact agree_refl _

/-- Parts of a group agree if groups do with one word less ahead. -/
theorem agree_itemStep (enclosing : Option (TokenKind × Token)) (items : List Pattern) :
    AgreeBelow (n + 1) (itemStep transforms group enclosing items)
      (itemStep transforms group' enclosing items) := by
  refine agree_bind keeps_peek (agree_refl _) fun t => ?_
  cases t with
  | none => exact agree_refl _
  | some t =>
    refine agree_ite (agree_refl _) (agree_ite (agree_refl _) ?_)
    split
    · exact agree_refl _
    · exact agree_bind (keeps_atomWith hkeeps) (agree_atomWith hkeeps h) fun _ => agree_refl _

end

/-- Reads the items of a group, where another reader reads the groups inside. -/
def groupWith (group : Option (TokenKind × Token) → Parser (List Pattern))
    (enclosing : Option (TokenKind × Token)) : Parser (List Pattern) :=
  repeatUntil
    (itemStep transforms (fun closer opener => group (some (closer, opener))) enclosing) []

/-- Items under a limit are read with groups under one less. -/
theorem itemsWithin_succ (limit : Nat) :
    itemsWithin transforms (limit + 1) = groupWith transforms (itemsWithin transforms limit) := rfl

/-- A group inside a group is read after its opening bracket, so the equation of
groups is guarded. -/
theorem guarded_groupWith : Guarded (groupWith transforms) where
  keeps h enclosing :=
    keeps_repeatUntil (keeps_itemStep (fun closer opener => h (some (closer, opener))) enclosing) []
  agrees hkeeps h enclosing :=
    agree_repeatUntil (keeps_itemStep (fun _ _ => hkeeps _) enclosing)
      (agree_itemStep transforms (fun _ _ => hkeeps _) (fun _ _ => h _) enclosing) []

/-- Reading the items of a group comes to an end. -/
theorem terminates_items : Terminates (groupWith transforms) (items transforms) :=
  (guarded_groupWith transforms).terminates (itemsWithin_succ transforms) fun _ => keeps_throw _

/-- Groups in an atom are read as groups anywhere else. -/
theorem atom_eq_atomWith :
    atom transforms = atomWith fun closer opener => items transforms (some (closer, opener)) := by
  refine ext_run fun c => ?_
  have hgroups : ∀ closer opener, AgreeBelow c.ahead.length
      (items transforms (some (closer, opener)))
      (itemsWithin transforms (c.ahead.length + 1) (some (closer, opener))) := fun _ _ =>
    agree_mono (Nat.le_succ _) <| (guarded_groupWith transforms).agree_within
      (itemsWithin_succ transforms) (fun _ => keeps_throw _) _ _
  -- an atom gives its groups the limit of a group that begins where it begins
  rw [atom, run_ahead_bind]
  exact (agree_atomWith (fun _ _ => keeps_itemsWithin transforms _ _) hgroups c
    (Nat.lt_succ_self _)).symm

/-- The items of a group end further on. -/
theorem keeps_items (enclosing : Option (TokenKind × Token)) : Keeps (items transforms enclosing) :=
  keeps_bind keeps_ahead fun _ => keeps_itemsWithin transforms _ enclosing

/-! ## All readers -/

/-- The readers of the notation. -/
inductive Reader (transforms : Registry Transform) : {α : Type} → Parser α → Prop
  | peek : Reader transforms peek
  | peekAt (offset : Int) : Reader transforms (peekAt offset)
  | advance : Reader transforms advance
  | atNumber : Reader transforms atNumber
  | expectNumber (after : Token) (isSigned : Bool) : Reader transforms (expectNumber after isSigned)
  | pattern : Reader transforms (pattern transforms)
  | items (enclosing : Option (TokenKind × Token)) : Reader transforms (items transforms enclosing)
  | atom : Reader transforms (atom transforms)
  | suffixes (child : Pattern) : Reader transforms (suffixes child)
  | euclid (child : Pattern) (slash : Token) : Reader transforms (euclid child slash)
  | modulation (child : Pattern) (tilde : Token) : Reader transforms (modulation child tilde)
  | transform (items : List Pattern) (dot : Token) :
      Reader transforms (transform transforms items dot)
  | call (after : Token) : Reader transforms (call transforms after)

/-- Every reader of the notation ends further on, inside as many modulations. -/
theorem Reader.keeps {transforms : Registry Transform} (h : Reader transforms p) : Keeps p := by
  cases h with
  | peek => exact keeps_peek
  | peekAt offset => exact keeps_peekAt offset
  | advance => exact keeps_advance
  | atNumber => exact keeps_atNumber
  | expectNumber after isSigned => exact keeps_expectNumber after isSigned
  | pattern => exact keeps_bind (keeps_items transforms none) fun _ => keeps_pure _
  | items enclosing => exact keeps_items transforms enclosing
  | atom =>
    rw [atom_eq_atomWith]
    exact keeps_atomWith fun closer opener => keeps_items transforms (some (closer, opener))
  | suffixes child => exact keeps_suffixes child
  | euclid child slash => exact keeps_euclid child slash
  | modulation child tilde => exact keeps_modulation child tilde
  | transform items dot => exact keeps_transform transforms items dot
  | call after => exact keeps_bind keeps_ahead fun _ => keeps_callWithin transforms _ after

/-- The steps that readers repeat: of the items of a group, of the suffixes of a
child, of the parts of a name, and of the operands of a transform. -/
inductive Repeated (transforms : Registry Transform) :
    {α β : Type} → (α → Parser (α ⊕ β)) → Prop
  | item (enclosing : Option (TokenKind × Token)) :
      Repeated transforms (itemStep transforms
        (fun closer opener => items transforms (some (closer, opener))) enclosing)
  | suffix : Repeated transforms suffixStep
  | variant : Repeated transforms variantStep
  | operand (t : Transform) (name : Token) : Repeated transforms (operandStep t name)

/-- Every step that is repeated ends further on. -/
theorem Repeated.keeps {transforms : Registry Transform} {step : α → Parser (α ⊕ β)}
    (h : Repeated transforms step) (a : α) : Keeps (step a) := by
  cases h with
  | item enclosing =>
    exact keeps_itemStep (fun closer opener => keeps_items transforms _) enclosing a
  | suffix => exact keeps_suffixStep a
  | variant => exact keeps_variantStep a
  | operand t name => exact keeps_operandStep t name a

/-- Every step that is repeated advances. -/
theorem Repeated.advances {transforms : Registry Transform} {step : α → Parser (α ⊕ β)}
    (h : Repeated transforms step) : Advances step := by
  cases h with
  | item enclosing =>
    exact advances_of_shorter (Repeated.item enclosing).keeps
      (shorter_itemStep fun closer opener => keeps_items transforms _)
  | suffix => exact advances_suffixStep
  | variant => exact advances_variantStep
  | operand t name => exact advances_operandStep t name

/-- **Reading ends, and the cursor stays sound.**  Whether it gives a result or
fails, every reader leaves the cursor further on among the same words, inside as
many modulations.  Each step that goes on with a repetition has passed a word,
so a repetition ends; calls inside calls end, and so do groups inside groups, in
atoms too.  A whole pattern is read to the end of the words. -/
theorem reading_sound (transforms : Registry Transform) :
    (∀ {α : Type} (p : Parser α), Reader transforms p →
      ∀ c : Cursor, c.Precedes (p.run.run c).2) ∧
    (∀ {α β : Type} (step : α → Parser (α ⊕ β)), Repeated transforms step →
      Advances step ∧ Terminates (pass step) (repeatUntil step)) ∧
    Terminates (callWith transforms) (call transforms) ∧
    Terminates (groupWith transforms) (items transforms) ∧
    (atom transforms =
      atomWith fun closer opener => items transforms (some (closer, opener))) ∧
    (∀ (c : Cursor) (p : Pattern) (c' : Cursor), Runs (pattern transforms) c p c' →
      c'.position = c.tokens.length) := by
  refine ⟨fun p hp c => (hp.keeps c).precedes,
    fun step hstep => ⟨hstep.advances, terminates_repeatUntil hstep.keeps hstep.advances⟩,
    terminates_call transforms, terminates_items transforms, atom_eq_atomWith transforms,
    fun c p c' h => ?_⟩
  have hleads := (Reader.pattern : Reader transforms _).keeps.of_runs h
  obtain ⟨ps, d, hitems, hdone⟩ := runs_bind.mp h
  obtain ⟨-, rfl⟩ := runs_pure.mp hdone
  have hend := ahead_of_items (runs_ahead_bind.mp hitems)
  rw [← hleads.tokens, Cursor.length_tokens, hend, List.length_nil, Nat.add_zero]

/-- A modulation without an amount, inside three others and behind its sign; one
variant of a name; and a call inside a call, of a group. -/
theorem reading_sound_nested :
    (∃ c', (modulation (.leaf (.text "a")) ⟨.tilde, "~", 2⟩).run.run
        ⟨[⟨.tilde, "~", 2⟩], [⟨.minus, "-", 4⟩, ⟨.symbol, "b", 5⟩], 3, []⟩ =
          (.error (.numberExpected ⟨.tilde, "~", 2⟩ (some ⟨.symbol, "b", 5⟩)), c') ∧
      c'.depth = 3 ∧ c'.position ≤ 3) ∧
    (∃ name c', Runs (variantStep "bd")
        ⟨[⟨.symbol, "bd", 0⟩], [⟨.colon, ":", 2⟩, ⟨.number, "3", 3⟩], -1, []⟩ (.inl name) c' ∧
      1 < c'.position) ∧
    ∃ p c', Runs (pattern Transform.builtin) (Cursor.start
        [⟨.listStart, "[", 0⟩, ⟨.symbol, "bd", 1⟩, ⟨.listEnd, "]", 3⟩, ⟨.dot, ".", 5⟩,
          ⟨.symbol, "every", 7⟩, ⟨.number, "2", 13⟩, ⟨.symbol, "rev", 15⟩]) p c' ∧
      p.canonicalText = "[ \"bd\" ] . every 2 rev" ∧ c'.position = 7 := by
  obtain ⟨hleaves, hrepeats, -, -, -, hends⟩ := reading_sound Transform.builtin
  refine ⟨?_, ?_, ?_⟩
  · have hleft := hleaves (modulation (.leaf (.text "a")) ⟨.tilde, "~", 2⟩) (.modulation _ _)
      ⟨[⟨.tilde, "~", 2⟩], [⟨.minus, "-", 4⟩, ⟨.symbol, "b", 5⟩], 3, []⟩
    exact ⟨_, rfl, hleft.depth, hleft.inside⟩
  · have hrun : Runs (variantStep "bd")
        ⟨[⟨.symbol, "bd", 0⟩], [⟨.colon, ":", 2⟩, ⟨.number, "3", 3⟩], -1, []⟩
        (.inl ("bd" ++ ":" ++ "3"))
        ⟨[⟨.number, "3", 3⟩, ⟨.colon, ":", 2⟩, ⟨.symbol, "bd", 0⟩], [], -1, []⟩ := rfl
    exact ⟨_, _, hrun, (hrepeats variantStep .variant).1 _ _ _ _ hrun⟩
  · have hread : ((parseTokens Transform.builtin
        [⟨.listStart, "[", 0⟩, ⟨.symbol, "bd", 1⟩, ⟨.listEnd, "]", 3⟩, ⟨.dot, ".", 5⟩,
          ⟨.symbol, "every", 7⟩, ⟨.number, "2", 13⟩, ⟨.symbol, "rev", 15⟩]).1.toOption.map
          Pattern.canonicalText) = some "[ \"bd\" ] . every 2 rev" := by
      decide +kernel
    obtain ⟨p, hp, htext⟩ := ok_of_toOption_map hread
    have hrun : Runs (pattern Transform.builtin) _ p _ := Prod.ext hp rfl
    exact ⟨p, _, hrun, htext, hends _ p _ hrun⟩

end Parser

end Ostinato
