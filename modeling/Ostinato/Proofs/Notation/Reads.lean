import Ostinato.Proofs.Notation.Canonical
import Ostinato.Proofs.Notation.Runs

/-!
# Ostinato.Proofs.Notation.Reads

What readers make of words.

`Parser.Reads p depth before a after` says that wherever the words `before` lie
ahead, inside `depth` modulations, the reader gives `a` and leaves the words
`after`.  The places of the words do not matter.  Readers of numbers, suffixes
and calls are followed here word by word.
-/

namespace Ostinato

open Double (InRange)

/-- The words ahead without their places. -/
def Cursor.words (c : Cursor) : List Word := c.ahead.map Token.word

namespace Parser

variable {α β : Type} {p : Parser α} {f : α → Parser β} {depth : Int} {a : α} {b : β}
variable {w : Word} {ws before mid after rest : List Word}

/-- Where some words lie ahead a reader gives a result and leaves others. -/
def Reads (p : Parser α) (depth : Int) (before : List Word) (a : α) (after : List Word) : Prop :=
  ∀ c : Cursor, c.words = before → c.depth = depth →
    ∃ c', Runs p c a c' ∧ c'.words = after ∧ c'.depth = depth

/-! ## Building readers -/

theorem reads_pure (a : α) : Reads (pure a) depth ws a ws :=
  fun c hwords hdepth => ⟨c, runs_pure.mpr ⟨rfl, rfl⟩, hwords, hdepth⟩

/-- Readers in a row read words in a row. -/
theorem reads_bind (hp : Reads p depth before a mid) (hf : Reads (f a) depth mid b after) :
    Reads (p >>= f) depth before b after := by
  intro c hwords hdepth
  obtain ⟨d, hrun, hmid, hdepth'⟩ := hp c hwords hdepth
  obtain ⟨e, hrun', hafter, hdepth''⟩ := hf d hmid hdepth'
  exact ⟨e, runs_bind.mpr ⟨a, d, hrun, hrun'⟩, hafter, hdepth''⟩

/-- The test that holds picks the first reader. -/
theorem reads_if_pos {P : Prop} [Decidable P] {q : Parser α} (h : P)
    (hp : Reads p depth before a after) : Reads (if P then p else q) depth before a after := by
  rwa [if_pos h]

/-- The test that fails picks the second one. -/
theorem reads_if_neg {P : Prop} [Decidable P] {q : Parser α} (h : ¬P)
    (hq : Reads q depth before a after) : Reads (if P then p else q) depth before a after := by
  rwa [if_neg h]

/-- Inside one more modulation. -/
theorem reads_deeper (hp : Reads p (depth + 1) before a after) :
    Reads (deeper p) depth before a after := by
  intro c hwords hdepth
  obtain ⟨d, hrun, hafter, hdepth'⟩ := hp { c with depth := c.depth + 1 } hwords (by rw [hdepth])
  refine ⟨{ d with depth := d.depth - 1 }, runs_deeper.mpr ⟨d, hrun, rfl⟩, hafter, ?_⟩
  rw [hdepth']
  exact Int.add_sub_cancel depth 1

/-! ## Looking ahead -/

/-- Words ahead begin with the next one. -/
theorem words_cons {c : Cursor} (h : c.words = w :: ws) :
    ∃ t, c.ahead.head? = some t ∧ t.word = w ∧ c.next.words = ws := by
  obtain ⟨t, ts, hahead, ht, hts⟩ := List.map_eq_cons_iff.mp h
  refine ⟨t, by rw [hahead]; rfl, ht, ?_⟩
  rw [Cursor.words, Cursor.next_ahead, hahead]
  exact hts

theorem words_nil {c : Cursor} (h : c.words = []) : c.ahead = [] := List.map_eq_nil_iff.mp h

/-- The next word is passed. -/
theorem reads_advance {g : Token → Parser β}
    (h : ∀ t : Token, t.word = w → Reads (g t) depth ws b after) :
    Reads (advance >>= g) depth (w :: ws) b after := by
  intro c hwords hdepth
  obtain ⟨t, hhead, ht, hnext⟩ := words_cons hwords
  obtain ⟨d, hrun, hafter⟩ := h t ht c.next hnext hdepth
  exact ⟨d, runs_bind.mpr ⟨t, c.next, runs_advance.mpr ⟨hhead, rfl⟩, hrun⟩, hafter⟩

/-- The next word is looked at. -/
theorem reads_peek {g : Option Token → Parser β}
    (h : ∀ t : Token, t.word = w → Reads (g (some t)) depth (w :: ws) b after) :
    Reads (peek >>= g) depth (w :: ws) b after := by
  intro c hwords hdepth
  obtain ⟨t, hhead, ht, -⟩ := words_cons hwords
  obtain ⟨d, hrun, hafter⟩ := h t ht c hwords hdepth
  exact ⟨d, runs_bind.mpr ⟨some t, c, runs_peek.mpr ⟨hhead, rfl⟩, hrun⟩, hafter⟩

/-- At the end of the words there is no next one. -/
theorem reads_peek_nil {g : Option Token → Parser β} (h : Reads (g none) depth [] b after) :
    Reads (peek >>= g) depth [] b after := by
  intro c hwords hdepth
  have hhead : c.ahead.head? = none := by rw [words_nil hwords]; rfl
  obtain ⟨d, hrun, hafter⟩ := h c hwords hdepth
  exact ⟨d, runs_bind.mpr ⟨none, c, runs_peek.mpr ⟨hhead, rfl⟩, hrun⟩, hafter⟩

/-- All words ahead are looked at. -/
theorem reads_ahead {g : List Token → Parser β}
    (h : ∀ ts : List Token, ts.length = ws.length → Reads (g ts) depth ws b after) :
    Reads (ahead >>= g) depth ws b after := by
  intro c hwords hdepth
  have hlength : c.ahead.length = ws.length := by rw [← hwords, Cursor.words, List.length_map]
  obtain ⟨d, hrun, hafter⟩ := h c.ahead hlength c hwords hdepth
  exact ⟨d, runs_bind.mpr ⟨_, c, runs_ahead.mpr ⟨rfl, rfl⟩, hrun⟩, hafter⟩

/-- The kinds of the words ahead tell whether they begin with a number. -/
def beginsNumber : List Word → Bool
  | [] => false
  | w :: rest =>
    if w.kind == .minus then rest.head?.any (·.kind == .number) else w.kind == .number

/-- Whether words begin with a number can be told without their places. -/
theorem startsNumber_eq (ts : List Token) : startsNumber ts = beginsNumber (ts.map Token.word) := by
  cases ts with
  | nil => rfl
  | cons t ts => cases ts <;> rfl

/-- A reader may go on from whether a number comes next. -/
theorem reads_atNumber {g : Bool → Parser β} (h : Reads (g (beginsNumber ws)) depth ws b after) :
    Reads (atNumber >>= g) depth ws b after := by
  intro c hwords hdepth
  have hstarts : startsNumber c.ahead = beginsNumber ws := by
    rw [startsNumber_eq, ← hwords]
    rfl
  obtain ⟨d, hrun, hafter⟩ := h c hwords hdepth
  exact ⟨d, runs_bind.mpr ⟨_, c, runs_atNumber.mpr ⟨hstarts, rfl⟩, hrun⟩, hafter⟩

/-! ## Repetition -/

/-- The last step of a repetition. -/
theorem reads_repeat_done {step : α → Parser (α ⊕ β)}
    (h : Reads (step a) depth before (.inr b) after) :
    Reads (repeatUntil step a) depth before b after := by
  intro c hwords hdepth
  obtain ⟨d, hrun, hafter⟩ := h c hwords hdepth
  refine ⟨d, runs_bind.mpr ⟨_, c, runs_ahead.mpr ⟨rfl, rfl⟩, ?_⟩, hafter⟩
  exact runs_loop_succ.mpr (.inr hrun)

/-- A step that passes a word, and the rest of the repetition. -/
theorem reads_repeat_next {step : α → Parser (α ⊕ β)} {a' : α}
    (h : Reads (step a) depth before (.inl a') mid) (hlength : mid.length < before.length)
    (hrest : Reads (repeatUntil step a') depth mid b after) :
    Reads (repeatUntil step a) depth before b after := by
  intro c hwords hdepth
  obtain ⟨d, hrun, hmid, hdepth'⟩ := h c hwords hdepth
  obtain ⟨e, hloop, hafter⟩ := hrest d hmid hdepth'
  obtain ⟨_, _, hahead, hloop⟩ := runs_bind.mp hloop
  obtain ⟨rfl, rfl⟩ := runs_ahead.mp hahead
  have hle : d.ahead.length + 1 ≤ c.ahead.length := by
    have hc : c.ahead.length = before.length := by rw [← hwords, Cursor.words, List.length_map]
    have hd : d.ahead.length = mid.length := by rw [← hmid, Cursor.words, List.length_map]
    omega
  refine ⟨e, runs_bind.mpr ⟨_, c, runs_ahead.mpr ⟨rfl, rfl⟩, ?_⟩, hafter⟩
  exact runs_loop_succ.mpr (.inl ⟨a', d, hrun, loop_mono hle hloop⟩)

/-! ## Numbers -/

/-- Digits of an integer in range spell that integer. -/
theorem ofText_toString {n : Nat} (h : InRange n) : Number.ofText (toString n) = .ok (.int n) := by
  rw [Number.ofText, Numeral.readInt_of_inRange h]

/-- The digits of a number are read as the number. -/
theorem reads_digits {n : Nat} (h : InRange n) (after : Token) (isSigned : Bool) :
    Reads (expectNumber after isSigned) depth (⟨.number, toString n⟩ :: rest) (.int n) rest := by
  intro c hwords hdepth
  obtain ⟨t, hhead, ht, hnext⟩ := words_cons hwords
  obtain ⟨hkind, htext⟩ := Word.mk.inj ht
  have hsign : ¬isSign isSigned c = true := by
    intro hminus
    obtain ⟨⟨u, hu, huminus⟩, -⟩ := isSign_iff.mp hminus
    obtain rfl : t = u := Option.some.inj (hhead.symm.trans hu)
    exact absurd (hkind.symm.trans huminus) (by decide)
  refine ⟨c.next, runs_expectNumber.mpr ⟨t, .int n, ?_⟩, hnext, hdepth⟩
  simp only [if_neg hsign, htext]
  exact ⟨hhead, hkind, ofText_toString h, trivial, trivial⟩

/-- An integer is read back, its sign too where signs belong to numbers. -/
theorem reads_integer {n : Int} (h : InRange n) {isSigned : Bool}
    (hsign : 0 ≤ n ∨ isSigned = true ∨ 0 < depth) (after : Token) :
    Reads (expectNumber after isSigned) depth (Word.integer n ++ rest) (.int n) rest := by
  unfold Word.integer
  by_cases hneg : n < 0
  · have hrange : InRange n.natAbs := by
      have hopposite : n = -(n.natAbs : Int) := by omega
      rwa [hopposite, Double.inRange_neg] at h
    rw [if_pos hneg]
    intro c hwords hdepth
    obtain ⟨t, hhead, ht, hnext⟩ := words_cons hwords
    obtain ⟨u, huhead, hu, hunext⟩ := words_cons hnext
    obtain ⟨hkind, htext⟩ := Word.mk.inj hu
    have hminus : isSign isSigned c = true := by
      refine isSign_iff.mpr ⟨⟨t, hhead, (Word.mk.inj ht).1⟩, ?_⟩
      rw [hdepth]
      exact hsign.resolve_left (by omega)
    refine ⟨c.next.next, runs_expectNumber.mpr ⟨u, .int n.natAbs, ?_⟩, hunext, hdepth⟩
    simp only [if_pos hminus, htext]
    refine ⟨huhead, hkind, ofText_toString hrange, ?_, trivial⟩
    rw [Number.negate]
    congr 1
    omega
  · have hnonneg : (n.natAbs : Int) = n := by omega
    have hrange : InRange n.natAbs := by rwa [hnonneg]
    rw [if_neg hneg]
    have hdigits : Reads (expectNumber after isSigned) depth (⟨.number, toString n.natAbs⟩ :: rest)
        (.int n.natAbs) rest := reads_digits hrange after isSigned
    rwa [hnonneg] at hdigits

/-- An integer is written with at least one word. -/
theorem length_integer_pos (n : Int) : 0 < (Word.integer n).length := by
  unfold Word.integer
  split <;> exact Nat.succ_pos _

/-! ## Suffixes -/

/-- Integers have the same value only if they are equal. -/
theorem same_int (m n : Int) : (Number.int m).same (.int n) = decide (m = n) := by
  simp only [Number.same, Number.compare?, Number.extent?, Number.Extent.compare,
    Option.bind_eq_bind, Option.bind_some, Rat.intCast_lt_intCast, Rat.intCast_inj]
  by_cases h : m < n
  · simp [h, Int.ne_of_lt h]
  · by_cases h' : m = n <;> simp [h, h']

theorem isZero_int (n : Int) : (Number.int n).isZero = decide (n = 0) := same_int n 0

/-- An integer is the whole number that it stands for. -/
theorem wholeNumber_int (what : String) (n : Int) :
    Value.wholeNumber what (.number (.int n)) = .ok n := by
  simp [Value.wholeNumber, Number.toInt, same_int, bind, Except.bind]

/-- An integer is taken as a part of a rhythm. -/
theorem reads_rhythmPart {slash : Token} {what : String} (n : Int) :
    Reads (rhythmPart slash what (.int n)) depth ws n ws := by
  unfold rhythmPart
  rw [wholeNumber_int]
  exact reads_pure n

/-- A rotation is read back after its colon. -/
theorem reads_rotation {n : Int} (h : InRange n) :
    Reads rotation depth (Word.char ':' :: Word.integer n ++ rest) (.int n) rest := by
  refine reads_peek fun t ht => reads_if_pos ?_ (reads_advance fun colon _ => ?_)
  · rw [(Word.mk.inj ht).1]
    rfl
  · exact reads_integer h (.inr (.inl rfl)) colon

/-- A rhythm is read back. -/
theorem reads_euclid {steps pulses rotation : Int} {child : Pattern} {slash : Token}
    (hpos : 1 ≤ steps) (hnonneg : 0 ≤ pulses) (hsteps : InRange steps) (hpulses : InRange pulses)
    (hrotation : InRange rotation) :
    Reads (euclid child slash) depth
      (Word.integer steps ++ Word.char ':' :: (Word.integer pulses ++
        (Word.char ':' :: Word.integer rotation ++ rest)))
      (.euclidean steps pulses rotation child) rest := by
  refine reads_bind (reads_integer hsteps (.inl (by omega)) slash) ?_
  refine reads_peek fun t ht => reads_if_neg ?_ (reads_advance fun colon _ => ?_)
  · rw [(Word.mk.inj ht).1]
    decide
  refine reads_bind (reads_integer hpulses (.inl hnonneg) colon) ?_
  refine reads_bind (reads_rotation hrotation) ?_
  refine reads_bind (reads_rhythmPart steps) ?_
  refine reads_bind (reads_rhythmPart pulses) ?_
  refine reads_bind (reads_rhythmPart rotation) ?_
  refine reads_if_neg ?_ (reads_pure _)
  simp only [Bool.or_eq_true, decide_eq_true_eq]
  omega

/-- The words for an integer begin a number. -/
theorem beginsNumber_integer (n : Int) : beginsNumber (Word.integer n ++ rest) = true := by
  unfold Word.integer
  split <;> rfl

/-- A modulation is read back. -/
theorem reads_modulation {amount rate : Int} {child : Pattern} {tilde : Token} (hdepth : 0 ≤ depth)
    (hamount : InRange amount) (hrate : InRange rate) :
    Reads (modulation child tilde) depth (Word.integer amount ++ (Word.integer rate ++ rest))
      (.modulation child (.int amount) (.int rate)) rest := by
  have hinside : (0 : Int) < depth + 1 := by omega
  have hoperands : Reads (deeper (modulationOperands tilde)) depth
      (Word.integer amount ++ (Word.integer rate ++ rest)) (.int amount, .int rate) rest := by
    refine reads_deeper ?_
    refine reads_bind (reads_integer hamount (.inr (.inr hinside)) tilde) (reads_atNumber ?_)
    rw [beginsNumber_integer]
    exact reads_bind (reads_integer hrate (.inr (.inr hinside)) tilde) (reads_pure _)
  refine reads_bind hoperands ?_
  intro c hwords hdepth'
  exact ⟨_, runs_bind.mpr ⟨(), _, runs_modify.mpr rfl, runs_pure.mpr ⟨rfl, rfl⟩⟩, hwords, hdepth'⟩

/-- The word for an operator and its kind. -/
theorem operator_kind (op : Operator) : (Word.operator op.sign).kind = op.tokenKind := by
  rw [Word.operator, Operator.ofSign?_sign]
  rfl

/-- A child without a suffix after it is done. -/
theorem reads_suffixStep_done {child : Pattern}
    (h : ∀ w ∈ ws.head?, w.kind.isSuffix = false) :
    Reads (suffixStep child) depth ws (.inr child) ws := by
  cases ws with
  | nil => exact reads_peek_nil (reads_pure _)
  | cons w ws =>
    refine reads_peek fun t ht => reads_if_pos ?_ (reads_pure _)
    have hkind : t.kind = w.kind := congrArg Word.kind ht
    rw [hkind, h w rfl]
    rfl

/-- The words for a rhythm are read as that suffix. -/
theorem reads_suffixStep_euclid {steps pulses rotation : Int} {child : Pattern}
    (hpos : 1 ≤ steps) (hnonneg : 0 ≤ pulses) (hsteps : InRange steps) (hpulses : InRange pulses)
    (hrotation : InRange rotation) :
    Reads (suffixStep child) depth
      (Word.char '/' :: Word.integer steps ++ Word.char ':' :: (Word.integer pulses ++
        (Word.char ':' :: Word.integer rotation ++ rest)))
      (.inl (.euclidean steps pulses rotation child)) rest := by
  refine reads_peek fun t ht => ?_
  have hkind : t.kind = .slash := congrArg Word.kind ht
  refine reads_if_neg (by rw [hkind]; decide) (reads_advance fun _ _ => ?_)
  rw [hkind]
  exact reads_bind (reads_euclid hpos hnonneg hsteps hpulses hrotation) (reads_pure _)

/-- The words for a modulation are read as that suffix. -/
theorem reads_suffixStep_modulation {amount rate : Int} {child : Pattern} (hdepth : 0 ≤ depth)
    (hamount : InRange amount) (hrate : InRange rate) :
    Reads (suffixStep child) depth
      (Word.char '~' :: Word.integer amount ++ (Word.integer rate ++ rest))
      (.inl (.modulation child (.int amount) (.int rate))) rest := by
  refine reads_peek fun t ht => ?_
  have hkind : t.kind = .tilde := congrArg Word.kind ht
  refine reads_if_neg (by rw [hkind]; decide) (reads_advance fun _ _ => ?_)
  rw [hkind]
  exact reads_bind (reads_modulation hdepth hamount hrate) (reads_pure _)

/-- The words for an operator and its operand are read as that suffix.  The cases
follow the operator, since the kind of its word is looked at. -/
theorem reads_suffixStep_operation {op : Operator} {n : Int} {child : Pattern} (hnonneg : 0 ≤ n)
    (hrange : InRange n) (hzero : op = .modulo → n ≠ 0) :
    Reads (suffixStep child) depth (Word.operator op.sign :: Word.integer n ++ rest)
      (.inl (.operation child op.sign (.int n))) rest := by
  refine reads_peek fun t ht => ?_
  have hkind : t.kind = op.tokenKind := by
    rw [← operator_kind, ← ht]
    rfl
  have htext : t.text = op.sign := congrArg Word.text ht
  have hplain : t.kind.isSuffix = true ∧ t.kind ≠ .slash ∧ t.kind ≠ .tilde := by
    rw [hkind]
    cases op <;> decide
  refine reads_if_neg (by rw [hplain.1]; decide) (reads_advance fun _ _ => ?_)
  split
  · exact absurd ‹_› hplain.2.1
  · exact absurd ‹_› hplain.2.2
  · refine reads_bind (reads_integer hrange (.inl hnonneg) t) (reads_if_neg ?_ ?_)
    · rw [isZero_int, Bool.and_eq_true, beq_iff_eq, decide_eq_true_iff]
      rintro ⟨hmodulo, rfl⟩
      rw [hkind] at hmodulo
      refine hzero ?_ rfl
      cases op <;> first | rfl | exact absurd hmodulo (by decide)
    · rw [htext]
      exact reads_pure _

/-! ## Calls -/

/-- A call that ends here takes no further words. -/
def Calm (ws : List Word) : Prop :=
  (∀ w ∈ ws.head?, w.kind.isValue = false) ∧ beginsNumber ws = false

/-- The operands of a transform are read back, if what follows is no operand
or all that it takes are there. -/
theorem reads_operands {t : Transform} {name : Token} (ms : List Int) {ns : List Int}
    (hrange : ∀ n ∈ ns, InRange n) (hmost : (ms.length + ns.length : Int) ≤ t.most)
    (hrest : beginsNumber rest = false) :
    Reads (repeatUntil (operandStep t name) (ms.map Value.int)) depth
      (Value.wordsAll (ns.map Value.int) ++ rest) ((ms ++ ns).map Value.int) rest := by
  induction ns generalizing ms with
  | nil =>
    rw [List.append_nil]
    refine reads_repeat_done (reads_atNumber (reads_if_neg ?_ (reads_pure _)))
    rw [Bool.and_eq_true]
    rintro ⟨-, hbegins⟩
    exact absurd (hrest.symm.trans hbegins) Bool.false_ne_true
  | cons n ns ih =>
    have hstep : Reads (operandStep t name (ms.map Value.int)) depth
        (Word.integer n ++ (Value.wordsAll (ns.map Value.int) ++ rest))
        (.inl ((ms ++ [n]).map Value.int)) (Value.wordsAll (ns.map Value.int) ++ rest) := by
      refine reads_atNumber (reads_if_pos ?_ ?_)
      · rw [beginsNumber_integer, Bool.and_true, decide_eq_true_iff, List.length_map]
        rw [List.length_cons] at hmost
        omega
      · rw [List.map_append]
        exact reads_bind (reads_integer (hrange n List.mem_cons_self) (.inr (.inl rfl)) name)
          (reads_pure _)
    have hrest := ih (ms ++ [n]) (fun m hm => hrange m (List.mem_cons_of_mem n hm)) (by
      rw [List.length_append, List.length_singleton]
      rw [List.length_cons] at hmost
      omega)
    rw [List.append_assoc, List.singleton_append] at hrest
    rw [List.map_cons, Value.wordsAll, List.append_assoc]
    refine reads_repeat_next hstep ?_ hrest
    have hpos : 0 < (Value.int n).words.length := length_integer_pos n
    simp only [List.length_append]
    omega

/-- Operands that a transform accepts pass its check. -/
theorem reads_checkOperands {t : Transform} {name : String} {token : Token} {operands : List Value}
    (h : t.Accepts operands) : Reads (checkOperands t name token operands) depth ws () ws := by
  unfold checkOperands
  rcases hcheck : t.check with _ | check
  · exact reads_pure ()
  · have hrun := h check (by rw [hcheck]; rfl)
    simp only [hrun]
    exact reads_pure ()

/-- Nothing that a call would take is refused. -/
theorem reads_refuseExtra {name : String} (h : Calm ws) :
    Reads (refuseExtra name) depth ws () ws := by
  cases ws with
  | nil => exact reads_peek_nil (reads_pure ())
  | cons w ws =>
    refine reads_peek fun t ht => reads_atNumber (reads_if_neg ?_ (reads_pure ()))
    have hkind : t.kind = w.kind := congrArg Word.kind ht
    rw [h.2, hkind, h.1 w rfl]
    decide

/-- Transforms known from the start are found under their own names. -/
theorem get?_builtin {name : String} {t : Transform} (h : (name, t) ∈ Transform.builtin.entries) :
    Unicode.lowercase name = name ∧ Transform.builtin.get? name = some t := by
  have hlower : ∀ name ∈ Transform.builtin.names, Unicode.lowercase name = name := by
    decide +kernel
  have hname := hlower name (mem_names h)
  refine ⟨hname, ?_⟩
  rw [Registry.get?, hname]
  simp only [Transform.builtin, List.mem_cons, List.not_mem_nil, or_false, Prod.mk.injEq] at h
  rcases h with h | h | h | h | h | h | h | h | h <;> (obtain ⟨rfl, rfl⟩ := h; rfl)

/-- The words of a call. -/
def callWords (name : String) (operands : List Value) : List Word :=
  ⟨.symbol, name⟩ :: Value.wordsAll operands

/-- The words of a call that ends with another are its name, its integers and the
words of that call. -/
theorem callWords_nested {name inner : String} {ns : List Int} {operands : List Value} :
    callWords name (ns.map Value.int ++ [.call inner operands]) =
      ⟨.symbol, name⟩ :: (Value.wordsAll (ns.map Value.int) ++ callWords inner operands) := by
  rw [callWords, Value.wordsAll_append, Value.wordsAll, Value.wordsAll, List.append_nil]
  rfl

/-- The name and the integer operands of a call are read back. -/
theorem reads_callWithin_succ {name : String} {t : Transform} {ns : List Int} {limit : Nat}
    {r : String × List Value} (known : (name, t) ∈ Transform.builtin.entries)
    (fewest : t.fewest ≤ ns.length) (most : ns.length ≤ t.most) (inRange : ∀ n ∈ ns, InRange n)
    (hmid : beginsNumber mid = false)
    (hend : ∀ token, Reads (callEnd Transform.builtin limit t name token (ns.map Value.int)) depth
      mid r rest) (after : Token) :
    Reads (callWithin Transform.builtin (limit + 1) after) depth
      (⟨.symbol, name⟩ :: (Value.wordsAll (ns.map Value.int) ++ mid)) r rest := by
  intro c hwords hdepth
  obtain ⟨hlower, hget⟩ := get?_builtin known
  obtain ⟨token, hhead, htoken, hnext⟩ := words_cons hwords
  obtain ⟨hkind, htext⟩ := Word.mk.inj htoken
  have hreads : Reads (repeatUntil (operandStep t token) []) depth
      (Value.wordsAll (ns.map Value.int) ++ mid) (ns.map Value.int) mid :=
    reads_operands [] inRange (by simpa using most) hmid
  obtain ⟨d, hoperands, hd, hdepth'⟩ := hreads c.next hnext hdepth
  obtain ⟨e, hrun, hafter⟩ := hend token d hd hdepth'
  refine ⟨e, runs_callWithin_succ.mpr ⟨token, t, _, d, hhead, hkind, ?_, hoperands, ?_, ?_⟩, hafter⟩
  · rw [htext, hlower, hget]
  · rwa [List.length_map]
  · rwa [htext, hlower]

/-- A call is read back where nothing follows that it would take. -/
theorem reads_callWithin {name : String} {operands : List Value} (h : CallForm name operands)
    (hrest : Calm rest) {limit : Nat} (hlimit : (callWords name operands).length ≤ limit)
    (after : Token) :
    Reads (callWithin Transform.builtin limit after) depth (callWords name operands ++ rest)
      (name, operands) rest := by
  induction h generalizing limit after with
  | plain known flat fewest most inRange accepted =>
    obtain ⟨limit, rfl⟩ := Nat.exists_eq_add_of_le' hlimit
    refine reads_callWithin_succ known fewest most inRange hrest.2 (fun token => ?_) after
    refine reads_if_neg (by rw [flat]; exact Bool.false_ne_true) ?_
    exact reads_bind (reads_refuseExtra hrest)
      (reads_bind (reads_checkOperands accepted) (reads_pure _))
  | nested known nests fewest most inRange call accepted ih =>
    rw [callWords_nested] at hlimit ⊢
    simp only [List.length_cons, List.length_append] at hlimit
    obtain ⟨limit, rfl⟩ : ∃ k, limit = k + 1 := ⟨limit - 1, by omega⟩
    rw [List.cons_append, List.append_assoc]
    refine reads_callWithin_succ known fewest most inRange rfl (fun token => ?_) after
    refine reads_if_pos nests ?_
    exact reads_bind (ih (by omega) token)
      (reads_bind (reads_checkOperands accepted) (reads_pure _))

/-- A transform is read back after its point. -/
theorem reads_transform {name : String} {operands : List Value} (h : CallForm name operands)
    (hrest : Calm rest) (p : Pattern) (dot : Token) :
    Reads (transform Transform.builtin [p] dot) depth (callWords name operands ++ rest)
      (.transform p name operands) rest := by
  have hcall : Reads (call Transform.builtin dot) depth (callWords name operands ++ rest)
      (name, operands) rest := by
    refine reads_ahead fun ts hlength => reads_callWithin h hrest ?_ dot
    rw [hlength, List.length_append]
    omega
  exact reads_bind hcall (reads_pure _)

end Parser

end Ostinato
