import Ostinato.Proofs.Notation.Progress
import Ostinato.Proofs.Notation.WellFormed

/-!
# Ostinato.Proofs.Notation.Complaints

What text that forms no pattern is refused for.

Text that cannot be split is refused at one of its characters, and words that
form no pattern are refused at one of these words
(`NotationError.pointsInto_of_parse`).  So no reader ever runs out of words that
it asked for, or meets a number that it cannot use, without saying where: each
reader complains about one of the words only (`Parser.Blames`), since

1. the numbers of a text are finite, so all that can be wrong with an operand
   is its value;
2. each step of a repetition passes a word, so the steps never outlast the
   words ahead, and neither do groups inside groups and calls inside calls.
-/

namespace Ostinato

/-! ## Characters -/

namespace Lexer

/-- The decimal in front and what follows it are the whole text. -/
theorem append_decimalPart (cs : List Char) : (decimalPart cs).1 ++ (decimalPart cs).2 = cs := by
  unfold decimalPart
  split
  · rename_i rest hrest
    split
    · have hsplit := List.takeWhile_append_dropWhile (p := Unicode.isDigit) (l := cs)
      rw [hrest] at hsplit
      simpa using hsplit
    · rfl
  · rfl

/-- A piece has as many characters as it takes from the front. -/
theorem length_of_piece {position : Nat} {c : Char} {cs : List Char} {p : Piece}
    (h : piece position c cs = .ok p) : p.size + p.rest.length = (c :: cs).length := by
  have hsplit : ∀ (q : Char → Bool) (ds : List Char),
      (ds.takeWhile q).length + (ds.dropWhile q).length = ds.length := by
    intro q ds
    rw [← List.length_append, List.takeWhile_append_dropWhile]
  unfold piece at h
  split at h
  · -- between quotes
    have hquoted := hsplit (· != c) cs
    unfold quotedPiece? at h
    cases hrest : cs.dropWhile (· != c) with
    | nil => simp [hrest] at h
    | cons d ds =>
      simp only [hrest, Except.ok.injEq, List.length_cons] at h hquoted
      simp only [← h, List.length_cons]
      omega
  split at h
  · -- a run of word characters
    have hdecimal := congrArg List.length (append_decimalPart (c :: cs))
    have hrun := hsplit isWordChar (decimalPart (c :: cs)).2
    simp only [Except.ok.injEq, List.length_append, List.length_cons] at h hdecimal
    simp only [← h, wordPiece, List.length_append, List.length_cons]
    omega
  split at h
  · simp only [Except.ok.injEq] at h
    simp only [← h, List.length_cons]
    omega
  split at h
  · have hspace := hsplit Unicode.isSpace cs
    simp only [Except.ok.injEq] at h
    simp only [← h, List.length_cons]
    omega
  · exact absurd h (by simp)

/-- A piece that cannot be split off is refused where it begins. -/
theorem position_of_piece {position : Nat} {c : Char} {cs : List Char} {e : LexError}
    (h : piece position c cs = .error e) : e.position = position := by
  unfold piece at h
  split at h
  · split at h
    · exact absurd h (by simp)
    · simp only [Except.error.injEq] at h
      rw [← h]
      rfl
  split at h
  · exact absurd h (by simp)
  split at h
  · exact absurd h (by simp)
  split at h
  · exact absurd h (by simp)
  · simp only [Except.error.injEq] at h
    rw [← h]
    rfl

/-- Text is refused at one of its characters. -/
theorem position_of_tokensFrom {left position : Nat} {cs : List Char} {e : LexError}
    (h : tokensFrom left position cs = .error e) : e.position < position + cs.length := by
  induction left generalizing position cs with
  | zero => exact absurd h (by simp [tokensFrom])
  | succ left ih =>
    cases cs with
    | nil => exact absurd h (by simp [tokensFrom])
    | cons c cs =>
      rw [tokensFrom] at h
      cases hpiece : piece position c cs with
      | error e' =>
        simp only [hpiece, bind, Except.bind, Except.error.injEq] at h
        have hposition := position_of_piece hpiece
        rw [← h, hposition, List.length_cons]
        omega
      | ok p =>
        have hlength := length_of_piece hpiece
        simp only [hpiece, bind, Except.bind] at h
        cases hrest : tokensFrom left (position + p.size) p.rest with
        | error e' =>
          simp only [hrest, Except.error.injEq] at h
          have hposition := ih (h ▸ hrest)
          omega
        | ok ts =>
          simp only [hrest] at h
          split at h <;> exact absurd h (by simp)

end Lexer

/-! ## Operands -/

/-- All that can be wrong with operands that are numbers and calls, with a
number in front where the check wants one, is the value of a number. -/
theorem OperandCheck.family_of_run {check : OperandCheck} {operands : List Value}
    (numbers : ∀ v ∈ operands, v.isCall = false → ∃ x : Number, v = .number x)
    (first : check = .probability ∨ ∃ x rest, x.Readable ∧ operands = .number x :: rest)
    {cause : Fault} (h : check.run operands = .error cause) : cause.family = .value := by
  cases check with
  | factor =>
    obtain ⟨x, rest, -, rfl⟩ := first.resolve_left (by simp)
    simp only [run, subject, Value.isNegative, Value.lies, Value.liesFlat, Value.asNumber?,
      Value.int, bind, Except.bind] at h
    split at h
    · simp only [Except.error.injEq] at h
      rw [← h]
      rfl
    · exact absurd h (by simp)
  | probability =>
    simp only [run] at h
    cases hplain : operands.filter fun v => !v.isCall with
    | nil => simp [hplain] at h
    | cons v vs =>
      have hv : v ∈ operands.filter fun v => !v.isCall := by simp [hplain]
      rw [List.mem_filter, Bool.not_eq_true'] at hv
      obtain ⟨x, rfl⟩ := numbers v hv.1 hv.2
      simp only [hplain, Value.isProbability, Value.asNumber?, bind, Except.bind] at h
      split at h
      · exact absurd h (by simp)
      · simp only [Except.error.injEq] at h
        rw [← h]
        rfl
  | count what =>
    obtain ⟨x, rest, hx, rfl⟩ := first.resolve_left (by simp)
    simp only [run, subject, bind, Except.bind] at h
    cases hwhole : Value.wholeNumber what (.number x) with
    | error fault =>
      simp only [hwhole, Except.error.injEq] at h
      rw [← h]
      exact hx.family_of_wholeNumber hwhole
    | ok n =>
      simp only [hwhole] at h
      split at h
      · simp only [Except.error.injEq] at h
        rw [← h]
        rfl
      · exact absurd h (by simp)

namespace Parser

/-! ## Complaints -/

variable {α β : Type} {ts : List Token} {p : Parser α} {f : α → Parser β} {c c' : Cursor}

/-- What a complaint is about is one of the words. -/
def About (ts : List Token) (e : ParseError) : Prop := ∃ t ∈ ts, e.position = some t.position

/-- A reader that fails at a place complains about one of the words. -/
def Blames (ts : List Token) (p : Parser α) (c : Cursor) : Prop :=
  ∀ e, (p.run.run c).1 = .error e → About ts e

/-! ### Building readers -/

theorem blames_pure (a : α) : Blames ts (pure a) c := fun _ he => nomatch he

/-- A complaint about a word is one. -/
theorem blames_throw {e : ParseError} (h : About ts e) : Blames ts (throw e : Parser α) c := by
  intro e' he
  rwa [← Except.error.inj he]

/-- Of two readers in a row the first complains, or the second from where the first
one ended. -/
theorem Blames.bind (hp : Blames ts p c)
    (hf : ∀ a c', Runs p c a c' → Blames ts (f a) c') : Blames ts (p >>= f) c := by
  intro e he
  rw [run_bind] at he
  cases hrun : p.run.run c with
  | mk result d =>
    rw [hrun] at he
    cases result with
    | error e' => exact hp e (by rw [hrun]; exact congrArg Except.error (Except.error.inj he))
    | ok a => exact hf a d hrun e he

/-- A reader picked by a test complains as the one that is picked. -/
theorem blames_ite {P : Prop} [Decidable P] {q : Parser α} (hp : P → Blames ts p c)
    (hq : ¬P → Blames ts q c) : Blames ts (if P then p else q) c := by
  split
  · exact hp ‹_›
  · exact hq ‹_›

/-- A refusal in front of a reader. -/
theorem blames_guard {P : Prop} [Decidable P] {e : ParseError} {q : Unit → Parser α}
    (reason : P → About ts e) (h : ¬P → Blames ts (q ()) c) :
    Blames ts (if P then throw e >>= q else q ()) c :=
  blames_ite (fun hP => (blames_throw (reason hP)).bind fun _ _ hrun => absurd hrun runs_throw) h

theorem blames_ahead_bind {f : List Token → Parser β} (h : Blames ts (f c.ahead) c) :
    Blames ts (ahead >>= f) c := fun e he => h e he

theorem blames_peek_bind {f : Option Token → Parser β} (h : Blames ts (f c.ahead.head?) c) :
    Blames ts (peek >>= f) c := fun e he => h e he

theorem blames_atNumber_bind {f : Bool → Parser β} (h : Blames ts (f (startsNumber c.ahead)) c) :
    Blames ts (atNumber >>= f) c := fun e he => h e he

/-- Passing a word that is there does not fail. -/
theorem blames_advance_bind {f : Token → Parser β} {t : Token} (hhead : c.ahead.head? = some t)
    (h : Blames ts (f t) c.next) : Blames ts (advance >>= f) c := by
  have hrun : Runs advance c t c.next := runs_advance.mpr ⟨hhead, rfl⟩
  intro e he
  rw [run_bind, hrun] at he
  exact h e he

/-- Reading inside one more modulation complains as the reader does. -/
theorem blames_deeper (h : Blames ts p { c with depth := c.depth + 1 }) :
    Blames ts (deeper p) c := fun e he => h e he

/-- A repetition whose steps each pass a word does not outlast the words. -/
theorem blames_loop {step : α → Parser (α ⊕ β)} {I : α → Cursor → Prop}
    (next : ∀ a c a' c', I a c → Runs (step a) c (.inl a') c' →
      I a' c' ∧ c'.ahead.length < c.ahead.length)
    (blames : ∀ a c, I a c → Blames ts (step a) c) {limit : Nat} {a : α} (start : I a c)
    (hlimit : c.ahead.length < limit) : Blames ts (loop step limit a) c := by
  induction limit generalizing a c with
  | zero => exact absurd hlimit (Nat.not_lt_zero _)
  | succ limit ih =>
    refine (blames a c start).bind fun r d hstep => ?_
    cases r with
    | inl a' =>
      obtain ⟨hinv, hlength⟩ := next a c a' d start hstep
      exact ih hinv (by omega)
    | inr b => exact blames_pure b

/-- So a repetition until there is a result complains as its steps do: the words
bound the steps. -/
theorem blames_repeatUntil {step : α → Parser (α ⊕ β)} {I : α → Cursor → Prop}
    (next : ∀ a c a' c', I a c → Runs (step a) c (.inl a') c' →
      I a' c' ∧ c'.ahead.length < c.ahead.length)
    (blames : ∀ a c, I a c → Blames ts (step a) c) {a : α} (start : I a c) :
    Blames ts (repeatUntil step a) c :=
  blames_ahead_bind (blames_loop next blames start (Nat.lt_succ_self _))

/-! ### Numbers -/

/-- Words of a text lie ahead, outside of modulations, and are among the given
ones. -/
structure Within (ts : List Token) (c : Cursor) : Prop extends c.Sound where
  mem : ∀ t ∈ c.ahead, t ∈ ts

/-- Further on, the words ahead are still among the given ones. -/
theorem Within.leads {c c' : Cursor} (h : Within ts c) (hc : c.Leads c') : Within ts c' :=
  ⟨hc.sound h.toSound, hc.forall_ahead h.mem⟩

/-- So they are behind the next word. -/
theorem Within.next (h : Within ts c) : Within ts c.next := h.leads (Cursor.leads_next c)

/-- So they are behind what a reader passes. -/
theorem Within.runs (h : Within ts c) (hp : Keeps p) {a : α} (hrun : Runs p c a c') :
    Within ts c' :=
  h.leads (hp.of_runs hrun)

/-- The next word is one of the given ones. -/
theorem Within.head (h : Within ts c) {t : Token} (hhead : c.ahead.head? = some t) : t ∈ ts :=
  h.mem t (List.mem_of_mem_head? hhead)

/-- A word that is a number spells one. -/
theorem spelled_of_plain {t : Token} (hplain : t.word.Plain) (hkind : t.kind = .number) :
    ∃ x, Number.ofText t.text = .ok x := by
  have hnumeral : (Numeral.readFloat? t.text).any Double.isFinite = true := (hplain.number hkind).1
  unfold Number.ofText
  cases Numeral.readInt t.text with
  | ok n => exact ⟨_, rfl⟩
  | error fault =>
    cases hfloat : Numeral.readFloat? t.text with
    | none => simp [hfloat] at hnumeral
    | some x => exact ⟨_, rfl⟩

/-- A number word of a text spells a number, so there is nothing to complain about. -/
theorem blames_spelled {t : Token} (hplain : t.word.Plain) (hkind : t.kind = .number) :
    Blames ts (spelled t) c := by
  obtain ⟨x, hx⟩ := spelled_of_plain hplain hkind
  simp only [spelled, hx]
  exact blames_pure x

/-- A sign that is passed is there. -/
theorem blames_takeSign (isSigned : Bool) : Blames ts (takeSign isSigned) c := by
  have hget : ∀ e, ¬((get : Parser Cursor).run.run c).1 = .error e := fun e he => nomatch he
  refine Blames.bind (fun e he => absurd he (hget e)) fun d c' hd => ?_
  obtain ⟨rfl, rfl⟩ := runs_get.mp hd
  refine blames_ite (fun hsign => ?_) fun _ => blames_pure false
  obtain ⟨⟨t, hhead, -⟩, -⟩ := isSign_iff.mp hsign
  exact blames_advance_bind hhead (blames_pure true)

/-- Where a number is missing, the complaint is about the word found there, or about
the one that asks for it. -/
theorem blames_expectNumber {after : Token} (hafter : after ∈ ts) (isSigned : Bool)
    (hplain : ∀ t ∈ c.ahead, t.word.Plain) (hmem : ∀ t ∈ c.ahead, t ∈ ts) :
    Blames ts (expectNumber after isSigned) c := by
  refine (blames_takeSign isSigned).bind fun negative d hsign => blames_peek_bind ?_
  have hleads := (keeps_takeSign isSigned).of_runs hsign
  cases hhead : d.ahead.head? with
  | none => exact blames_throw ⟨after, hafter, rfl⟩
  | some t =>
    have ht : t ∈ d.ahead := List.mem_of_mem_head? hhead
    refine blames_ite (fun hkind => ?_) fun _ => ?_
    · exact blames_advance_bind hhead <|
        (blames_spelled (hleads.forall_ahead hplain t ht) (by simpa using hkind)).bind
          fun x _ _ => blames_pure _
    · exact blames_throw ⟨t, hleads.forall_ahead hmem t ht, rfl⟩

/-- Where the words of a text lie ahead, a missing number is complained about at one
of them. -/
theorem Within.blames_expectNumber (h : Within ts c) {after : Token} (hafter : after ∈ ts)
    (isSigned : Bool) : Blames ts (expectNumber after isSigned) c :=
  Parser.blames_expectNumber hafter isSigned h.plain h.mem

/-! ### Suffixes -/

/-- A rotation complains about its colon or about what follows it. -/
theorem blames_rotation (hc : Within ts c) : Blames ts rotation c := by
  refine blames_peek_bind ?_
  cases hhead : c.ahead.head? with
  | none => exact blames_pure _
  | some t =>
    refine blames_ite (fun _ => ?_) fun _ => blames_pure _
    exact blames_advance_bind hhead (hc.next.blames_expectNumber (hc.head hhead) true)

/-- A number that is not whole is complained about at the slash.  A readable number
has an exact value, so this is all that can be wrong with it. -/
theorem blames_rhythmPart {slash : Token} (hslash : slash ∈ ts) (what : String) {x : Number}
    (hx : x.Readable) : Blames ts (rhythmPart slash what x) c := by
  unfold rhythmPart
  cases hwhole : Value.wholeNumber what (.number x) with
  | ok n => exact blames_pure n
  | error cause =>
    simp only [hx.family_of_wholeNumber hwhole]
    exact blames_throw ⟨slash, hslash, rfl⟩

/-- A rhythm complains about a missing number, or about its slash. -/
theorem blames_euclid {child : Pattern} {slash : Token} (hslash : slash ∈ ts)
    (hc : Within ts c) : Blames ts (euclid child slash) c := by
  refine (hc.blames_expectNumber hslash false).bind fun x d hsteps => blames_peek_bind ?_
  have hd := hc.runs (keeps_expectNumber slash false) hsteps
  have hx := (readable_of_expectNumber hc.plain hsteps).1
  cases hhead : d.ahead.head? with
  | none => exact blames_throw ⟨slash, hslash, rfl⟩
  | some t =>
    refine blames_guard (fun _ => ⟨slash, hslash, rfl⟩) fun _ => blames_advance_bind hhead ?_
    refine (hd.next.blames_expectNumber (hd.head hhead) false).bind fun y e hpulses => ?_
    have he := hd.next.runs (keeps_expectNumber t false) hpulses
    have hy := (readable_of_expectNumber hd.next.plain hpulses).1
    refine (blames_rotation he).bind fun z _ hturned => ?_
    have hz := readable_of_rotation he.plain hturned
    refine (blames_rhythmPart hslash _ hx).bind fun steps _ _ => ?_
    refine (blames_rhythmPart hslash _ hy).bind fun pulses _ _ => ?_
    refine (blames_rhythmPart hslash _ hz).bind fun turned _ _ => ?_
    exact blames_guard (fun _ => ⟨slash, hslash, rfl⟩) fun _ => blames_pure _

/-- The operands of a modulation are missing at its tilde, or behind it. -/
theorem blames_modulationOperands {tilde : Token} (htilde : tilde ∈ ts)
    (hplain : ∀ t ∈ c.ahead, t.word.Plain) (hmem : ∀ t ∈ c.ahead, t ∈ ts) :
    Blames ts (modulationOperands tilde) c := by
  refine (blames_expectNumber htilde false hplain hmem).bind fun amount d hamount => ?_
  have hleads := (keeps_expectNumber tilde false).of_runs hamount
  refine blames_atNumber_bind (blames_ite (fun _ => ?_) fun _ => blames_pure _)
  exact (blames_expectNumber htilde false (hleads.forall_ahead hplain)
    (hleads.forall_ahead hmem)).bind fun _ _ _ => blames_pure _

/-- A modulation complains about its operands only. -/
theorem blames_modulation {child : Pattern} {tilde : Token} (htilde : tilde ∈ ts)
    (hc : Within ts c) : Blames ts (modulation child tilde) c := by
  have hoperands : Blames ts (modulationOperands tilde) { c with depth := c.depth + 1 } :=
    blames_modulationOperands htilde hc.plain hc.mem
  refine (blames_deeper hoperands).bind fun operands d _ => ?_
  have hmodify : ∀ g : Cursor → Cursor, Blames ts (modify g : Parser PUnit) d :=
    fun g e he => nomatch he
  exact (hmodify _).bind fun _ _ _ => blames_pure _

/-- A suffix complains about its own word, or about what its operand lacks. -/
theorem blames_suffixStep (hc : Within ts c) (child : Pattern) :
    Blames ts (suffixStep child) c := by
  refine blames_peek_bind ?_
  cases hhead : c.ahead.head? with
  | none => exact blames_pure _
  | some t =>
    have ht := hc.head hhead
    refine blames_ite (fun _ => blames_pure _) fun _ => blames_advance_bind hhead ?_
    split
    · exact (blames_euclid ht hc.next).bind fun _ _ _ => blames_pure _
    · exact (blames_modulation ht hc.next).bind fun _ _ _ => blames_pure _
    · exact (hc.next.blames_expectNumber ht false).bind fun x _ _ =>
        blames_guard (fun _ => ⟨t, ht, rfl⟩) fun _ => blames_pure _

/-- So do all suffixes of a child. -/
theorem blames_suffixes (hc : Within ts c) (child : Pattern) : Blames ts (suffixes child) c :=
  blames_repeatUntil (I := fun _ => Within ts)
    (fun q _ _ _ hd hstep => ⟨hd.runs (keeps_suffixStep q) hstep, shorter_suffixStep hstep⟩)
    (fun q _ hd => blames_suffixStep hd q) hc

/-! ### Atoms -/

/-- A name complains about a colon behind which no word stands. -/
theorem blames_variantStep (hc : Within ts c) (name : String) : Blames ts (variantStep name) c := by
  refine blames_ahead_bind ?_
  cases hahead : c.ahead with
  | nil => exact blames_pure _
  | cons colon rest =>
    have hcolon : colon ∈ ts := hc.head (by rw [hahead]; rfl)
    refine blames_ite (fun _ => blames_pure _) fun _ => ?_
    cases hrest : rest.head? with
    | none => exact blames_throw ⟨colon, hcolon, rfl⟩
    | some word =>
      refine blames_guard (fun _ => ⟨colon, hcolon, rfl⟩) fun _ => ?_
      refine blames_advance_bind (t := colon) (by rw [hahead]; rfl) ?_
      have hnext : c.next.ahead.head? = some word := by rw [Cursor.next_ahead, hahead]; exact hrest
      exact blames_advance_bind hnext (blames_pure _)

/-- So does a name with any number of colons. -/
theorem blames_variants (hc : Within ts c) (name : String) :
    Blames ts (repeatUntil variantStep name) c := by
  refine blames_repeatUntil (I := fun _ => Within ts) (fun s d s' d' hd hstep => ?_)
    (fun s _ hd => blames_variantStep hd s) hc
  refine ⟨hd.runs (keeps_variantStep s) hstep, ?_⟩
  obtain hdone | ⟨word, -, -, -, hhead, rfl⟩ := variantStep_cases hstep
  · exact absurd hdone (by simp)
  · exact Nat.lt_of_le_of_lt (Cursor.leads_next d.next).length_le (Cursor.length_next hhead)

/-- A group complains about words, and ends before one, where fewer words than
a limit are ahead. -/
structure Groups (ts : List Token) (limit : Nat)
    (group : TokenKind → Token → Parser (List Pattern)) : Prop where
  blames : ∀ {closer : TokenKind} {opener : Token} {c : Cursor}, opener ∈ ts → Within ts c →
    c.ahead.length < limit → Blames ts (group closer opener) c
  ends : ∀ {closer : TokenKind} {opener : Token} {c c' : Cursor} {ps : List Pattern},
    Runs (group closer opener) c ps c' → c'.ahead.head?.isSome = true

/-- The bracket that closes a group is there to be passed. -/
theorem Groups.blames_bind {limit : Nat} {group : TokenKind → Token → Parser (List Pattern)}
    (hgroup : Groups ts limit group) {closer : TokenKind} {opener : Token} (hopener : opener ∈ ts)
    (hc : Within ts c) (hlimit : c.ahead.length < limit) (node : List Pattern → Pattern) :
    Blames ts (group closer opener >>= fun children =>
      advance >>= fun _ => pure (node children)) c := by
  refine (hgroup.blames hopener hc hlimit).bind fun children d hrun => ?_
  obtain ⟨t, hhead⟩ := Option.isSome_iff_exists.mp (hgroup.ends hrun)
  exact blames_advance_bind hhead (blames_pure _)

/-- An atom complains about its first word or as its group, rhythm or name does. -/
theorem blames_atomWith {limit : Nat} {group : TokenKind → Token → Parser (List Pattern)}
    (hgroup : Groups ts limit group) (hc : Within ts c) (hlimit : c.ahead.length ≤ limit) {t : Token}
    (hhead : c.ahead.head? = some t) : Blames ts (atomWith group) c := by
  have ht := hc.head hhead
  have hplain := hc.plain t (List.mem_of_mem_head? hhead)
  have hnext := hc.next
  have hlength := Nat.lt_of_lt_of_le (Cursor.length_next_of_head? hhead) hlimit
  refine blames_advance_bind hhead ?_
  cases hkind : t.kind with
  | number => exact (blames_spelled hplain hkind).bind fun x _ _ => blames_pure _
  | string => exact blames_pure _
  | symbol => exact (blames_variants hnext t.text).bind fun _ _ _ => blames_pure _
  | listStart => exact hgroup.blames_bind ht hnext hlength Pattern.sequence
  | angleStart => exact hgroup.blames_bind ht hnext hlength Pattern.parallel
  | slash => exact blames_euclid ht hnext
  | minus =>
    refine blames_peek_bind ?_
    cases hhead' : c.next.ahead.head? with
    | none => exact blames_throw ⟨t, ht, rfl⟩
    | some u =>
      have huplain := hnext.plain u (List.mem_of_mem_head? hhead')
      refine blames_guard (fun _ => ⟨t, ht, rfl⟩) fun hnumber => blames_advance_bind hhead' ?_
      exact (blames_spelled huplain (by simpa using hnumber)).bind fun x _ _ => blames_pure _
  | _ => exact blames_throw ⟨t, ht, rfl⟩

/-! ### Calls -/

/-- Operands complain as the number does that each of them is. -/
theorem blames_operands (hc : Within ts c) (t : Transform) {name : Token} (hname : name ∈ ts) :
    Blames ts (repeatUntil (operandStep t name) []) c := by
  refine blames_repeatUntil (I := fun _ => Within ts) (fun operands d _ d' hd hstep => ?_)
    (fun operands d hd => ?_) hc
  · refine ⟨hd.runs (keeps_operandStep t name operands) hstep, ?_⟩
    obtain hdone | ⟨-, x, hx, -⟩ := operandStep_cases hstep
    · exact absurd hdone (by simp)
    · exact shorter_expectNumber hx
  · refine blames_atNumber_bind (blames_ite (fun _ => ?_) fun _ => blames_pure _)
    exact (hd.blames_expectNumber hname true).bind fun _ _ _ => blames_pure _

/-- A further value is complained about itself. -/
theorem blames_refuseExtra (hc : Within ts c) (name : String) : Blames ts (refuseExtra name) c := by
  refine blames_peek_bind ?_
  cases hhead : c.ahead.head? with
  | none => exact blames_pure _
  | some extra =>
    refine blames_atNumber_bind (blames_ite (fun _ => ?_) fun _ => blames_pure _)
    exact blames_throw ⟨extra, hc.head hhead, rfl⟩

/-- Checks that want a number in front belong to transforms that take one. -/
theorem fewest_of_check {name : String} {t : Transform}
    (known : Transform.builtin.get? (Unicode.lowercase name) = some t) {check : OperandCheck}
    (hcheck : t.check = some check) : check = .probability ∨ 1 ≤ t.fewest := by
  have hentries : ∀ entry ∈ Transform.builtin.entries, ∀ check ∈ entry.2.check,
      check = .probability ∨ 1 ≤ entry.2.fewest := by decide
  exact hentries _ (mem_entries_of_get? known) check hcheck

/-- What a check refuses is complained about at the name of the transform.  The
checks of the transforms known from the start look at readable numbers only, and
fail by their values. -/
theorem blames_checkOperands {word : String} {t : Transform}
    (known : Transform.builtin.get? (Unicode.lowercase word) = some t) {name : String}
    {token : Token} (htoken : token ∈ ts) {xs : List Number} (hxs : ∀ x ∈ xs, x.Readable)
    (hfewest : t.fewest ≤ xs.length) {calls : List Value} (hcalls : ∀ v ∈ calls, v.isCall = true) :
    Blames ts (checkOperands t name token (xs.map Value.number ++ calls)) c := by
  unfold checkOperands
  cases hcheck : t.check with
  | none => exact blames_pure ()
  | some check =>
    cases hrun : check.run (xs.map Value.number ++ calls) with
    | ok u => simp only [hrun]; exact blames_pure ()
    | error cause =>
      have numbers : ∀ v ∈ xs.map Value.number ++ calls, v.isCall = false →
          ∃ x : Number, v = .number x := by
        intro v hv hplain
        rw [List.mem_append] at hv
        obtain hv | hv := hv
        · obtain ⟨x, -, rfl⟩ := List.mem_map.mp hv
          exact ⟨x, rfl⟩
        · exact absurd ((hcalls v hv).symm.trans hplain) (by simp)
      have first : check = .probability ∨ ∃ x rest, x.Readable ∧
          xs.map Value.number ++ calls = .number x :: rest := by
        refine (fewest_of_check known hcheck).imp_right fun hone => ?_
        cases xs with
        | nil => exact absurd hfewest (by simp; omega)
        | cons x xs => exact ⟨x, _, hxs x List.mem_cons_self, rfl⟩
      simp only [hrun, OperandCheck.family_of_run numbers first hrun]
      exact blames_throw ⟨token, htoken, rfl⟩

/-- A call complains about a missing name, an unknown one, or operands that are too
few, too many or refused.  The induction is on the limit, which the words ahead
never reach. -/
theorem blames_callWithin {limit : Nat} {after : Token} (hafter : after ∈ ts) (hc : Within ts c)
    (hlimit : c.ahead.length < limit) :
    Blames ts (callWithin Transform.builtin limit after) c := by
  induction limit generalizing c after with
  | zero => exact absurd hlimit (Nat.not_lt_zero _)
  | succ limit ih =>
    refine blames_peek_bind ?_
    cases hhead : c.ahead.head? with
    | none => exact blames_throw ⟨after, hafter, rfl⟩
    | some token =>
      have htoken := hc.head hhead
      have hshorter := Cursor.length_next_of_head? hhead
      refine blames_guard (fun _ => ⟨after, hafter, rfl⟩) fun _ => blames_advance_bind hhead ?_
      dsimp only
      cases known : Transform.builtin.get? (Unicode.lowercase token.text) with
      | none => exact blames_throw ⟨token, htoken, rfl⟩
      | some t =>
        have hnonneg : ∀ entry ∈ Transform.builtin.entries, 0 ≤ entry.2.most := by decide
        refine (blames_operands hc.next t htoken).bind fun operands d hoperands => ?_
        have hd := hc.next.runs (keeps_repeatUntil (keeps_operandStep t token) []) hoperands
        have hd_length :=
          (keeps_repeatUntil (keeps_operandStep t token) []).length_le hoperands
        obtain ⟨-, xs, rfl, hxs⟩ := takenBy_of_operands hc.next.toSound
          (hnonneg _ (mem_entries_of_get? known)) hoperands
        refine blames_guard (fun _ => ⟨token, htoken, rfl⟩) fun hfewest => ?_
        rw [List.length_map, not_lt] at hfewest
        refine blames_ite (fun _ => ?_) fun _ => ?_
        · refine (ih htoken hd (by omega)).bind fun call e _ => ?_
          exact (blames_checkOperands known htoken hxs hfewest (by simp [Value.isCall])).bind
            fun _ _ _ => blames_pure _
        · refine (blames_refuseExtra hd _).bind fun _ e _ => ?_
          have hcheck : Blames ts (checkOperands t (Unicode.lowercase token.text) token
              (xs.map Value.number ++ [])) e :=
            blames_checkOperands known htoken hxs hfewest
              (List.forall_mem_nil fun v => Value.isCall v = true)
          rw [List.append_nil] at hcheck
          exact hcheck.bind fun _ _ _ => blames_pure _

/-- A transform complains about its point if nothing stands before it, or as its
call does. -/
theorem blames_transform {items : List Pattern} {dot : Token} (hdot : dot ∈ ts)
    (hc : Within ts c) : Blames ts (transform Transform.builtin items dot) c := by
  cases items with
  | nil => exact blames_throw ⟨dot, hdot, rfl⟩
  | cons first others =>
    exact (blames_ahead_bind (blames_callWithin hdot hc (Nat.lt_succ_self _))).bind
      fun _ _ _ => blames_pure _

/-! ### Groups -/

/-- One more part of a group complains about an opening bracket that is not closed,
a closing one that was not opened, or as the part itself does. -/
theorem blames_itemStep {limit : Nat} {group : TokenKind → Token → Parser (List Pattern)}
    {enclosing : Option (TokenKind × Token)} (hgroup : Groups ts limit group)
    (hkeeps : ∀ closer opener, Keeps (group closer opener))
    (hopener : ∀ e ∈ enclosing, e.2 ∈ ts) (hc : Within ts c) (hlimit : c.ahead.length ≤ limit)
    (items : List Pattern) :
    Blames ts (itemStep Transform.builtin group enclosing items) c := by
  refine blames_peek_bind ?_
  cases hhead : c.ahead.head? with
  | none =>
    cases enclosing with
    | none => exact blames_pure _
    | some e => exact blames_throw ⟨e.2, hopener e rfl, rfl⟩
  | some t =>
    have ht := hc.head hhead
    refine blames_ite (fun _ => ?_) fun _ => blames_ite (fun _ => ?_) fun _ => ?_
    · exact blames_ite (fun _ => blames_pure _) fun _ => blames_throw ⟨t, ht, rfl⟩
    · exact blames_advance_bind hhead <|
        (blames_transform ht hc.next).bind fun _ _ _ => blames_pure _
    · split
      · exact (blames_suffixes hc _).bind fun _ _ _ => blames_pure _
      · refine (blames_atomWith hgroup hc hlimit hhead).bind fun atom d hatom => ?_
        exact (blames_suffixes (hc.runs (keeps_atomWith hkeeps) hatom) atom).bind
          fun _ _ _ => blames_pure _

/-- A group inside brackets ends before the closing one. -/
theorem head_of_itemsWithin {limit : Nat} {enclosing : TokenKind × Token} {ps : List Pattern}
    (h : Runs (itemsWithin Transform.builtin limit (some enclosing)) c ps c') :
    c'.ahead.head?.isSome = true := by
  cases limit with
  | zero => exact absurd h runs_throw
  | succ limit =>
    refine repeatUntil_induction (P := fun _ _ => True)
      (Q := fun _ d => d.ahead.head?.isSome = true) (fun _ _ _ _ _ _ => trivial) ?_ trivial h
    intro items d ps d' _ hstep
    obtain ⟨-, rfl, hsome⟩ | ⟨_, _, -, -, hnext⟩ | ⟨_, _, _, _, -, -, -, -, hnext⟩ |
      ⟨_, _, _, -, -, -, hnext⟩ := itemStep_cases hstep
    · exact hsome rfl
    · exact absurd hnext (by simp)
    · exact absurd hnext (by simp)
    · exact absurd hnext (by simp)

/-- Items complain about words: the words ahead bound both the steps and the groups
inside groups. -/
theorem blames_itemsWithin {limit : Nat} {enclosing : Option (TokenKind × Token)}
    (hopener : ∀ e ∈ enclosing, e.2 ∈ ts) (hc : Within ts c) (hlimit : c.ahead.length < limit) :
    Blames ts (itemsWithin Transform.builtin limit enclosing) c := by
  induction limit generalizing c enclosing with
  | zero => exact absurd hlimit (Nat.not_lt_zero _)
  | succ limit ih =>
    have hkeeps : ∀ closer opener,
        Keeps (itemsWithin Transform.builtin limit (some (closer, opener))) :=
      fun closer opener => keeps_itemsWithin _ limit _
    have hgroup : Groups ts limit fun closer opener =>
        itemsWithin Transform.builtin limit (some (closer, opener)) :=
      ⟨fun hopener hd hlength => ih (by simpa using hopener) hd hlength, head_of_itemsWithin⟩
    refine blames_repeatUntil (I := fun _ d => Within ts d ∧ d.ahead.length ≤ limit)
      (fun items d _ d' hd hstep => ?_) (fun items d hd => ?_) ⟨hc, Nat.le_of_lt_succ hlimit⟩
    · have hshorter := shorter_itemStep hkeeps hstep
      exact ⟨⟨hd.1.runs (keeps_itemStep hkeeps enclosing items) hstep, by omega⟩, hshorter⟩
    · exact blames_itemStep hgroup hkeeps hopener hd.1 hd.2 items

/-- So does a whole pattern. -/
theorem blames_pattern (hc : Within ts c) : Blames ts (pattern Transform.builtin) c :=
  (blames_ahead_bind (blames_itemsWithin (by simp) hc (Nat.lt_succ_self _))).bind
    fun _ _ _ => blames_pure _

end Parser

/-! ## Text -/

/-- A complaint is about a character of the text, or about one of its words.
It has a place in any case, so it is neither the end of the words nor a fault
that says nothing about the notation. -/
def NotationError.PointsInto (text : String) : NotationError → Prop
  | lexical e => e.position < text.length
  | grammatical e => ∃ ts, tokenize text = .ok ts ∧ Parser.About ts e

/-- **Reading text.**  Every text stands for a sequence that can be written, or
is refused with a complaint about one of its characters or words. -/
theorem parse_or_pointsInto (text : String) :
    (∃ children, parse Transform.builtin text = .ok (.sequence children) ∧
      (Pattern.sequence children).isWritable = true) ∨
    ∃ e, parse Transform.builtin text = .error e ∧ e.PointsInto text := by
  cases hparse : parse Transform.builtin text with
  | ok p =>
    obtain ⟨hp, children, rfl⟩ := Pattern.wellFormed_of_parse hparse
    exact .inl ⟨children, rfl, hp.isWritable⟩
  | error e =>
    refine .inr ⟨e, rfl, ?_⟩
    unfold parse at hparse
    cases htokens : tokenize text with
    | error e' =>
      simp only [htokens, Except.error.injEq] at hparse
      have hposition := Lexer.position_of_tokensFrom htokens
      rw [← hparse]
      simpa [NotationError.PointsInto, String.length_toList] using hposition
    | ok ts =>
      simp only [htokens] at hparse
      cases hresult : (parseTokens Transform.builtin ts).1 with
      | ok p => simp [hresult] at hparse
      | error e' =>
        have hstart : Parser.Within ts (Cursor.start ts) :=
          ⟨⟨rfl, Word.plain_of_tokenize htokens⟩, fun t ht => ht⟩
        simp only [hresult, Except.error.injEq] at hparse
        rw [← hparse]
        exact ⟨ts, htokens, Parser.blames_pattern hstart e' hresult⟩

end Ostinato
