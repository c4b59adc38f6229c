import Ostinato.Proofs.Notation.Keeping
import Ostinato.Proofs.Notation.Rereading
import Ostinato.Proofs.Number.Zero

/-!
# Ostinato.Proofs.Notation.Elements

What readers of elements yield.

Each reader is followed from the word where it starts, for results whose
numbers are integers: a number that is read is in range, suffixes keep items
to items (`Parser.Suffixed`), and what an atom is can be told from its first
word (`Parser.Atomic`).
-/

namespace Ostinato

open Double (InRange)

/-- Words of a text lie ahead, outside of modulations. -/
structure Cursor.Sound (c : Cursor) : Prop where
  depth : c.depth = 0
  plain : ∀ t ∈ c.ahead, t.word.Plain

/-- Further on, the words ahead are still words of a text. -/
theorem Cursor.Leads.sound {c c' : Cursor} (h : c.Leads c') (hc : c.Sound) : c'.Sound :=
  ⟨h.1.trans hc.depth, h.forall_ahead hc.plain⟩

/-- A number that a word can stand for. -/
inductive Number.Readable : Number → Prop where
  | int {n : Int} (inRange : InRange n) : Readable (.int n)
  | float {x : Float} (finite : Double.isFinite x = true) : Readable (.float x)

/-- A number that a word can stand for can be negated. -/
theorem Number.Readable.negate {x : Number} (h : x.Readable) : x.negate.Readable := by
  cases h with
  | int inRange => exact .int (Double.inRange_neg.mpr inRange)
  | float finite => exact .float (Double.isFinite_neg finite)

/-- A readable number that is an integer is one in range. -/
theorem Number.Readable.inRange {x : Number} (h : x.Readable)
    (hint : (Value.number x).isIntegral = true) : ∃ n, x = .int n ∧ InRange n := by
  cases h with
  | @int n inRange => exact ⟨n, rfl, inRange⟩
  | float finite => exact absurd hint Bool.false_ne_true

namespace Parser

variable {c c' : Cursor}

/-! ## Numbers -/

/-- The number that a word stands for, an integer of at least zero in range if
it is an integer. -/
theorem readable_of_ofText {t : Token} (hplain : t.word.Plain) (hkind : t.kind = .number)
    {x : Number} (h : Number.ofText t.text = .ok x) :
    x.Readable ∧ ∀ n, x = .int n → 0 ≤ n := by
  obtain ⟨hnumeral, hchars⟩ := hplain.number hkind
  have hsign : '-' ∉ t.text.toList := fun hmem => absurd (hchars '-' hmem) (by decide)
  rw [Number.ofText] at h
  rcases hint : Numeral.readInt t.text with e | n
  · simp only [hint] at h
    rcases hfloat : Numeral.readFloat? t.text with _ | y
    · simp [hfloat] at h
    · simp only [hfloat] at h
      obtain rfl := Except.ok.inj h
      have hfinite : (Numeral.readFloat? t.text).any Double.isFinite = true := hnumeral
      rw [hfloat] at hfinite
      exact ⟨.float hfinite, fun n hn => absurd hn (by simp)⟩
  · simp only [hint] at h
    obtain rfl := Except.ok.inj h
    obtain ⟨hnonneg, hrange⟩ := Word.isNumeral_of_readInt hsign hint
    refine ⟨.int (hrange.mp hnumeral), fun m hm => ?_⟩
    rwa [← Number.int.inj hm]

/-- A number that is read is readable, and negative only after a sign. -/
theorem readable_of_expectNumber {after : Token} {isSigned : Bool} {x : Number}
    (hplain : ∀ t ∈ c.ahead, t.word.Plain) (h : Runs (expectNumber after isSigned) c x c') :
    x.Readable ∧ (isSign isSigned c = false → ∀ n, x = .int n → 0 ≤ n) := by
  obtain ⟨t, y, hhead, hkind, hy, rfl, -⟩ := runs_expectNumber.mp h
  have hmem : t ∈ (if isSign isSigned c = true then c.next else c).ahead :=
    List.mem_of_mem_head? hhead
  have hahead : t ∈ c.ahead := by
    split at hmem
    · exact List.mem_of_mem_tail hmem
    · exact hmem
  obtain ⟨hreadable, hnonneg⟩ := readable_of_ofText (hplain t hahead) hkind hy
  by_cases hsign : isSign isSigned c = true
  · rw [if_pos hsign]
    exact ⟨hreadable.negate, fun hno => absurd (hsign.symm.trans hno) (by decide)⟩
  · rw [if_neg hsign]
    exact ⟨hreadable, fun _ => hnonneg⟩

/-- The words ahead are the next one and those behind it. -/
theorem words_of_head? {t : Token} (h : c.ahead.head? = some t) :
    c.words = t.word :: c.next.words := by
  obtain ⟨ts, hahead⟩ := List.head?_eq_some_iff.mp h
  rw [Cursor.words, Cursor.words, Cursor.next_ahead, hahead]
  rfl

/-! ## Suffixes -/

/-- A part of a rhythm passes no word. -/
theorem runs_rhythmPart {slash : Token} {what : String} {x : Number} {n : Int} :
    Runs (rhythmPart slash what x) c n c' ↔
      Value.wholeNumber what (.number x) = .ok n ∧ c = c' := by
  unfold rhythmPart
  rcases Value.wholeNumber what (.number x) with cause | m
  · exact iff_of_false runs_throw (by simp)
  · simp

/-- The whole number that a readable number stands for is in range: it is the number
itself, or a double that has its value. -/
theorem inRange_of_wholeNumber {what : String} {x : Number} {n : Int} (hx : x.Readable)
    (h : Value.wholeNumber what (.number x) = .ok n) : InRange n := by
  cases hx with
  | @int m inRange =>
    rw [wholeNumber_int] at h
    rwa [← Except.ok.inj h]
  | @float x finite =>
    rcases hrat : Double.toRat? x with _ | q
    · simp [Value.wholeNumber, Number.toInt, hrat, bind, Except.bind] at h
    · have hint : (Number.float x).toInt = .ok (Number.truncate q) := by simp [Number.toInt, hrat]
      simp only [Value.wholeNumber, hint, bind, Except.bind] at h
      by_cases hsame : (Number.float x).same (.int (Number.truncate q)) = true
      · rw [if_pos hsame] at h
        have hwhole : q = (n : Rat) := by
          rw [← Except.ok.inj h]
          simp only [Number.same, Number.compare?, Number.extent?, hrat, Number.Extent.compare,
            Option.bind_eq_bind, Option.bind_some] at hsame
          grind
        exact Double.inRange_of_toRat? (by rw [hrat, hwhole])
      · rw [if_neg hsame] at h
        exact absurd h (by simp)

/-- A rotation is a number that a word can stand for. -/
theorem readable_of_rotation {x : Number} (hplain : ∀ t ∈ c.ahead, t.word.Plain)
    (h : Runs rotation c x c') : x.Readable := by
  replace h := runs_peek_bind.mp h
  have hzero : (Number.int 0).Readable := .int (by decide +kernel)
  rcases hhead : c.ahead.head? with _ | t
  · simp only [hhead] at h
    rwa [← (runs_pure.mp h).1]
  · simp only [hhead] at h
    split at h
    · obtain ⟨colon, -, h⟩ := runs_advance_bind.mp h
      exact (readable_of_expectNumber ((Cursor.leads_next c).forall_ahead hplain) h).1
    · rwa [← (runs_pure.mp h).1]

/-- Words of a text lie ahead behind what a reader passes. -/
theorem Keeps.sound {α : Type} {p : Parser α} {a : α} (hp : Keeps p) (h : Runs p c a c')
    (hc : c.Sound) : c'.Sound :=
  (hp.of_runs h).sound hc

/-- What every step of a repetition keeps holds at its end. -/
theorem sound_induction {α β : Type} {step : α → Parser (α ⊕ β)} {P : α → Cursor → Prop}
    {Q : β → Cursor → Prop} (keeps : ∀ a, Keeps (step a))
    (next : ∀ a d a' d', d.Sound → P a d → Runs (step a) d (.inl a') d' → P a' d')
    (done : ∀ a d b d', d.Sound → P a d → Runs (step a) d (.inr b) d' → Q b d') {a : α} {b : β}
    (hc : c.Sound) (start : P a c) (h : Runs (repeatUntil step a) c b c') : Q b c' :=
  repeatUntil_induction (P := fun a d => d.Sound ∧ P a d)
    (fun a d a' d' hd hstep => ⟨(keeps a).sound hstep hd.1, next a d a' d' hd.1 hd.2 hstep⟩)
    (fun a d b d' hd hstep => done a d b d' hd.1 hd.2 hstep) ⟨hc, start⟩ h

/-- What a rhythm is made of. -/
theorem euclid_cases {child p : Pattern} {slash : Token} (hc : c.Sound)
    (h : Runs (euclid child slash) c p c') :
    ∃ steps pulses rotation, p = .euclidean steps pulses rotation child ∧ 1 ≤ steps ∧
      0 ≤ pulses ∧ InRange steps ∧ InRange pulses ∧ InRange rotation := by
  obtain ⟨x, d, hsteps, h⟩ := runs_bind.mp h
  have hd := (keeps_expectNumber slash false).sound hsteps hc
  replace h := runs_peek_bind.mp h
  rcases hhead : d.ahead.head? with _ | t
  · simp only [hhead] at h
    exact absurd h runs_throw
  simp only [hhead] at h
  obtain ⟨-, h⟩ := runs_guard.mp h
  obtain ⟨colon, -, h⟩ := runs_advance_bind.mp h
  have hnext := (Cursor.leads_next d).sound hd
  obtain ⟨y, e, hpulses, h⟩ := runs_bind.mp h
  have he := (keeps_expectNumber colon false).sound hpulses hnext
  obtain ⟨z, e', hrotation, h⟩ := runs_bind.mp h
  obtain ⟨steps, _, hpart, h⟩ := runs_bind.mp h
  obtain ⟨hwholeSteps, rfl⟩ := runs_rhythmPart.mp hpart
  obtain ⟨pulses, _, hpart, h⟩ := runs_bind.mp h
  obtain ⟨hwholePulses, rfl⟩ := runs_rhythmPart.mp hpart
  obtain ⟨rotation, _, hpart, h⟩ := runs_bind.mp h
  obtain ⟨hwholeRotation, rfl⟩ := runs_rhythmPart.mp hpart
  obtain ⟨hbounds, h⟩ := runs_guard.mp h
  obtain ⟨rfl, -⟩ := runs_pure.mp h
  rw [Bool.or_eq_true, decide_eq_true_iff, decide_eq_true_iff] at hbounds
  refine ⟨steps, pulses, rotation, rfl, by omega, by omega, ?_, ?_, ?_⟩
  · exact inRange_of_wholeNumber (readable_of_expectNumber hc.plain hsteps).1 hwholeSteps
  · exact inRange_of_wholeNumber (readable_of_expectNumber hnext.plain hpulses).1 hwholePulses
  · exact inRange_of_wholeNumber (readable_of_rotation he.plain hrotation) hwholeRotation

/-- A rhythm is an item if its child is one. -/
theorem item_of_euclid {child p : Pattern} {slash : Token} (hc : c.Sound)
    (h : Runs (euclid child slash) c p c') :
    ∃ steps pulses rotation, p = .euclidean steps pulses rotation child ∧
      (child.Item → p.Item) := by
  obtain ⟨steps, pulses, rotation, rfl, hlow, hpulses, hrange⟩ := euclid_cases hc h
  exact ⟨steps, pulses, rotation, rfl,
    fun item => .euclidean hlow hpulses hrange.1 hrange.2.1 hrange.2.2 item⟩

/-- The amount and the rate of a modulation are numbers that words can stand for; a
missing rate is one. -/
theorem readable_of_modulationOperands {tilde : Token} {operands : Number × Number}
    (hplain : ∀ t ∈ c.ahead, t.word.Plain) (h : Runs (modulationOperands tilde) c operands c') :
    operands.1.Readable ∧ operands.2.Readable := by
  obtain ⟨amount, d, hamount, h⟩ := runs_bind.mp h
  have hd := ((keeps_expectNumber tilde false).of_runs hamount).forall_ahead hplain
  replace h := runs_atNumber_bind.mp h
  have hfirst := (readable_of_expectNumber hplain hamount).1
  split at h
  · obtain ⟨rate, e, hrate, h⟩ := runs_bind.mp h
    obtain ⟨rfl, -⟩ := runs_pure.mp h
    exact ⟨hfirst, (readable_of_expectNumber hd hrate).1⟩
  · obtain ⟨rfl, -⟩ := runs_pure.mp h
    exact ⟨hfirst, .int (by decide +kernel)⟩

/-- What a modulation is made of. -/
theorem modulation_cases {child p : Pattern} {tilde : Token}
    (hplain : ∀ t ∈ c.ahead, t.word.Plain) (h : Runs (modulation child tilde) c p c') :
    ∃ amount rate, p = .modulation child (.number amount) (.number rate) ∧ amount.Readable ∧
      rate.Readable := by
  obtain ⟨operands, d, hoperands, h⟩ := runs_bind.mp h
  obtain ⟨e, hinside, rfl⟩ := runs_deeper.mp hoperands
  obtain ⟨hamount, hrate⟩ := readable_of_modulationOperands
    (c := { c with depth := c.depth + 1 }) hplain hinside
  obtain ⟨_, _, -, h⟩ := runs_bind.mp h
  obtain ⟨rfl, -⟩ := runs_pure.mp h
  exact ⟨operands.1, operands.2, rfl, hamount, hrate⟩

/-- A modulation by integers is an item if its child is one. -/
theorem item_of_modulation {child p : Pattern} {tilde : Token} (hc : c.Sound)
    (h : Runs (modulation child tilde) c p c') :
    ∃ amount rate, p = .modulation child (.number amount) (.number rate) ∧
      (p.isIntegral = true → child.Item → p.Item) := by
  obtain ⟨amount, rate, rfl, hamount, hrate⟩ := modulation_cases hc.plain h
  refine ⟨amount, rate, rfl, fun hint item => ?_⟩
  rw [Pattern.isIntegral, Bool.and_eq_true, Bool.and_eq_true] at hint
  obtain ⟨m, rfl, hamountRange⟩ := hamount.inRange hint.1.2
  obtain ⟨n, rfl, hrateRange⟩ := hrate.inRange hint.2
  exact .modulation hamountRange hrateRange item

/-- An operator is written as its sign. -/
theorem operator_of_kind {t : Token} (hplain : t.word.Plain) (hsuffix : t.kind.isSuffix = true)
    (hslash : t.kind ≠ .slash) (htilde : t.kind ≠ .tilde) :
    ∃ op : Operator, t.kind = op.tokenKind ∧ t.text = op.sign := by
  have hsign : ∀ op : Operator, ∀ ch, TokenKind.ofStructural? ch = some op.tokenKind →
      String.singleton ch = op.sign := by
    intro op ch hch
    unfold TokenKind.ofStructural? at hch
    cases op <;> (split at hch <;> first | rfl | exact absurd hch (by decide))
  have hkind : ∃ op : Operator, t.kind = op.tokenKind := by
    cases hkind : t.kind with
    | star => exact ⟨.times, rfl⟩
    | plus => exact ⟨.plus, rfl⟩
    | minus => exact ⟨.minus, rfl⟩
    | modulo => exact ⟨.modulo, rfl⟩
    | slash => exact absurd hkind hslash
    | tilde => exact absurd hkind htilde
    | _ => exact absurd (hkind ▸ hsuffix) (by decide)
  obtain ⟨op, hop⟩ := hkind
  have hstructural : ∃ ch, TokenKind.ofStructural? ch = some op.tokenKind ∧
      t.text = String.singleton ch := by
    unfold Word.Plain Token.word at hplain
    rw [hop] at hplain
    cases op <;> exact hplain
  obtain ⟨ch, hch, htext⟩ := hstructural
  exact ⟨op, hop, htext.trans (hsign op ch hch)⟩

/-- One pattern is another one with suffixes after it, whose words begin the
given ones. -/
structure Suffixed (child : Pattern) (ws : List Word) (p : Pattern) : Prop where
  base : p.base = child.base
  noTransform : p.isTransform = false
  integral : p.isIntegral = true → child.isIntegral = true
  item : p.isIntegral = true → child.Item → (child.isTransform = true → Calm ws) → p.Item

/-- Suffixes after suffixes are suffixes. -/
theorem Suffixed.trans {child p q : Pattern} {ws ws' : List Word} (h : Suffixed child ws p)
    (h' : Suffixed p ws' q) : Suffixed child ws q where
  base := h'.base.trans h.base
  noTransform := h'.noTransform
  integral := fun hint => h.integral (h'.integral hint)
  item := by
    intro hint item hcalm
    refine h'.item hint (h.item (h'.integral hint) item hcalm) fun htransform => ?_
    exact absurd (h.noTransform.symm.trans htransform) Bool.false_ne_true

/-- Outside of modulations a minus sign is no sign of a number. -/
theorem isSign_of_sound (hc : c.Sound) : isSign false c = false := by
  unfold isSign
  rw [hc.depth]
  exact Bool.and_false _

/-- An operation on an item is an item, where its sign is not taken for that
of an operand of a transform. -/
theorem suffixed_operation {child : Pattern} {t : Token} {x : Number} (hc : c.Sound)
    (hhead : c.ahead.head? = some t) (hsuffix : t.kind.isSuffix = true) (hslash : t.kind ≠ .slash)
    (htilde : t.kind ≠ .tilde) (hoperand : Runs (expectNumber t false) c.next x c')
    (hzero : ¬(t.kind == .modulo && x.isZero) = true) :
    Suffixed child c.words (.operation child t.text (.number x)) := by
  have hplain := hc.plain t (List.mem_of_mem_head? hhead)
  obtain ⟨op, hkind, htext⟩ := operator_of_kind hplain hsuffix hslash htilde
  have hnext := (Cursor.leads_next c).sound hc
  obtain ⟨hreadable, hnonneg⟩ := readable_of_expectNumber hnext.plain hoperand
  refine ⟨rfl, rfl, fun hint => ?_, fun hint item hcalm => ?_⟩
  · rw [Pattern.isIntegral, Bool.and_eq_true] at hint
    exact hint.1
  · rw [Pattern.isIntegral, Bool.and_eq_true] at hint
    obtain ⟨n, rfl, hrange⟩ := hreadable.inRange hint.2
    have hunsigned := isSign_of_sound hnext
    rw [htext]
    refine .operation (hnonneg hunsigned n rfl) hrange ?_ ?_ item
    · rintro rfl rfl
      exact hzero (by rw [hkind]; decide)
    · rintro rfl
      -- the sign and the number after it would begin a number
      by_contra htransform
      rw [Bool.not_eq_false] at htransform
      obtain ⟨u, _, hu, hnumber, -⟩ := runs_expectNumber.mp hoperand
      rw [hunsigned, if_neg Bool.false_ne_true] at hu
      have hbegins : beginsNumber c.words = true := by
        rw [words_of_head? hhead, words_of_head? hu, beginsNumber]
        simp [Token.word, hkind, hnumber, Operator.tokenKind]
      exact absurd ((hcalm htransform).2.symm.trans hbegins) Bool.false_ne_true

/-- A step reads one suffix after its sign, or there is none. -/
theorem suffixStep_reads {child : Pattern} {r : Pattern ⊕ Pattern}
    (h : Runs (suffixStep child) c r c') :
    (r = .inr child ∧ c' = c ∧ ∀ t, c.ahead.head? = some t → t.kind.isSuffix = false) ∨
      ∃ t p, c.ahead.head? = some t ∧ t.kind.isSuffix = true ∧ r = .inl p ∧
        ((t.kind = .slash ∧ Runs (euclid child t) c.next p c') ∨
          (t.kind = .tilde ∧ Runs (modulation child t) c.next p c') ∨
          (t.kind ≠ .slash ∧ t.kind ≠ .tilde ∧ ∃ x, Runs (expectNumber t false) c.next x c' ∧
            ¬(t.kind == .modulo && x.isZero) = true ∧
            p = .operation child t.text (.number x))) := by
  replace h := runs_peek_bind.mp h
  rcases hhead : c.ahead.head? with _ | t
  · simp only [hhead] at h
    obtain ⟨rfl, rfl⟩ := runs_pure.mp h
    exact .inl ⟨rfl, rfl, fun t ht => absurd ht (Option.some_ne_none t).symm⟩
  simp only [hhead] at h
  split at h
  · rename_i hsuffix
    obtain ⟨rfl, rfl⟩ := runs_pure.mp h
    refine .inl ⟨rfl, rfl, fun u hu => ?_⟩
    obtain rfl := Option.some.inj hu
    simpa using hsuffix
  rename_i hsuffix
  have hkind : t.kind.isSuffix = true := by simpa using hsuffix
  obtain ⟨_, -, h⟩ := runs_advance_bind.mp h
  split at h
  · rename_i hslash
    obtain ⟨p, _, hread, h⟩ := runs_bind.mp h
    obtain ⟨rfl, rfl⟩ := runs_pure.mp h
    exact .inr ⟨t, p, rfl, hkind, rfl, .inl ⟨hslash, hread⟩⟩
  · rename_i htilde
    obtain ⟨p, _, hread, h⟩ := runs_bind.mp h
    obtain ⟨rfl, rfl⟩ := runs_pure.mp h
    exact .inr ⟨t, p, rfl, hkind, rfl, .inr (.inl ⟨htilde, hread⟩)⟩
  · rename_i hslash htilde
    obtain ⟨x, _, hoperand, h⟩ := runs_bind.mp h
    obtain ⟨hzero, h⟩ := runs_guard.mp h
    obtain ⟨rfl, rfl⟩ := runs_pure.mp h
    exact .inr ⟨t, _, rfl, hkind, rfl, .inr (.inr ⟨hslash, htilde, x, hoperand, hzero, rfl⟩)⟩

/-- A step takes one suffix after a child, or there is none. -/
theorem suffixStep_cases {child : Pattern} {r : Pattern ⊕ Pattern} (hc : c.Sound)
    (h : Runs (suffixStep child) c r c') :
    (r = .inr child ∧ c' = c) ∨ ∃ p, r = .inl p ∧ Suffixed child c.words p := by
  have hnext := (Cursor.leads_next c).sound hc
  obtain ⟨hr, hend, -⟩ | ⟨t, p, hhead, hsuffix, rfl, hread⟩ := suffixStep_reads h
  · exact .inl ⟨hr, hend⟩
  refine .inr ⟨p, rfl, ?_⟩
  obtain ⟨-, hread⟩ | ⟨-, hread⟩ | ⟨hslash, htilde, x, hoperand, hzero, rfl⟩ := hread
  · obtain ⟨steps, pulses, rotation, rfl, item⟩ := item_of_euclid hnext hread
    exact ⟨rfl, rfl, id, fun _ hchild _ => item hchild⟩
  · obtain ⟨amount, rate, rfl, item⟩ := item_of_modulation hnext hread
    refine ⟨rfl, rfl, fun hint => ?_, fun hint hchild _ => item hint hchild⟩
    rw [Pattern.isIntegral, Bool.and_eq_true, Bool.and_eq_true] at hint
    exact hint.1.1
  · exact suffixed_operation hc hhead hsuffix hslash htilde hoperand hzero

/-- The suffixes after a child, if there are any. -/
theorem suffixes_cases {child p : Pattern} (hc : c.Sound) (h : Runs (suffixes child) c p c') :
    (p = child ∧ c' = c) ∨ Suffixed child c.words p := by
  refine sound_induction (P := fun q d => (q = child ∧ d = c) ∨ Suffixed child c.words q)
    (Q := fun q d => (q = child ∧ d = c) ∨ Suffixed child c.words q) keeps_suffixStep ?_ ?_ hc
    (.inl ⟨rfl, rfl⟩) h
  · intro q d q' d' hd hq hstep
    obtain ⟨hdone, -⟩ | ⟨p, hp, hsuffixed⟩ := suffixStep_cases hd hstep
    · exact absurd hdone (by simp)
    obtain rfl := Sum.inl.inj hp
    obtain ⟨rfl, rfl⟩ | hq := hq
    · exact .inr hsuffixed
    · exact .inr (hq.trans hsuffixed)
  · intro q d q' d' hd hq hstep
    obtain ⟨hdone, rfl⟩ | ⟨p, hp, -⟩ := suffixStep_cases hd hstep
    · obtain rfl := Sum.inr.inj hdone
      exact hq
    · exact absurd hp (by simp)

/-! ## Atoms -/

/-- A word that is a name or a number holds no quote. -/
theorem not_quote_of_isVariant {t : Token} (hplain : t.word.Plain)
    (hkind : t.kind.isVariant = true) : '"' ∉ t.text.toList := by
  have hchars : ∀ d ∈ t.text.toList, Word.isRunChar d = true := by
    cases hword : t.kind with
    | number => exact (hplain.number hword).2
    | symbol => exact hplain.symbol hword
    | _ => exact absurd (hword ▸ hkind) (by decide)
  exact fun hmem => absurd (hchars '"' hmem) (by decide)

/-- A step of a name ends it, or takes a colon and the word behind it. -/
theorem variantStep_cases {name : String} {r : String ⊕ String}
    (h : Runs (variantStep name) c r c') : r = .inr name ∨
      ∃ word ∈ c.ahead, word.kind.isVariant = true ∧ r = .inl (name ++ ":" ++ word.text) ∧
        c.ahead.head?.isSome = true ∧ c' = c.next.next := by
  replace h := runs_ahead_bind.mp h
  rcases hwords : c.ahead with _ | ⟨colon, rest⟩
  · simp only [hwords] at h
    exact .inl (runs_pure.mp h).1.symm
  simp only [hwords] at h
  split at h
  · exact .inl (runs_pure.mp h).1.symm
  rcases hhead : rest.head? with _ | word
  · simp only [hhead] at h
    exact absurd h runs_throw
  simp only [hhead] at h
  obtain ⟨hkind, h⟩ := runs_guard.mp h
  obtain ⟨_, -, h⟩ := runs_advance_bind.mp h
  obtain ⟨_, -, h⟩ := runs_advance_bind.mp h
  obtain ⟨rfl, rfl⟩ := runs_pure.mp h
  have hmem : word ∈ colon :: rest := List.mem_cons_of_mem colon (List.mem_of_mem_head? hhead)
  exact .inr ⟨word, hmem, by simpa using hkind, rfl, rfl, rfl⟩

/-- A name with its variants holds no quote. -/
theorem not_quote_of_variants {name s : String} (hc : c.Sound) (hname : '"' ∉ name.toList)
    (h : Runs (repeatUntil variantStep name) c s c') : '"' ∉ s.toList := by
  refine sound_induction (P := fun s _ => '"' ∉ s.toList) (Q := fun s _ => '"' ∉ s.toList)
    keeps_variantStep ?_ ?_ hc hname h
  · intro s d s' d' hd hs hstep
    obtain hdone | ⟨word, hmem, hkind, hnext, -⟩ := variantStep_cases hstep
    · exact absurd hdone (by simp)
    obtain rfl := Sum.inl.inj hnext
    have hword := not_quote_of_isVariant (hd.plain word hmem) hkind
    simp only [String.toList_append, List.mem_append, not_or]
    exact ⟨⟨hs, by decide⟩, hword⟩
  · intro s d s' d' hd hs hstep
    obtain hdone | ⟨word, -, -, hnext, -⟩ := variantStep_cases hstep
    · obtain rfl := Sum.inr.inj hdone
      exact hs
    · exact absurd hnext (by simp)

/-- What a reader of groups yields is the items of a group. -/
structure Gathers (group : TokenKind → Token → Parser (List Pattern)) : Prop where
  keeps : ∀ closer opener, Keeps (group closer opener)
  items : ∀ {closer : TokenKind} {opener : Token} {c c' : Cursor} {ps : List Pattern}, c.Sound →
    Runs (group closer opener) c ps c' → Pattern.allIntegral ps = true → Pattern.Items ps

/-- What can be told of an atom from the words that it begins. -/
structure Atomic (ws : List Word) (p : Pattern) : Prop where
  noTransform : p.isTransform = false
  item : p.isIntegral = true → p.Item
  plain : p.isIntegral = true → (∀ w ∈ ws.head?, w.kind.isSuffix = false) →
    p.base.isFrontOnly = false
  group : Calm ws → (∀ w ∈ ws.head?, w.kind.isSuffix = false) → p.base.isGroup = true

section

variable {w : Word} {ws : List Word} {p : Pattern}

/-- A value never follows a transform. -/
theorem atomic_value (hvalue : w.kind.isValue = true) (noTransform : p.isTransform = false)
    (item : p.isIntegral = true → p.Item)
    (plain : p.isIntegral = true → p.base.isFrontOnly = false) : Atomic (w :: ws) p :=
  ⟨noTransform, item, fun hint _ => plain hint,
    fun hcalm _ => absurd ((hcalm.1 w rfl).symm.trans hvalue) Bool.false_ne_true⟩

/-- A suffix begins only the first item of a group. -/
theorem atomic_suffix (hsuffix : w.kind.isSuffix = true) (noTransform : p.isTransform = false)
    (item : p.isIntegral = true → p.Item) : Atomic (w :: ws) p :=
  ⟨noTransform, item,
    fun _ hno => absurd ((hno w rfl).symm.trans hsuffix) Bool.false_ne_true,
    fun _ hno => absurd ((hno w rfl).symm.trans hsuffix) Bool.false_ne_true⟩

/-- Suffixes do not change how an atom begins. -/
theorem Atomic.suffixed {atom : Pattern} {mid : List Word} (h : Atomic ws atom)
    (hp : Suffixed atom mid p) : Atomic ws p where
  noTransform := hp.noTransform
  item hint := by
    refine hp.item hint (h.item (hp.integral hint)) fun htransform => ?_
    exact absurd (h.noTransform.symm.trans htransform) Bool.false_ne_true
  plain hint hno := by
    rw [hp.base]
    exact h.plain (hp.integral hint) hno
  group hcalm hno := by
    rw [hp.base]
    exact h.group hcalm hno

end

/-- How an atom is read once its first word is passed. -/
inductive ReadsAtom (group : TokenKind → Token → Parser (List Pattern)) (t : Token) (c : Cursor) :
    Pattern → Prop where
  | number {x : Number} (kind : t.kind = .number) (value : Number.ofText t.text = .ok x) :
      ReadsAtom group t c (.leaf (.number x))
  | string (kind : t.kind = .string) : ReadsAtom group t c (.leaf (.text t.text))
  | name {s : String} {d : Cursor} (kind : t.kind = .symbol)
      (variants : Runs (repeatUntil variantStep t.text) c s d) :
      ReadsAtom group t c (.leaf (.text s))
  | sequence {children : List Pattern} {d : Cursor} (kind : t.kind = .listStart)
      (items : Runs (group .listEnd t) c children d) : ReadsAtom group t c (.sequence children)
  | parallel {children : List Pattern} {d : Cursor} (kind : t.kind = .angleStart)
      (items : Runs (group .angleEnd t) c children d) : ReadsAtom group t c (.parallel children)
  | rhythm {p : Pattern} {d : Cursor} (kind : t.kind = .slash)
      (rhythm : Runs (euclid (.leaf (.int 1)) t) c p d) : ReadsAtom group t c p
  | negative {u : Token} {x : Number} (kind : t.kind = .minus) (next : c.ahead.head? = some u)
      (number : u.kind = .number) (value : Number.ofText u.text = .ok x) :
      ReadsAtom group t c (.leaf (.number x.negate))

/-- An atom passes its first word and is read according to the kind of it. -/
theorem readsAtom_of_runs {group : TokenKind → Token → Parser (List Pattern)} {p : Pattern}
    (h : Runs (atomWith group) c p c') :
    ∃ t, c.ahead.head? = some t ∧ ReadsAtom group t c.next p := by
  obtain ⟨t, hhead, h⟩ := runs_advance_bind.mp h
  refine ⟨t, hhead, ?_⟩
  cases hkind : t.kind with
  | number =>
    simp only [hkind] at h
    obtain ⟨x, hx, h⟩ := runs_spelled_bind.mp h
    obtain ⟨rfl, -⟩ := runs_pure.mp h
    exact .number hkind hx
  | string =>
    simp only [hkind] at h
    obtain ⟨rfl, -⟩ := runs_pure.mp h
    exact .string hkind
  | symbol =>
    simp only [hkind] at h
    obtain ⟨s, _, hname, h⟩ := runs_bind.mp h
    obtain ⟨rfl, -⟩ := runs_pure.mp h
    exact .name hkind hname
  | listStart =>
    simp only [hkind] at h
    obtain ⟨children, _, hchildren, h⟩ := runs_bind.mp h
    obtain ⟨_, -, h⟩ := runs_advance_bind.mp h
    obtain ⟨rfl, -⟩ := runs_pure.mp h
    exact .sequence hkind hchildren
  | angleStart =>
    simp only [hkind] at h
    obtain ⟨children, _, hchildren, h⟩ := runs_bind.mp h
    obtain ⟨_, -, h⟩ := runs_advance_bind.mp h
    obtain ⟨rfl, -⟩ := runs_pure.mp h
    exact .parallel hkind hchildren
  | slash =>
    simp only [hkind] at h
    exact .rhythm hkind h
  | minus =>
    simp only [hkind] at h
    replace h := runs_peek_bind.mp h
    cases hnext : c.next.ahead.head? with
    | none =>
      simp only [hnext] at h
      exact absurd h runs_throw
    | some u =>
      simp only [hnext] at h
      obtain ⟨hnumber, h⟩ := runs_guard.mp h
      obtain ⟨v, hv, h⟩ := runs_advance_bind.mp h
      obtain rfl : u = v := Option.some.inj (hnext.symm.trans hv)
      obtain ⟨x, hx, h⟩ := runs_spelled_bind.mp h
      obtain ⟨rfl, -⟩ := runs_pure.mp h
      exact .negative hkind hnext (by simpa using hnumber) hx
  | _ =>
    simp only [hkind] at h
    exact absurd h runs_throw

/-- What an atom is. -/
theorem atomic_of_atomWith {group : TokenKind → Token → Parser (List Pattern)} {p : Pattern}
    (hgroup : Gathers group) (hc : c.Sound) (h : Runs (atomWith group) c p c') :
    Atomic c.words p := by
  obtain ⟨t, hhead, hatom⟩ := readsAtom_of_runs h
  have hplain := hc.plain t (List.mem_of_mem_head? hhead)
  have hnext := (Cursor.leads_next c).sound hc
  rw [words_of_head? hhead]
  cases hatom with
  | number kind value =>
    obtain ⟨hreadable, hnonneg⟩ := readable_of_ofText hplain kind value
    refine atomic_value (by rw [Token.word, kind]; rfl) rfl (fun hint => ?_) fun hint => ?_
    · obtain ⟨n, rfl, hrange⟩ := hreadable.inRange hint
      exact .integer hrange
    · obtain ⟨n, rfl, -⟩ := hreadable.inRange hint
      exact decide_eq_false (Int.not_lt.mpr (hnonneg n rfl))
  | string kind =>
    exact atomic_value (by rw [Token.word, kind]; rfl) rfl (fun _ => .text (hplain.string kind))
      fun _ => rfl
  | name kind variants =>
    have hquote := not_quote_of_isVariant hplain (by rw [kind]; rfl)
    exact atomic_value (by rw [Token.word, kind]; rfl) rfl
      (fun _ => .text (.inl (not_quote_of_variants hnext hquote variants))) fun _ => rfl
  | sequence _ items =>
    exact ⟨rfl, fun hint => .sequence (hgroup.items hnext items hint), fun _ _ => rfl,
      fun _ _ => rfl⟩
  | parallel _ items =>
    exact ⟨rfl, fun hint => .parallel (hgroup.items hnext items hint), fun _ _ => rfl,
      fun _ _ => rfl⟩
  | rhythm kind rhythm =>
    obtain ⟨steps, pulses, rotation, rfl, hitem⟩ := item_of_euclid hnext rhythm
    exact atomic_suffix (by rw [Token.word, kind]; rfl) rfl
      fun _ => hitem (.integer (by decide +kernel))
  | @negative u x kind next number value =>
    have huplain := hnext.plain u (List.mem_of_mem_head? next)
    have hreadable := (readable_of_ofText huplain number value).1
    refine atomic_suffix (by rw [Token.word, kind]; rfl) rfl fun hint => ?_
    obtain ⟨n, hn, hrange⟩ := hreadable.negate.inRange hint
    rw [hn]
    exact .integer hrange

end Parser

end Ostinato
