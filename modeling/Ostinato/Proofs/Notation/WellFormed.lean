import Ostinato.Proofs.Notation.Image

/-!
# Ostinato.Proofs.Notation.WellFormed

What can be relied on in a pattern that was read.

Reading checks the numbers of a pattern against what is done with them later:
a rhythm has steps and no negative pulses, no remainder is taken by zero, and a
transform has the operands that it needs.  Such patterns are well-formed
(`Pattern.WellFormed`), and every text that stands for a pattern stands for a
well-formed one (`Pattern.wellFormed_of_parse`).
-/

namespace Ostinato

open Double (InRange)

/-- Calls of transforms that are known from the start, with all the operands
that they need and that pass their checks. -/
inductive WellCalled : String → List Value → Prop
  | plain {name : String} {t : Transform} {xs : List Number}
      (known : Transform.builtin.get? name = some t) (flat : t.nested = false)
      (fewest : t.fewest ≤ xs.length) (readable : ∀ x ∈ xs, x.Readable)
      (accepted : t.Accepts (xs.map Value.number)) : WellCalled name (xs.map Value.number)
  | nested {name inner : String} {t : Transform} {xs : List Number} {operands : List Value}
      (known : Transform.builtin.get? name = some t) (nests : t.nested = true)
      (fewest : t.fewest ≤ xs.length) (readable : ∀ x ∈ xs, x.Readable)
      (call : WellCalled inner operands)
      (accepted : t.Accepts (xs.map Value.number ++ [.call inner operands])) :
      WellCalled name (xs.map Value.number ++ [.call inner operands])

namespace Pattern

/-- Patterns whose numbers have been checked. -/
inductive WellFormed : Pattern → Prop
  | number {x : Number} (readable : x.Readable) : WellFormed (.leaf (.number x))
  | text (s : String) : WellFormed (.leaf (.text s))
  | sequence {ps : List Pattern} (children : ∀ p ∈ ps, WellFormed p) : WellFormed (.sequence ps)
  | parallel {ps : List Pattern} (children : ∀ p ∈ ps, WellFormed p) : WellFormed (.parallel ps)
  | transform {p : Pattern} {name : String} {operands : List Value} (child : WellFormed p)
      (call : WellCalled name operands) : WellFormed (.transform p name operands)
  | euclidean {p : Pattern} {steps pulses rotation : Int} (child : WellFormed p)
      (steps_pos : 1 ≤ steps) (pulses_nonneg : 0 ≤ pulses) (steps_inRange : InRange steps)
      (pulses_inRange : InRange pulses) (rotation_inRange : InRange rotation) :
      WellFormed (.euclidean steps pulses rotation p)
  | modulation {p : Pattern} {amount rate : Number} (child : WellFormed p)
      (amount_readable : amount.Readable) (rate_readable : rate.Readable) :
      WellFormed (.modulation p (.number amount) (.number rate))
  | operation {p : Pattern} {op : Operator} {x : Number} (child : WellFormed p)
      (readable : x.Readable) (nonzero : op = .modulo → x.isZero = false) :
      WellFormed (.operation p op.sign (.number x))

end Pattern

/-! ## Numbers -/

/-- A number that a word stands for has an integer part. -/
theorem Number.Readable.toInt {x : Number} (h : x.Readable) : ∃ n, x.toInt = .ok n := by
  cases h with
  | int inRange => exact ⟨_, rfl⟩
  | @float x finite =>
    have hvalue : ∃ q, Double.toRat? x = some q := by simp [Double.toRat?, finite]
    obtain ⟨q, hq⟩ := hvalue
    exact ⟨truncate q, by simp [Number.toInt, hq]⟩

/-- All that can be wrong with such a number is that it is not whole. -/
theorem Number.Readable.family_of_wholeNumber {x : Number} (h : x.Readable) {what : String}
    {cause : Fault} (hcause : Value.wholeNumber what (.number x) = .error cause) :
    cause.family = .value := by
  obtain ⟨n, hn⟩ := h.toInt
  simp only [Value.wholeNumber, hn, bind, Except.bind] at hcause
  split at hcause
  · exact absurd hcause (by simp)
  · simp only [Except.error.injEq] at hcause
    rw [← hcause]
    rfl

/-! ## Writing -/

/-- A number with at most as many bits as digits may be written is short. -/
theorem Number.isShort_of_log2_lt {n : Nat} (h : n.log2 < Fault.digitLimit) :
    isShort n = true := by
  have hpow : ∀ k, n.log2 < k → n < Nat.pow 10 k := fun k hk =>
    calc n
        < 2 ^ (n.log2 + 1) := Nat.lt_log2_self
      _ ≤ 2 ^ k := Nat.pow_le_pow_right (by decide) hk
      _ ≤ 10 ^ k := Nat.pow_le_pow_left (by decide) k
  unfold isShort
  rw [decide_eq_true_iff]
  exact hpow _ h

/-- A number that a word can stand for can be written. -/
theorem Number.Readable.isWritable {x : Number} (h : x.Readable) : x.isWritable = true := by
  cases h with
  | @int n inRange =>
    have hlog := inRange.log2_lt
    exact isShort_of_log2_lt (Nat.lt_trans hlog (by decide))
  | float finite => rfl

/-- Values put together can be written if those in each part can. -/
theorem Value.allWritable_append (vs ws : List Value) :
    allWritable (vs ++ ws) = (allWritable vs && allWritable ws) := by
  induction vs with
  | nil => rfl
  | cons v vs ih => simp [allWritable, ih, Bool.and_assoc]

/-- Numbers that words can stand for can be written. -/
theorem Value.allWritable_numbers {xs : List Number} (h : ∀ x ∈ xs, x.Readable) :
    allWritable (xs.map Value.number) = true := by
  induction xs with
  | nil => rfl
  | cons x xs ih =>
    simp only [List.forall_mem_cons] at h
    simp [allWritable, isWritable, h.1.isWritable, ih h.2]

/-- Operands of a well-formed call can be written. -/
theorem WellCalled.allWritable {name : String} {operands : List Value}
    (h : WellCalled name operands) : Value.allWritable operands = true := by
  induction h with
  | plain known flat fewest readable accepted => exact Value.allWritable_numbers readable
  | nested known nests fewest readable call accepted ih =>
    simp [Value.allWritable_append, Value.allWritable_numbers readable, Value.allWritable,
      Value.isWritable, ih]

/-- Patterns can be written if each can. -/
theorem Pattern.allWritable_iff {ps : List Pattern} :
    allWritable ps = true ↔ ∀ p ∈ ps, p.isWritable = true := by
  induction ps with
  | nil => simp [allWritable]
  | cons p ps ih => simp [allWritable, ih]

/-- A well-formed pattern can be written: its integers are not too long. -/
theorem Pattern.WellFormed.isWritable {p : Pattern} (h : p.WellFormed) : p.isWritable = true := by
  induction h with
  | number readable => simpa [Pattern.isWritable, Value.isWritable] using readable.isWritable
  | text s => rfl
  | sequence children ih => exact Pattern.allWritable_iff.mpr ih
  | parallel children ih => exact Pattern.allWritable_iff.mpr ih
  | transform child call ih => simp [Pattern.isWritable, ih, call.allWritable]
  | euclidean child _ _ hsteps hpulses hrotation ih =>
    simp [Pattern.isWritable, ih, (Number.Readable.int hsteps).isWritable,
      (Number.Readable.int hpulses).isWritable, (Number.Readable.int hrotation).isWritable]
  | modulation child hamount hrate ih =>
    simp [Pattern.isWritable, Value.isWritable, ih, hamount.isWritable, hrate.isWritable]
  | operation child readable nonzero ih =>
    simp [Pattern.isWritable, Value.isWritable, ih, readable.isWritable]

namespace Parser

variable {c c' : Cursor}

/-! ## Suffixes -/

/-- Suffixes keep patterns well-formed. -/
theorem wellFormed_of_suffixStep {child p : Pattern} (hc : c.Sound) (hchild : child.WellFormed)
    (h : Runs (suffixStep child) c (.inl p) c') : p.WellFormed := by
  have hnext := (Cursor.leads_next c).sound hc
  obtain ⟨hdone, -⟩ | ⟨t, q, hhead, hsuffix, hq, hread⟩ := suffixStep_reads h
  · exact absurd hdone (by simp)
  obtain rfl := Sum.inl.inj hq
  obtain ⟨-, hread⟩ | ⟨-, hread⟩ | ⟨hslash, htilde, x, hoperand, hzero, rfl⟩ := hread
  · obtain ⟨steps, pulses, rotation, rfl, hsteps, hpulses, hrange⟩ := euclid_cases hnext hread
    exact .euclidean hchild hsteps hpulses hrange.1 hrange.2.1 hrange.2.2
  · obtain ⟨amount, rate, rfl, hamount, hrate⟩ := modulation_cases hnext.plain hread
    exact .modulation hchild hamount hrate
  · obtain ⟨op, hkind, htext⟩ :=
      operator_of_kind (hc.plain t (List.mem_of_mem_head? hhead)) hsuffix hslash htilde
    rw [htext]
    refine .operation hchild (readable_of_expectNumber hnext.plain hoperand).1 fun hop => ?_
    simpa [hkind, hop, Operator.tokenKind] using hzero

/-- A well-formed child with its suffixes is well-formed. -/
theorem wellFormed_of_suffixes {child p : Pattern} (hc : c.Sound) (hchild : child.WellFormed)
    (h : Runs (suffixes child) c p c') : p.WellFormed := by
  refine sound_induction (P := fun q _ => q.WellFormed) (Q := fun q _ => q.WellFormed)
    keeps_suffixStep ?_ ?_ hc hchild h
  · intro q d q' d' hd hq hstep
    exact wellFormed_of_suffixStep hd hq hstep
  · intro q d q' d' hd hq hstep
    obtain ⟨hdone, -⟩ | ⟨t, p, -, -, hnext, -⟩ := suffixStep_reads hstep
    · obtain rfl := Sum.inr.inj hdone
      exact hq
    · exact absurd hnext (by simp)

/-! ## Calls -/

/-- A call that was read has all that it needs.  The induction is on the limit for
calls inside it. -/
theorem wellCalled_of_callWithin {limit : Nat} {after : Token} {r : String × List Value}
    (hc : c.Sound) (h : Runs (callWithin Transform.builtin limit after) c r c') :
    WellCalled r.1 r.2 := by
  induction limit generalizing c c' after r with
  | zero => exact absurd h runs_throw
  | succ limit ih =>
    obtain ⟨token, t, operands, d, -, -, known, hoperands, hfewest, hend⟩ :=
      runs_callWithin_succ.mp h
    have hnonneg : ∀ entry ∈ Transform.builtin.entries, 0 ≤ entry.2.most := by decide
    have hnext := (Cursor.leads_next c).sound hc
    have hd := (keeps_repeatUntil (keeps_operandStep t token) []).sound hoperands hnext
    obtain ⟨-, xs, rfl, hxs⟩ :=
      takenBy_of_operands hnext (hnonneg _ (mem_entries_of_get? known)) hoperands
    rw [List.length_map] at hfewest
    unfold callEnd at hend
    split at hend
    · rename_i hnests
      obtain ⟨call, e, hcall, hend⟩ := runs_bind.mp hend
      obtain ⟨_, _, hcheck, hlast⟩ := runs_bind.mp hend
      obtain ⟨rfl, -⟩ := runs_pure.mp hlast
      exact .nested known hnests hfewest hxs (ih hd hcall) (accepts_of_checkOperands hcheck).1
    · rename_i hflat
      obtain ⟨_, _, -, hend⟩ := runs_bind.mp hend
      obtain ⟨_, _, hcheck, hlast⟩ := runs_bind.mp hend
      obtain ⟨rfl, -⟩ := runs_pure.mp hlast
      exact .plain known (by simpa using hflat) hfewest hxs (accepts_of_checkOperands hcheck).1

/-- A transform of well-formed patterns is well-formed. -/
theorem wellFormed_of_transform {items : List Pattern} {dot : Token} {p : Pattern} (hc : c.Sound)
    (hitems : ∀ q ∈ items, q.WellFormed) (h : Runs (transform Transform.builtin items dot) c p c') :
    p.WellFormed := by
  rcases items with _ | ⟨first, others⟩
  · exact absurd h runs_throw
  obtain ⟨call, d, hcall, h⟩ := runs_bind.mp h
  obtain ⟨rfl, -⟩ := runs_pure.mp h
  refine .transform ?_ (wellCalled_of_callWithin hc (runs_ahead_bind.mp hcall))
  split
  · exact hitems first List.mem_cons_self
  · exact .sequence hitems

/-! ## Atoms and groups -/

/-- A group yields well-formed patterns. -/
def Yields (group : TokenKind → Token → Parser (List Pattern)) : Prop :=
  ∀ closer opener {c c' : Cursor} {ps : List Pattern}, c.Sound →
    Runs (group closer opener) c ps c' → ∀ p ∈ ps, p.WellFormed

/-- An atom that was read is well-formed if groups yield such patterns. -/
theorem wellFormed_of_atomWith {group : TokenKind → Token → Parser (List Pattern)} {p : Pattern}
    (hgroup : Yields group) (hc : c.Sound) (h : Runs (atomWith group) c p c') : p.WellFormed := by
  obtain ⟨t, hhead, hatom⟩ := readsAtom_of_runs h
  have hplain := hc.plain t (List.mem_of_mem_head? hhead)
  have hnext := (Cursor.leads_next c).sound hc
  cases hatom with
  | number kind value => exact .number (readable_of_ofText hplain kind value).1
  | string => exact .text t.text
  | @name s => exact .text s
  | sequence _ items => exact .sequence (hgroup _ _ hnext items)
  | parallel _ items => exact .parallel (hgroup _ _ hnext items)
  | rhythm _ rhythm =>
    obtain ⟨steps, pulses, rotation, rfl, hsteps, hpulses, hrange⟩ := euclid_cases hnext rhythm
    exact .euclidean (.number (.int (by decide +kernel))) hsteps hpulses hrange.1 hrange.2.1
      hrange.2.2
  | @negative u _ _ next number value =>
    have huplain := hnext.plain u (List.mem_of_mem_head? next)
    exact .number (readable_of_ofText huplain number value).1.negate

/-- Each step of a group adds to well-formed items. -/
theorem wellFormed_of_itemStep {group : TokenKind → Token → Parser (List Pattern)}
    {enclosing : Option (TokenKind × Token)} {items items' : List Pattern}
    (hkeeps : ∀ closer opener, Keeps (group closer opener)) (hgroup : Yields group)
    (hc : c.Sound) (hitems : ∀ p ∈ items, p.WellFormed)
    (hstep : Runs (itemStep Transform.builtin group enclosing items) c (.inl items') c') :
    ∀ p ∈ items', p.WellFormed := by
  obtain ⟨hdone, -⟩ | ⟨dot, p, -, hrun, hnext⟩ | ⟨_, last, others, p, -, -, rfl, hrun, hnext⟩ |
    ⟨atom, d, p, -, hrun, hrun', hnext⟩ := itemStep_cases hstep
  · exact absurd hdone (by simp)
  · obtain rfl := Sum.inl.inj hnext
    have hp := wellFormed_of_transform ((Cursor.leads_next c).sound hc) (by simpa using hitems) hrun
    simpa using hp
  · obtain rfl := Sum.inl.inj hnext
    simp only [List.forall_mem_cons] at hitems ⊢
    exact ⟨wellFormed_of_suffixes hc hitems.1 hrun, hitems.2⟩
  · obtain rfl := Sum.inl.inj hnext
    have hd := (keeps_atomWith hkeeps).sound hrun hc
    have hatom := wellFormed_of_atomWith hgroup hc hrun
    simp only [List.forall_mem_cons]
    exact ⟨wellFormed_of_suffixes hd hatom hrun', hitems⟩

/-- The items of a group are well-formed. -/
theorem wellFormed_of_itemsWithin {limit : Nat} {enclosing : Option (TokenKind × Token)}
    {ps : List Pattern} (hc : c.Sound)
    (h : Runs (itemsWithin Transform.builtin limit enclosing) c ps c') :
    ∀ p ∈ ps, p.WellFormed := by
  induction limit generalizing c c' enclosing ps with
  | zero => exact absurd h runs_throw
  | succ limit ih =>
    have hkeeps : ∀ closer opener, Keeps (itemsWithin Transform.builtin limit (some (closer, opener))) :=
      fun closer opener => keeps_itemsWithin _ limit _
    have hgroup : Yields fun closer opener =>
        itemsWithin Transform.builtin limit (some (closer, opener)) := fun _ _ _ _ _ hc h => ih hc h
    refine sound_induction (P := fun items _ => ∀ p ∈ items, p.WellFormed)
      (Q := fun ps _ => ∀ p ∈ ps, p.WellFormed) (keeps_itemStep hkeeps enclosing) ?_ ?_ hc
      (by simp) h
    · intro items d items' d' hd hitems hstep
      exact wellFormed_of_itemStep hkeeps hgroup hd hitems hstep
    · intro items d ps d' hd hitems hstep
      obtain ⟨hdone, -⟩ | ⟨_, _, -, -, hnext⟩ | ⟨_, _, _, _, -, -, -, -, hnext⟩ |
        ⟨_, _, _, -, -, -, hnext⟩ := itemStep_cases hstep
      · obtain rfl := Sum.inr.inj hdone
        simpa using hitems
      · exact absurd hnext (by simp)
      · exact absurd hnext (by simp)
      · exact absurd hnext (by simp)

end Parser

namespace Pattern

open Ostinato.Parser

/-- What text stands for is a sequence of well-formed patterns. -/
theorem wellFormed_of_parse {text : String} {p : Pattern}
    (h : parse Transform.builtin text = .ok p) :
    p.WellFormed ∧ ∃ children, p = .sequence children := by
  obtain ⟨ts, htokens, hrun⟩ := runs_of_parse h
  have hstart : (Cursor.start ts).Sound := ⟨rfl, Word.plain_of_tokenize htokens⟩
  obtain ⟨ps, d, hitems, hrun⟩ := runs_bind.mp hrun
  obtain ⟨rfl, -⟩ := runs_pure.mp hrun
  exact ⟨.sequence (wellFormed_of_itemsWithin hstart (runs_ahead_bind.mp hitems)), ps, rfl⟩

end Pattern

end Ostinato
