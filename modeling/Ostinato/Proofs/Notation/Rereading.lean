import Ostinato.Proofs.Notation.Reads

/-!
# Ostinato.Proofs.Notation.Rereading

The canonical text of a pattern stands for that pattern.

Items are read one after another by one repetition (`Parser.gather`).  An item
takes one step of it, and one more for each transform and for the suffixes
after a transform, so what is proved of an item is that the repetition gets
past its words: whatever follows from the state after the item follows from the
state before it (`Pattern.Item.passes`).  The suffixes that follow an item are
not yet part of it but read in the same step, hence `Trails`.
-/

namespace Ostinato

namespace Parser

variable {p q : Pattern} {items : List Pattern} {w : Word} {ws rest after : List Word}
variable {group : TokenKind → Token → Parser (List Pattern)}
variable {enclosing : Option (TokenKind × Token)}

/-! ## Steps of a group -/

/-- An atom with its suffixes is an item. -/
theorem reads_itemStep_atom {atom : Pattern} {mid : List Word} (hcloser : w.kind.isCloser = false)
    (hdot : w.kind ≠ .dot) (hsuffix : w.kind.isSuffix = true → items = [])
    (hatom : Reads (atomWith group) 0 (w :: ws) atom mid)
    (hsuffixes : Reads (suffixes atom) 0 mid q after) :
    Reads (itemStep Transform.builtin group enclosing items) 0 (w :: ws) (.inl (q :: items))
      after := by
  refine reads_peek fun t ht => ?_
  have hkind : t.kind = w.kind := congrArg Word.kind ht
  refine reads_if_neg (by rw [hkind, hcloser]; exact Bool.false_ne_true) (reads_if_neg ?_ ?_)
  · rw [hkind, beq_iff_eq]
    exact hdot
  · split
    · rename_i hafter
      exact absurd (hsuffix (by rw [← hkind]; assumption)) (by simp)
    · exact reads_bind hatom (reads_bind hsuffixes (reads_pure _))

/-- A point applies a transform to all items so far. -/
theorem reads_itemStep_transform {name : String} {operands : List Value}
    (h : CallForm name operands) (hrest : Calm rest) :
    Reads (itemStep Transform.builtin group enclosing [p]) 0
      (Word.char '.' :: (callWords name operands ++ rest)) (.inl [.transform p name operands])
      rest := by
  refine reads_peek fun t ht => ?_
  have hkind : t.kind = .dot := congrArg Word.kind ht
  refine reads_if_neg (by rw [hkind]; decide) (reads_if_pos (by rw [hkind]; decide) ?_)
  refine reads_advance fun dot _ => reads_bind ?_ (reads_pure _)
  rw [List.reverse_singleton]
  exact reads_transform h hrest p t

/-- Suffixes after an item belong to it. -/
theorem reads_itemStep_suffixes (hsuffix : w.kind.isSuffix = true)
    (h : Reads (suffixes p) 0 (w :: ws) q after) :
    Reads (itemStep Transform.builtin group enclosing (p :: items)) 0 (w :: ws)
      (.inl (q :: items)) after := by
  refine reads_peek fun t ht => ?_
  have hkind : t.kind = w.kind := congrArg Word.kind ht
  have hcloser : w.kind.isCloser = false ∧ w.kind ≠ .dot := by
    revert hsuffix
    cases w.kind <;> decide
  refine reads_if_neg (by rw [hkind, hcloser.1]; exact Bool.false_ne_true) (reads_if_neg ?_ ?_)
  · rw [hkind, beq_iff_eq]
    exact hcloser.2
  · rw [hkind, hsuffix]
    exact reads_bind h (reads_pure _)

/-- Where a group ends. -/
inductive Ends : Option (TokenKind × Token) → List Word → Prop where
  | text : Ends none []
  | bracket {w : Word} {ws : List Word} {kind : TokenKind} {opener : Token} (same : w.kind = kind)
      (closer : kind.isCloser = true) : Ends (some (kind, opener)) (w :: ws)

/-- At its end a group has all its items. -/
theorem reads_itemStep_end (h : Ends enclosing ws) :
    Reads (itemStep Transform.builtin group enclosing items) 0 ws (.inr items.reverse) ws := by
  cases h with
  | text => exact reads_peek_nil (reads_pure _)
  | @bracket w ws kind opener same closer =>
    refine reads_peek fun t ht => ?_
    have hkind : t.kind = kind := (congrArg Word.kind ht).trans same
    refine reads_if_pos (by rw [hkind]; exact closer) (reads_if_pos ?_ (reads_pure _))
    rw [hkind]
    exact beq_self_eq_true kind

/-! ## Atoms -/

/-- A word that spells a number is read as it. -/
theorem reads_spelled {t : Token} {x : Number} (h : Number.ofText t.text = .ok x) :
    Reads (spelled t) 0 ws x ws :=
  fun c hwords hdepth => ⟨c, runs_spelled.mpr ⟨h, rfl⟩, hwords, hdepth⟩

/-- Digits are read as the leaf with their number. -/
theorem reads_atom_digits {n : Nat} (h : Double.InRange n) :
    Reads (atomWith group) 0 (⟨.number, toString n⟩ :: ws) (.leaf (.int n)) ws := by
  refine reads_advance fun t ht => ?_
  obtain ⟨hkind, htext⟩ := Word.mk.inj ht
  rw [hkind]
  exact reads_bind (reads_spelled (by rw [htext]; exact ofText_toString h)) (reads_pure _)

/-- A minus sign and digits are read as the leaf with a negative number. -/
theorem reads_atom_negative {n : Nat} (h : Double.InRange n) :
    Reads (atomWith group) 0 (Word.char '-' :: ⟨.number, toString n⟩ :: ws)
      (.leaf (.int (-n))) ws := by
  refine reads_advance fun t ht => ?_
  have hkind : t.kind = .minus := congrArg Word.kind ht
  rw [hkind]
  refine reads_peek fun u hu => reads_if_neg ?_ (reads_advance fun v hv => ?_)
  · rw [(Word.mk.inj hu).1]
    decide
  · have htext : v.text = toString n := (Word.mk.inj hv).2
    exact reads_bind (reads_spelled (by rw [htext]; exact ofText_toString h)) (reads_pure _)

/-- Quoted text is read as the leaf with that text. -/
theorem reads_atom_text {s : String} :
    Reads (atomWith group) 0 (⟨.string, s⟩ :: ws) (.leaf (.text s)) ws := by
  refine reads_advance fun t ht => ?_
  obtain ⟨hkind, htext⟩ := Word.mk.inj ht
  rw [hkind, htext]
  exact reads_pure _

/-- Square brackets around the words for items are read as a sequence of them. -/
theorem reads_atom_sequence {children : List Pattern}
    (h : ∀ opener, Reads (group .listEnd opener) 0 (rest ++ Word.char ']' :: ws) children
      (Word.char ']' :: ws)) :
    Reads (atomWith group) 0 (Word.char '[' :: (rest ++ Word.char ']' :: ws)) (.sequence children)
      ws := by
  refine reads_advance fun t ht => ?_
  have hkind : t.kind = .listStart := congrArg Word.kind ht
  rw [hkind]
  exact reads_bind (h t) (reads_advance fun _ _ => reads_pure _)

/-- Angle brackets around the words for items are read as children that take turns. -/
theorem reads_atom_parallel {children : List Pattern}
    (h : ∀ opener, Reads (group .angleEnd opener) 0 (rest ++ Word.char '>' :: ws) children
      (Word.char '>' :: ws)) :
    Reads (atomWith group) 0 (Word.char '<' :: (rest ++ Word.char '>' :: ws)) (.parallel children)
      ws := by
  refine reads_advance fun t ht => ?_
  have hkind : t.kind = .angleStart := congrArg Word.kind ht
  rw [hkind]
  exact reads_bind (h t) (reads_advance fun _ _ => reads_pure _)

/-! ## Suffixes after an item -/

/-- The words do not begin with a suffix. -/
def Unsuffixed (ws : List Word) : Prop := ∀ w ∈ ws.head?, w.kind.isSuffix = false

/-- What the suffixes after an item make of it, and the words after them. -/
inductive Trails (p : Pattern) : List Word → Pattern → List Word → Prop where
  | none {rest : List Word} (none : Unsuffixed rest) : Trails p rest p rest
  | some {w : Word} {ws after : List Word} {q : Pattern} (suffix : w.kind.isSuffix = true)
      (reads : Reads (suffixes p) 0 (w :: ws) q after) (shorter : after.length ≤ ws.length) :
      Trails p (w :: ws) q after

/-- What trails an item is read as its suffixes. -/
theorem Trails.reads_suffixes (h : Trails p rest q after) : Reads (suffixes p) 0 rest q after := by
  cases h with
  | none none => exact reads_repeat_done (reads_suffixStep_done none)
  | some suffix reads shorter => exact reads

/-- No more words are left behind the suffixes than were in front. -/
theorem Trails.length_le (h : Trails p rest q after) : after.length ≤ rest.length := by
  cases h with
  | none none => exact Nat.le_refl _
  | some suffix reads shorter => exact Nat.le_succ_of_le shorter

/-- One suffix and those after it. -/
theorem Trails.step {child : Pattern} (hsuffix : w.kind.isSuffix = true)
    (hstep : Reads (suffixStep child) 0 (w :: (ws ++ rest)) (.inl p) rest)
    (h : Trails p rest q after) : Trails child (w :: (ws ++ rest)) q after := by
  have hle := h.length_le
  refine .some hsuffix (reads_repeat_next hstep ?_ h.reads_suffixes) ?_
  · rw [List.length_cons, List.length_append]
    omega
  · rw [List.length_append]
    omega

/-- A rhythm and the suffixes after it. -/
theorem Trails.euclid {steps pulses rotation : Int} {child : Pattern} (hpos : 1 ≤ steps)
    (hnonneg : 0 ≤ pulses) (hsteps : Double.InRange steps) (hpulses : Double.InRange pulses)
    (hrotation : Double.InRange rotation)
    (h : Trails (.euclidean steps pulses rotation child) rest q after) :
    Trails child (Word.char '/' :: (Word.integer steps ++ Word.char ':' :: (Word.integer pulses ++
      Word.char ':' :: Word.integer rotation) ++ rest)) q after := by
  have hstep : Reads (suffixStep child) 0
      (Word.char '/' :: Word.integer steps ++ Word.char ':' :: (Word.integer pulses ++
        (Word.char ':' :: Word.integer rotation ++ rest)))
      (.inl (.euclidean steps pulses rotation child)) rest :=
    reads_suffixStep_euclid hpos hnonneg hsteps hpulses hrotation
  refine h.step rfl ?_
  simpa only [List.append_assoc, List.cons_append] using hstep

/-- A modulation and the suffixes after it. -/
theorem Trails.modulation {amount rate : Int} {child : Pattern} (hamount : Double.InRange amount)
    (hrate : Double.InRange rate)
    (h : Trails (.modulation child (.int amount) (.int rate)) rest q after) :
    Trails child (Word.char '~' :: (Word.integer amount ++ Word.integer rate ++ rest)) q after := by
  have hstep : Reads (suffixStep child) 0
      (Word.char '~' :: Word.integer amount ++ (Word.integer rate ++ rest))
      (.inl (.modulation child (.int amount) (.int rate))) rest :=
    reads_suffixStep_modulation (Int.le_refl 0) hamount hrate
  refine h.step rfl ?_
  simpa only [List.append_assoc, List.cons_append] using hstep

/-- The sign of an operator is a suffix. -/
theorem isSuffix_operator (op : Operator) : (Word.operator op.sign).kind.isSuffix = true := by
  rw [operator_kind]
  cases op <;> rfl

/-- An arithmetic operation and the suffixes after it. -/
theorem Trails.operation {op : Operator} {n : Int} {child : Pattern} (hnonneg : 0 ≤ n)
    (hrange : Double.InRange n) (hzero : op = .modulo → n ≠ 0)
    (h : Trails (.operation child op.sign (.int n)) rest q after) :
    Trails child (Word.operator op.sign :: (Word.integer n ++ rest)) q after :=
  h.step (isSuffix_operator op) (reads_suffixStep_operation hnonneg hrange hzero)

/-! ## Items -/

/-- Reads the rest of a group whose items so far are listed latest first. -/
def gather (limit : Nat) (enclosing : Option (TokenKind × Token)) (items : List Pattern) :
    Parser (List Pattern) :=
  repeatUntil (itemStep Transform.builtin
    (fun closer opener => itemsWithin Transform.builtin limit (closer, opener)) enclosing) items

/-- Whatever the rest of a group makes of a state and some words, it makes of
another state and more words. -/
def Passes (limit : Nat) (enclosing : Option (TokenKind × Token)) (items : List Pattern)
    (ws : List Word) (items' : List Pattern) (ws' : List Word) : Prop :=
  ∀ ps after, Reads (gather limit enclosing items') 0 ws' ps after →
    Reads (gather limit enclosing items) 0 ws ps after

variable {limit : Nat}

/-- An atom and the suffixes after it. -/
theorem passes_atom (hcloser : w.kind.isCloser = false) (hdot : w.kind ≠ .dot)
    (hsuffix : w.kind.isSuffix = true → items = [])
    (hatom : Reads (atomWith fun closer opener =>
      itemsWithin Transform.builtin limit (closer, opener)) 0 (w :: (ws ++ rest)) p rest)
    (h : Trails p rest q after) :
    Passes limit enclosing items (w :: (ws ++ rest)) (q :: items) after := by
  intro ps final hfinal
  have hle := h.length_le
  refine reads_repeat_next
    (reads_itemStep_atom hcloser hdot hsuffix hatom h.reads_suffixes) ?_ hfinal
  rw [List.length_cons, List.length_append]
  omega

/-- A transform of the items so far, and the suffixes after it. -/
theorem passes_transform {name : String} {operands : List Value} (hcall : CallForm name operands)
    (hrest : Calm rest) (h : Trails (.transform p name operands) rest q after) :
    Passes limit enclosing [p] (Word.char '.' :: (callWords name operands ++ rest)) [q] after := by
  intro ps final hfinal
  refine reads_repeat_next (reads_itemStep_transform hcall hrest) ?_ ?_
  · rw [List.length_cons, List.length_append]
    omega
  · cases h with
    | none none => exact hfinal
    | some suffix reads shorter =>
      exact reads_repeat_next (reads_itemStep_suffixes suffix reads) (Nat.lt_succ_of_le shorter)
        hfinal

/-- A word that is neither a suffix nor a value is not taken by a call. -/
theorem calm_cons (hsuffix : w.kind.isSuffix = false) (hvalue : w.kind.isValue = false) :
    Calm (w :: ws) := by
  constructor
  · intro v hv
    obtain rfl := Option.some.inj hv
    exact hvalue
  · have hkinds : (w.kind == .minus) = false ∧ (w.kind == .number) = false := by
      revert hsuffix hvalue
      cases w.kind <;> decide
    rw [beginsNumber, hkinds.1, hkinds.2]
    rfl

theorem unsuffixed_cons (hsuffix : w.kind.isSuffix = false) : Unsuffixed (w :: ws) := by
  intro v hv
  obtain rfl := Option.some.inj hv
  exact hsuffix

/-- Where a group ends no suffix follows, and nothing that a call would take. -/
theorem Ends.unsuffixed (h : Ends enclosing ws) : Unsuffixed ws ∧ Calm ws := by
  cases h with
  | text => exact ⟨fun w hw => absurd hw (by simp), fun w hw => absurd hw (by simp), rfl⟩
  | @bracket w ws kind opener same closer =>
    have hkinds : w.kind.isSuffix = false ∧ w.kind.isValue = false := by
      rw [same]
      revert closer
      cases kind <;> decide
    exact ⟨unsuffixed_cons hkinds.1, calm_cons hkinds.1 hkinds.2⟩

end Parser

namespace Pattern

open Ostinato.Parser

variable {limit : Nat} {enclosing : Option (TokenKind × Token)}

/-- How the words of an item begin that need not be the first. -/
theorem Item.opens {p : Pattern} (h : Item p) (hplain : p.base.isFrontOnly = false) :
    ∃ w ws, p.words = w :: ws ∧ w.kind.isSuffix = false ∧
      (p.base.isGroup = true → w.kind.isValue = false) := by
  cases h with
  | @integer n inRange =>
    have hwords : Word.integer n = [⟨.number, toString n.natAbs⟩] := by
      rw [Word.integer, if_neg (of_decide_eq_false hplain)]
    exact ⟨_, _, hwords, rfl, fun hgroup => absurd hgroup Bool.false_ne_true⟩
  | text lacks => exact ⟨_, _, rfl, rfl, fun hgroup => absurd hgroup Bool.false_ne_true⟩
  | sequence items => exact ⟨_, _, rfl, rfl, fun _ => rfl⟩
  | parallel items => exact ⟨_, _, rfl, rfl, fun _ => rfl⟩
  | transform item call => exact absurd hplain.symm Bool.false_ne_true
  | euclidean pos nonneg hsteps hpulses hrotation item =>
    obtain ⟨w, ws, hwords, hkinds⟩ := item.opens hplain
    exact ⟨w, _, by rw [words, hwords]; rfl, hkinds⟩
  | operation nonneg inRange nonzero apart item =>
    obtain ⟨w, ws, hwords, hkinds⟩ := item.opens hplain
    exact ⟨w, _, by rw [words, hwords]; rfl, hkinds⟩
  | modulation hamount hrate item =>
    obtain ⟨w, ws, hwords, hkinds⟩ := item.opens hplain
    exact ⟨w, _, by rw [words, hwords]; rfl, hkinds⟩

/-- After an item come other items, and the end of the group. -/
theorem unsuffixed_wordsAll {ps : List Pattern} {close : List Word} (h : ∀ q ∈ ps, Item q)
    (hplain : ∀ q ∈ ps, q.base.isFrontOnly = false) (hend : Ends enclosing close) :
    Unsuffixed (wordsAll ps ++ close) := by
  cases ps with
  | nil => exact hend.unsuffixed.1
  | cons q qs =>
    have hq : q ∈ q :: qs := List.mem_cons_self
    obtain ⟨w, ws, hwords, hsuffix, -⟩ := (h q hq).opens (hplain q hq)
    rw [wordsAll, hwords]
    exact unsuffixed_cons hsuffix

/-- After a transform comes a group, or the end. -/
theorem calm_wordsAll {ps : List Pattern} {close : List Word} (h : ∀ q ∈ ps, Item q)
    (hplain : ∀ q ∈ ps, q.base.isFrontOnly = false)
    (hgroup : ∀ q ∈ ps.head?, q.base.isGroup = true) (hend : Ends enclosing close) :
    Calm (wordsAll ps ++ close) := by
  cases ps with
  | nil => exact hend.unsuffixed.2
  | cons q qs =>
    have hq : q ∈ q :: qs := List.mem_cons_self
    obtain ⟨w, ws, hwords, hsuffix, hvalue⟩ := (h q hq).opens (hplain q hq)
    rw [wordsAll, hwords]
    exact calm_cons hsuffix (hvalue (hgroup q rfl))

/-- Items after others are read one by one up to the end of the group. -/
theorem reads_others (items : List Pattern) {ps : List Pattern} {close : List Word}
    (h : ∀ q ∈ ps, Item q) (hplain : ∀ q ∈ ps, q.base.isFrontOnly = false)
    (hpasses : ∀ q ∈ ps, ∀ {items : List Pattern} {rest : List Word}, Unsuffixed rest →
      Passes limit enclosing items (q.words ++ rest) (q :: items) rest)
    (hend : Ends enclosing close) :
    Reads (gather limit enclosing items) 0 (wordsAll ps ++ close) (items.reverse ++ ps) close := by
  induction ps generalizing items with
  | nil =>
    rw [List.append_nil]
    exact reads_repeat_done (reads_itemStep_end hend)
  | cons q qs ih =>
    have hqs : ∀ r ∈ qs, Item r := fun r hr => h r (List.mem_cons_of_mem q hr)
    have hqs' : ∀ r ∈ qs, r.base.isFrontOnly = false :=
      fun r hr => hplain r (List.mem_cons_of_mem q hr)
    have hrest := ih (q :: items) hqs hqs'
      fun r hr => hpasses r (List.mem_cons_of_mem q hr)
    rw [List.reverse_cons, List.append_assoc, List.singleton_append] at hrest
    rw [wordsAll, List.append_assoc]
    exact hpasses q List.mem_cons_self (unsuffixed_wordsAll hqs hqs' hend) _ _ hrest

/-- An item has no more words than all items together. -/
theorem length_words_le {p : Pattern} {ps : List Pattern} (h : p ∈ ps) :
    p.words.length ≤ (wordsAll ps).length := by
  induction ps with
  | nil => exact absurd h List.not_mem_nil
  | cons q qs ih =>
    rw [wordsAll, List.length_append]
    rcases List.mem_cons.mp h with rfl | hmem
    · omega
    · have hle := ih hmem
      omega

/-- A suffix word that is no minus sign is not taken by a call. -/
theorem calm_suffix {w : Word} {ws : List Word} (hsuffix : w.kind.isSuffix = true)
    (hminus : w.kind ≠ .minus) : Calm (w :: ws) := by
  have hkinds : w.kind.isValue = false ∧ (w.kind == .minus) = false ∧
      (w.kind == .number) = false := by
    revert hsuffix hminus
    cases w.kind <;> decide
  refine ⟨fun v hv => ?_, ?_⟩
  · obtain rfl := Option.some.inj hv
    exact hkinds.1
  · rw [beginsNumber, hkinds.2.1, hkinds.2.2]
    rfl

/-- What can stand anywhere in a group is no transform. -/
theorem not_isTransform_of_plain {p : Pattern} (h : p.base.isFrontOnly = false) :
    p.isTransform = false := by
  cases p <;> first | rfl | exact absurd h.symm Bool.false_ne_true

/-- An operator that is no minus sign is not taken by a call. -/
theorem calm_operator {op : Operator} {ws : List Word} (h : op ≠ .minus) :
    Calm (Word.operator op.sign :: ws) := by
  refine calm_suffix (isSuffix_operator op) fun hkind => h ?_
  rw [operator_kind] at hkind
  revert hkind
  cases op <;> decide

/-- A whole number is a word, or a minus sign and a word where nothing is before. -/
theorem passes_integer {n : Int} {q : Pattern} {items : List Pattern} {rest after : List Word}
    (inRange : Double.InRange n) (hfront : n < 0 → items = [])
    (htrails : Trails (leaf (.int n)) rest q after) :
    Passes limit enclosing items ((leaf (.int n)).words ++ rest) (q :: items) after := by
  by_cases hneg : n < 0
  · have hopposite : (n.natAbs : Int) = -n := by omega
    have hrange : Double.InRange n.natAbs := by rwa [hopposite, Double.inRange_neg]
    have hwords : (leaf (.int n)).words = Word.char '-' :: [⟨.number, toString n.natAbs⟩] := by
      rw [words, Value.int, Value.words, Word.integer, if_pos hneg]
    have hatom : Reads (atomWith fun closer opener =>
        itemsWithin Transform.builtin limit (some (closer, opener))) 0
        (Word.char '-' :: ⟨.number, toString n.natAbs⟩ :: rest) (.leaf (.int (-n.natAbs))) rest :=
      reads_atom_negative hrange
    rw [hopposite, Int.neg_neg] at hatom
    rw [hwords]
    exact passes_atom rfl nofun (fun _ => hfront hneg) hatom htrails
  · have hsame : (n.natAbs : Int) = n := by omega
    have hrange : Double.InRange n.natAbs := by rwa [hsame]
    have hwords : (leaf (.int n)).words = ⟨.number, toString n.natAbs⟩ :: [] := by
      rw [words, Value.int, Value.words, Word.integer, if_neg hneg]
    have hatom : Reads (atomWith fun closer opener =>
        itemsWithin Transform.builtin limit (some (closer, opener))) 0
        (⟨.number, toString n.natAbs⟩ :: rest) (.leaf (.int n.natAbs)) rest :=
      reads_atom_digits hrange
    rw [hsame] at hatom
    rw [hwords]
    exact passes_atom rfl nofun (fun h => absurd h Bool.false_ne_true) hatom htrails

/-- With a suffix there are no fewer words. -/
theorem length_le_of_suffixed {all subject suffix rest : List Word} {w : Word}
    (h : all ++ rest = subject ++ w :: (suffix ++ rest)) : subject.length ≤ all.length := by
  have hlength := congrArg List.length h
  simp only [List.length_append, List.length_cons] at hlength
  omega

/-- Brackets are an atom, whatever is between them. -/
theorem passes_bracketed {p q : Pattern} {children items : List Pattern} {opening closing : Word}
    {rest after : List Word} (hwords : p.words = opening :: wordsAll children ++ [closing])
    (hcloser : opening.kind.isCloser = false) (hdot : opening.kind ≠ .dot)
    (hsuffix : opening.kind.isSuffix = false)
    (hatom : Reads (atomWith fun closer opener =>
      itemsWithin Transform.builtin limit (some (closer, opener))) 0
      (opening :: (wordsAll children ++ closing :: rest)) p rest)
    (htrails : Trails p rest q after) :
    Passes limit enclosing items (p.words ++ rest) (q :: items) after := by
  have hall : p.words ++ rest = opening :: (wordsAll children ++ [closing] ++ rest) := by
    rw [hwords]
    rfl
  rw [hall]
  refine passes_atom hcloser hdot (fun h => absurd (hsuffix.symm.trans h) Bool.false_ne_true) ?_
    htrails
  rw [List.append_assoc]
  exact hatom

mutual

/-- The reading of a group gets past the words of an item. -/
theorem Item.passes {p q : Pattern} {items : List Pattern} {limit : Nat}
    {enclosing : Option (TokenKind × Token)} {rest after : List Word} (h : Item p)
    (hfront : p.base.isFrontOnly = true → items = []) (hlimit : p.words.length ≤ limit)
    (hcalm : p.isTransform = true → Calm rest) (htrails : Trails p rest q after) :
    Passes limit enclosing items (p.words ++ rest) (q :: items) after := by
  cases h with
  | integer inRange =>
    exact passes_integer inRange (fun hneg => hfront (decide_eq_true hneg)) htrails
  | text lacks =>
    exact passes_atom rfl nofun (fun h => absurd h Bool.false_ne_true) reads_atom_text htrails
  | @sequence children items =>
    have hlength : (sequence children).words.length = (wordsAll children).length + 2 := by
      rw [words, List.length_append]
      rfl
    obtain ⟨limit, rfl⟩ : ∃ k, limit = k + 1 := ⟨limit - 1, by omega⟩
    exact passes_bracketed rfl rfl nofun rfl
      (reads_atom_sequence fun opener => items.reads (by omega) (.bracket rfl rfl)) htrails
  | @parallel children items =>
    have hlength : (parallel children).words.length = (wordsAll children).length + 2 := by
      rw [words, List.length_append]
      rfl
    obtain ⟨limit, rfl⟩ : ∃ k, limit = k + 1 := ⟨limit - 1, by omega⟩
    exact passes_bracketed rfl rfl nofun rfl
      (reads_atom_parallel fun opener => items.reads (by omega) (.bracket rfl rfl)) htrails
  | @transform child name operands item call =>
    obtain rfl := hfront rfl
    rw [words, List.length_append] at hlimit
    rw [words, List.append_assoc]
    intro ps final hfinal
    exact item.passes (fun _ => rfl) (by omega) (fun _ => calm_cons rfl rfl)
      (.none (unsuffixed_cons rfl)) _ _ (passes_transform call (hcalm rfl) htrails _ _ hfinal)
  | @euclidean steps pulses rotation child pos nonneg hsteps hpulses hrotation item =>
    have hwords : (euclidean steps pulses rotation child).words ++ rest = child.words ++
        Word.char '/' :: (Word.integer steps ++ Word.char ':' :: (Word.integer pulses ++
          Word.char ':' :: Word.integer rotation) ++ rest) := by
      simp only [words, List.append_assoc, List.cons_append]
    have hlength := length_le_of_suffixed hwords
    rw [hwords]
    exact item.passes hfront (by omega) (fun _ => calm_suffix rfl (by decide))
      (htrails.euclid pos nonneg hsteps hpulses hrotation)
  | @operation op n child nonneg inRange nonzero apart item =>
    have hwords : (operation child op.sign (.int n)).words ++ rest =
        child.words ++ Word.operator op.sign :: (Word.integer n ++ rest) := by
      rw [words, List.append_assoc]
      rfl
    have hlength := length_le_of_suffixed hwords
    have hapart : child.isTransform = true → op ≠ .minus := fun htransform hop =>
      absurd ((apart hop).symm.trans htransform) Bool.false_ne_true
    rw [hwords]
    exact item.passes hfront (by omega) (fun htransform => calm_operator (hapart htransform))
      (htrails.operation nonneg inRange nonzero)
  | @modulation amount rate child hamount hrate item =>
    have hwords : (modulation child (.int amount) (.int rate)).words ++ rest =
        child.words ++ Word.char '~' :: (Word.integer amount ++ Word.integer rate ++ rest) := by
      simp only [words, Value.int, Value.words, List.append_assoc, List.cons_append]
    have hlength := length_le_of_suffixed hwords
    rw [hwords]
    exact item.passes hfront (by omega) (fun _ => calm_suffix rfl (by decide))
      (htrails.modulation hamount hrate)

/-- The items of a group are read back from their words. -/
theorem Items.reads {ps : List Pattern} {limit : Nat} {enclosing : Option (TokenKind × Token)}
    {close : List Word} (h : Items ps) (hlimit : (wordsAll ps).length ≤ limit)
    (hend : Ends enclosing close) :
    Reads (gather limit enclosing []) 0 (wordsAll ps ++ close) ps close := by
  cases h with
  | nil => exact reads_repeat_done (reads_itemStep_end hend)
  | @cons p ps front others plain apart =>
    rw [wordsAll, List.length_append] at hlimit
    have hothers : ∀ q ∈ ps, ∀ {items : List Pattern} {rest : List Word}, Unsuffixed rest →
        Passes limit enclosing items (q.words ++ rest) (q :: items) rest := by
      intro q hq items rest hrest
      have hlength := length_words_le hq
      have hplain := plain q hq
      refine (others q hq).passes (fun h => ?_) (by omega) (fun h => ?_) (.none hrest)
      · exact absurd (hplain.symm.trans h) Bool.false_ne_true
      · exact absurd ((not_isTransform_of_plain hplain).symm.trans h) Bool.false_ne_true
    rw [wordsAll, List.append_assoc]
    exact front.passes (fun _ => rfl) (by omega)
      (fun h => calm_wordsAll others plain (apart h) hend)
      (.none (unsuffixed_wordsAll others plain hend)) _ _
      (reads_others [p] others plain hothers hend)

end

/-- A whole pattern is read back from its words. -/
theorem Items.reads_pattern {ps : List Pattern} (h : Items ps) :
    Reads (pattern Transform.builtin) 0 (wordsAll ps) (.sequence ps) [] := by
  have hitems : Reads (Parser.items Transform.builtin none) 0 (wordsAll ps) ps [] := by
    refine reads_ahead fun ts hlength => ?_
    have hreads : Reads (gather ts.length none []) 0 (wordsAll ps ++ []) ps [] :=
      h.reads (by omega) .text
    rwa [List.append_nil] at hreads
  exact reads_bind hitems (reads_pure _)

/-- The canonical text of a pattern stands for the pattern. -/
theorem Canonical.parse_canonicalText {p : Pattern} (h : Canonical p) :
    parse Transform.builtin p.canonicalText = .ok p := by
  obtain ⟨items⟩ := h
  obtain ⟨ts, htokens, hwords⟩ := items.tokenize_canonicalText
  obtain ⟨c, hrun, -⟩ := items.reads_pattern (Cursor.start ts) hwords rfl
  have hresult : (parseTokens Transform.builtin ts).1 = .ok (.sequence _) :=
    congrArg Prod.fst hrun
  rw [parse, htokens]
  simp only [hresult]

end Pattern

end Ostinato
