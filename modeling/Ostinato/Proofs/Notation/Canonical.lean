import Ostinato.Proofs.Notation.Words
import Ostinato.Pattern.Printer

/-!
# Ostinato.Proofs.Notation.Canonical

Patterns that notation can say, and their canonical text.

The patterns are the sequences of item lists.  An item is a number, a text or a
group, with any suffixes after it.  The first item of a list may also begin
with a negative number or with a transform of an item; no minus sign and no
value may then follow the transform, since it would be taken for an operand.

The canonical text of a pattern writes groups in their brackets, text in quotes
and each suffix after its child, all words apart from each other.
-/

namespace Ostinato

open Double (InRange)

/-! ## Items -/

/-- The check of a transform, if it has one, lets the operands pass. -/
def Transform.Accepts (t : Transform) (operands : List Value) : Prop :=
  ∀ check ∈ t.check, check.run operands = .ok ()

/-- Calls of transforms that are known from the start, with integers for
operands and a call at the end where one is required. -/
inductive CallForm : String → List Value → Prop where
  | plain {name : String} {t : Transform} {ns : List Int}
      (known : (name, t) ∈ Transform.builtin.entries) (flat : t.nested = false)
      (fewest : t.fewest ≤ ns.length) (most : ns.length ≤ t.most)
      (inRange : ∀ n ∈ ns, InRange n) (accepted : t.Accepts (ns.map Value.int)) :
      CallForm name (ns.map Value.int)
  | nested {name inner : String} {t : Transform} {ns : List Int} {operands : List Value}
      (known : (name, t) ∈ Transform.builtin.entries) (nests : t.nested = true)
      (fewest : t.fewest ≤ ns.length) (most : ns.length ≤ t.most)
      (inRange : ∀ n ∈ ns, InRange n) (call : CallForm inner operands)
      (accepted : t.Accepts (ns.map Value.int ++ [.call inner operands])) :
      CallForm name (ns.map Value.int ++ [.call inner operands])

namespace Pattern

/-- Whether the outermost node is a transform. -/
def isTransform : Pattern → Bool
  | transform .. => true
  | _ => false

/-- Whether the node is a group in brackets. -/
def isGroup : Pattern → Bool
  | sequence _ | parallel _ => true
  | _ => false

/-- Whether the node can begin only the first item of a group: a negative
number or a transform. -/
def isFrontOnly : Pattern → Bool
  | leaf (.number (.int n)) => n < 0
  | transform .. => true
  | _ => false

/-- The pattern without the suffixes after it. -/
def base : Pattern → Pattern
  | euclidean _ _ _ child => child.base
  | operation child _ _ => child.base
  | modulation child _ _ => child.base
  | p => p

mutual

/-- What may stand first in a group. -/
inductive Item : Pattern → Prop where
  | integer {n : Int} (inRange : InRange n) : Item (.leaf (.int n))
  | text {s : String} (lacks : '"' ∉ s.toList ∨ '\'' ∉ s.toList) : Item (.leaf (.text s))
  | sequence {children : List Pattern} (items : Items children) : Item (.sequence children)
  | parallel {children : List Pattern} (items : Items children) : Item (.parallel children)
  | transform {child : Pattern} {name : String} {operands : List Value} (item : Item child)
      (call : CallForm name operands) : Item (.transform child name operands)
  | euclidean {steps pulses rotation : Int} {child : Pattern} (pos : 1 ≤ steps)
      (nonneg : 0 ≤ pulses) (stepsInRange : InRange steps) (pulsesInRange : InRange pulses)
      (rotationInRange : InRange rotation) (item : Item child) :
      Item (.euclidean steps pulses rotation child)
  | operation {op : Operator} {n : Int} {child : Pattern} (nonneg : 0 ≤ n) (inRange : InRange n)
      (nonzero : op = .modulo → n ≠ 0) (apart : op = .minus → child.isTransform = false)
      (item : Item child) : Item (.operation child op.sign (.int n))
  | modulation {amount rate : Int} {child : Pattern} (amountInRange : InRange amount)
      (rateInRange : InRange rate) (item : Item child) :
      Item (.modulation child (.int amount) (.int rate))

/-- The items of a group.  All but the first begin with a number that is not
negative, with a text or with a group. -/
inductive Items : List Pattern → Prop where
  | nil : Items []
  | cons {p : Pattern} {ps : List Pattern} (front : Item p) (others : ∀ q ∈ ps, Item q)
      (plain : ∀ q ∈ ps, q.base.isFrontOnly = false)
      (apart : p.isTransform = true → ∀ q ∈ ps.head?, q.base.isGroup = true) : Items (p :: ps)

end

/-- A list of items is its front item and the others, of which the next one stands
apart from a transform. -/
theorem Items.cons_iff {p : Pattern} {ps : List Pattern} : Items (p :: ps) ↔
    p.Item ∧ (∀ q ∈ ps, q.Item) ∧ (∀ q ∈ ps, q.base.isFrontOnly = false) ∧
      (p.isTransform = true → ∀ q ∈ ps.head?, q.base.isGroup = true) := by
  constructor
  · rintro ⟨⟩
    exact ⟨‹_›, ‹_›, ‹_›, ‹_›⟩
  · rintro ⟨front, others, plain, apart⟩
    exact .cons front others plain apart

/-- One item more or less at the end of a group. -/
theorem Items.concat_iff {ps : List Pattern} {q : Pattern} : Items (ps ++ [q]) ↔
    Items ps ∧ q.Item ∧ (ps ≠ [] → q.base.isFrontOnly = false) ∧
      ∀ p, ps = [p] → p.isTransform = true → q.base.isGroup = true := by
  rcases ps with _ | ⟨p, ps⟩
  · rw [List.nil_append, Items.cons_iff]
    constructor
    · rintro ⟨item, -⟩
      exact ⟨.nil, item, fun hne => absurd rfl hne, fun p hp => absurd hp.symm (by simp)⟩
    · rintro ⟨-, item, -⟩
      exact ⟨item, List.forall_mem_nil _, List.forall_mem_nil _,
        fun _ r hr => absurd hr (Option.not_mem_none r)⟩
  · rw [List.cons_append, Items.cons_iff, Items.cons_iff]
    constructor
    · rintro ⟨front, others, plain, apart⟩
      obtain ⟨others, item⟩ := List.forall_mem_append.mp others
      obtain ⟨plain, hplain⟩ := List.forall_mem_append.mp plain
      have hq : q ∈ [q] := List.mem_singleton_self q
      refine ⟨⟨front, others, plain, fun htransform r hr => ?_⟩, item q hq,
        fun _ => hplain q hq, ?_⟩
      · refine apart htransform r ?_
        rw [List.head?_append, Option.mem_def.mp hr]
        rfl
      · rintro r hr htransform
        obtain ⟨rfl, rfl⟩ := List.cons.inj hr
        exact apart htransform q rfl
    · rintro ⟨⟨front, others, plain, apart⟩, item, hplain, hgroup⟩
      have hq : q.base.isFrontOnly = false := hplain (by simp)
      refine ⟨front, by simpa [or_imp, forall_and] using ⟨others, item⟩,
        by simpa [or_imp, forall_and] using ⟨plain, hq⟩, fun htransform r hr => ?_⟩
      rcases ps with _ | ⟨r', ps⟩
      · obtain rfl := Option.some.inj hr
        exact hgroup p rfl htransform
      · exact apart htransform r hr

/-- The patterns that notation can say with integers for numbers. -/
inductive Canonical : Pattern → Prop where
  | sequence {children : List Pattern} (items : Items children) : Canonical (.sequence children)

end Pattern

/-! ## Integers for numbers -/

mutual

/-- Whether all numbers in a value are integers. -/
def Value.isIntegral : Value → Bool
  | .number (.int _) => true
  | .number _ => false
  | .tuple items => Value.allIntegral items
  | .call _ operands => Value.allIntegral operands
  | .pattern p => p.isIntegral
  | _ => true

/-- Whether all numbers in some values are integers. -/
def Value.allIntegral : List Value → Bool
  | [] => true
  | v :: vs => v.isIntegral && Value.allIntegral vs

/-- Whether all numbers in a pattern are integers. -/
def Pattern.isIntegral : Pattern → Bool
  | .leaf value => value.isIntegral
  | .sequence children => Pattern.allIntegral children
  | .parallel children => Pattern.allIntegral children
  | .transform child _ operands => child.isIntegral && Value.allIntegral operands
  | .euclidean _ _ _ child => child.isIntegral
  | .modulation child amount rate => child.isIntegral && amount.isIntegral && rate.isIntegral
  | .operation child _ operand => child.isIntegral && operand.isIntegral
  | .stray value => value.isIntegral

/-- Whether all numbers in some patterns are integers. -/
def Pattern.allIntegral : List Pattern → Bool
  | [] => true
  | p :: ps => p.isIntegral && Pattern.allIntegral ps

end

/-- Numbers in values put together are integers if those in each part are. -/
theorem Value.allIntegral_append {vs us : List Value} :
    Value.allIntegral (vs ++ us) = (Value.allIntegral vs && Value.allIntegral us) := by
  induction vs with
  | nil => rfl
  | cons v vs ih => rw [List.cons_append, allIntegral, allIntegral, ih, Bool.and_assoc]

/-- All numbers in some patterns are integers if those in each are. -/
theorem Pattern.allIntegral_iff {ps : List Pattern} :
    allIntegral ps = true ↔ ∀ p ∈ ps, p.isIntegral = true := by
  induction ps with
  | nil => exact iff_of_true rfl (List.forall_mem_nil _)
  | cons p ps ih => rw [allIntegral, Bool.and_eq_true, ih, List.forall_mem_cons]

/-- The order of patterns does not matter for that. -/
theorem Pattern.allIntegral_reverse (ps : List Pattern) :
    allIntegral ps.reverse = allIntegral ps := by
  rw [Bool.eq_iff_iff, allIntegral_iff, allIntegral_iff]
  simp only [List.mem_reverse]

/-- Calls that notation can say have integers for numbers, by induction on the call
at the end. -/
theorem CallForm.allIntegral {name : String} {operands : List Value} (h : CallForm name operands) :
    Value.allIntegral operands = true := by
  have hints : ∀ ns : List Int, Value.allIntegral (ns.map Value.int) = true := by
    intro ns
    induction ns with
    | nil => rfl
    | cons n ns ih => rw [List.map_cons, Value.allIntegral, ih]; rfl
  induction h with
  | @plain name t ns known flat fewest most inRange accepted => exact hints ns
  | @nested name inner t ns operands known nests fewest most inRange call accepted ih =>
    rw [Value.allIntegral_append, hints ns, Value.allIntegral, Value.isIntegral, ih]
    rfl

mutual

/-- Items have integers for numbers. -/
theorem Pattern.Item.isIntegral {p : Pattern} (h : Item p) : p.isIntegral = true := by
  cases h with
  | integer inRange => rfl
  | text lacks => rfl
  | sequence items => exact items.allIntegral
  | parallel items => exact items.allIntegral
  | transform item call =>
    rw [Pattern.isIntegral, item.isIntegral, call.allIntegral]
    rfl
  | euclidean pos nonneg hsteps hpulses hrotation item => exact item.isIntegral
  | operation nonneg inRange nonzero apart item =>
    rw [Pattern.isIntegral, item.isIntegral]
    rfl
  | modulation hamount hrate item =>
    rw [Pattern.isIntegral, item.isIntegral]
    rfl

/-- So have lists of items. -/
theorem Pattern.Items.allIntegral {ps : List Pattern} (h : Items ps) :
    Pattern.allIntegral ps = true := by
  cases h with
  | nil => rfl
  | cons front others plain apart =>
    rw [Pattern.allIntegral, front.isIntegral, Bool.true_and, Pattern.allIntegral_iff]
    exact fun q hq => (others q hq).isIntegral

end

/-- So have canonical patterns. -/
theorem Pattern.Canonical.isIntegral {p : Pattern} (h : Canonical p) : p.isIntegral = true := by
  obtain ⟨items⟩ := h
  exact items.allIntegral

/-! ## Words of patterns -/

namespace Word

/-- A structural character. -/
def char (c : Char) : Word := ⟨(TokenKind.ofStructural? c).getD .symbol, String.singleton c⟩

/-- The digits of an integer, after its sign if that is a minus. -/
def integer (n : Int) : List Word :=
  if n < 0 then [char '-', ⟨.number, toString n.natAbs⟩] else [⟨.number, toString n.natAbs⟩]

end Word

/-- The kind of the word for an operator. -/
def Operator.tokenKind : Operator → TokenKind
  | times => .star
  | plus => .plus
  | minus => .minus
  | modulo => .modulo

/-- The word for the operator that a sign stands for. -/
def Word.operator (sign : String) : Word :=
  ⟨((Operator.ofSign? sign).map Operator.tokenKind).getD .symbol, sign⟩

mutual

/-- The words for a value.  Flags, tuples and patterns have none. -/
def Value.words : Value → List Word
  | .number (.int n) => Word.integer n
  | .number x => [⟨.number, x.text⟩]
  | .text s => [⟨.string, s⟩]
  | .call name operands => ⟨.symbol, name⟩ :: Value.wordsAll operands
  | _ => []

/-- The words for values one after another. -/
def Value.wordsAll : List Value → List Word
  | [] => []
  | v :: vs => v.words ++ Value.wordsAll vs

end

mutual

/-- The words for a pattern. -/
def Pattern.words : Pattern → List Word
  | .leaf value => value.words
  | .sequence children => Word.char '[' :: Pattern.wordsAll children ++ [Word.char ']']
  | .parallel children => Word.char '<' :: Pattern.wordsAll children ++ [Word.char '>']
  | .transform child name operands =>
    child.words ++ Word.char '.' :: ⟨.symbol, name⟩ :: Value.wordsAll operands
  | .euclidean steps pulses rotation child =>
    child.words ++ Word.char '/' :: Word.integer steps ++ Word.char ':' :: Word.integer pulses ++
      Word.char ':' :: Word.integer rotation
  | .modulation child amount rate =>
    child.words ++ Word.char '~' :: amount.words ++ rate.words
  | .operation child sign operand => child.words ++ Word.operator sign :: operand.words
  | .stray value => value.words

/-- The words for patterns one after another. -/
def Pattern.wordsAll : List Pattern → List Word
  | [] => []
  | p :: ps => p.words ++ Pattern.wordsAll ps

end

/-- The words for values are the words for each. -/
theorem Value.mem_wordsAll {w : Word} {vs : List Value} :
    w ∈ Value.wordsAll vs ↔ ∃ v ∈ vs, w ∈ v.words := by
  induction vs with
  | nil => simp [Value.wordsAll]
  | cons v vs ih => simp [Value.wordsAll, ih]

/-- The words for patterns are the words for each. -/
theorem Pattern.mem_wordsAll {w : Word} {ps : List Pattern} :
    w ∈ Pattern.wordsAll ps ↔ ∃ p ∈ ps, w ∈ p.words := by
  induction ps with
  | nil => simp [Pattern.wordsAll]
  | cons p ps ih => simp [Pattern.wordsAll, ih]

/-- The words for values put together are the words for each part. -/
theorem Value.wordsAll_append (vs us : List Value) :
    Value.wordsAll (vs ++ us) = Value.wordsAll vs ++ Value.wordsAll us := by
  induction vs with
  | nil => rfl
  | cons v vs ih => rw [List.cons_append, Value.wordsAll, Value.wordsAll, ih, List.append_assoc]

/-- The canonical text of a pattern.  The outermost sequence needs no
brackets. -/
def Pattern.canonicalText : Pattern → String
  | .sequence children => String.ofList (Word.spell (Pattern.wordsAll children))
  | p => String.ofList (Word.spell p.words)

/-! ## Words that stand for themselves -/

open Word (Stands)

/-- A structural character stands for itself. -/
theorem Word.stands_char {c : Char} (h : (TokenKind.ofStructural? c).isSome = true) :
    Stands (Word.char c) := by
  obtain ⟨kind, hkind⟩ := Option.isSome_iff_exists.mp h
  rw [Word.char, hkind]
  exact Word.stands_structural hkind

/-- The sign of an operator stands for it. -/
theorem Word.stands_operator (op : Operator) : Stands (Word.operator op.sign) := by
  cases op with
  | times => exact Word.stands_char (c := '*') (by decide)
  | plus => exact Word.stands_char (c := '+') (by decide)
  | minus => exact Word.stands_char (c := '-') (by decide)
  | modulo => exact Word.stands_char (c := '%') (by decide)

/-- The words for an integer in range can stand in a text. -/
theorem Word.stands_integer {n : Int} (h : InRange n) : ∀ w ∈ Word.integer n, Stands w := by
  have hdigits : Stands ⟨.number, toString n.natAbs⟩ := by
    refine Word.stands_number ?_
    rcases Int.natAbs_eq n with heq | heq
    · rwa [← heq]
    · rwa [heq, Double.inRange_neg] at h
  unfold Word.integer
  split
  · exact List.forall_mem_cons.mpr
      ⟨Word.stands_char (by decide), List.forall_mem_singleton.mpr hdigits⟩
  · exact List.forall_mem_singleton.mpr hdigits

/-- So can the words for several. -/
theorem Word.stands_integers {ns : List Int} (h : ∀ n ∈ ns, InRange n) :
    ∀ w ∈ Value.wordsAll (ns.map Value.int), Stands w := by
  intro w hw
  obtain ⟨v, hv, hword⟩ := Value.mem_wordsAll.mp hw
  obtain ⟨n, hn, rfl⟩ := List.mem_map.mp hv
  exact Word.stands_integer (h n hn) w hword

/-- A transform that is known from the start has a known name. -/
theorem mem_names {name : String} {t : Transform} (h : (name, t) ∈ Transform.builtin.entries) :
    name ∈ Transform.builtin.names :=
  List.mem_map.mpr ⟨(name, t), h, rfl⟩

/-- The words for a call can stand in a text. -/
theorem CallForm.stands {name : String} {operands : List Value} (h : CallForm name operands) :
    ∀ w ∈ (⟨.symbol, name⟩ :: Value.wordsAll operands : List Word), Stands w := by
  induction h with
  | plain known flat fewest most inRange accepted =>
    exact List.forall_mem_cons.mpr
      ⟨Word.stands_name (mem_names known), Word.stands_integers inRange⟩
  | nested known nests fewest most inRange call accepted ih =>
    rw [Value.wordsAll_append]
    refine List.forall_mem_cons.mpr ⟨Word.stands_name (mem_names known), ?_⟩
    refine List.forall_mem_append.mpr ⟨Word.stands_integers inRange, ?_⟩
    rwa [Value.wordsAll, Value.wordsAll, List.append_nil]

mutual

/-- The words for an item can stand in a text.  The cases follow the rules for
items; in each the words are those of the child and a few characters and numbers. -/
theorem Pattern.Item.stands {p : Pattern} (h : Item p) :
    ∀ w ∈ p.words, Stands w := by
  cases h with
  | integer inRange => exact Word.stands_integer inRange
  | text lacks => exact List.forall_mem_singleton.mpr (Word.stands_text lacks)
  | sequence items =>
    refine List.forall_mem_append.mpr ⟨List.forall_mem_cons.mpr ⟨?_, items.stands⟩, ?_⟩
    · exact Word.stands_char (by decide)
    · exact List.forall_mem_singleton.mpr (Word.stands_char (by decide))
  | parallel items =>
    refine List.forall_mem_append.mpr ⟨List.forall_mem_cons.mpr ⟨?_, items.stands⟩, ?_⟩
    · exact Word.stands_char (by decide)
    · exact List.forall_mem_singleton.mpr (Word.stands_char (by decide))
  | transform item call =>
    exact List.forall_mem_append.mpr ⟨item.stands,
      List.forall_mem_cons.mpr ⟨Word.stands_char (by decide), call.stands⟩⟩
  | euclidean pos nonneg hsteps hpulses hrotation item =>
    refine List.forall_mem_append.mpr ⟨List.forall_mem_append.mpr
      ⟨List.forall_mem_append.mpr ⟨item.stands, ?_⟩, ?_⟩, ?_⟩
    · exact List.forall_mem_cons.mpr ⟨Word.stands_char (by decide), Word.stands_integer hsteps⟩
    · exact List.forall_mem_cons.mpr ⟨Word.stands_char (by decide), Word.stands_integer hpulses⟩
    · exact List.forall_mem_cons.mpr ⟨Word.stands_char (by decide), Word.stands_integer hrotation⟩
  | operation nonneg inRange nonzero apart item =>
    exact List.forall_mem_append.mpr ⟨item.stands,
      List.forall_mem_cons.mpr ⟨Word.stands_operator _, Word.stands_integer inRange⟩⟩
  | modulation hamount hrate item =>
    refine List.forall_mem_append.mpr ⟨List.forall_mem_append.mpr ⟨item.stands, ?_⟩, ?_⟩
    · exact List.forall_mem_cons.mpr ⟨Word.stands_char (by decide), Word.stands_integer hamount⟩
    · exact Word.stands_integer hrate

/-- So can the words for the items of a group. -/
theorem Pattern.Items.stands {ps : List Pattern} (h : Items ps) :
    ∀ w ∈ Pattern.wordsAll ps, Stands w := by
  cases h with
  | nil => exact List.forall_mem_nil _
  | cons front others plain apart =>
    refine List.forall_mem_append.mpr ⟨front.stands, fun w hw => ?_⟩
    obtain ⟨q, hq, hword⟩ := Pattern.mem_wordsAll.mp hw
    exact (others q hq).stands w hword

end

/-- The canonical text of a pattern is split into its words. -/
theorem Pattern.Items.tokenize_canonicalText {ps : List Pattern} (h : Items ps) :
    ∃ ts, tokenize (Pattern.sequence ps).canonicalText = .ok ts ∧
      ts.map Token.word = Pattern.wordsAll ps :=
  Word.tokenize_spell h.stands

end Ostinato
