import Ostinato.Proofs.Notation.Elements
import Ostinato.Proofs.Unicode.Lowercase

/-!
# Ostinato.Proofs.Notation.Image

What text can stand for.

Every pattern that notation yields with integers for numbers is canonical, so
the canonical text loses nothing: the canonical patterns are those that texts
stand for, and the canonical text of each is one of these texts
(`Pattern.canonical_iff_parse`).  The items of a group so far are kept by every
step of its reading (`Parser.Gathered`).
-/

namespace Ostinato

open Double (InRange)

namespace Parser

variable {c c' : Cursor}

/-! ## Calls -/

/-- A step over operands ends them, or takes one more number if the transform allows
it. -/
theorem operandStep_cases {t : Transform} {name : Token} {operands : List Value}
    {r : List Value ⊕ List Value} (h : Runs (operandStep t name operands) c r c') :
    r = .inr operands ∨ ((operands.length : Int) < t.most ∧
      ∃ x, Runs (expectNumber name true) c x c' ∧ r = .inl (operands ++ [.number x])) := by
  replace h := runs_atNumber_bind.mp h
  split at h
  · rename_i hmore
    rw [Bool.and_eq_true, decide_eq_true_iff] at hmore
    obtain ⟨x, _, hoperand, h⟩ := runs_bind.mp h
    obtain ⟨rfl, rfl⟩ := runs_pure.mp h
    exact .inr ⟨hmore.1, x, hoperand, rfl⟩
  · exact .inl (runs_pure.mp h).1.symm

/-- Operands are numbers, no more than a transform takes. -/
def TakenBy (t : Transform) (operands : List Value) : Prop :=
  (operands.length : Int) ≤ t.most ∧
    ∃ xs : List Number, operands = xs.map Value.number ∧ ∀ x ∈ xs, x.Readable

/-- Operands that were read are numbers that words can stand for, as many as the
transform takes.  The invariant of the repetition says the same of those read so
far. -/
theorem takenBy_of_operands {t : Transform} {name : Token} {operands : List Value} (hc : c.Sound)
    (hmost : 0 ≤ t.most) (h : Runs (repeatUntil (operandStep t name) []) c operands c') :
    TakenBy t operands := by
  refine sound_induction (P := fun operands _ => TakenBy t operands)
    (Q := fun operands _ => TakenBy t operands) (keeps_operandStep t name) ?_ ?_ hc
    ⟨by simpa using hmost, [], rfl, List.forall_mem_nil _⟩ h
  · rintro operands d operands' d' hd ⟨hlength, xs, rfl, hxs⟩ hstep
    obtain hdone | ⟨hmore, x, hx, hnext⟩ := operandStep_cases hstep
    · exact absurd hdone (by simp)
    obtain rfl := Sum.inl.inj hnext
    have hreadable := (readable_of_expectNumber hd.plain hx).1
    refine ⟨by simp only [List.length_append, List.length_singleton]; omega, xs ++ [x], by simp, ?_⟩
    exact List.forall_mem_append.mpr ⟨hxs, List.forall_mem_singleton.mpr hreadable⟩
  · intro operands d operands' d' hd hoperands hstep
    obtain hdone | ⟨-, x, -, hnext⟩ := operandStep_cases hstep
    · obtain rfl := Sum.inr.inj hdone
      exact hoperands
    · exact absurd hnext (by simp)

/-- Numbers that are all integers. -/
theorem integers_of_readable {xs : List Number} (h : ∀ x ∈ xs, x.Readable)
    (hint : Value.allIntegral (xs.map Value.number) = true) :
    ∃ ns : List Int, xs.map Value.number = ns.map Value.int ∧ ∀ n ∈ ns, InRange n := by
  induction xs with
  | nil => exact ⟨[], rfl, List.forall_mem_nil _⟩
  | cons x xs ih =>
    obtain ⟨hx, hxs⟩ := List.forall_mem_cons.mp h
    rw [List.map_cons, Value.allIntegral, Bool.and_eq_true] at hint
    obtain ⟨n, rfl, hn⟩ := hx.inRange hint.1
    obtain ⟨ns, hns, hrange⟩ := ih hxs hint.2
    exact ⟨n :: ns, by rw [List.map_cons, hns]; rfl, List.forall_mem_cons.mpr ⟨hn, hrange⟩⟩

/-- Operands with integers for numbers are integers in range. -/
theorem TakenBy.integers {t : Transform} {operands : List Value} (h : TakenBy t operands)
    (hint : Value.allIntegral operands = true) :
    ∃ ns : List Int, operands = ns.map Value.int ∧ (ns.length : Int) ≤ t.most ∧
      ∀ n ∈ ns, InRange n := by
  obtain ⟨hmost, xs, rfl, hxs⟩ := h
  obtain ⟨ns, hns, hrange⟩ := integers_of_readable hxs hint
  rw [hns, List.length_map] at hmost
  exact ⟨ns, hns, hmost, hrange⟩

/-- Operands that passed the check of a transform are accepted by it. -/
theorem accepts_of_checkOperands {t : Transform} {name : String} {token : Token}
    {operands : List Value} {u : Unit} (h : Runs (checkOperands t name token operands) c u c') :
    t.Accepts operands ∧ c' = c := by
  unfold checkOperands at h
  split at h
  · rename_i hnone
    refine ⟨fun check hcheck => ?_, (runs_pure.mp h).2.symm⟩
    rw [hnone] at hcheck
    exact absurd hcheck (Option.not_mem_none _)
  · rename_i check hsome
    split at h
    · rename_i hok
      refine ⟨fun check' hcheck => ?_, (runs_pure.mp h).2.symm⟩
      obtain rfl : check = check' := Option.some.inj (hsome.symm.trans hcheck)
      exact hok
    · exact absurd h runs_throw

/-- What a call would take has been refused. -/
theorem calm_of_refuseExtra {name : String} {u : Unit} (h : Runs (refuseExtra name) c u c') :
    Calm c.words ∧ c' = c := by
  replace h := runs_peek_bind.mp h
  rcases hhead : c.ahead.head? with _ | t
  · simp only [hhead] at h
    have hnil : c.words = [] := by rw [Cursor.words, List.head?_eq_none_iff.mp hhead]; rfl
    rw [hnil]
    exact ⟨⟨fun w hw => absurd hw (Option.not_mem_none w), rfl⟩, (runs_pure.mp h).2.symm⟩
  simp only [hhead] at h
  replace h := runs_atNumber_bind.mp h
  split at h
  · exact absurd h runs_throw
  · rename_i hextra
    rw [Bool.or_eq_true, not_or, Bool.not_eq_true, Bool.not_eq_true] at hextra
    refine ⟨⟨fun w hw => ?_, ?_⟩, (runs_pure.mp h).2.symm⟩
    · rw [words_of_head? hhead] at hw
      obtain rfl := Option.some.inj hw
      exact hextra.1
    · rw [Cursor.words, ← startsNumber_eq]
      exact hextra.2

/-- The names of transforms hold no letter that the kelvin sign becomes. -/
theorem ascii_of_mem_names {name : String} (h : name ∈ Transform.builtin.names) :
    ∀ d ∈ name.toList, d.toNat < 128 ∧ d ≠ 'k' := by
  have hnames : ∀ name ∈ Transform.builtin.names,
      (name.toList.all fun d => decide (d.toNat < 128 ∧ d ≠ 'k')) = true := by decide +kernel
  simpa using hnames name h

/-- A transform is found under its name only. -/
theorem mem_entries_of_get? {name : String} {t : Transform}
    (h : Transform.builtin.get? (Unicode.lowercase name) = some t) :
    (Unicode.lowercase name, t) ∈ Transform.builtin.entries := by
  obtain ⟨before, after, hentries, -⟩ := List.lookup_eq_some_iff.mp h
  have hmem : (Unicode.lowercase (Unicode.lowercase name), t) ∈ Transform.builtin.entries := by
    rw [hentries]
    exact List.mem_append_right before List.mem_cons_self
  rwa [Unicode.lowercase_lowercase (ascii_of_mem_names (mem_names hmem))] at hmem

/-- A call with integers for numbers is one that notation can say, and it takes
all that it would. -/
theorem callForm_of_callWithin {limit : Nat} {after : Token} {r : String × List Value}
    (hc : c.Sound) (h : Runs (callWithin Transform.builtin limit after) c r c') :
    (Value.allIntegral r.2 = true → CallForm r.1 r.2) ∧ Calm c'.words := by
  induction limit generalizing c c' after r with
  | zero => exact absurd h runs_throw
  | succ limit ih =>
    obtain ⟨token, t, operands, d, -, -, hget, hoperands, hfewest, hend⟩ :=
      runs_callWithin_succ.mp h
    have known := mem_entries_of_get? hget
    have hnonneg : ∀ entry ∈ Transform.builtin.entries, 0 ≤ entry.2.most := by decide
    have hnext := (Cursor.leads_next c).sound hc
    have hd := (keeps_repeatUntil (keeps_operandStep t token) []).sound hoperands hnext
    have htaken := takenBy_of_operands hnext (hnonneg _ known) hoperands
    unfold callEnd at hend
    split at hend
    · rename_i hnests
      obtain ⟨call, e, hcall, hend⟩ := runs_bind.mp hend
      obtain ⟨_, _, hcheck, hlast⟩ := runs_bind.mp hend
      obtain ⟨haccepts, rfl⟩ := accepts_of_checkOperands hcheck
      obtain ⟨rfl, rfl⟩ := runs_pure.mp hlast
      obtain ⟨hform, hcalm⟩ := ih hd hcall
      refine ⟨fun hint => ?_, hcalm⟩
      rw [Value.allIntegral_append, Bool.and_eq_true] at hint
      obtain ⟨ns, rfl, hmost, hrange⟩ := htaken.integers hint.1
      have hinner : Value.allIntegral call.2 = true := by
        have hlast := hint.2
        rwa [Value.allIntegral, Value.allIntegral, Value.isIntegral, Bool.and_true] at hlast
      rw [List.length_map] at hfewest
      exact .nested known hnests hfewest hmost hrange (hform hinner) haccepts
    · rename_i hflat
      obtain ⟨_, _, hextra, hcheck⟩ := runs_bind.mp hend
      obtain ⟨hcalm, rfl⟩ := calm_of_refuseExtra hextra
      obtain ⟨_, _, hcheck, hlast⟩ := runs_bind.mp hcheck
      obtain ⟨haccepts, rfl⟩ := accepts_of_checkOperands hcheck
      obtain ⟨rfl, rfl⟩ := runs_pure.mp hlast
      refine ⟨fun hint => ?_, hcalm⟩
      obtain ⟨ns, rfl, hmost, hrange⟩ := htaken.integers hint
      rw [List.length_map] at hfewest
      exact .plain known (by simpa using hflat) hfewest hmost hrange haccepts

/-! ## Groups -/

/-- The items of a group so far, listed latest first.  Behind a transform alone
there is nothing that its call would take. -/
structure Gathered (ws : List Word) (items : List Pattern) : Prop where
  listed : Pattern.allIntegral items = true → Pattern.Items items.reverse
  calm : ∀ p, items = [p] → p.isTransform = true → Calm ws

/-- Before the first item nothing is gathered. -/
theorem gathered_nil (ws : List Word) : Gathered ws [] :=
  ⟨fun _ => .nil, fun p hp => absurd hp (by simp)⟩

/-- An atom with its suffixes is one more item. -/
theorem Gathered.atom {items : List Pattern} {ws after : List Word} {p : Pattern}
    (h : Gathered ws items) (hfront : items ≠ [] → ∀ w ∈ ws.head?, w.kind.isSuffix = false)
    (hp : Atomic ws p) : Gathered after (p :: items) := by
  refine ⟨fun hint => ?_, fun q hq htransform => ?_⟩
  · rw [Pattern.allIntegral, Bool.and_eq_true] at hint
    rw [List.reverse_cons, Pattern.Items.concat_iff]
    refine ⟨h.listed hint.2, hp.item hint.1, fun hne => ?_, fun q hq htransform => ?_⟩
    · exact hp.plain hint.1 (hfront (by simpa using hne))
    · have hsingle : items = [q] := by rw [← List.reverse_reverse items, hq]; rfl
      exact hp.group (h.calm q hsingle htransform) (hfront (by simp [hsingle]))
  · obtain ⟨rfl, -⟩ := List.cons.inj hq
    exact absurd (hp.noTransform.symm.trans htransform) Bool.false_ne_true

/-- Suffixes after the last item. -/
theorem Gathered.suffixed {last p : Pattern} {others : List Pattern} {ws after : List Word}
    (h : Gathered ws (last :: others)) (hp : Suffixed last ws p) :
    Gathered after (p :: others) := by
  refine ⟨fun hint => ?_, fun q hq htransform => ?_⟩
  · rw [Pattern.allIntegral, Bool.and_eq_true] at hint
    have hlisted : Pattern.Items (last :: others).reverse := by
      refine h.listed ?_
      rw [Pattern.allIntegral, Bool.and_eq_true]
      exact ⟨hp.integral hint.1, hint.2⟩
    rw [List.reverse_cons, Pattern.Items.concat_iff] at hlisted
    obtain ⟨hothers, hlast, hplain, hgroup⟩ := hlisted
    rw [List.reverse_cons, Pattern.Items.concat_iff, hp.base]
    refine ⟨hothers, hp.item hint.1 hlast fun htransform => ?_, hplain, hgroup⟩
    -- a transform comes first, so it is the only item
    by_cases hnil : others = []
    · exact h.calm last (by rw [hnil]) htransform
    · have hno := Pattern.not_isTransform_of_plain (hplain (by simpa using hnil))
      exact absurd (hno.symm.trans htransform) Bool.false_ne_true
  · obtain ⟨rfl, -⟩ := List.cons.inj hq
    exact absurd (hp.noTransform.symm.trans htransform) Bool.false_ne_true

/-- A transform of the items so far. -/
theorem Gathered.transform {items : List Pattern} {ws : List Word} {dot : Token} {p : Pattern}
    (h : Gathered ws items) (hc : c.Sound)
    (hrun : Runs (transform Transform.builtin items.reverse dot) c p c') :
    Gathered c'.words [p] := by
  have hreverse : Pattern.allIntegral items.reverse = true → Pattern.Items items.reverse := by
    rw [Pattern.allIntegral_reverse]
    exact h.listed
  rcases hitems : items.reverse with _ | ⟨first, others⟩
  · rw [hitems] at hrun
    exact absurd hrun runs_throw
  rw [hitems] at hrun hreverse
  obtain ⟨call, d, hcall, hrun⟩ := runs_bind.mp hrun
  obtain ⟨rfl, rfl⟩ := runs_pure.mp hrun
  replace hcall := runs_ahead_bind.mp hcall
  obtain ⟨hform, hcalm⟩ := callForm_of_callWithin hc hcall
  refine ⟨fun hint => ?_, fun _ _ _ => hcalm⟩
  have hp := Pattern.allIntegral_iff.mp hint _ List.mem_cons_self
  rw [Pattern.isIntegral, Bool.and_eq_true] at hp
  have hchild : (if others.isEmpty then first else .sequence (first :: others)).Item := by
    rcases others with _ | ⟨second, others⟩
    · have hsingle : Pattern.allIntegral [first] = true :=
        Pattern.allIntegral_iff.mpr (List.forall_mem_singleton.mpr hp.1)
      exact (Pattern.Items.cons_iff.mp (hreverse hsingle)).1
    · exact .sequence (hreverse hp.1)
  rw [List.reverse_singleton, Pattern.Items.cons_iff]
  exact ⟨.transform hchild (hform hp.2), List.forall_mem_nil _, List.forall_mem_nil _,
    fun _ q hq => absurd hq (Option.not_mem_none q)⟩

/-- What one step adds to a group. -/
theorem itemStep_cases {transforms : Registry Transform}
    {group : TokenKind → Token → Parser (List Pattern)} {enclosing : Option (TokenKind × Token)}
    {items : List Pattern} {r : List Pattern ⊕ List Pattern}
    (h : Runs (itemStep transforms group enclosing items) c r c') :
    (r = .inr items.reverse ∧ c' = c ∧ (enclosing.isSome = true → c.ahead.head?.isSome = true)) ∨
    (∃ dot p, c.ahead.head? = some dot ∧
      Runs (transform transforms items.reverse dot) c.next p c' ∧ r = .inl [p]) ∨
    (∃ sign last others p, c.ahead.head? = some sign ∧ sign.kind.isSuffix = true ∧
      items = last :: others ∧ Runs (suffixes last) c p c' ∧ r = .inl (p :: others)) ∨
    (∃ atom d p, (items ≠ [] → ∀ w ∈ c.words.head?, w.kind.isSuffix = false) ∧
      Runs (atomWith group) c atom d ∧ Runs (suffixes atom) d p c' ∧ r = .inl (p :: items)) := by
  replace h := runs_peek_bind.mp h
  rcases hhead : c.ahead.head? with _ | t
  · simp only [hhead] at h
    split at h
    · exact absurd h runs_throw
    · obtain ⟨rfl, rfl⟩ := runs_pure.mp h
      exact .inl ⟨rfl, rfl, fun hsome => absurd hsome Bool.false_ne_true⟩
  simp only [hhead] at h
  split at h
  · split at h
    · obtain ⟨rfl, rfl⟩ := runs_pure.mp h
      exact .inl ⟨rfl, rfl, fun _ => rfl⟩
    · exact absurd h runs_throw
  split at h
  · obtain ⟨_, -, h⟩ := runs_advance_bind.mp h
    obtain ⟨p, _, htransform, h⟩ := runs_bind.mp h
    obtain ⟨rfl, rfl⟩ := runs_pure.mp h
    exact .inr (.inl ⟨t, p, rfl, htransform, rfl⟩)
  split at h
  · rename_i last others hsuffix
    obtain ⟨p, _, hsuffixes, h⟩ := runs_bind.mp h
    obtain ⟨rfl, rfl⟩ := runs_pure.mp h
    exact .inr (.inr (.inl ⟨t, last, others, p, rfl, hsuffix, rfl, hsuffixes, rfl⟩))
  · rename_i items _ _ hfront
    obtain ⟨atom, d, hatom, h⟩ := runs_bind.mp h
    obtain ⟨p, _, hsuffixes, h⟩ := runs_bind.mp h
    obtain ⟨rfl, rfl⟩ := runs_pure.mp h
    refine .inr (.inr (.inr ⟨atom, d, p, fun hne w hw => ?_, hatom, hsuffixes, rfl⟩))
    rw [words_of_head? hhead] at hw
    obtain rfl := Option.some.inj hw
    rcases items with _ | ⟨last, others⟩
    · exact absurd rfl hne
    · by_contra hsuffix
      rw [Bool.not_eq_false] at hsuffix
      exact hfront last others hsuffix rfl

/-- Each step keeps to the items of a group. -/
theorem gathered_of_itemStep {group : TokenKind → Token → Parser (List Pattern)}
    {enclosing : Option (TokenKind × Token)} {items items' : List Pattern} (hgroup : Gathers group)
    (hc : c.Sound) (h : Gathered c.words items)
    (hstep : Runs (itemStep Transform.builtin group enclosing items) c (.inl items') c') :
    Gathered c'.words items' := by
  obtain ⟨hdone, -⟩ | ⟨dot, p, -, hrun, hnext⟩ | ⟨_, last, others, p, -, -, rfl, hrun, hnext⟩ |
    ⟨atom, d, p, hfront, hrun, hrun', hnext⟩ := itemStep_cases hstep
  · exact absurd hdone (by simp)
  · obtain rfl := Sum.inl.inj hnext
    exact h.transform ((Cursor.leads_next c).sound hc) hrun
  · obtain rfl := Sum.inl.inj hnext
    obtain ⟨rfl, rfl⟩ | hsuffixed := suffixes_cases hc hrun
    · exact h
    · exact h.suffixed hsuffixed
  · obtain rfl := Sum.inl.inj hnext
    have hd := (keeps_atomWith hgroup.keeps).sound hrun hc
    have hatom := atomic_of_atomWith hgroup hc hrun
    obtain ⟨rfl, rfl⟩ | hsuffixed := suffixes_cases hd hrun'
    · exact h.atom hfront hatom
    · exact h.atom hfront (hatom.suffixed hsuffixed)

/-- The items of a group. -/
theorem items_of_itemsWithin {limit : Nat} {enclosing : Option (TokenKind × Token)}
    {ps : List Pattern} (hc : c.Sound)
    (h : Runs (itemsWithin Transform.builtin limit enclosing) c ps c') :
    Pattern.allIntegral ps = true → Pattern.Items ps := by
  induction limit generalizing c c' enclosing ps with
  | zero => exact absurd h runs_throw
  | succ limit ih =>
    have hgroup : Gathers fun closer opener =>
        itemsWithin Transform.builtin limit (some (closer, opener)) :=
      ⟨fun closer opener => keeps_itemsWithin _ limit _, fun hc h => ih hc h⟩
    refine sound_induction (P := fun items d => Gathered d.words items)
      (Q := fun ps _ => Pattern.allIntegral ps = true → Pattern.Items ps)
      (keeps_itemStep hgroup.keeps enclosing) ?_ ?_ hc (gathered_nil _) h
    · intro items d items' d' hd hitems hstep
      exact gathered_of_itemStep hgroup hd hitems hstep
    · intro items d ps d' hd hitems hstep hint
      obtain ⟨hdone, -⟩ | ⟨dot, p, -, -, hnext⟩ | ⟨_, last, others, p, -, -, -, -, hnext⟩ |
        ⟨atom, e, p, -, -, -, hnext⟩ := itemStep_cases hstep
      · obtain rfl := Sum.inr.inj hdone
        exact hitems.listed (by rwa [Pattern.allIntegral_reverse] at hint)
      · exact absurd hnext (by simp)
      · exact absurd hnext (by simp)
      · exact absurd hnext (by simp)

/-- Reading a text runs through its words. -/
theorem runs_of_parse {transforms : Registry Transform} {text : String} {p : Pattern}
    (h : parse transforms text = .ok p) :
    ∃ ts, tokenize text = .ok ts ∧
      Runs (pattern transforms) (Cursor.start ts) p (parseTokens transforms ts).2 := by
  unfold parse at h
  rcases htokens : tokenize text with e | ts
  · simp only [htokens] at h
    exact absurd h (by simp)
  simp only [htokens] at h
  rcases hresult : (parseTokens transforms ts).1 with e | q
  · simp only [hresult] at h
    exact absurd h (by simp)
  simp only [hresult] at h
  obtain rfl := Except.ok.inj h
  exact ⟨ts, rfl, Prod.ext hresult rfl⟩

end Parser

namespace Pattern

open Ostinato.Parser

/-- A pattern of a text with integers for numbers is canonical. -/
theorem canonical_of_parse {text : String} {p : Pattern}
    (h : parse Transform.builtin text = .ok p) (hint : p.isIntegral = true) : p.Canonical := by
  obtain ⟨ts, htokens, hrun⟩ := runs_of_parse h
  have hstart : (Cursor.start ts).Sound := ⟨rfl, Word.plain_of_tokenize htokens⟩
  obtain ⟨ps, d, hitems, hrun⟩ := runs_bind.mp hrun
  obtain ⟨rfl, -⟩ := runs_pure.mp hrun
  replace hitems := runs_ahead_bind.mp hitems
  exact .sequence (items_of_itemsWithin hstart hitems hint)

/-- **Canonical text.**  The canonical patterns are those that texts stand for
with integers for numbers, and the canonical text of each stands for it. -/
theorem canonical_iff_parse (p : Pattern) :
    (p.Canonical ↔ p.isIntegral = true ∧ ∃ text, parse Transform.builtin text = .ok p) ∧
      (p.Canonical → parse Transform.builtin p.canonicalText = .ok p) := by
  refine ⟨⟨fun h => ?_, fun ⟨hint, text, htext⟩ => canonical_of_parse htext hint⟩,
    fun h => h.parse_canonicalText⟩
  exact ⟨h.isIntegral, p.canonicalText, h.parse_canonicalText⟩

/-- A transform with another one for its last operand, suffixes on both sides of
it, and a group behind it. -/
theorem canonical_iff_parse_every :
    parse Transform.builtin "[ - 1 \"bd\" / 8 : 3 : - 2 ] . every 2 fast 3 ~ - 1 2 < 7 % 4 >" =
      .ok (.sequence [
        .modulation (.transform (.sequence [.leaf (.int (-1)),
          .euclidean 8 3 (-2) (.leaf (.text "bd"))]) "every" [.int 2, .call "fast" [.int 3]])
          (.int (-1)) (.int 2),
        .parallel [.operation (.leaf (.int 7)) "%" (.int 4)]]) := by
  have hrange : ∀ n ∈ [-2, -1, 2, 3, 4, 7, 8], InRange n := by decide +kernel
  have hfast : CallForm "fast" ([3].map Value.int) :=
    .plain (t := ⟨.fast, 1, 1, false, some .factor⟩) (by simp [Transform.builtin]) rfl (by decide)
      (by decide) (by simp [hrange]) (by rintro check ⟨⟩; rfl)
  have hevery : CallForm "every" ([2].map Value.int ++ [.call "fast" ([3].map Value.int)]) :=
    .nested (t := ⟨.every, 1, 1, true, some (.count "every period")⟩) (by simp [Transform.builtin])
      rfl (by decide) (by decide) (by simp [hrange]) hfast (by rintro check ⟨⟩; rfl)
  have hrhythm : Item (.euclidean 8 3 (-2) (.leaf (.text "bd"))) :=
    .euclidean (by decide) (by decide) (hrange 8 (by decide)) (hrange 3 (by decide))
      (hrange (-2) (by decide)) (.text (by decide))
  have hgroup : Items [.leaf (.int (-1)), .euclidean 8 3 (-2) (.leaf (.text "bd"))] :=
    .cons (.integer (hrange (-1) (by decide))) (List.forall_mem_singleton.mpr hrhythm)
      (by simp [base, isFrontOnly]) (by simp [isTransform])
  have hfront : Item (.modulation (.transform (.sequence [.leaf (.int (-1)),
      .euclidean 8 3 (-2) (.leaf (.text "bd"))]) "every" [.int 2, .call "fast" [.int 3]])
      (.int (-1)) (.int 2)) :=
    .modulation (hrange (-1) (by decide)) (hrange 2 (by decide))
      (.transform (.sequence hgroup) hevery)
  have hremainder : Item (.operation (.leaf (.int 7)) Operator.modulo.sign (.int 4)) :=
    .operation (by decide) (hrange 4 (by decide)) (by decide) (by decide)
      (.integer (hrange 7 (by decide)))
  have hother : Item (.parallel [.operation (.leaf (.int 7)) "%" (.int 4)]) :=
    .parallel (.cons hremainder (by simp) (by simp) (by simp))
  have hcanonical : Canonical _ := .sequence (.cons hfront (List.forall_mem_singleton.mpr hother)
    (by simp [base, isFrontOnly]) (by simp [isTransform]))
  refine (congrArg (parse Transform.builtin) ?_).trans ((canonical_iff_parse _).2 hcanonical)
  decide +kernel

end Pattern

end Ostinato
