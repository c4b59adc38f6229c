import Ostinato.Notation.Parser

/-!
# Ostinato.Proofs.Notation.Runs

Readers that give a result, and where they end.

`Parser.Runs p c a c'` says that a reader started at `c` gives `a` and ends at
`c'`.  What a compound reader does follows from what its parts do: there is one
equivalence for each way to build a reader and for each primitive one.
-/

namespace Ostinato

namespace Cursor

/-- The place after the next word. -/
def next (c : Cursor) : Cursor :=
  { c with passed := c.ahead.head?.toList ++ c.passed, ahead := c.ahead.tail }

@[simp] theorem next_ahead (c : Cursor) : c.next.ahead = c.ahead.tail := rfl

end Cursor

namespace Parser

variable {α β : Type} {p : Parser α} {f : α → Parser β} {c c' c'' : Cursor} {a : α} {b : β}

/-- A reader gives a result and ends at a place. -/
def Runs (p : Parser α) (c : Cursor) (a : α) (c' : Cursor) : Prop := p.run.run c = (.ok a, c')

/-- Of two readers in a row, the second starts where the first one ended. -/
theorem run_bind :
    (p >>= f).run.run c = (ExceptT.bindCont f (p.run.run c).1).run (p.run.run c).2 := rfl

/-! ## Building readers -/

@[simp] theorem runs_pure {b : α} : Runs (pure a) c b c' ↔ a = b ∧ c = c' := by
  show (Except.ok a, c) = (Except.ok b, c') ↔ _
  simp

/-- Two readers in a row give a result if the first gives one and the second goes on
from it. -/
@[simp] theorem runs_bind :
    Runs (p >>= f) c b c'' ↔ ∃ a c', Runs p c a c' ∧ Runs (f a) c' b c'' := by
  unfold Runs
  rw [run_bind]
  rcases p.run.run c with ⟨e | a, d⟩
  · refine iff_of_false (fun h => ?_) (fun h => ?_)
    · exact absurd (congrArg Prod.fst h) (by nofun)
    · obtain ⟨_, _, h, _⟩ := h
      exact absurd (congrArg Prod.fst h) (by nofun)
  · constructor
    · exact fun h => ⟨a, d, rfl, h⟩
    · rintro ⟨_, _, h, hf⟩
      obtain ⟨hok, rfl⟩ := Prod.mk.inj h
      obtain rfl := Except.ok.inj hok
      exact hf

/-- A reader under a function gives the function of what it gives. -/
@[simp] theorem runs_map {g : α → β} :
    Runs (g <$> p) c b c' ↔ ∃ a, Runs p c a c' ∧ g a = b := by
  rw [← bind_pure_comp, runs_bind]
  simp only [runs_pure]
  constructor
  · rintro ⟨a, d, h, rfl, rfl⟩
    exact ⟨a, h, rfl⟩
  · rintro ⟨a, h, rfl⟩
    exact ⟨a, c', h, rfl, rfl⟩

@[simp] theorem runs_throw {e : ParseError} : ¬Runs (throw e : Parser α) c a c' := by
  intro h
  exact absurd (congrArg Prod.fst h) (by nofun)

/-! ## Primitive readers -/

@[simp] theorem runs_get {d : Cursor} : Runs get c d c' ↔ c = d ∧ c = c' := by
  show (Except.ok c, c) = (Except.ok d, c') ↔ _
  simp

@[simp] theorem runs_modify {g : Cursor → Cursor} {u : PUnit} :
    Runs (modify g) c u c' ↔ g c = c' := by
  show (Except.ok PUnit.unit, g c) = (Except.ok u, c') ↔ _
  simp

@[simp] theorem runs_ahead {ts : List Token} : Runs ahead c ts c' ↔ c.ahead = ts ∧ c = c' := by
  show (Except.ok c.ahead, c) = (Except.ok ts, c') ↔ _
  simp

@[simp] theorem runs_peek {t : Option Token} : Runs peek c t c' ↔ c.ahead.head? = t ∧ c = c' := by
  show (Except.ok c.ahead.head?, c) = (Except.ok t, c') ↔ _
  simp

/-- Passing a word gives that word and ends behind it. -/
@[simp] theorem runs_advance {t : Token} :
    Runs advance c t c' ↔ c.ahead.head? = some t ∧ c.next = c' := by
  rcases c with ⟨passed, _ | ⟨u, us⟩, depth, modulations⟩
  · refine iff_of_false (fun h => ?_) (by simp)
    exact absurd (congrArg Prod.fst h) (by nofun)
  · show (Except.ok u, Cursor.mk (u :: passed) us depth modulations) = (Except.ok t, c') ↔ _
    simp [Cursor.next]

@[simp] theorem runs_atNumber {b : Bool} :
    Runs atNumber c b c' ↔ startsNumber c.ahead = b ∧ c = c' := by
  show (Except.ok (startsNumber c.ahead), c) = (Except.ok b, c') ↔ _
  simp

@[simp] theorem runs_spelled {t : Token} {x : Number} :
    Runs (spelled t) c x c' ↔ Number.ofText t.text = .ok x ∧ c = c' := by
  unfold spelled
  rcases Number.ofText t.text with e | y <;> simp

/-! ### In front of others -/

theorem runs_ahead_bind {f : List Token → Parser β} :
    Runs (ahead >>= f) c b c' ↔ Runs (f c.ahead) c b c' := by
  simp [and_assoc]

theorem runs_peek_bind {f : Option Token → Parser β} :
    Runs (peek >>= f) c b c' ↔ Runs (f c.ahead.head?) c b c' := by
  simp [and_assoc]

theorem runs_atNumber_bind {f : Bool → Parser β} :
    Runs (atNumber >>= f) c b c' ↔ Runs (f (startsNumber c.ahead)) c b c' := by
  rw [runs_bind]
  simp only [runs_atNumber, and_assoc, exists_eq_left', exists_and_left]

theorem runs_advance_bind {f : Token → Parser β} :
    Runs (advance >>= f) c b c' ↔ ∃ t, c.ahead.head? = some t ∧ Runs (f t) c.next b c' := by
  simp [and_assoc]

theorem runs_spelled_bind {t : Token} {f : Number → Parser β} :
    Runs (spelled t >>= f) c b c' ↔ ∃ x, Number.ofText t.text = .ok x ∧ Runs (f x) c b c' := by
  simp [and_assoc]

/-! ## Modulations -/

/-- Inside one more modulation a reader is run with the count raised and lowered
again. -/
theorem run_deeper : (deeper p).run.run c =
    ((p.run.run { c with depth := c.depth + 1 }).1,
      { (p.run.run { c with depth := c.depth + 1 }).2 with
        depth := (p.run.run { c with depth := c.depth + 1 }).2.depth - 1 }) := rfl

/-- Its result is that of the reader, at a place with the count as before. -/
@[simp] theorem runs_deeper : Runs (deeper p) c a c' ↔
    ∃ d, Runs p { c with depth := c.depth + 1 } a d ∧ { d with depth := d.depth - 1 } = c' := by
  unfold Runs
  rw [run_deeper]
  rcases p.run.run { c with depth := c.depth + 1 } with ⟨r, d⟩
  constructor
  · intro h
    obtain ⟨rfl, rfl⟩ := Prod.mk.inj h
    exact ⟨d, rfl, rfl⟩
  · rintro ⟨e, h, rfl⟩
    obtain ⟨rfl, rfl⟩ := Prod.mk.inj h
    rfl

/-! ## Numbers -/

/-- A minus sign comes next, and it belongs to a number. -/
def isSign (isSigned : Bool) (c : Cursor) : Bool :=
  c.ahead.head?.any (·.kind == .minus) && (isSigned || 0 < c.depth)

/-- A minus sign is one of a number if signs are asked for, or inside of modulations. -/
theorem isSign_iff {isSigned : Bool} : isSign isSigned c = true ↔
    (∃ t, c.ahead.head? = some t ∧ t.kind = .minus) ∧ (isSigned = true ∨ 0 < c.depth) := by
  unfold isSign
  rw [Bool.and_eq_true, Bool.or_eq_true, decide_eq_true_iff, Option.any_eq_true]
  simp only [beq_iff_eq]

/-- A sign is passed if and only if it comes next and belongs to a number. -/
theorem runs_takeSign {isSigned negative : Bool} : Runs (takeSign isSigned) c negative c' ↔
    isSign isSigned c = negative ∧ (if isSign isSigned c then c.next else c) = c' := by
  have hrun : takeSign isSigned = get >>= fun c =>
      if isSign isSigned c then advance >>= fun _ => pure true else pure false := rfl
  rw [hrun, runs_bind]
  simp only [runs_get, and_assoc, exists_eq_left', exists_and_left]
  by_cases hsign : isSign isSigned c = true
  · obtain ⟨⟨t, ht, -⟩, -⟩ := isSign_iff.mp hsign
    simp [hsign, ht, and_comm]
  · simp [hsign]

/-- A number is read from one word, after its sign if it has one. -/
theorem runs_expectNumber {after : Token} {isSigned : Bool} {x : Number} :
    Runs (expectNumber after isSigned) c x c' ↔ ∃ t y,
      (if isSign isSigned c then c.next else c).ahead.head? = some t ∧ t.kind = .number ∧
      Number.ofText t.text = .ok y ∧ (if isSign isSigned c then y.negate else y) = x ∧
      (if isSign isSigned c then c.next else c).next = c' := by
  unfold expectNumber
  simp only [runs_bind, runs_takeSign, runs_peek]
  constructor
  · rintro ⟨_, _, ⟨rfl, rfl⟩, _, _, ⟨rfl, rfl⟩, h⟩
    rcases hhead : (if isSign isSigned c then c.next else c).ahead.head? with _ | t
    · simp [hhead] at h
    · simp only [hhead] at h
      by_cases hkind : t.kind = .number
      · simp only [hkind, beq_self_eq_true, if_true, runs_bind, runs_advance, runs_spelled,
          runs_pure] at h
        obtain ⟨_, _, ⟨-, rfl⟩, y, _, ⟨hy, rfl⟩, hx, hend⟩ := h
        exact ⟨t, y, rfl, hkind, hy, hx, hend⟩
      · simp [hkind] at h
  · rintro ⟨t, y, hhead, hkind, hy, hx, hend⟩
    refine ⟨_, _, ⟨rfl, rfl⟩, _, _, ⟨rfl, rfl⟩, ?_⟩
    simp only [hhead, hkind, beq_self_eq_true, if_true, runs_bind, runs_advance, runs_spelled,
      runs_pure]
    exact ⟨t, _, ⟨rfl, rfl⟩, y, _, ⟨hy, rfl⟩, hx, hend⟩

/-! ## Repetition -/

/-- A repetition that may take one more step goes on after it, or ends with it. -/
theorem runs_loop_succ {step : α → Parser (α ⊕ β)} {limit : Nat} :
    Runs (loop step (limit + 1) a) c b c'' ↔
      (∃ a' c', Runs (step a) c (.inl a') c' ∧ Runs (loop step limit a') c' b c'') ∨
      Runs (step a) c (.inr b) c'' := by
  rw [loop, runs_bind]
  constructor
  · rintro ⟨a' | b', c', hstep, h⟩
    · exact .inl ⟨a', c', hstep, h⟩
    · obtain ⟨rfl, rfl⟩ := runs_pure.mp h
      exact .inr hstep
  · rintro (⟨a', c', hstep, h⟩ | h)
    · exact ⟨.inl a', c', hstep, h⟩
    · exact ⟨.inr b, c'', h, runs_pure.mpr ⟨rfl, rfl⟩⟩

/-- What every step keeps holds at the end of the repetition. -/
theorem loop_induction {step : α → Parser (α ⊕ β)} {P : α → Cursor → Prop}
    {Q : β → Cursor → Prop}
    (next : ∀ a c a' c', P a c → Runs (step a) c (.inl a') c' → P a' c')
    (done : ∀ a c b c', P a c → Runs (step a) c (.inr b) c' → Q b c') {limit : Nat}
    (start : P a c) (h : Runs (loop step limit a) c b c') : Q b c' := by
  induction limit generalizing a c with
  | zero => exact absurd h runs_throw
  | succ limit ih =>
    rcases runs_loop_succ.mp h with ⟨a', d, hstep, hrest⟩ | hstep
    · exact ih (next a c a' d start hstep) hrest
    · exact done a c b c' start hstep

/-- What every step keeps holds at the end of a repetition until there is a result. -/
theorem repeatUntil_induction {step : α → Parser (α ⊕ β)} {P : α → Cursor → Prop}
    {Q : β → Cursor → Prop}
    (next : ∀ a c a' c', P a c → Runs (step a) c (.inl a') c' → P a' c')
    (done : ∀ a c b c', P a c → Runs (step a) c (.inr b) c' → Q b c')
    (start : P a c) (h : Runs (repeatUntil step a) c b c') : Q b c' :=
  loop_induction next done start (runs_ahead_bind.mp h)

/-- More steps than needed do no harm. -/
theorem loop_mono {step : α → Parser (α ⊕ β)} {limit limit' : Nat} (hle : limit ≤ limit')
    (h : Runs (loop step limit a) c b c') : Runs (loop step limit' a) c b c' := by
  induction limit generalizing a c limit' with
  | zero => exact absurd h runs_throw
  | succ limit ih =>
    obtain ⟨k, rfl⟩ := Nat.exists_eq_add_of_le' (Nat.lt_of_lt_of_le (Nat.succ_pos limit) hle)
    rcases runs_loop_succ.mp h with ⟨a', d, hstep, hrest⟩ | hstep
    · exact runs_loop_succ.mpr (.inl ⟨a', d, hstep, ih (Nat.le_of_succ_le_succ hle) hrest⟩)
    · exact runs_loop_succ.mpr (.inr hstep)

/-! ## Calls -/

/-- A refusal in front of a reader is passed only if there is no reason for
it. -/
theorem runs_guard {P : Prop} [Decidable P] {e : ParseError} {q : Unit → Parser α} :
    Runs (if P then throw e >>= q else q ()) c a c' ↔ ¬P ∧ Runs (q ()) c a c' := by
  by_cases h : P
  · rw [if_pos h, runs_bind]
    refine iff_of_false ?_ (fun hc => hc.1 h)
    rintro ⟨_, _, hthrow, _⟩
    exact runs_throw hthrow
  · rw [if_neg h]
    exact ⟨fun hrun => ⟨h, hrun⟩, fun hrun => hrun.2⟩

/-- What follows the operands of a transform: the call it requires, or nothing
that it would take, and the check. -/
def callEnd (transforms : Registry Transform) (limit : Nat) (t : Transform) (name : String)
    (token : Token) (operands : List Value) : Parser (String × List Value) :=
  if t.nested then
    callWithin transforms limit token >>= fun call =>
      checkOperands t name token (operands ++ [.call call.1 call.2]) >>= fun _ =>
        pure (name, operands ++ [.call call.1 call.2])
  else
    refuseExtra name >>= fun _ =>
      checkOperands t name token operands >>= fun _ => pure (name, operands)

/-- A call is its name, which is known, its operands, and what ends it. -/
theorem runs_callWithin_succ {transforms : Registry Transform} {limit : Nat} {after : Token}
    {r : String × List Value} :
    Runs (callWithin transforms (limit + 1) after) c r c' ↔
      ∃ token t operands d, c.ahead.head? = some token ∧ token.kind = .symbol ∧
        transforms.get? (Unicode.lowercase token.text) = some t ∧
        Runs (repeatUntil (operandStep t token) []) c.next operands d ∧
        t.fewest ≤ operands.length ∧
        Runs (callEnd transforms limit t (Unicode.lowercase token.text) token operands) d r c' := by
  rw [callWithin, runs_peek_bind]
  constructor
  · intro h
    rcases hhead : c.ahead.head? with _ | token
    · simp [hhead] at h
    · simp only [hhead] at h
      obtain ⟨hkind, h⟩ := runs_guard.mp h
      obtain ⟨_, -, h⟩ := runs_advance_bind.mp h
      rcases hget : transforms.get? (Unicode.lowercase token.text) with _ | t
      · simp [hget] at h
      · simp only [hget] at h
        obtain ⟨operands, d, hoperands, h⟩ := runs_bind.mp h
        obtain ⟨hfewest, h⟩ := runs_guard.mp h
        exact ⟨token, t, operands, d, rfl, by simpa using hkind, hget, hoperands, by omega, h⟩
  · rintro ⟨token, t, operands, d, hhead, hkind, hget, hoperands, hfewest, h⟩
    simp only [hhead]
    refine runs_guard.mpr ⟨by simp [hkind], runs_advance_bind.mpr ⟨token, hhead, ?_⟩⟩
    simp only [hget]
    exact runs_bind.mpr ⟨operands, d, hoperands, runs_guard.mpr ⟨by omega, h⟩⟩

end Parser

end Ostinato
