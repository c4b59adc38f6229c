import Ostinato.Proofs.Rendering.Gathering
import Ostinato.Proofs.Rendering.Periods

/-!
# Ostinato.Proofs.Rendering.Unrolling

Repeating and writing out.

Groups, rhythms and arithmetic look at no cycle, nor do most transforms; a whole
number of cycles in the time of one takes them all.  A pattern made of these is
steady (`Pattern.Steady`): from the same state of the draws it plays the same in
every cycle.  So playing it `k` times as fast is playing a group of `k` copies of
it, which draw one after the other (`Performance.query_unrolled`).
-/

namespace Ostinato

variable {σ : Type} {known : Registry Transform}

/-! ## Steady patterns -/

/-- Calls that do the same in every cycle to what is the same in every cycle. -/
inductive SteadyCall (known : Registry Transform) : String → List Value → Prop
  | plain {name : String} {action : Action} (acts : known.Acts name action)
      (plain : action ∈ [.rev, .palindrome, .chop, .degrade]) (operands : List Value) :
      SteadyCall known name operands
  | fast {name : String} (acts : known.Acts name .fast) {operand : Value} {k : Nat}
      (whole : operand.toTime = .ok (k : Rat)) (rest : List Value) :
      SteadyCall known name (operand :: rest)
  | sometimes {name inner : String} (acts : known.Acts name .sometimes) {args : List Value}
      (call : SteadyCall known inner args) (operands : List Value) :
      SteadyCall known name (operands ++ [.call inner args])

/-- Patterns in which nothing depends on the cycle. -/
inductive Pattern.Steady (known : Registry Transform) : Pattern → Prop
  | leaf (value : Value) : Steady known (.leaf value)
  | sequence {ps : List Pattern} (children : ∀ p ∈ ps, Steady known p) :
      Steady known (.sequence ps)
  | transform {p : Pattern} {name : String} {operands : List Value} (child : Steady known p)
      (call : SteadyCall known name operands) : Steady known (.transform p name operands)
  | euclidean {p : Pattern} (steps pulses rotation : Int) (child : Steady known p) :
      Steady known (.euclidean steps pulses rotation p)
  | operation {p : Pattern} {op : Operator} (child : Steady known p) (calculates : op ≠ .times)
      (operand : Value) : Steady known (.operation p op.sign operand)

/-! ## Periods of one cycle -/

namespace Value

/-- The period of a name that stands for an action is that of the action. -/
theorem namedPeriod_acts {name : String} {action : Action} (h : known.Acts name action)
    (operands : List Value) (last : Nat → Nat) (n : Nat) :
    namedPeriod known name operands last n = action.period operands last n := by
  obtain ⟨t, hname, rfl⟩ := h
  rw [namedPeriod, hname]

/-- The period of the last operand is that of the one that was added last. -/
theorem lastPeriod_concat (known : Registry Transform) (operands : List Value) (v : Value)
    (n : Nat) : lastPeriod known (operands ++ [v]) n = v.calledPeriod known n := by
  induction operands with
  | nil => rw [List.nil_append, lastPeriod]
  | cons w rest ih =>
    cases rest with
    | nil => simp only [List.cons_append, List.nil_append, lastPeriod]
    | cons u us => simpa only [List.cons_append, lastPeriod] using ih

end Value

/-- A call that does the same in every cycle has no longer period than its
subject. -/
theorem SteadyCall.period {name : String} {operands : List Value}
    (h : SteadyCall known name operands) :
    Value.namedPeriod known name operands (Value.lastPeriod known operands) 1 = 1 := by
  induction h with
  | plain acts hplain operands =>
    rw [Value.namedPeriod_acts acts]
    fin_cases hplain <;> rfl
  | @fast name acts operand k whole rest =>
    have hfactor : Action.factor (operand :: rest) = k := Setting.factor_eq rfl whole
    rw [Value.namedPeriod_acts acts, Action.period, hfactor, Rat.den_natCast]
  | sometimes acts call operands ih =>
    rw [Value.namedPeriod_acts acts, Action.period, Value.lastPeriod_concat, Value.calledPeriod, ih,
      Nat.lcm_self]

namespace Rendering

/-- What returns after one cycle is the same in all. -/
theorem Recurs.eq_of_one {r : Rendering σ} (h : Recurs r 1) (cycle cycle' : Int) :
    r cycle = r cycle' := by
  have hzero : ∀ c, r c = r 0 := fun c => by simpa using h.int_mul_eq c
  rw [hzero cycle, hzero cycle']

/-- What is the same in all cycles plays, some number of times as fast, as a group
of as many copies of it. -/
theorem repeated_natCast_eq_sequence {r : Rendering σ} (hr : Confined r) (hsame : Recurs r 1)
    {k : Nat} (hk : 0 < k) (cycle : Int) {span : Span} (pos : span.start < span.stop) :
    repeated k r cycle span = sequence (List.replicate k r) cycle span := by
  have hne : List.replicate k r ≠ [] := by simpa using hk.ne'
  have hcopies : repeated (List.replicate k r).length r cycle span =
      sequence (List.replicate k r) cycle span := by
    refine repeated_eq_sequence hr hne pos fun i hi => ?_
    rw [List.getElem_replicate]
    exact hsame.eq_of_one _ _
  rwa [List.length_replicate] at hcopies

end Rendering

namespace Pattern

/-- A steady pattern plays the same in every cycle, from the same state of the
draws. -/
theorem Steady.recurs {s : Setting σ} {p : Pattern} (h : p.Steady s.transforms) :
    Rendering.Recurs (p.render s) 1 := by
  induction h with
  | leaf value => exact Rendering.recurs_of_eq (fun _ _ => rfl) 1
  | @sequence ps children ih =>
    refine Rendering.recurs_sequence fun r hr => ?_
    rw [renderAll_eq_map, List.mem_map] at hr
    obtain ⟨p, hp, rfl⟩ := hr
    exact ih p hp
  | @transform p name operands child call ih =>
    have hlast := Setting.recurs_lastCalled (s := s) ih operands
    exact call.period ▸ Setting.recurs_applyNamed name operands ih hlast
  | euclidean steps pulses rotation child ih =>
    exact Rendering.recurs_euclidean steps pulses rotation ih
  | @operation p op child calculates operand ih =>
    rw [render_operation calculates]
    exact Rendering.recurs_calculated op operand ih

/-- Copies of a pattern are rendered as copies of its rendering. -/
theorem render_replicate (s : Setting σ) (k : Nat) (p : Pattern) :
    (sequence (List.replicate k p)).render s =
      Rendering.sequence (List.replicate k (p.render s)) := by
  rw [render, renderAll_eq_map, List.map_replicate]

end Pattern

/-! ## Queries -/

namespace Performance

/-- **Unrolling**: a steady pattern, played `k` times as fast, is found as a group
of `k` copies of it is: with the same events from the same draws, or with the same
fault.  So is a star with `k` after it, unless it is a leaf with a number. -/
theorem query_unrolled {perf : Performance} (hfast : perf.transforms.Acts "fast" .fast)
    {x : Pattern} (hx : x.Steady perf.transforms) {k : Nat} (hk : 0 < k) {operand : Value}
    (hoperand : operand.toTime = .ok (k : Rat)) (cycle : Int) (arc : Option Arc) :
    perf.query (.transform x "fast" [operand]) cycle arc =
      perf.query (.sequence (List.replicate k x)) cycle arc ∧
    (x.isNumberLeaf = false →
      perf.query (.operation x Operator.times.sign operand) cycle arc =
        perf.query (.sequence (List.replicate k x)) cycle arc) := by
  have hcopies : ∀ policy, Rendering.repeated k (x.render (perf.setting policy)) cycle Span.cycle =
      (Pattern.sequence (List.replicate k x)).render (perf.setting policy) cycle Span.cycle := by
    intro policy
    rw [Pattern.render_replicate]
    exact Rendering.repeated_natCast_eq_sequence (x.confined_render _) (Pattern.Steady.recurs hx) hk
      cycle (by decide)
  constructor
  · refine query_congr (fun policy _ => ?_) arc
    rw [Pattern.render_fast hfast hoperand, hcopies]
  · intro hleaf
    refine query_congr (fun policy _ => ?_) arc
    rw [Pattern.render_times hleaf hoperand, hcopies]

/-- Three times as fast: two names, of which the second is thinned, that may or
may not be cut and played backwards, under arithmetic. -/
theorem query_unrolled_three :
    let phrase := Pattern.sequence [.leaf (.text "a"), .transform (.leaf (.int 4)) "degrade" []]
    let varied := Pattern.transform phrase "sometimes" [.call "chop" [.int 2]]
    let x := Pattern.operation (.transform varied "rev" []) Operator.plus.sign (.int 1)
    default.query (.transform x "fast" [.int 3]) 5 none =
      default.query (.sequence [x, x, x]) 5 none ∧
    default.query (.operation x "*" (.int 3)) 5 none =
      default.query (.sequence [x, x, x]) 5 none := by
  intro phrase varied x
  have hphrase : phrase.Steady default.transforms := by
    refine .sequence fun p hp => ?_
    rw [List.mem_cons, List.mem_singleton] at hp
    rcases hp with rfl | rfl
    · exact .leaf _
    · exact .transform (.leaf _) (.plain ⟨_, rfl, rfl⟩ (by decide) _)
  have hvaried : varied.Steady default.transforms :=
    .transform hphrase (.sometimes ⟨_, rfl, rfl⟩ (.plain ⟨_, rfl, rfl⟩ (by decide) _) [])
  have hx : x.Steady default.transforms :=
    .operation (.transform hvaried (.plain ⟨_, rfl, rfl⟩ (by decide) _)) (by decide) _
  have hfast : default.transforms.Acts "fast" .fast := ⟨_, rfl, rfl⟩
  have hoperand : (Value.int 3).toTime = .ok ((3 : Nat) : Rat) := rfl
  have hcopies := query_unrolled hfast hx (by decide) hoperand 5 none
  exact ⟨hcopies.1, hcopies.2 rfl⟩

end Performance

end Ostinato
