import Ostinato.Proofs.Rendering.Row

/-!
# Ostinato.Proofs.Rendering.Tiling

Patterns without gaps.

Rhythms, empty groups and dropped events leave gaps, and so does a repetition
that shows nothing.  A pattern that uses none of these (`Pattern.Gapless`) tiles
the span that it fills: its first event begins where the span begins, each event
ends where the next begins, and the last ends where the span ends
(`Pattern.tiles_render`).  Waves are left out as well, since they move events
over one another.

Only what is applied has to leave no gaps: a conditional transform asks it of the
call that ends its operands, other transforms do not look at that operand.
-/

namespace Ostinato

/-! ## Patterns without gaps -/

/-- The actions that decide between a subject and a transform of it. -/
def Action.isConditional : Action → Bool
  | .every | .when | .sometimes => true
  | _ => false

/-- Whether an action leaves no gaps in a subject that has none. -/
def Action.IsGapless (operands : List Value) : Action → Prop
  | .rev | .palindrome | .every | .when | .sometimes => True
  | .fast | .slow => ∀ v ∈ operands.head?, ∀ factor, v.toTime = .ok factor → 0 < factor
  | .chop => ∀ v ∈ operands.head?, ∀ parts, v.toInt = .ok parts → 1 ≤ parts
  | .degrade => False

/-- Whether the transform under a name, if there is one, leaves no gaps; `last`
tells it of the call that ends the operands. -/
def Registry.GaplessAt (known : Registry Transform) (name : String) (operands : List Value)
    (last : Prop) : Prop :=
  ∀ t, known.get? name = some t →
    t.action.IsGapless operands ∧ (t.action.isConditional = true → last)

/-- What a name asks for is told by the action it stands for. -/
theorem Registry.gaplessAt_of_action {known : Registry Transform} {name : String} (action : Action)
    (haction : (known.get? name).map (·.action) = some action) {operands : List Value} {last : Prop}
    (h : action.IsGapless operands) (hlast : action.isConditional = true → last) :
    known.GaplessAt name operands last := by
  intro t ht
  rw [ht] at haction
  have ha : t.action = action := Option.some.inj haction
  rw [ha]
  exact ⟨h, hlast⟩

mutual

/-- Whether a value, called as a transform, leaves no gaps. -/
def Value.CallsGapless (known : Registry Transform) : Value → Prop
  | .call name operands => known.GaplessAt name operands (Value.LastGapless known operands)
  | .pattern (.transform _ name operands) =>
    known.GaplessAt name operands (Value.LastGapless known operands)
  | _ => True
termination_by structural v => v

/-- Whether the last operand, if there is one, leaves no gaps when it is called. -/
def Value.LastGapless (known : Registry Transform) : List Value → Prop
  | [] => True
  | [v] => v.CallsGapless known
  | _ :: v :: vs => Value.LastGapless known (v :: vs)
termination_by structural vs => vs

end

mutual

/-- Whether a pattern leaves no gaps: groups hold something, repetitions have
factors above zero, and neither rhythms nor waves nor random drops occur. -/
def Pattern.Gapless (known : Registry Transform) : Pattern → Prop
  | .leaf _ => True
  | .sequence children => children ≠ [] ∧ Pattern.AllGapless known children
  | .parallel children => children ≠ [] ∧ Pattern.AllGapless known children
  | .transform child name operands =>
    child.Gapless known ∧ known.GaplessAt name operands (Value.LastGapless known operands)
  | .euclidean .. => False
  | .modulation .. => False
  | .operation child sign operand => child.Gapless known ∧
    (sign = Operator.times.sign → child.isNumberLeaf = false →
      ∀ factor, operand.toTime = .ok factor → 0 < factor)
  | .stray _ => True

/-- Whether all of some patterns leave no gaps. -/
def Pattern.AllGapless (known : Registry Transform) : List Pattern → Prop
  | [] => True
  | p :: ps => p.Gapless known ∧ Pattern.AllGapless known ps

end

/-! ## Transforms -/

variable {σ : Type}

namespace Setting

open Rendering Event

variable {s : Setting σ}

/-- Tiling does not depend on decisions. -/
theorem branching_tiles (s : Setting σ) : s.Branching True (Fills (· = ·)) where
  decided f _ h := fills_decided f fun _ i _ => h i
  drawn _ _ h := fills_drawn s.draw h

/-- An operand taken as the first is the head of the list. -/
theorem mem_head?_of_firstOperand {operands : List Value} {v : Value}
    (h : firstOperand operands = .ok v) : v ∈ operands.head? := by
  cases operands with
  | nil => nomatch h
  | cons w ws => exact congrArg some (Except.ok.inj h)

/-- An action that leaves no gaps fills the span if its subject does and, where it
decides between the two, what the last call makes of it. -/
theorem tiles_act {action : Action} {operands : List Value} (h : action.IsGapless operands)
    {last : Rendering σ → Rendering σ} {subject : Rendering σ}
    (hlast : action.isConditional = true → Fills (· = ·) (last subject))
    (hsubject : Fills (· = ·) subject) : Fills (· = ·) (s.act action operands last subject) := by
  cases action with
  | rev => exact fills_reversed spacing_eq hsubject
  | palindrome => exact fills_palindrome spacing_eq hsubject
  | fast =>
      refine fills_decided (fun _ => firstOperand operands) fun _ v hv =>
        fills_decided (fun _ => v.toTime) fun _ factor hfactor => ?_
      exact fills_repeated spacing_eq (h v (mem_head?_of_firstOperand hv) factor hfactor) hsubject
  | slow =>
      refine fills_decided (fun _ => firstOperand operands) fun _ v hv =>
        fills_decided (fun _ => v.toTime) fun _ factor hfactor => ?_
      have hpos := h v (mem_head?_of_firstOperand hv) factor hfactor
      rw [if_neg (ne_of_gt hpos)]
      exact fills_repeated spacing_eq (one_div_pos.mpr hpos) hsubject
  | degrade => exact h.elim
  | chop =>
      refine fills_decided (fun _ => firstOperand operands) fun _ v hv =>
        fills_decided (fun _ => v.toInt) fun _ parts hparts => ?_
      exact fills_chopped spacing_eq
        (row_pieces spacing_eq (h v (mem_head?_of_firstOperand hv) parts hparts)) hsubject
  | every => exact s.branching_tiles.every operands (hlast rfl) hsubject
  | when => exact s.branching_tiles.when operands (hlast rfl) hsubject
  | sometimes => exact s.branching_tiles.sometimes trivial operands (hlast rfl) hsubject

/-- So does a transform under any name that leaves no gaps. -/
theorem tiles_applyNamed {name : String} {operands : List Value} {lastGapless : Prop}
    (h : s.transforms.GaplessAt name operands lastGapless)
    {last : Rendering σ → Rendering σ} {subject : Rendering σ}
    (hlast : lastGapless → Fills (· = ·) (last subject)) (hsubject : Fills (· = ·) subject) :
    Fills (· = ·) (s.applyNamed name operands last subject) := by
  cases hfound : s.transforms.get? name with
  | none =>
      rw [applyNamed_of_none hfound]
      exact fills_failed _
  | some t =>
      rw [applyNamed_of_some hfound]
      obtain ⟨haction, hcalled⟩ := h t hfound
      exact tiles_act haction (fun hc => hlast (hcalled hc)) hsubject

mutual

/-- What a value without gaps makes of a subject when it is called fills the span. -/
theorem tiles_called {subject : Rendering σ} (hsubject : Fills (· = ·) subject) :
    (v : Value) → v.CallsGapless s.transforms → Fills (· = ·) (s.called v subject)
  | .call _ operands, hv => by
      simp only [Value.CallsGapless] at hv
      exact tiles_applyNamed hv (tiles_lastCalled hsubject operands) hsubject
  | .pattern (.transform _ _ operands), hv => by
      simp only [Value.CallsGapless] at hv
      exact tiles_applyNamed hv (tiles_lastCalled hsubject operands) hsubject
  | .number _, _ | .text _, _ | .flag _, _ | .nothing, _ | .tuple _, _ => fills_failed _
  | .pattern (.leaf _), _ | .pattern (.sequence _), _ | .pattern (.parallel _), _
  | .pattern (.euclidean ..), _ | .pattern (.modulation ..), _ | .pattern (.operation ..), _
  | .pattern (.stray _), _ => fills_failed _

/-- So does what the last operand makes of it. -/
theorem tiles_lastCalled {subject : Rendering σ} (hsubject : Fills (· = ·) subject) :
    (vs : List Value) → Value.LastGapless s.transforms vs →
      Fills (· = ·) (s.lastCalled vs subject)
  | [], _ => fills_failed _
  | [v], hv => by
      simp only [Value.LastGapless] at hv
      exact tiles_called hsubject v hv
  | _ :: v :: vs, hv => by
      simp only [Value.LastGapless] at hv
      exact tiles_lastCalled hsubject (v :: vs) hv

end

/-- Arithmetic fills the span if its subject does; a repetition does so if its
factor is above zero. -/
theorem tiles_operated {onNumber : Bool} {sign : String} {operand : Value}
    (h : sign = Operator.times.sign → onNumber = false →
      ∀ factor, operand.toTime = .ok factor → 0 < factor)
    {subject : Rendering σ} (hsubject : Fills (· = ·) subject) :
    Fills (· = ·) (Rendering.operated onNumber sign operand subject) := by
  cases hrep : sign == Operator.times.sign && !onNumber with
  | true =>
      rw [operated_repeats hrep]
      rw [Bool.and_eq_true, beq_iff_eq, Bool.not_eq_true'] at hrep
      exact fills_decided (fun _ => operand.toTime) fun _ factor hfactor =>
        fills_repeated spacing_eq (h hrep.1 hrep.2 factor hfactor) hsubject
  | false =>
      cases hop : Operator.ofSign? sign with
      | none =>
          rw [operated_fails hrep hop]
          exact fills_failed _
      | some op =>
          rw [operated_calculates hrep hop]
          exact fills_calculated op operand hsubject

end Setting

/-! ## All patterns -/

mutual

/-- A pattern without gaps tiles the spans that it fills. -/
theorem Pattern.tiles_render {s : Setting σ} :
    (p : Pattern) → p.Gapless s.transforms → Rendering.Fills (· = ·) (p.render s)
  | .leaf value, _ => Rendering.fills_leaf Event.spacing_eq value
  | .sequence children, hp =>
      Rendering.fills_sequence Event.spacing_eq
        (fun hempty => absurd (by simpa [Pattern.renderAll_eq_map] using hempty) hp.1)
        (Pattern.tiles_renderAll children hp.2)
  | .parallel children, hp =>
      Rendering.fills_parallel s.choose
        (fun hempty => absurd (by simpa [Pattern.renderAll_eq_map] using hempty) hp.1)
        (Pattern.tiles_renderAll children hp.2)
  | .transform child _ operands, hp =>
      have hchild := child.tiles_render hp.1
      Setting.tiles_applyNamed hp.2 (Setting.tiles_lastCalled hchild operands) hchild
  | .operation child _ _, hp => Setting.tiles_operated hp.2 (child.tiles_render hp.1)
  | .stray value, _ => Rendering.fills_failed (.notAPattern value.shown)

/-- Patterns without gaps tile the spans that they fill. -/
theorem Pattern.tiles_renderAll {s : Setting σ} :
    (ps : List Pattern) → Pattern.AllGapless s.transforms ps →
      ∀ r ∈ Pattern.renderAll s ps, Rendering.Fills (· = ·) r
  | [], _, r, hr => absurd hr List.not_mem_nil
  | p :: ps, hps, r, hr => by
      rw [Pattern.renderAll, List.mem_cons] at hr
      cases hr with
      | inl here => rw [here]; exact p.tiles_render hps.1
      | inr later => exact Pattern.tiles_renderAll ps hps.2 r later

end

/-- **Tiling**: the events that a query finds of a pattern without gaps tile the
cycle in the order of the list: the first begins at zero, each ends where the
next begins, and the last ends at one.  So exactly one is found at any time. -/
theorem Performance.query_tiles {perf : Performance} {p : Pattern}
    (hp : p.Gapless perf.transforms) :
    (∀ (cycle : Int) (events : List Event), perf.query p cycle none = .ok events →
      Event.Row (· = ·) 0 1 events) ∧
    ∀ (time : Value) (t : Rat), time.toTime = .ok t →
      ∀ events, perf.query p t.floor none = .ok events → ∃ e, perf.queryAt p time = .ok [e] := by
  have pos : Span.cycle.start < Span.cycle.stop := by decide
  have htiles : ∀ cycle events, perf.query p cycle none = .ok events →
      Event.Row (· = ·) 0 1 events ∧ ∀ e ∈ events, e.WellCut := by
    intro cycle events h
    obtain ⟨policy, stream, rendered, state', -, -, hrender, hsorted⟩ := rendered_of_query h
    have hfills := p.tiles_render (s := perf.setting policy) hp
    obtain ⟨hrow, hcut⟩ := hfills.row_wellCut cycle pos _ _ _ hrender
    rw [hrow.sortByStart (fun _ _ => le_of_eq) fun e he => (hcut e he).pos] at hsorted
    rw [hsorted]
    exact ⟨hrow, hcut⟩
  constructor
  · intro cycle events h
    exact (htiles cycle events h).1
  · intro time t ht events h
    obtain ⟨hrow, hcut⟩ := htiles t.floor events h
    have hlo : 0 ≤ t - t.floor := sub_nonneg.mpr (Rat.floor_le t)
    have hhi : t - t.floor < 1 := by
      have hfloor := Rat.lt_floor_add_one t
      push_cast at hfloor
      linarith
    obtain ⟨e, he⟩ := hrow.filter_isActiveAt (fun e he => (hcut e he).pos) hlo hhi
    exact ⟨e, Performance.queryAt_eq_ok_iff.mpr ⟨t, events, ht, h, he.symm⟩⟩

/-- A group slowed down by three halves, cut in two, and played forwards and
backwards in every second cycle: eight pieces tile the cycle minus two, though
the group's own events are cut at both its ends, and one piece is found at the
time minus five thirds. -/
theorem Performance.query_tiles_every :
    let p := Pattern.transform (.transform (.transform
      (.sequence [.leaf (.text "a"), .parallel [.leaf (.int 1), .leaf (.text "b")]])
        "slow" [.number (.ratio (3 / 2))]) "chop" [.int 2]) "every"
          [.int 2, .call "palindrome" []]
    let time := Value.number (.ratio (-5 / 3))
    p.Gapless Performance.default.transforms ∧
      (∃ events, Performance.default.query p (-2) none = .ok events ∧
        Event.Row (· = ·) 0 1 events ∧ events.length = 8) ∧
      ∃ e, Performance.default.queryAt p time = .ok [e] := by
  intro p time
  have hfactor : Action.slow.IsGapless [.number (.ratio (3 / 2))] := by
    intro v hv factor hfactor
    rw [← Option.some.inj hv] at hfactor
    rw [← Except.ok.inj hfactor]
    decide +kernel
  have hparts : Action.chop.IsGapless [.int 2] := by
    intro v hv parts hparts
    rw [← Option.some.inj hv] at hparts
    rw [← Except.ok.inj hparts]
    decide
  have hp : p.Gapless Performance.default.transforms := by
    refine ⟨⟨⟨⟨by simp, trivial, ⟨by simp, trivial, trivial, trivial⟩, trivial⟩, ?_⟩, ?_⟩, ?_⟩
    · exact Registry.gaplessAt_of_action .slow (by decide +kernel) hfactor nofun
    · exact Registry.gaplessAt_of_action .chop (by decide +kernel) hparts nofun
    · refine Registry.gaplessAt_of_action .every (by decide +kernel) trivial fun _ => ?_
      simp only [Value.LastGapless, Value.CallsGapless]
      exact Registry.gaplessAt_of_action .palindrome (by decide +kernel) trivial nofun
  have hcount : (Performance.default.query p (-2) none).toOption.map List.length = some 8 := by
    decide +kernel
  obtain ⟨events, h, height⟩ := ok_of_toOption_map hcount
  have htime : time.toTime = .ok (-5 / 3) := rfl
  have hfloor : (-5 / 3 : Rat).floor = -2 := by decide +kernel
  obtain ⟨hrow, hat⟩ := Performance.query_tiles hp
  exact ⟨hp, ⟨events, h, hrow (-2) events h, height⟩,
    hat time (-5 / 3) htime events (by rw [hfloor]; exact h)⟩

end Ostinato
