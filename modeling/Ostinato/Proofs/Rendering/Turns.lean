import Ostinato.Proofs.Rendering.Gathering
import Ostinato.Proofs.Rendering.Periods

/-!
# Ostinato.Proofs.Rendering.Turns

Taking turns and playing one after the other.

Children that take turns, sped up so that each has its turn in one cycle, play
as a sequence of them does (`Rendering.repeated_parallel`).  A sequence slowed
down so that each child has a cycle of its own plays as children do that take
turns (`Rendering.repeated_sequence`); there all children are rendered in each
cycle and all but one left out, so they must not draw.
-/

namespace Ostinato

variable {σ : Type} {s : Setting σ}

namespace Rendering

open Drawing Event

variable {rs : List (Rendering σ)} {span : Span}

/-! ## Whose turn it is -/

/-- Every cycle is in some round the turn of one of `n` children. -/
theorem exists_turn {n : Nat} (hn : 0 < n) (cycle : Int) :
    ∃ (round : Int) (i : Nat), i < n ∧ cycle = round * n + i := by
  have hpos : (0 : Int) < n := by omega
  have hlo := Int.emod_nonneg cycle hpos.ne'
  have hhi := Int.emod_lt_of_pos cycle hpos
  refine ⟨cycle / n, (cycle % n).toNat, by omega, ?_⟩
  rw [Int.toNat_of_nonneg hlo, Int.mul_comm]
  exact (Int.mul_ediv_add_emod cycle n).symm

/-- In each round each child has its turn, and plays the cycle with the number of
the round. -/
theorem parallel_turn (hturns : s.TakesTurns) {i : Nat} (hi : i < rs.length) (round : Int) :
    parallel s.choose rs (round * rs.length + i) = rs[i] round := by
  funext span
  have hne : rs.isEmpty = false := by
    cases rs with
    | nil => exact absurd hi (Nat.not_lt_zero _)
    | cons _ _ => rfl
  have hpos : (0 : Int) < rs.length := by omega
  have hround : (round * rs.length + i).fdiv (rs.length : Int) = round := by
    rw [Int.fdiv_eq_ediv_of_nonneg _ hpos.le, Int.add_comm, Int.add_mul_ediv_right _ _ hpos.ne',
      Int.ediv_eq_zero_of_lt (by omega) (by omega), Int.zero_add]
  have hpick : s.choose (round * rs.length + i) rs.length = .ok i := by
    rw [hturns, Policy.roundRobin, if_neg hpos.ne', Int.fmod_eq_emod_of_nonneg _ hpos.le,
      Int.add_comm, Int.add_mul_emod_self_right, Int.emod_eq_of_lt (by omega) (by omega)]
  have hindex : ((i : Int).emod rs.length).toNat = i := by
    have hmod : (i : Int).emod rs.length = i := Int.emod_eq_of_lt (by omega) (by omega)
    rw [hmod, Int.toNat_natCast]
  simp only [parallel, hne, Bool.false_eq_true, if_false, hpick, hround, Drawing.lift_ok_bind,
    hindex, List.getD_eq_getElem?_getD, List.getElem?_eq_getElem hi, Option.getD_some]

/-! ## Children that take turns, sped up -/

/-- Children that take turns, played as many times as fast, play as a sequence of
them. -/
theorem repeated_parallel (hturns : s.TakesTurns) (hne : rs ≠ []) (hr : ∀ r ∈ rs, Confined r)
    (cycle : Int) (pos : span.start < span.stop) :
    repeated rs.length (parallel s.choose rs) cycle span = sequence rs cycle span :=
  repeated_eq_sequence (confined_parallel s.choose hr) hne pos fun _ hi =>
    parallel_turn hturns hi cycle

/-! ## A sequence slowed down -/

/-- The numbers of renderings as the cycles of one that plays a round of each. -/
def member (rs : List (Rendering σ)) (round : Int) : Rendering σ := fun c span =>
  rs.getD c.toNat (fun _ _ => pure []) round span

/-- Of the cycles of a round, each is one child's. -/
theorem member_natCast {i : Nat} (hi : i < rs.length) (round : Int) :
    member rs round i = rs[i] round := by
  funext span
  simp only [member, Int.toNat_natCast, List.getD_eq_getElem?_getD, List.getElem?_eq_getElem hi,
    Option.getD_some]

/-- A cycle of a round is silent or one child's. -/
theorem member_cases (rs : List (Rendering σ)) (round c : Int) (span : Span) :
    member rs round c span = pure [] ∨ ∃ r ∈ rs, member rs round c span = r round span := by
  unfold member
  rw [List.getD_eq_getElem?_getD]
  cases hr : rs[c.toNat]? with
  | none => exact .inl rfl
  | some r => exact .inr ⟨r, List.mem_of_getElem? hr, rfl⟩

/-- A round keeps to its spans if its children do. -/
theorem confined_member (hr : ∀ r ∈ rs, Confined r) (round : Int) : Confined (member rs round) := by
  intro c span
  obtain hnone | ⟨r, hmem, hsome⟩ := member_cases rs round c span
  · rw [hnone]
    exact ensures_pure (List.forall_mem_nil _)
  · rw [hsome]
    exact hr r hmem round span

/-- A round does not draw if its children do not. -/
theorem fixed_member (hr : ∀ r ∈ rs, ∀ cycle span, (r cycle span).Fixed) (round c : Int)
    (span : Span) : (member rs round c span).Fixed := by
  obtain hnone | ⟨r, hmem, hsome⟩ := member_cases rs round c span
  · rw [hnone]
    exact fixed_pure []
  · rw [hsome]
    exact hr r hmem round span

/-- The span of the `i`-th turn of a round shows of a sequence that lasts the
round what it would show of its members, one in a cycle. -/
theorem shown_sequence (hne : rs ≠ []) (round : Int) (i : Nat) (span : Span) :
    shown (1 / rs.length) (sequence rs) (round * rs.length + i) span round =
      gatherFrom (shown 1 (member rs round) i span) rs.length 0 := by
  have hn : (rs.length : Rat) ≠ 0 := by exact_mod_cast (List.length_pos_iff.mpr hne).ne'
  have hmembers : ∀ there : Span, sequence rs round there = gatherFrom (fun c =>
      member rs round c (Span.step there.start (there.length / rs.length) c)) rs.length 0 := by
    intro there
    refine (gatherFrom_eq_slots 0 0 fun j hj => ?_).symm
    rw [Int.zero_add, member_natCast hj, Nat.zero_add]
    rfl
  have hslot : ∀ c : Int,
      Span.step (slot (1 / rs.length) (round * rs.length + i) span round).start
        ((slot (1 / rs.length) (round * rs.length + i) span round).length / rs.length) c =
      slot 1 i span c := by
    intro c
    simp only [slot, place, Span.step, Span.length, Span.mk.injEq]
    push_cast
    constructor <;> field_simp <;> ring
  unfold shown
  rw [hmembers, gatherFrom_map (F := clip span) rfl (clip_append span)]
  simp only [hslot]

/-- Every turn of a round falls into the one cycle of a subject that lasts the
round. -/
theorem turn_within_round {n i : Nat} (hi : i < n) (round : Int) :
    (((round * n + i : Int) : Rat) * (1 / n)).floor = round ∧
      (((round * n + i + 1 : Int) : Rat) * (1 / n)).ceil = round + 1 := by
  have hn : (0 : Rat) < n := by exact_mod_cast Nat.zero_lt_of_lt hi
  have hi0 : (0 : Rat) ≤ i := Nat.cast_nonneg i
  have hin : (i : Rat) + 1 ≤ n := by exact_mod_cast hi
  push_cast
  simp only [mul_one_div]
  constructor
  · refine le_antisymm (Int.lt_add_one_iff.mp (Rat.floor_lt_iff.mpr ?_)) (Rat.le_floor_iff.mpr ?_)
    · rw [div_lt_iff₀ hn]
      push_cast
      linarith
    · rw [le_div_iff₀ hn]
      linarith
  · refine le_antisymm (Rat.ceil_le_iff.mpr ?_) (Int.add_one_le_iff.mpr (Rat.lt_ceil_iff.mpr ?_))
    · rw [div_le_iff₀ hn]
      push_cast
      linarith
    · rw [lt_div_iff₀ hn]
      linarith

/-- A sequence slowed down shows one child in each cycle.  The others are rendered
too and clipped away, so the law asks that they neither draw nor fail. -/
theorem repeated_sequence (hturns : s.TakesTurns) (hne : rs ≠ []) (hr : ∀ r ∈ rs, Confined r)
    (hfixed : ∀ r ∈ rs, ∀ cycle span, (r cycle span).Fixed) (cycle : Int)
    (pos : span.start < span.stop) {state : σ} {result : List Event × σ}
    (hrun : repeated (1 / rs.length) (sequence rs) cycle span state = .ok result) :
    repeated (1 / rs.length) (sequence rs) cycle span = parallel s.choose rs cycle span := by
  have hlength := List.length_pos_iff.mpr hne
  obtain ⟨round, i, hi, rfl⟩ := exists_turn hlength cycle
  have hn : (0 : Rat) < rs.length := by exact_mod_cast hlength
  have hfactor : (1 / rs.length : Rat) ≠ 0 := (one_div_pos.mpr hn).ne'
  obtain ⟨hfirst, hlast⟩ := turn_within_round hi round
  have hcount : (round + 1 - round).toNat = 1 := by omega
  have hmember := confined_member hr round
  obtain ⟨after, hafter⟩ : ∃ after, rs.length = i + 1 + after := ⟨rs.length - (i + 1), by omega⟩
  rw [repeated_eq_gatherFrom hfactor, hfirst, hlast, hcount, gatherFrom_one,
    shown_sequence hne] at hrun ⊢
  rw [parallel_turn hturns hi]
  -- of all the members only the one whose turn it is lies in the span
  calc gatherFrom (shown 1 (member rs round) i span) rs.length 0
      = gatherFrom (shown 1 (member rs round) i span) 1 (0 + i) := by
        rw [hafter] at hrun ⊢
        refine gatherFrom_trim (fixed_shown (fixed_member hfixed round) 1 i span) i 1 after 0
          (fun c _ hc => ?_) (fun c hc => ?_) hrun
        · have hbefore : (c : Rat) + 1 ≤ ((i : Int) : Rat) * 1 := by
            rw [mul_one]
            exact_mod_cast (by omega : c + 1 ≤ (i : Int))
          exact shown_silent hmember one_pos pos (.inl hbefore)
        · have hafter : (((i : Int) : Rat) + 1) * 1 ≤ c := by
            rw [mul_one]
            exact_mod_cast (by omega : (i : Int) + 1 ≤ c)
          exact shown_silent hmember one_pos pos (.inr hafter)
    _ = member rs round i (slot 1 i span i) := by
        rw [gatherFrom_one, Int.zero_add]
        exact shown_eq hmember one_pos pos (by rw [mul_one]) (by rw [mul_one])
    _ = rs[i] round span := by rw [slot_one, member_natCast hi]

end Rendering

/-! ## Queries -/

namespace Performance

/-- **Turns**: children that take turns, played as many times as fast as there
are of them, play what the sequence of them plays, with the same draws and the
same failures.  The sequence, played as many times as slow, plays what children
do that take turns, if it can be rendered and draws nothing; no event is cut
that is not cut there. -/
theorem query_turns {perf : Performance}
    (hturns : perf.choice.resolve perf.policies = .ok Policy.roundRobin)
    (hfast : perf.transforms.Acts "fast" .fast) (hslow : perf.transforms.Acts "slow" .slow)
    {children : List Pattern} (hne : children ≠ []) (cycle : Int) :
    (∀ arc, perf.query (.transform (.parallel children) "fast" [.int children.length]) cycle arc =
      perf.query (.sequence children) cycle arc) ∧
    (Pattern.AllWithin .certain perf.transforms children → ∀ events,
      perf.query (.transform (.sequence children) "slow" [.int children.length]) cycle none =
        .ok events →
      ∀ arc, perf.query (.transform (.sequence children) "slow" [.int children.length]) cycle arc =
        perf.query (.parallel children) cycle arc) := by
  let s := perf.setting Policy.roundRobin
  have hlength : (0 : Rat) < children.length := by
    exact_mod_cast List.length_pos_iff.mpr hne
  have hrenderings := Pattern.length_renderAll s children
  have hnil : Pattern.renderAll s children ≠ [] := by
    simpa [Pattern.renderAll_eq_map] using hne
  have hconfined := Pattern.renderAll_closed (Rendering.closed_confined s) children
    (Pattern.allWithin_full _ children)
  have hoperand : (Value.int children.length).toTime = .ok (children.length : Rat) := rfl
  have hpos : Span.cycle.start < Span.cycle.stop := by decide
  constructor
  · refine query_congr fun policy hpolicy => ?_
    obtain rfl := Except.ok.inj (hturns.symm.trans hpolicy)
    rw [Pattern.render_fast hfast hoperand, ← hrenderings]
    exact Rendering.repeated_parallel perf.takesTurns_setting hnil hconfined cycle hpos
  · intro hchildren events hquery
    refine query_eq_of_query hquery fun policy state result hpolicy hrun => ?_
    obtain rfl := Except.ok.inj (hturns.symm.trans hpolicy)
    have hfixed := Pattern.renderAll_closed (Rendering.closed_fixed s Fragment.isCertain_certain)
      children hchildren
    rw [Pattern.render_slow hslow hoperand, if_neg hlength.ne', ← hrenderings] at hrun ⊢
    exact Rendering.repeated_sequence perf.takesTurns_setting hnil hconfined hfixed cycle hpos hrun

/-- Before cycle zero: a thinned rhythm and two names backwards. -/
theorem query_turns_two :
    let rhythm := Pattern.euclidean 3 2 1 (.leaf (.text "a"))
    let back := Pattern.transform (.sequence [.leaf (.text "b"), .leaf (.int 1)]) "rev" []
    default.query (.transform (.parallel [.transform rhythm "degrade" [], back]) "fast" [.int 2])
        (-1) none =
      default.query (.sequence [.transform rhythm "degrade" [], back]) (-1) none ∧
    ∃ events,
      default.query (.transform (.sequence [rhythm, back]) "slow" [.int 2]) (-1) none =
        .ok events ∧
      default.query (.parallel [rhythm, back]) (-1) none = .ok events ∧
      events.length = 2 ∧ ∀ e ∈ events, e.whole = none := by
  intro rhythm back
  have hfast : default.transforms.Acts "fast" .fast := ⟨_, rfl, rfl⟩
  have hslow : default.transforms.Acts "slow" .slow := ⟨_, rfl, rfl⟩
  have hwithin : Pattern.AllWithin .certain default.transforms [rhythm, back] :=
    ⟨trivial, ⟨⟨trivial, trivial, trivial⟩, Fragment.names_of_applies rfl ⟨by decide, by decide⟩,
      trivial⟩,
      trivial⟩
  have hfound : (default.query (.transform (.sequence [rhythm, back]) "slow" [.int 2])
      (-1) none).toOption.map (fun events => (events.length, events.all (·.whole.isNone))) =
        some (2, true) := by
    decide +kernel
  obtain ⟨events, hquery, hevents⟩ := ok_of_toOption_map hfound
  obtain ⟨hlength, hwhole⟩ := Prod.mk.inj hevents
  have hturn := (query_turns rfl hfast hslow (List.cons_ne_nil rhythm [back]) (-1)).2
    hwithin events hquery none
  refine ⟨(query_turns rfl hfast hslow (List.cons_ne_nil _ _) (-1)).1 none, events, hquery,
    hturn.symm.trans hquery, hlength, ?_⟩
  simpa using hwhole

end Performance

end Ostinato
