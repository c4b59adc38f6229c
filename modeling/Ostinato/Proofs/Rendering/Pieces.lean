import Ostinato.Proofs.Rendering.Gathering

/-!
# Ostinato.Proofs.Rendering.Pieces

Cutting events into pieces at another speed.

Pieces are measured by the logical span of an event and then clipped to its
active one.  So it makes no difference whether an event is clipped before it is
cut into pieces or its pieces are clipped after (`Event.cut_clip`), and cutting
into pieces changes places with repetition (`Rendering.chopped_repeated`).
-/

namespace Ostinato

variable {σ : Type}

namespace Event

/-! ## Pieces of what is left -/

/-- The pieces of an event's logical span. -/
def grid (parts : Int) (e : Event) : List Event :=
  (List.range parts.toNat).map fun (i : Nat) =>
    ⟨e.value, Span.step e.logical.start (e.logical.length / parts) i, some (i : Int), none⟩

@[simp] theorem grid_trim (parts : Int) (e : Event) (span : Span) :
    grid parts (e.trim span) = grid parts e := by
  simp [grid]

/-- Events cut into pieces, as far as these lie in the active spans. -/
def cut (parts : Int) (events : List Event) : List Event :=
  events.flatMap fun e => clip e.active (grid parts e)

/-- Events are cut one by one. -/
theorem cut_append (parts : Int) (events later : List Event) :
    cut parts (events ++ later) = cut parts events ++ cut parts later := List.flatMap_append

/-- Nothing is left inside a span that does not run forwards. -/
theorem clip_of_le {span : Span} (h : span.stop ≤ span.start) (events : List Event) :
    clip span events = [] :=
  clip_eq_nil fun _ _ => le_trans (min_le_right _ _) (le_trans h (le_max_right _ _))

/-- Cutting what is left of an event cuts the event and leaves what is left of the
pieces. -/
theorem cut_clip? (parts : Int) (e : Event) (span : Span) :
    cut parts (e.clip? span).toList = clip (e.active.meet span) (grid parts e) := by
  cases hclip : e.clip? span with
  | none =>
    have hback : ¬(e.active.meet span).start < (e.active.meet span).stop := by
      intro hlt
      simp [clip?, hlt] at hclip
    rw [clip_of_le (not_lt.mp hback)]
    rfl
  | some rest =>
    obtain ⟨-, rfl⟩ := clip?_eq_some hclip
    simp [cut]

/-- The pieces of what is left of events are what is left of their pieces. -/
theorem cut_clip (parts : Int) (span : Span) (events : List Event) :
    cut parts (clip span events) = clip span (cut parts events) := by
  induction events with
  | nil => rfl
  | cons e events ih =>
    have hcut : cut parts (e :: events) = clip e.active (grid parts e) ++ cut parts events :=
      List.flatMap_cons
    rw [clip_cons, cut_append, cut_clip?, ih, hcut, clip_append, clip_clip]

end Event

namespace Rendering

open Drawing Event

/-! ## Pieces of a repetition -/

/-- Cutting into one piece at least does not fail. -/
theorem pieces_eq_ok {parts : Int} (hparts : 1 ≤ parts) (e : Event) :
    pieces parts e = .ok (clip e.active (grid parts e)) := by
  simp only [pieces, divide_eq_ok (show parts ≠ 0 by omega)]
  rfl

/-- Chopping cuts each event of the subject, and does not fail if there is at least
one part. -/
theorem chopped_eq_cut {parts : Int} (hparts : 1 ≤ parts) (r : Rendering σ) (cycle : Int)
    (span : Span) :
    chopped parts r cycle span = (do
      let events ← r cycle span
      pure (cut parts events)) := by
  refine bind_congr fun events => ?_
  induction events with
  | nil => rfl
  | cons e events ih =>
    rw [gather, ih, pieces_eq_ok hparts, lift_ok_bind, pure_bind]
    rfl

/-- Chopping what is repeated is repeating what is chopped. -/
theorem chopped_repeated {parts : Int} (hparts : 1 ≤ parts) (factor : Rat) (r : Rendering σ) :
    chopped parts (repeated factor r) = repeated factor (chopped parts r) := by
  funext cycle span
  rw [chopped_eq_cut hparts]
  by_cases hfactor : factor = 0
  · simp [repeated, hfactor, cut]
  · rw [repeated_eq_gatherFrom hfactor, repeated_eq_gatherFrom hfactor,
      gatherFrom_map (F := cut parts) rfl (cut_append parts)]
    refine gatherFrom_congr _ _ fun c _ _ => ?_
    simp only [shown, chopped_eq_cut hparts, bind_assoc, pure_bind, cut_clip]

end Rendering

namespace Performance

/-- Cutting into pieces does not fail where there is something to cut. -/
theorem query_chop_of_query {perf : Performance} (hchop : perf.transforms.Acts "chop" .chop)
    {parts : Value} {n : Int} (hparts : parts.toInt = .ok n) (hn : 1 ≤ n) {p : Pattern} {cycle : Int}
    {events : List Event} (h : perf.query p cycle none = .ok events) :
    ∃ found, perf.query (.transform p "chop" [parts]) cycle none = .ok found := by
  obtain ⟨policy, stream, rendered, state', hpolicy, hstream, hrender, -⟩ := rendered_of_query h
  have hcut : (Pattern.transform p "chop" [parts]).render (perf.setting policy) cycle Span.cycle
      stream = .ok (Event.cut n rendered, state') := by
    rw [Pattern.render_chop hchop hparts, Rendering.chopped_eq_cut hn]
    change (p.render (perf.setting policy) cycle Span.cycle stream >>= fun r => _) = _
    rw [hrender]
    rfl
  exact ⟨_, query_of_rendered hpolicy hstream hcut⟩

/-- **Pieces**: cutting the events of a pattern into pieces and playing it
faster or slower change places, at any speed and for any pattern, with the same
failures; where a pattern is found, so are the pieces of its events. -/
theorem query_chop_speed {perf : Performance} (hchop : perf.transforms.Acts "chop" .chop)
    (hfast : perf.transforms.Acts "fast" .fast) (hslow : perf.transforms.Acts "slow" .slow)
    {parts factor : Value} {n : Int} {f : Rat} (hparts : parts.toInt = .ok n) (hn : 1 ≤ n)
    (hfactor : factor.toTime = .ok f) (x : Pattern) (cycle : Int) :
    (∀ arc, perf.query (.transform (.transform x "fast" [factor]) "chop" [parts]) cycle arc =
      perf.query (.transform (.transform x "chop" [parts]) "fast" [factor]) cycle arc) ∧
    (∀ arc, perf.query (.transform (.transform x "slow" [factor]) "chop" [parts]) cycle arc =
      perf.query (.transform (.transform x "chop" [parts]) "slow" [factor]) cycle arc) ∧
    ∀ p events, perf.query p cycle none = .ok events →
      ∃ pieces, perf.query (.transform p "chop" [parts]) cycle none = .ok pieces := by
  refine ⟨query_congr fun policy _ => ?_, query_congr fun policy _ => ?_,
    fun p events h => query_chop_of_query hchop hparts hn h⟩
  · rw [Pattern.render_chop hchop hparts, Pattern.render_fast hfast hfactor,
      Pattern.render_fast hfast hfactor, Pattern.render_chop hchop hparts,
      Rendering.chopped_repeated hn]
  · rw [Pattern.render_chop hchop hparts, Pattern.render_slow hslow hfactor,
      Pattern.render_slow hslow hfactor, Pattern.render_chop hchop hparts,
      Rendering.chopped_repeated hn]

/-- Two names slowed down by two and a half and cut in three: the second cycle
begins within a piece.  And two thinned names, sped up. -/
theorem query_chop_speed_tail :
    let x := Pattern.sequence [.leaf (.text "a"), .leaf (.text "b")]
    let thinned := Pattern.transform x "degrade" []
    let factor := Value.number (.ratio (5 / 2))
    (∃ pieces, default.query (.transform (.transform x "chop" [.int 3]) "slow" [factor]) 1 none =
        .ok pieces ∧
      default.query (.transform (.transform x "slow" [factor]) "chop" [.int 3]) 1 none =
        .ok pieces ∧
      pieces.map (·.hasOnset) = [false, true, true]) ∧
    default.query (.transform (.transform thinned "fast" [factor]) "chop" [.int 3]) 1 none =
      default.query (.transform (.transform thinned "chop" [.int 3]) "fast" [factor]) 1 none := by
  intro x thinned factor
  have hchop : default.transforms.Acts "chop" .chop := ⟨_, rfl, rfl⟩
  have hfast : default.transforms.Acts "fast" .fast := ⟨_, rfl, rfl⟩
  have hslow : default.transforms.Acts "slow" .slow := ⟨_, rfl, rfl⟩
  have hfound : (default.query (.transform (.transform x "chop" [.int 3]) "slow" [factor])
      1 none).toOption.map (·.map (·.hasOnset)) = some [false, true, true] := by
    decide +kernel
  obtain ⟨pieces, hpieces, honsets⟩ := ok_of_toOption_map hfound
  have hparts : (Value.int 3).toInt = .ok 3 := rfl
  have hfactor : factor.toTime = .ok (5 / 2) := rfl
  have hslowed := (query_chop_speed hchop hfast hslow hparts (by decide) hfactor x 1).2.1 none
  exact ⟨⟨pieces, hpieces, hslowed.trans hpieces, honsets⟩,
    (query_chop_speed hchop hfast hslow hparts (by decide) hfactor thinned 1).1 none⟩

end Performance

end Ostinato
