import Ostinato.Proofs.Rendering.Fixed

/-!
# Ostinato.Proofs.Rendering.Arcs

Queries for a part of a cycle.

The events for an arc are picked before they are sorted.  Since sorting is stable,
they are the events of the whole cycle that overlap the arc, in the same order
(`Performance.query_arc`).  An arc may be cut in two: an event overlaps it if it
overlaps one of its parts, and both parts only if the cut goes through the event
(`Event.overlaps_cut`).
-/

namespace Ostinato

namespace Event

variable {e : Event} {low mid high : Rat}

/-- An event overlaps an arc if it starts before the end of the arc and stops after
its start. -/
theorem overlaps_iff :
    e.overlaps low high = true ↔ e.active.start < high ∧ low < e.active.stop := by
  unfold overlaps
  rw [Bool.and_eq_true, decide_eq_true_iff, decide_eq_true_iff]

/-- An event that sounds at all overlaps an arc if it overlaps one of the parts that
a cut makes of it. -/
theorem overlaps_cut (pos : e.active.start < e.active.stop) (hlow : low ≤ mid)
    (hhigh : mid ≤ high) :
    e.overlaps low high = true ↔ e.overlaps low mid = true ∨ e.overlaps mid high = true := by
  simp only [overlaps_iff]
  constructor
  · rintro ⟨hstart, hstop⟩
    rcases lt_or_ge e.active.start mid with hbefore | hafter
    · exact .inl ⟨hbefore, hstop⟩
    · exact .inr ⟨hstart, lt_of_le_of_lt hafter pos⟩
  · rintro (⟨hstart, hstop⟩ | ⟨hstart, hstop⟩)
    · exact ⟨lt_of_lt_of_le hstart hhigh, hstop⟩
    · exact ⟨hstart, lt_of_le_of_lt hlow hstop⟩

end Event

namespace Performance

variable {perf : Performance} {p : Pattern} {cycle : Int} {events : List Event}
  {low mid high : Value} {first cut last : Rat}

/-- A query for an arc finds the events of the cycle that overlap the arc. -/
theorem query_arc (h : perf.query p cycle none = .ok events) (hlow : low.toTime = .ok first)
    (hhigh : high.toTime = .ok last) :
    perf.query p cycle (some (low, high)) = .ok (events.filter (·.overlaps first last)) := by
  obtain ⟨policy, stream, rendered, state', hpolicy, hstream, hrender, rfl⟩ := rendered_of_query h
  rw [← Event.sortByStart_filter]
  unfold query Pattern.eventsIn
  rw [hpolicy, hstream]
  change (Prod.fst <$> p.render (perf.setting policy) cycle Span.cycle stream) >>= _ = _
  rw [hrender]
  change (low.toTime >>= fun low => high.toTime >>= fun high => _) = _
  rw [hlow, hhigh]
  rfl

/-- **Arcs**: a query for an arc finds exactly the events of the cycle that begin
before the arc ends and end after it begins, in the order of the cycle.  Cut in two,
the parts find the same events between them, and both find those through which the
cut goes. -/
theorem query_arcs (h : perf.query p cycle none = .ok events) (hlow : low.toTime = .ok first)
    (hmid : mid.toTime = .ok cut) (hhigh : high.toTime = .ok last) (hfirst : first ≤ cut)
    (hlast : cut ≤ last) :
    perf.query p cycle (some (low, high)) =
      .ok (events.filter fun e => e.active.start < last ∧ first < e.active.stop) ∧
    ∃ found early late, perf.query p cycle (some (low, high)) = .ok found ∧
      perf.query p cycle (some (low, mid)) = .ok early ∧
      perf.query p cycle (some (mid, high)) = .ok late ∧ found.Sublist events ∧
      ∀ e, (e ∈ found ↔ e ∈ early ∨ e ∈ late) ∧
        (e ∈ early ∧ e ∈ late ↔ e ∈ events ∧ e.active.start < cut ∧ cut < e.active.stop ∧
          e.overlaps first cut = true ∧ e.overlaps cut last = true) := by
  have hfound := query_arc h hlow hhigh
  refine ⟨?_, _, _, _, hfound, query_arc h hlow hmid, query_arc h hmid hhigh,
    List.filter_sublist, fun e => ⟨?_, ?_⟩⟩
  · rw [hfound]
    simp only [Event.overlaps, Bool.decide_and]
  · simp only [List.mem_filter, ← and_or_left]
    refine and_congr_right fun he => Event.overlaps_cut ?_ hfirst hlast
    exact (perf.laid_query h e he).1.pos
  · simp only [List.mem_filter, ← and_and_left]
    refine and_congr_right fun _ => ⟨fun hboth => ⟨?_, ?_, hboth⟩, fun hboth => hboth.2.2⟩
    · exact (Event.overlaps_iff.mp hboth.1).1
    · exact (Event.overlaps_iff.mp hboth.2).2

/-- Three names slowed down, in the second cycle: an arc that is cut in the middle of
the second event found finds that event on both sides. -/
theorem query_arcs_slow :
    let p := Pattern.transform
      (.sequence [.leaf (.text "a"), .leaf (.text "b"), .leaf (.text "c")]) "slow"
        [.number (.ratio (5 / 4))]
    let time (q : Rat) : Value := .number (.ratio q)
    ∃ events found early late, default.query p 1 none = .ok events ∧
      events.map (·.active) = [⟨0, 1 / 4⟩, ⟨1 / 4, 2 / 3⟩, ⟨2 / 3, 1⟩] ∧
      default.query p 1 (some (time (1 / 8), time (3 / 4))) = .ok found ∧
      default.query p 1 (some (time (1 / 8), time (1 / 2))) = .ok early ∧
      default.query p 1 (some (time (1 / 2), time (3 / 4))) = .ok late ∧
      found.Sublist events ∧ ∃ e ∈ found, e ∈ early ∧ e ∈ late := by
  intro p time
  have hspans : (default.query p 1 none).toOption.map (·.map (·.active)) =
      some [⟨0, 1 / 4⟩, ⟨1 / 4, 2 / 3⟩, ⟨2 / 3, 1⟩] := by decide +kernel
  obtain ⟨events, h, hactive⟩ := ok_of_toOption_map hspans
  have htime : ∀ q, (time q).toTime = .ok q := fun _ => rfl
  obtain ⟨-, found, early, late, hfound, hearly, hlate, hsub, hsplit⟩ := query_arcs h
    (htime (1 / 8)) (htime (1 / 2)) (htime (3 / 4)) (by decide +kernel) (by decide +kernel)
  obtain ⟨e, he, hspan⟩ : ∃ e ∈ events, e.active = ⟨1 / 4, 2 / 3⟩ := by
    rw [← List.mem_map, hactive]
    exact List.mem_cons_of_mem _ List.mem_cons_self
  have hboth : e ∈ early ∧ e ∈ late := (hsplit e).2.mpr ⟨he, by
    simp only [Event.overlaps_iff, hspan]
    decide +kernel⟩
  exact ⟨events, found, early, late, h, hactive, hfound, hearly, hlate, hsub, e,
    (hsplit e).1.mpr (.inl hboth.1), hboth⟩

end Performance

end Ostinato
