import Ostinato.Proofs.Scheduler.Playing

/-!
# Ostinato.Proofs.Scheduler.Planned

What is played is what the pattern says.

A pattern that was started is planned cycle by cycle, each cycle from its query
and at the times that the rates set so far imply.  The events of a cycle that
were sounded or are still pending are those of its plan, each once
(`played_as_planned`), with one exception: an event that was fired and could not
be written is missing.
-/

namespace Ostinato

namespace Performance

/-- A plan has the onsets of a cycle, each bound to clock times. -/
theorem plan_eq {perf : Performance} {p : Pattern} {cycle : Int} {cycleStart rate : Float}
    {bookings : List Booking} (h : perf.plan p cycle cycleStart rate none = .ok bookings) :
    ∃ events, perf.query p cycle none = .ok events ∧
      (events.filter (·.hasOnset)).mapM (Booking.of cycle cycleStart rate) = .ok bookings := by
  obtain ⟨events, hevents, hbookings⟩ := bind_ok h
  refine ⟨events, hevents, ?_⟩
  rw [← hbookings]
  unfold Scheduler.dueEvents
  simp

/-- All of a plan was booked for onsets that the query finds. -/
theorem due_of_plan {perf : Performance} {p : Pattern} {cycle : Int} {cycleStart rate : Float}
    {after : Option Rat} {bookings : List Booking}
    (h : perf.plan p cycle cycleStart rate after = .ok bookings) :
    ∃ events, perf.query p cycle none = .ok events ∧
      ∀ b ∈ bookings, ∃ e ∈ Scheduler.dueEvents events after,
        Booking.of cycle cycleStart rate e = .ok b := by
  obtain ⟨events, hevents, hbookings⟩ := bind_ok h
  have hpairs := forall₂_of_mapM hbookings
  refine ⟨events, hevents, fun b hb => ?_⟩
  obtain ⟨n, hn, hget⟩ := List.mem_iff_getElem.mp hb
  have hlength := hpairs.length_eq
  have hpair := hpairs.get (i := n) (by omega) hn
  simp only [List.get_eq_getElem] at hpair
  rw [hget] at hpair
  exact ⟨_, List.getElem_mem _, hpair⟩

/-- All of a plan was booked for events that the query finds. -/
theorem exists_of_plan {perf : Performance} {p : Pattern} {cycle : Int} {cycleStart rate : Float}
    {after : Option Rat} {bookings : List Booking}
    (h : perf.plan p cycle cycleStart rate after = .ok bookings) :
    ∃ events, perf.query p cycle none = .ok events ∧
      ∀ b ∈ bookings, ∃ e ∈ events, Booking.of cycle cycleStart rate e = .ok b := by
  obtain ⟨events, hevents, hdue⟩ := due_of_plan h
  refine ⟨events, hevents, fun b hb => ?_⟩
  obtain ⟨e, he, hof⟩ := hdue b hb
  exact ⟨e, List.mem_of_mem_filter he, hof⟩

/-- All of a plan is for its cycle. -/
theorem cycle_of_plan {perf : Performance} {p : Pattern} {cycle : Int} {cycleStart rate : Float}
    {after : Option Rat} {bookings : List Booking}
    (h : perf.plan p cycle cycleStart rate after = .ok bookings) :
    ∀ b ∈ bookings, b.cycle = cycle := by
  intro b hb
  obtain ⟨events, -, hbooked⟩ := exists_of_plan h
  obtain ⟨e, -, hof⟩ := hbooked b hb
  exact (Booking.event_of hof).2

end Performance

/-- Of the plans of several cycles, those bookings that are for one of the
cycles are its plan. -/
theorem filter_plans {plan : Nat → List Booking} {n k : Nat}
    (h : ∀ i < n, ∀ b ∈ plan i, b.cycle = i) (hk : k < n) :
    ((List.range n).flatMap plan).filter (fun b => b.cycle == (k : Int)) = plan k := by
  induction n with
  | zero => exact absurd hk (Nat.not_lt_zero k)
  | succ n ih =>
      rw [List.range_succ, List.flatMap_append, List.filter_append, List.flatMap_singleton]
      by_cases hkn : k = n
      · have hbefore : ((List.range n).flatMap plan).filter (fun b => b.cycle == (k : Int)) =
            [] := by
          rw [List.filter_eq_nil_iff]
          intro b hb
          obtain ⟨i, hi, hbi⟩ := List.mem_flatMap.mp hb
          rw [List.mem_range] at hi
          rw [h i (by omega) b hbi]
          simp only [beq_iff_eq, Nat.cast_inj]
          omega
        have hown : (plan n).filter (fun b => b.cycle == (k : Int)) = plan k := by
          rw [← hkn, List.filter_eq_self]
          intro b hb
          rw [h k hk b hb, beq_self_eq_true]
        rw [hbefore, hown, List.nil_append]
      · have hlast : (plan n).filter (fun b => b.cycle == (k : Int)) = [] := by
          rw [List.filter_eq_nil_iff]
          intro b hb
          rw [h n (Nat.lt_succ_self n) b hb]
          simp only [beq_iff_eq, Nat.cast_inj]
          omega
        rw [hlast, List.append_nil]
        exact ih (fun i hi => h i (by omega)) (by omega)

/-- Nothing is missing after filtering if nothing had to go. -/
theorem perm_map_filter_iff {α β : Type} (f : α → β) (q : α → Bool) (as : List α) :
    ((as.filter q).map f).Perm (as.map f) ↔ ∀ a ∈ as, q a = true := by
  constructor
  · intro hperm
    have hlength := hperm.length_eq
    rw [List.length_map, List.length_map] at hlength
    have hall := (List.filter_sublist (p := q)).eq_of_length hlength
    exact List.filter_eq_self.mp hall
  · intro hall
    rw [List.filter_eq_self.mpr hall]

namespace Scheduler

/-- The bookings of a cycle that were sounded or are still pending, of the
events after the first `n`, if `heard` are the events that the sounder was asked
for. -/
def played (s : Scheduler) (n : Nat) (heard : List Nat) (k : Int) : List Booking :=
  ((s.items.drop n).filter fun item => item.cycle == k &&
    (heard.contains item.id || s.ledger.pending.contains item.id)).map (·.booking)

/-- In books that balance, an event that was not cancelled is sounded or pending
unless it was fired and could not be written. -/
theorem heard_or_pending {s : Scheduler} {heard : List Nat} (h : s.ledger.Balanced heard)
    {item : Scheduled} (hmem : item ∈ s.items) (hkept : item.fate ≠ .cancelled) :
    (heard.contains item.id || s.ledger.pending.contains item.id) = true ↔
      (item.fate = .sounded → item.event.value.isWritable = true) := by
  rw [Bool.or_eq_true, List.contains_iff_mem, List.contains_iff_mem, h.mem_heard item hmem,
    h.mem_pending hmem]
  cases hfate : item.fate with
  | cancelled => exact absurd hfate hkept
  | pending => simp
  | sounded => simp

/-- What is played of a cycle is its plan, as far as it could be written. -/
theorem played_iff {s : Scheduler} {n : Nat} {heard : List Nat} (h : s.ledger.Balanced heard)
    (hkept : ∀ item ∈ s.items.drop n, item.fate ≠ .cancelled) {k : Int} {planned : List Booking}
    (hplanned : ((s.items.drop n).map (·.booking)).filter (fun b => b.cycle == k) = planned) :
    (s.played n heard k).Sublist planned ∧
      ((s.played n heard k).Perm planned ↔ ∀ item ∈ s.items.drop n, item.cycle = k →
        item.fate = .sounded → item.event.value.isWritable = true) := by
  have hcycle : planned = ((s.items.drop n).filter fun item => item.cycle == k).map (·.booking) := by
    rw [← hplanned, List.filter_map]
    rfl
  have hplayed : s.played n heard k = (((s.items.drop n).filter fun item => item.cycle == k).filter
      fun item => heard.contains item.id || s.ledger.pending.contains item.id).map (·.booking) := by
    unfold played
    rw [List.filter_filter]
    congr 1
    exact List.filter_congr fun item _ => Bool.and_comm _ _
  rw [hplayed, hcycle]
  refine ⟨List.filter_sublist.map _, ?_⟩
  rw [perm_map_filter_iff]
  constructor
  · intro hall item hitem hk
    have hmem : item ∈ (s.items.drop n).filter fun item => item.cycle == k :=
      List.mem_filter.mpr ⟨hitem, by simp [hk]⟩
    exact (heard_or_pending h (List.mem_of_mem_drop hitem) (hkept item hitem)).mp (hall item hmem)
  · intro hall item hmem
    obtain ⟨hitem, hk⟩ := List.mem_filter.mp hmem
    exact (heard_or_pending h (List.mem_of_mem_drop hitem) (hkept item hitem)).mpr
      (hall item hitem (by simpa using hk))

/-- **Playing**: after an accepted start of a pattern that is left to play, with
rates set and timers going off in any order, cycles zero to the present one were
planned, each once, from their queries and at the tempo that was set.  The
events of a cycle that were sounded or are still pending are among those of its
plan, each at most once, and are all of them unless one was fired that could not
be written.  One timer more than before waits for the end of a cycle, that of
the present one, and it is the only one if no timer ended a cycle twice.

This needs no more than that the events of the cycles reached can be found. -/
theorem played_as_planned (perf : Performance) (policy : Policy) (sounder : Sounder)
    (listener : Option Listener) (rate now : Float) (past later : List Occurrence)
    {before first s : Scheduler} {v : Value} {p : Pattern} {given : Option Value}
    {accepted : Option Float}
    (hbefore : afterAll past (initial perf policy sounder listener rate now) = before)
    (hstopped : before.isRunning = false) (hread : (coerce v).outcome before = .ok p)
    (haccepted : given.mapM checkRate = .ok accepted)
    (hfirst : (Occurrence.start v given).next before = first)
    (hlater : ∀ o ∈ later, o.letsPlay before.clock.timers.length = true)
    (hs : afterAll later first = s)
    (hquery : ∀ k : Nat, (k : Int) ≤ s.cycle →
      ∃ events, before.performance.query p k none = .ok events) :
    let tempo : Tempo :=
      ⟨before.clock.now, accepted.getD before.rate, fun k => ratesSet k first later⟩
    ∃ (last : Nat) (plan : Nat → List Booking) (heard pending : List Nat),
      s.run = some ⟨p, tempo.start last, last, pending⟩ ∧ s.rate = tempo.rate last ∧
      (∀ k ≤ last, ∃ events, before.performance.query p k none = .ok events ∧
        (events.filter (·.hasOnset)).mapM (Booking.of k (tempo.start k) (tempo.rate k)) =
          .ok (plan k)) ∧
      (s.items.drop before.items.length).map (·.booking) = (List.range (last + 1)).flatMap plan ∧
      s.ledger.Balanced heard ∧
      (∀ k ≤ last, (s.played before.items.length heard k).Sublist (plan k) ∧
        ((s.played before.items.length heard k).Perm (plan k) ↔
          ∀ item ∈ s.items.drop before.items.length, item.cycle = k →
            item.fate = .sounded → item.event.value.isWritable = true)) ∧
      ∃ stale t, s.awaited = stale ++ [t] ∧ t.task = .boundary s.generation ∧
        t.due = tempo.start last + 1.0 / tempo.rate last ∧ (∀ u ∈ stale, u ∈ before.awaited) ∧
        ((initial perf policy sounder listener rate now).Orderly past → stale = []) := by
  intro tempo
  have htimed : before.Timed := by
    rw [← hbefore]
    exact timed_afterAll perf policy sounder listener rate now past
  have hbalanced : ∃ heard, s.ledger.Balanced heard := by
    have hrun := balanced_afterAll perf policy sounder listener rate now
      (past ++ .start v given :: later)
    rw [afterAll_append, hbefore] at hrun
    rw [← hs, ← hfirst]
    exact hrun
  have hunderway : Underway before p tempo s := by
    have hplaying := underway_afterAll htimed hstopped hread haccepted hlater
    simp only [hfirst, hs] at hplaying
    exact hplaying
  rcases hunderway with ⟨j, hj, hnone⟩ | ⟨last, hplaying⟩
  · obtain ⟨events, hevents⟩ := hquery j hj
    exact absurd hevents (hnone events)
  · obtain ⟨heard, hheard⟩ := hbalanced
    obtain ⟨pending, hrun⟩ := hplaying.run
    obtain ⟨plan, hplan, hplanned⟩ := hplaying.planned
    have hcycles : ∀ k < last + 1, ∀ b ∈ plan k, b.cycle = k :=
      fun k hk => Performance.cycle_of_plan (hplan k hk)
    obtain ⟨stale, t, hawaited, hstale, htask, hdue⟩ := hplaying.awaited
    refine ⟨last, plan, heard, pending, hrun, hplaying.rate, fun k hk => ?_, hplanned, hheard,
      fun k hk => ?_, stale, t, hawaited, htask, hdue, hstale, fun horderly => ?_⟩
    · exact Performance.plan_eq (hplan k (by omega))
    · have hcycle := filter_plans hcycles (show k < last + 1 by omega)
      rw [← hplanned] at hcycle
      exact played_iff hheard hplaying.uncancelled hcycle
    · have hsole : before.Sole := by
        rw [← hbefore]
        exact sole_afterAll horderly (sole_of_awaited rfl)
      rw [hsole.stopped hstopped] at hstale
      exact List.eq_nil_of_subset_nil hstale

/-- Two notes, the first of which is fired before the cycle ends and the second
is still pending. -/
theorem played_as_planned_notes :
    let notes := Pattern.sequence [.leaf (.text "a"), .leaf (.text "b")]
    let before := initial .default Policy.roundRobin ⟨none, fun _ _ => .sounded⟩ none 1.0 0.0
    let s := afterAll [.ring 0, .ring 2] ((Occurrence.start (.pattern notes) none).next before)
    s.cycle = 1 ∧ s.awaited.length = 1 ∧ ∃ heard, s.ledger.Balanced heard ∧ heard.length = 1 ∧
      ∀ k ≤ 1, ∃ events bookings, before.performance.query notes (k : Nat) none = .ok events ∧
        bookings.length = (events.filter (·.hasOnset)).length ∧
        (s.played 0 heard k).Perm bookings := by
  intro notes before s
  have haccepted : (none : Option Value).mapM checkRate = .ok none := rfl
  have hlater : ∀ o ∈ [Occurrence.ring 0, .ring 2],
      o.letsPlay before.clock.timers.length = true := by decide
  have hcycle : s.cycle = 1 := by decide +kernel
  have hquery : ∀ k : Nat, (k : Int) ≤ s.cycle →
      ∃ events, before.performance.query notes k none = .ok events := by
    intro k hk
    rw [hcycle] at hk
    have hfound : ∀ k < 2, (before.performance.query notes (k : Nat) none).toOption.isSome := by
      decide +kernel
    exact ok_of_isSome (hfound k (by omega))
  obtain ⟨last, plan, heard, pending, hrun, -, hplan, -, hheard, hplayed, stale, t, hawaited, -, -,
      -, hstale⟩ :=
    played_as_planned .default Policy.roundRobin ⟨none, fun _ _ => .sounded⟩ none 1.0 0.0 []
      [.ring 0, .ring 2] (s := s) (v := .pattern notes) (p := notes) rfl rfl rfl haccepted
      rfl hlater rfl hquery
  have hlast : last = 1 := by
    unfold Scheduler.cycle at hcycle
    rw [hrun, Option.map_some, Option.getD_some] at hcycle
    exact Int.ofNat.inj hcycle
  have hwritable : ∀ item ∈ s.items, item.event.value.isWritable = true := by decide +kernel
  refine ⟨hcycle, ?_, heard, hheard, ?_, fun k hk => ?_⟩
  · rw [hawaited, hstale trivial]
    rfl
  · rw [← hheard.calls.length_eq]
    decide +kernel
  · obtain ⟨events, hevents, hbookings⟩ := hplan k (by omega)
    refine ⟨events, plan k, hevents, (forall₂_of_mapM hbookings).length_eq.symm, ?_⟩
    exact (hplayed k (by omega)).2.mpr fun item hitem _ _ =>
      hwritable item (List.mem_of_mem_drop hitem)

/-- A product too long to be written: its event is planned, but when it was
fired it is neither pending nor was it sounded. -/
theorem unplayed_product :
    let product := Pattern.operation (.leaf (.number (.int (10 ^ 2200)))) "*"
      (.number (.ratio (10 ^ 2200)))
    let before := initial .default Policy.roundRobin ⟨none, fun _ _ => .sounded⟩ none 1.0 0.0
    let s := afterAll [.ring 0] ((Occurrence.start (.pattern product) none).next before)
    s.cycle = 0 ∧ ∃ bookings,
      before.performance.plan product 0 before.clock.now before.rate none = .ok bookings ∧
      ∀ heard, s.ledger.Balanced heard → ¬ (s.played 0 heard 0).Perm bookings := by
  intro product before s
  have hcycle : s.cycle = 0 := by decide +kernel
  have hpending : s.ledger.pending = [] := by decide +kernel
  have hattempts : s.ledger.attempts.length = 0 := by decide +kernel
  have hplan : (before.performance.plan product 0 before.clock.now before.rate
      none).toOption.map (·.length) = some 1 := by decide +kernel
  clear_value s
  obtain ⟨bookings, hbookings, hlength⟩ := ok_of_toOption_map hplan
  refine ⟨hcycle, bookings, hbookings, fun heard hheard hperm => ?_⟩
  have hunheard : heard = [] := by
    rw [hheard.calls.length_eq] at hattempts
    exact List.eq_nil_of_length_eq_zero hattempts
  have hnone : s.played 0 heard 0 = [] := by
    unfold played
    rw [hunheard, hpending]
    simp
  rw [hnone] at hperm
  rw [← hperm.length_eq] at hlength
  nomatch hlength

end Scheduler

end Ostinato
