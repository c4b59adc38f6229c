import Ostinato.Proofs.Rendering.Faults
import Ostinato.Proofs.Scheduler.Boundaries

/-!
# Ostinato.Proofs.Scheduler.Advancing

How many timers go off while the clock is moved forward.

A timer that goes off is due no more, and only the end of a cycle makes others.
Cycles are numbered, and one whose number is too long to be written cannot be found,
so that in any case only finitely many timers go off (`endsBy`).

That is no bound to wait for.  But as each cycle ends later than the one before by at
least one double, no more cycles end by a time than there are doubles up to it, and
timers that waited for an end before (`cycle_le`).  There is one exception: the length
of a cycle is so small beside its end that it is rounded away, so that the timer for
the end of the next cycle is due when it is made (`Stuck`).
-/

namespace Ostinato

namespace Scheduler

open Scheduling

variable {s t : Scheduler} {time : Float} {p : Timer Task → Bool}

/-! ## Timers that wait -/

/-- The number of waiting timers of some kind. -/
def countLive (s : Scheduler) (p : Timer Task → Bool) : Nat := (s.clock.live.filter p).length

/-- Bookings make timers for events only. -/
theorem countLive_bookAll (hp : ∀ v : Timer Task, v.isBoundary = false → p v = false)
    (s : Scheduler) (bookings : List Booking) :
    (s.bookAll bookings).countLive p = s.countLive p := by
  induction bookings generalizing s with
  | nil => rfl
  | cons b bookings ih =>
      refine (ih (s.book b)).trans ?_
      unfold countLive book
      simp only
      rw [Clock.live_arm, List.filter_append,
        List.filter_cons_of_neg (by rw [hp _ rfl]; exact Bool.false_ne_true), List.filter_nil,
        List.append_nil]

/-- Putting the end of a cycle on the clock adds one timer, counted if it is of the
kind. -/
theorem countLive_armed {run : Run} (hrun : s.run = some run) :
    s.armed.countLive p = s.countLive p + if p ⟨s.clock.timers.length,
      run.cycleStart + 1.0 / s.rate, .boundary s.generation, true⟩ then 1 else 0 := by
  rw [armed_of_run hrun]
  unfold countLive
  simp only
  rw [Clock.live_arm, List.filter_append, List.length_append, List.filter_cons, List.filter_nil]
  split <;> rfl

/-- The scheduler when a timer goes off in turn, before its task is done. -/
def going (s : Scheduler) (v : Timer Task) : Scheduler :=
  (s.atTime (s.clock.moveTo v.due).now).expired v.id

/-- The scheduler after a timer went off in turn. -/
def rung (s : Scheduler) (v : Timer Task) : Scheduler := (perform v.task).after (s.going v)

/-- A timer that goes off leaves the ends of cycles as they are until its task is
done. -/
theorem sameEnds_going (s : Scheduler) (v : Timer Task) : SameEnds s (s.going v) :=
  (sameEnds_of_timers (s := s) (t := s.atTime (s.clock.moveTo v.due).now) rfl rfl rfl rfl rfl).trans
    (sameEnds_expired _ v.id)

/-- When a timer goes off, the others that wait still do. -/
theorem live_going (s : Scheduler) (v : Timer Task) :
    (s.going v).clock.live = s.clock.live.filter (·.id != v.id) :=
  Clock.live_settle s.clock v.id

/-- When a timer goes off, no more of any kind wait than before. -/
theorem countLive_going_le (s : Scheduler) (v : Timer Task) :
    (s.going v).countLive p ≤ s.countLive p := by
  unfold countLive
  rw [live_going]
  exact (List.filter_sublist.filter p).length_le

/-- A timer that goes off waits no more. -/
theorem countLive_going {v : Timer Task} (hv : v ∈ s.clock.live) (hp : p v = true) :
    (s.going v).countLive p < s.countLive p := by
  have hrest : (s.going v).clock.live.filter p = (s.clock.live.filter p).filter (·.id != v.id) := by
    rw [live_going, List.filter_filter, List.filter_filter]
    exact List.filter_congr fun u _ => Bool.and_comm _ _
  unfold countLive
  rw [hrest, List.length_filter_lt_length_iff_exists]
  exact ⟨v, List.mem_filter.mpr ⟨hv, hp⟩, by simp⟩

/-! ## A timer that goes off -/

/-- What a timer can come to that goes off in turn: it makes no timer and the cycle stays,
or the cycle ends, and the next one is booked if it can be found. -/
theorem rung_cases (s : Scheduler) (v : Timer Task) :
    (SameEnds s (s.rung v) ∧ (s.rung v).cycle = s.cycle ∧ (s.rung v).clock = (s.going v).clock) ∨
      ∃ run, s.run = some run ∧ v.task = .boundary s.generation ∧ (s.rung v).cycle = s.cycle + 1 ∧
        (Alike (s.rung v) ((s.going v).turned run) ∨
          ∃ events bookings,
            s.performance.query run.pattern (run.cycleIndex + 1) none = .ok events ∧
            Alike (s.rung v) (((s.going v).turned run).bookAll bookings).armed) := by
  have hgoing := sameEnds_going s v
  cases htask : v.task with
  | fire id =>
      have hrung : s.rung v = (fire id).after (s.going v) := by
        unfold rung
        rw [htask]
        rfl
      rw [hrung]
      exact .inl ⟨hgoing.trans (sameEnds_fire id _), (tracks_sameCycle.fire id (s.going v)).cycle_eq,
        clock_fire id _⟩
  | boundary generation =>
      have hrung : s.rung v = (passBoundary generation).after (s.going v) := by
        unfold rung
        rw [htask]
        rfl
      rw [hrung]
      by_cases hstale : s.run = none ∨ generation ≠ s.generation
      · rw [passBoundary_stale (s := s.going v) hstale]
        exact .inl ⟨hgoing, rfl, rfl⟩
      · rw [not_or, not_not] at hstale
        obtain ⟨run, hrun⟩ := Option.ne_none_iff_exists'.mp hstale.1
        rw [hstale.2]
        refine .inr ⟨run, hrun, rfl, cycle_passBoundary (s := s.going v) hrun, ?_⟩
        cases hplan : s.performance.plan run.pattern (run.cycleIndex + 1)
            (run.cycleStart + 1.0 / s.rate) (s.pendingRate.getD s.rate) none with
        | error cause => exact .inl (passBoundary_error (s := s.going v) hrun hplan)
        | ok bookings =>
            obtain ⟨events, hquery, -⟩ := bind_ok hplan
            exact .inr ⟨events, bookings, hquery, passBoundary_ok (s := s.going v) hrun hplan⟩

/-- Timers are still known after one went off. -/
theorem timed_rung (h : s.Timed) (v : Timer Task) : (s.rung v).Timed := by
  have hmoved : (s.atTime (s.clock.moveTo v.due).now).Timed := ⟨h.ids, h.generations⟩
  exact timed_perform (timed_expired hmoved v.id)

/-- No end of a cycle lies after that of the present one when a timer went off in
turn. -/
theorem foremost_rung (h : s.Foremost) (v : Timer Task) : (s.rung v).Foremost :=
  foremost_perform ((sameEnds_going s v).foremost h) v.task

/-! ## Steps -/

/-- Where no timer is due, the clock moves to its time at once. -/
theorem stepsWithin_none (h : s.clock.next? time = none) (n : Nat) :
    stepsWithin (n + 1) time s = [.jump (s.clock.moveTo time).now] := by
  unfold stepsWithin
  rw [h]

/-- A timer whose task fails is the last one to go off. -/
theorem stepsWithin_error {v : Timer Task} (h : s.clock.next? time = some v) {e : SchedulerError}
    (houtcome : (perform v.task).outcome (s.going v) = .error e) (n : Nat) :
    stepsWithin (n + 1) time s = [.jump (s.clock.moveTo v.due).now, .ring v.id] := by
  unfold going at houtcome
  rw [stepsWithin, h]
  simp only [houtcome]

/-- After a timer whose task was done, the clock goes on to the next one. -/
theorem stepsWithin_ok {v : Timer Task} (h : s.clock.next? time = some v)
    (houtcome : (perform v.task).outcome (s.going v) = .ok ()) (n : Nat) :
    stepsWithin (n + 1) time s =
      .jump (s.clock.moveTo v.due).now :: .ring v.id :: stepsWithin n time (s.rung v) := by
  unfold going at houtcome
  rw [stepsWithin, h]
  simp only [houtcome]
  rfl

/-- The first steps of moving forward are those of the next timer. -/
theorem afterAll_rung (h : s.Timed) {v : Timer Task} (hnext : s.clock.next? time = some v)
    (os : List Occurrence) :
    afterAll (.jump (s.clock.moveTo v.due).now :: .ring v.id :: os) s = afterAll os (s.rung v) := by
  have hmoved : (s.atTime (s.clock.moveTo v.due).now).Timed := ⟨h.ids, h.generations⟩
  have hring : (Occurrence.ring v.id).next (s.atTime (s.clock.moveTo v.due).now) = s.rung v :=
    ring_of_live hmoved (live_of_next? hnext)
  exact congrArg (afterAll os) hring

/-- Whether only finitely many timers go off while the clock is moved to a time: from
some number of them on there are no more. -/
def EndsBy (s : Scheduler) (time : Float) : Prop :=
  ∃ n, ∀ limit, n ≤ limit → stepsWithin limit time s = stepsWithin n time s

/-- What takes the same steps under every limit ends. -/
theorem endsBy_of_succ {steps : List Occurrence}
    (h : ∀ n, stepsWithin (n + 1) time s = steps) : s.EndsBy time := by
  refine ⟨1, fun limit hlimit => ?_⟩
  obtain ⟨n, rfl⟩ := Nat.exists_eq_add_of_le' hlimit
  exact (h n).trans (h 0).symm

/-! ## Numbers of cycles -/

end Scheduler

/-- The number of a cycle that can be found is short enough to be written. -/
theorem Performance.lt_of_query {perf : Performance} {p : Pattern} {cycle : Int}
    {events : List Event} (h : perf.query p cycle none = .ok events) :
    cycle < (Nat.pow 10 Fault.digitLimit : Nat) := by
  obtain ⟨policy, -, hrest⟩ := bind_ok h
  obtain ⟨state, hstream, -⟩ := bind_ok hrest
  cases hshort : (Number.int cycle).isWritable with
  | false =>
      have herror : perf.stream cycle = .error .unwritable :=
        stream_eq_error_iff.mpr ⟨rfl, by rw [hshort, Bool.and_false]⟩
      rw [hstream] at herror
      nomatch herror
  | true =>
      simp only [Number.isWritable, Number.isShort, decide_eq_true_eq] at hshort
      generalize Nat.pow 10 Fault.digitLimit = limit at hshort ⊢
      omega

namespace Scheduler

open Scheduling

variable {s t : Scheduler} {time : Float} {p : Timer Task → Bool}

/-- The number of cycles that can still be found. -/
def cyclesLeft (s : Scheduler) : Nat := ((Nat.pow 10 Fault.digitLimit : Nat) - s.cycle).toNat

/-- With each timer that goes off fewer cycles are left, or fewer timers are due. -/
theorem less_of_rung {v : Timer Task} (hnext : s.clock.next? time = some v) :
    (s.rung v).cyclesLeft < s.cyclesLeft ∨ (s.rung v).cyclesLeft ≤ s.cyclesLeft ∧
      (s.rung v).countLive (·.due ≤ time) < s.countLive (·.due ≤ time) := by
  have hfewer : (s.going v).countLive (·.due ≤ time) < s.countLive (·.due ≤ time) :=
    countLive_going (live_of_next? hnext) (decide_eq_true (Clock.due_of_next? hnext))
  rcases rung_cases s v with
    ⟨-, hcycle, hclock⟩ | ⟨run, hrun, -, hcycle, hrung | ⟨_, bookings, hquery, hrung⟩⟩
  · refine .inr ⟨?_, ?_⟩
    · unfold cyclesLeft
      rw [hcycle]
    · unfold countLive at hfewer ⊢
      rwa [hclock]
  · refine .inr ⟨?_, ?_⟩
    · unfold cyclesLeft
      rw [hcycle]
      omega
    · unfold countLive at hfewer ⊢
      rwa [hrung.clock]
  · left
    have hlimit := Performance.lt_of_query hquery
    have hindex : s.cycle = run.cycleIndex := by
      unfold cycle
      rw [hrun]
      rfl
    unfold cyclesLeft
    rw [hcycle]
    omega

/-- Moving the clock forward ends.  The induction is on the number of cycles that can be
found, and on the number of timers that are due while that stays. -/
theorem endsBy (s : Scheduler) (time : Float) : s.EndsBy time := by
  cases hnext : s.clock.next? time with
  | none => exact endsBy_of_succ (stepsWithin_none hnext)
  | some v =>
      cases houtcome : (perform v.task).outcome (s.going v) with
      | error e => exact endsBy_of_succ (stepsWithin_error hnext houtcome)
      | ok _ =>
          have hless := less_of_rung hnext
          obtain ⟨n, hn⟩ := endsBy (s.rung v) time
          refine ⟨n + 1, fun limit hlimit => ?_⟩
          obtain ⟨more, rfl⟩ := Nat.exists_eq_add_of_le hlimit
          rw [show n + 1 + more = n + more + 1 by omega, stepsWithin_ok hnext houtcome,
            stepsWithin_ok hnext houtcome, hn _ (by omega)]
termination_by (s.cyclesLeft, s.countLive (·.due ≤ time))
decreasing_by
  rcases hless with hcycles | ⟨hcycles, hdue⟩
  · exact Prod.Lex.left _ _ hcycles
  · rcases Nat.lt_or_eq_of_le hcycles with hlt | heq
    · exact Prod.Lex.left _ _ hlt
    · rw [heq]
      exact Prod.Lex.right _ hdue

/-! ## Times of ends -/

/-- The number of doubles from the end of the present cycle to a time. -/
def roomTo (s : Scheduler) (time : Float) : Nat :=
  match s.run with
  | none => 0
  | some run => Double.countTo (run.cycleStart + 1.0 / s.rate) time

/-- Whether a timer for the end of a cycle of this run is due by a time. -/
def endsDue (s : Scheduler) (time : Float) (v : Timer Task) : Bool :=
  v.due ≤ time && v.task == .boundary s.generation

/-- A bound for the number of cycles that end by a time: each one ends later than the one
before by at least one double, but timers that wait already may be for the same end. -/
def endsLeft (s : Scheduler) (time : Float) : Nat :=
  s.roomTo time + s.countLive (s.endsDue time)

/-- Whether a cycle ends next, by a time, and the one after it ends no later: its length
is rounded away. -/
def Stuck (s : Scheduler) (time : Float) : Prop :=
  ∃ run v, s.run = some run ∧ s.clock.next? time = some v ∧ v.task = .boundary s.generation ∧
    run.cycleStart + 1.0 / s.rate ≤ time ∧
    run.cycleStart + 1.0 / s.rate + 1.0 / s.pendingRate.getD s.rate ≤
      run.cycleStart + 1.0 / s.rate

/-- Ends are due for the run of the present generation. -/
theorem endsDue_of_generation (h : t.generation = s.generation) (time : Float) :
    t.endsDue time = s.endsDue time := by
  unfold endsDue
  rw [h]

/-- A timer for an event is not for the end of a cycle. -/
theorem endsDue_of_fire (s : Scheduler) (time : Float) (v : Timer Task)
    (hv : v.isBoundary = false) : s.endsDue time v = false := by
  have hne : v.task ≠ .boundary s.generation := by
    intro htask
    unfold Timer.isBoundary at hv
    rw [htask] at hv
    nomatch hv
  unfold endsDue
  rw [beq_eq_false_iff_ne.mpr hne, Bool.and_false]

/-- While something plays, there is room from the end of its cycle on. -/
theorem roomTo_of_run {run : Run} (hrun : s.run = some run) (time : Float) :
    s.roomTo time = Double.countTo (run.cycleStart + 1.0 / s.rate) time := by
  unfold roomTo
  rw [hrun]

/-- There is as much room where the ends of cycles are the same. -/
theorem SameEnds.roomTo (h : SameEnds s t) (time : Float) : t.roomTo time = s.roomTo time := by
  have hstart := h.start
  cases hrun : s.run with
  | none =>
      rw [hrun, Option.map_none, Option.map_eq_none_iff] at hstart
      unfold Scheduler.roomTo
      rw [hrun, hstart]
  | some run =>
      rw [hrun] at hstart
      obtain ⟨run', hrun', hsame⟩ := Option.map_eq_some_iff.mp hstart
      rw [roomTo_of_run hrun, roomTo_of_run hrun', h.rate]
      exact congrArg (fun start => Double.countTo (start + 1.0 / s.rate) time) hsame

/-- Putting the end of the cycle on the clock does not move it. -/
theorem roomTo_armed (s : Scheduler) (time : Float) : s.armed.roomTo time = s.roomTo time := by
  cases hrun : s.run with
  | none =>
      unfold armed
      rw [hrun]
  | some run =>
      rw [roomTo_of_run hrun, roomTo_of_run ((run_armed s).trans hrun), (sameCourse_armed s).rate]

/-- In the next cycle there is room from its own end on. -/
theorem roomTo_turned (s : Scheduler) (run : Run) (time : Float) :
    (s.turned run).roomTo time = Double.countTo
      (run.cycleStart + 1.0 / s.rate + 1.0 / s.pendingRate.getD s.rate) time := rfl

/-- There is no more room from the end of the next cycle on than from that of the
present one. -/
theorem roomTo_turned_le (h : s.Foremost) {run : Run} (hrun : s.run = some run) (time : Float) :
    (s.turned run).roomTo time ≤ s.roomTo time := by
  rw [roomTo_of_run hrun, roomTo_turned]
  by_cases hreached : run.cycleStart + 1.0 / s.rate + 1.0 / s.pendingRate.getD s.rate ≤ time
  · exact Double.countTo_le
      (Double.le_add (Double.zero_le_inverse h.next) (Double.le_self_of_le hreached).1)
  · rw [Double.countTo_of_not_le hreached]
    exact Nat.zero_le _

/-- If the next cycle ends by a time, there are fewer doubles from its end on, unless its
length is rounded away. -/
theorem roomTo_turned_lt (h : s.Foremost) {run : Run} (hrun : s.run = some run)
    (hreached : run.cycleStart + 1.0 / s.rate + 1.0 / s.pendingRate.getD s.rate ≤ time) :
    (s.turned run).roomTo time < s.roomTo time ∨ run.cycleStart + 1.0 / s.rate ≤ time ∧
      run.cycleStart + 1.0 / s.rate + 1.0 / s.pendingRate.getD s.rate ≤
        run.cycleStart + 1.0 / s.rate := by
  have hlater := Double.le_add (Double.zero_le_inverse h.next) (Double.le_self_of_le hreached).1
  have hstop := Double.le_trans hlater hreached
  by_cases hlt : run.cycleStart + 1.0 / s.rate <
      run.cycleStart + 1.0 / s.rate + 1.0 / s.pendingRate.getD s.rate
  · rw [roomTo_of_run hrun, roomTo_turned]
    exact .inl (Double.countTo_lt hlt hstop)
  · exact .inr ⟨hstop, Double.le_of_not_lt (Double.le_self_of_le hlater).1
      (Double.le_self_of_le hreached).1 hlt⟩

/-- The timer for the end of the next cycle counts if that is due. -/
theorem countLive_turned (s : Scheduler) (run : Run) (bookings : List Booking) (time : Float) :
    ((s.turned run).bookAll bookings).armed.countLive (s.endsDue time) =
      s.countLive (s.endsDue time) +
        if run.cycleStart + 1.0 / s.rate + 1.0 / s.pendingRate.getD s.rate ≤ time then 1 else 0 := by
  obtain ⟨pending, hpending⟩ := run_bookAll (s := s.turned run) rfl bookings
  have hcourse := sameCourse_bookAll (s.turned run) bookings
  rw [countLive_armed hpending, countLive_bookAll (s.endsDue_of_fire time), hcourse.rate,
    hcourse.generation]
  change s.countLive (s.endsDue time) + _ = _
  congr 1
  refine if_congr ?_ rfl rfl
  change (decide _ && (Task.boundary s.generation == Task.boundary s.generation)) = true ↔ _
  rw [beq_self_eq_true, Bool.and_true, decide_eq_true_eq]
  rfl

/-- Each cycle that ends takes one from the bound, unless its length is rounded away. -/
theorem stuck_or_endsLeft (h : s.Foremost) {v : Timer Task}
    (hnext : s.clock.next? time = some v) :
    s.Stuck time ∨
      (s.rung v).cycle + (s.rung v).endsLeft time ≤ s.cycle + s.endsLeft time := by
  have hgoing := sameEnds_going s v
  have hforemost := hgoing.foremost h
  have hroom := hgoing.roomTo time
  have hends := endsDue_of_generation hgoing.generation time
  unfold endsLeft
  rcases rung_cases s v with ⟨hsame, hcycle, hclock⟩ | ⟨run, hrun, htask, hcycle, hrung⟩
  · have hlive := countLive_going_le (p := s.endsDue time) s v
    have hcount : (s.rung v).countLive ((s.rung v).endsDue time) =
        (s.going v).countLive (s.endsDue time) := by
      rw [endsDue_of_generation hsame.generation]
      unfold countLive
      rw [hclock]
    rw [hcycle, hsame.roomTo, hcount]
    right
    omega
  · have hlive : (s.going v).countLive (s.endsDue time) < s.countLive (s.endsDue time) := by
      refine countLive_going (live_of_next? hnext) ?_
      unfold endsDue
      rw [htask, beq_self_eq_true, Bool.and_true]
      exact decide_eq_true (Clock.due_of_next? hnext)
    have hturned := roomTo_turned_le hforemost hrun time
    rcases hrung with hrung | ⟨_, bookings, -, hrung⟩
    · have hcount : (s.rung v).countLive ((s.rung v).endsDue time) =
          (s.going v).countLive (s.endsDue time) := by
        rw [endsDue_of_generation hrung.generation]
        unfold countLive
        rw [hrung.clock]
        rfl
      rw [hcycle, hrung.sameEnds.roomTo, hcount]
      right
      omega
    · have hroom' : (s.rung v).roomTo time = ((s.going v).turned run).roomTo time := by
        rw [hrung.sameEnds.roomTo, roomTo_armed, (sameEnds_bookAll _ bookings).roomTo]
      have hcount : (s.rung v).countLive ((s.rung v).endsDue time) =
          (s.going v).countLive (s.endsDue time) +
            if run.cycleStart + 1.0 / s.rate + 1.0 / s.pendingRate.getD s.rate ≤ time
            then 1 else 0 := by
        have hgeneration : (s.rung v).generation = s.generation := hrung.generation.trans
          ((sameCourse_armed _).generation.trans (sameCourse_bookAll _ bookings).generation)
        rw [endsDue_of_generation hgeneration, ← hends]
        unfold countLive
        rw [hrung.clock]
        exact countLive_turned (s.going v) run bookings time
      rw [hcycle, hroom', hcount]
      by_cases hreached : run.cycleStart + 1.0 / s.rate + 1.0 / s.pendingRate.getD s.rate ≤ time
      · rw [if_pos hreached]
        rcases roomTo_turned_lt hforemost hrun hreached with hlt | ⟨hstop, haway⟩
        · right
          omega
        · exact .inl ⟨run, v, hrun, hnext, htask, hstop, haway⟩
      · rw [if_neg hreached]
        right
        omega

/-- No more cycles end by a time than there is room for, before one comes whose length is
rounded away. -/
theorem cycle_le (htimed : s.Timed) (h : s.Foremost) (time : Float) (n : Nat)
    (hfree : ∀ k < n, ¬ (afterAll (stepsWithin k time s) s).Stuck time) :
    (afterAll (stepsWithin n time s) s).cycle ≤ s.cycle + s.endsLeft time := by
  induction n generalizing s with
  | zero => exact Int.le_add_of_nonneg_right (Int.natCast_nonneg _)
  | succ n ih =>
      cases hnext : s.clock.next? time with
      | none =>
          rw [stepsWithin_none hnext]
          exact Int.le_add_of_nonneg_right (Int.natCast_nonneg _)
      | some v =>
          have hstep := (stuck_or_endsLeft h hnext).resolve_left (hfree 0 (Nat.succ_pos n))
          cases houtcome : (perform v.task).outcome (s.going v) with
          | error e =>
              rw [stepsWithin_error hnext houtcome, afterAll_rung htimed hnext]
              change (s.rung v).cycle ≤ _
              omega
          | ok _ =>
              have hlater := ih (timed_rung htimed v) (foremost_rung h v) fun k hk => by
                have hnot := hfree (k + 1) (Nat.succ_lt_succ hk)
                rwa [stepsWithin_ok hnext houtcome, afterAll_rung htimed hnext] at hnot
              rw [stepsWithin_ok hnext houtcome, afterAll_rung htimed hnext]
              omega

/-! ## Lengths that are not rounded away -/

/-- Whether the length of the next cycle makes a difference to every double from the end
of the present one to a time. -/
def Clear (s : Scheduler) (time : Float) : Prop :=
  ∀ run, s.run = some run → ∀ x, run.cycleStart + 1.0 / s.rate ≤ x → x ≤ time →
    x < x + 1.0 / s.pendingRate.getD s.rate

/-- A length that makes a difference is not rounded away. -/
theorem Clear.not_stuck (h : s.Clear time) : ¬ s.Stuck time := by
  rintro ⟨run, t, hrun, -, -, hstop, haway⟩
  have hlt := h run hrun _ (Double.le_self_of_le hstop).1 hstop
  exact Double.lt_irrefl _ (Double.lt_of_lt_of_le hlt haway)

/-- Lengths make a difference where the ends of cycles are the same. -/
theorem SameEnds.clear (h : SameEnds s t) (hs : s.Clear time) : t.Clear time := by
  intro run hrun x hlow hhigh
  have hstart := h.start
  rw [hrun] at hstart
  obtain ⟨before, hbefore, hsame⟩ := Option.map_eq_some_iff.mp hstart.symm
  dsimp only at hsame
  rw [h.rate, h.pendingRate] at *
  rw [← hsame] at hlow
  exact hs before hbefore x hlow hhigh

/-- In the next cycle lengths make a difference from a later end on. -/
theorem clear_turned (hforemost : s.Foremost) (h : s.Clear time) {run : Run}
    (hrun : s.run = some run) : (s.turned run).Clear time := by
  intro next hnext x hlow hhigh
  obtain rfl := Option.some.inj hnext
  exact h run hrun x (Double.le_of_add_le (Double.zero_le_inverse hforemost.next) hlow) hhigh

/-- Lengths make a difference once the end of the cycle is on the clock. -/
theorem clear_armed (h : s.Clear time) : s.armed.Clear time := by
  intro run hrun
  rw [run_armed] at hrun
  rw [(sameCourse_armed s).rate, (sameCourse_armed s).pendingRate]
  exact h run hrun

/-- No task takes that away, whether it sounds an event or passes the end of a cycle. -/
theorem clear_perform (h : s.Foremost ∧ s.Clear time) (task : Task) :
    ((perform task).after s).Foremost ∧ ((perform task).after s).Clear time :=
  perform_of_ends (P := fun s => s.Foremost ∧ s.Clear time)
    (fun hsame h => ⟨hsame.foremost h.1, hsame.clear h.2⟩)
    (fun hrun h => ⟨foremost_turned h.1 hrun, clear_turned h.1 h.2 hrun⟩)
    (fun h => ⟨foremost_armed h.1, clear_armed h.2⟩) h task

/-- While lengths are not rounded away, none is. -/
theorem Clear.free (hclear : s.Clear time) (htimed : s.Timed) (h : s.Foremost) (n : Nat) :
    ¬ (afterAll (stepsWithin n time s) s).Stuck time := by
  have hkept : s.Foremost ∧ s.Clear time →
      ((advanceWithin n time).after s).Foremost ∧ ((advanceWithin n time).after s).Clear time :=
    advanceWithin_related (R := fun s t => s.Foremost ∧ s.Clear time → t.Foremost ∧ t.Clear time)
      (fun _ h => h) (fun hst htu h => htu (hst h)) (fun _ _ h => ⟨⟨h.1.1, h.1.2, h.1.3⟩, h.2⟩)
      (fun s t _ h =>
        have hexpired := sameEnds_expired s t.id
        clear_perform ⟨hexpired.foremost h.1, hexpired.clear h.2⟩ t.task)
      n time s
  rw [afterAll_stepsWithin n time htimed]
  exact (hkept ⟨h, hclear⟩).2.not_stuck

/-! ## The timer for the next end -/

/-- A timer waits for the end of the next cycle, one that was not made before.  It is
the one that is known. -/
structure Rearmed (s : Scheduler) (run : Run) (after : Scheduler) (u : Timer Task) : Prop where
  live : u ∈ after.clock.live
  known : after.boundary = some u.id
  fresh : s.clock.timers.length ≤ u.id
  task : u.task = .boundary s.generation
  due : u.due = run.cycleStart + 1.0 / s.rate + 1.0 / s.pendingRate.getD s.rate

/-- A boundary whose next cycle can be found has a timer made for the end of that
cycle. -/
theorem rearmed_passBoundary {run : Run} (hrun : s.run = some run) {events : List Event}
    (hquery : s.performance.query run.pattern (run.cycleIndex + 1) none = .ok events) :
    ∃ u, Rearmed s run ((passBoundary s.generation).after s) u := by
  obtain ⟨bookings, hplan⟩ := Performance.plan_eq_ok hquery (run.cycleStart + 1.0 / s.rate)
    (s.pendingRate.getD s.rate) none
  have hpassed := passBoundary_ok hrun hplan
  obtain ⟨pending, hpending⟩ := run_bookAll (s := s.turned run) rfl bookings
  have hbooked := sameCourse_bookAll (s.turned run) bookings
  refine ⟨⟨((s.turned run).bookAll bookings).clock.timers.length,
    run.cycleStart + 1.0 / s.rate + 1.0 / s.pendingRate.getD s.rate, .boundary s.generation, true⟩,
    ?_, ?_, ?_, rfl, rfl⟩
  · rw [hpassed.clock, armed_of_run hpending, Clock.live_arm, hbooked.rate, hbooked.generation]
    exact List.mem_append_right _ List.mem_cons_self
  · rw [hpassed.boundary, armed_of_run hpending]
  · rw [bookAll_eq]
    simp only [List.length_append]
    exact Nat.le_add_right _ _

/-- So has whatever ends the cycle, a timer in turn or one out of turn. -/
theorem rearmed_next {o : Occurrence} (htimed : s.Timed) (ho : o.EndsCycle s) {run : Run}
    (hrun : s.run = some run) {events : List Event}
    (hquery : s.performance.query run.pattern (run.cycleIndex + 1) none = .ok events) :
    ∃ u, Rearmed s run (o.next s) u := by
  rcases next_of_endsCycle htimed ho with hpoke | ⟨timer, hring⟩
  · rw [hpoke]
    exact rearmed_passBoundary hrun hquery
  · rw [hring]
    obtain ⟨u, hlive, hknown, hfresh, htask, hdue⟩ :=
      rearmed_passBoundary (s := s.expired timer) hrun hquery
    refine ⟨u, hlive, hknown, ?_, htask, hdue⟩
    change (s.clock.settle timer).timers.length ≤ u.id at hfresh
    unfold Clock.settle at hfresh
    rwa [List.length_map] at hfresh

/-- **Ends of cycles**: while a cycle is played that began at a finite time, and whose
rate and the next one were accepted, a timer for its end that goes off, in turn or out of
turn, has another one made for the end of the next cycle if that can be found.  That is
due as long after the present end as the next cycle takes, so never before this timer,
and later and at a finite time if there is room for that among the doubles.  It is due
when this timer was only if the length is rounded away.

Moving the clock to any time ends after finitely many timers.  On the way no more cycles
end than there are doubles from the present end to that time, and timers that wait for
an end already, before one comes whose length is rounded away.  None does if that length
makes a difference to every double up to that time. -/
theorem boundaries_onward (perf : Performance) (policy : Policy) (sounder : Sounder)
    (listener : Option Listener) {given : Value} {rate : Float}
    (haccepted : checkRate given = .ok rate) (now : Float) (past : List Occurrence)
    {s : Scheduler} {run : Run}
    (hs : afterAll past (initial perf policy sounder listener rate now) = s)
    (hrun : s.run = some run) (hfinite : Double.isFinite run.cycleStart = true) :
    let stop := run.cycleStart + 1.0 / s.rate
    let length := 1.0 / s.pendingRate.getD s.rate
    (∀ v ∈ s.clock.timers, v.task = .boundary s.generation → ∀ o : Occurrence,
      (o = .ring v.id ∧ v.waiting = true ∨ o = .poke v.id) → ∀ events,
      s.performance.query run.pattern (run.cycleIndex + 1) none = .ok events →
      ∃ u, Rearmed s run (o.next s) u ∧ v.due ≤ stop ∧ stop ≤ u.due ∧
        (¬ v.due < u.due → u.due ≤ stop) ∧
        (Double.Room stop length → v.due < u.due ∧ Double.isFinite u.due = true)) ∧
      ∀ time, s.EndsBy time ∧
        (∀ n, (∀ k < n, ¬ (afterAll (stepsWithin k time s) s).Stuck time) →
          (afterAll (stepsWithin n time s) s).cycle ≤ s.cycle + s.endsLeft time) ∧
        (s.Clear time → ∀ n, ¬ (afterAll (stepsWithin n time s) s).Stuck time) := by
  intro stop length
  have htimed : s.Timed := hs ▸ timed_afterAll perf policy sounder listener rate now past
  have hforemost : s.Foremost :=
    hs ▸ foremost_afterAll perf policy sounder listener (pos_of_checkRate haccepted) now past
  refine ⟨fun v hv htask o ho events hquery => ?_,
    fun time => ⟨endsBy s time, cycle_le htimed hforemost time,
      fun hclear => hclear.free htimed hforemost⟩⟩
  obtain ⟨u, hrearmed⟩ := rearmed_next htimed ⟨v, hv, htask, ho⟩ hrun hquery
  have hnumber : stop ≤ stop :=
    Double.add_of_isFinite hfinite (Double.zero_le_inverse hforemost.rate)
  have hreached : v.due ≤ stop := hforemost.last run hrun hnumber v hv htask
  have honward : stop ≤ u.due := by
    have hlength := Double.zero_le_inverse hforemost.next
    have hbegun := Double.le_add (Double.zero_le_inverse hforemost.rate) hnumber
    rw [hrearmed.due]
    exact Double.le_add hlength (Double.add_of_le hfinite hbegun hlength)
  refine ⟨u, hrearmed, hreached, honward, fun hnot => ?_, fun hroom => ?_⟩
  · refine Double.le_of_not_lt hnumber (Double.le_self_of_le honward).2 fun hlt => ?_
    exact hnot (Double.lt_of_le_of_lt hreached hlt)
  · obtain ⟨hlt, hfinite'⟩ := hroom.add
    rw [hrearmed.due]
    exact ⟨Double.lt_of_le_of_lt hreached hlt, hfinite'⟩

/-- A note at one cycle per second.  When its first cycle ends, the next end is awaited
at a later time, and no length is rounded away within three seconds. -/
theorem boundaries_onward_note :
    let s := afterAll [.start (.pattern (.leaf (.text "a"))) none]
      (initial .default Policy.roundRobin ⟨none, fun _ _ => .sounded⟩ none 1.0 0.0)
    checkRate (.number (.float 1.0)) = .ok 1.0 ∧ ∃ run, s.run = some run ∧
      Double.isFinite run.cycleStart = true ∧
      (∃ v ∈ s.clock.live, v.task = .boundary s.generation ∧
        ∃ u, Rearmed s run ((Occurrence.ring v.id).next s) u ∧ v.due < u.due ∧
          Double.isFinite u.due = true) ∧
      s.Clear 3.0 ∧ s.EndsBy 3.0 ∧
      ∀ n, (afterAll (stepsWithin n 3.0 s) s).cycle ≤ s.cycle + s.endsLeft 3.0 := by
  intro s
  have haccepted : checkRate (.number (.float 1.0)) = .ok 1.0 := by rfl
  have hfields : s.run.map (fun run => (Double.isFinite run.cycleStart,
      Double.toRat? (run.cycleStart + 1.0 / s.rate),
      Double.toRat? (1.0 / s.pendingRate.getD s.rate),
      (s.performance.query run.pattern (run.cycleIndex + 1) none).toOption.isSome)) =
      some (true, some 1, some 1, true) := by decide +kernel
  have htimer : s.clock.timers[1]?.map (fun v => (v.id, v.task, v.waiting)) =
      some (1, .boundary s.generation, true) := by decide +kernel
  have htwo : Double.toRat? 2.0 = some 2 := by decide +kernel
  have hthree : Double.toRat? 3.0 = some 3 := by decide +kernel
  have hfour : Double.toRat? 4.0 = some 4 := by decide +kernel
  obtain ⟨run, hrun, hfields⟩ := Option.map_eq_some_iff.mp hfields
  obtain ⟨v, hget, htimer⟩ := Option.map_eq_some_iff.mp htimer
  simp only [Prod.mk.injEq] at hfields htimer
  obtain ⟨hfinite, hstop, hlength, hsome⟩ := hfields
  obtain ⟨hid, htask, hwaiting⟩ := htimer
  obtain ⟨events, hquery⟩ := ok_of_isSome hsome
  have hv : v ∈ s.clock.timers := List.mem_of_getElem? hget
  have hclear : s.Clear 3.0 := by
    intro run' hrun' x hlow hhigh
    obtain rfl := Option.some.inj (hrun.symm.trans hrun')
    have hx := Double.toRat?_eq (Double.isFinite_of_between (Double.isFinite_of_toRat? hstop)
      (Double.isFinite_of_toRat? hthree) hlow hhigh)
    have hone := Double.toRat?_le hstop hx hlow
    have hupper := Double.toRat?_le hx hthree hhigh
    refine Double.Room.add ?_ |>.1
    rcases lt_or_ge (Double.value (Double.unpacked x)) 2 with hlt | hge
    · exact ⟨2.0, 4.0, _, _, _, _, hx, hlength, htwo, hfour, hlt, by linarith, by linarith⟩
    · rcases lt_or_eq_of_le hupper with hlt | heq
      · exact ⟨3.0, 4.0, _, _, _, _, hx, hlength, hthree, hfour, hlt, by linarith, by linarith⟩
      · exact ⟨4.0, 4.0, _, _, _, _, hx, hlength, hfour, hfour, by linarith, by linarith,
          by linarith⟩
  obtain ⟨hrearms, hmoves⟩ := boundaries_onward .default Policy.roundRobin
    ⟨none, fun _ _ => .sounded⟩ none haccepted 0.0 [.start (.pattern (.leaf (.text "a"))) none]
    (s := s) rfl hrun hfinite
  obtain ⟨u, hrearmed, -, -, -, hroom⟩ :=
    hrearms v hv htask (.ring v.id) (.inl ⟨rfl, hwaiting⟩) events hquery
  obtain ⟨hends, hbound, hfree⟩ := hmoves 3.0
  obtain ⟨hlater, hfinite'⟩ := hroom ⟨2.0, 2.0, 1, 1, 2, 2, hstop, hlength, htwo, htwo,
    by norm_num, by norm_num, by norm_num⟩
  exact ⟨haccepted, run, hrun, hfinite, ⟨v, List.mem_filter.mpr ⟨hv, hwaiting⟩, htask, u, hrearmed,
    hlater, hfinite'⟩, hclear, hends, fun n => hbound n fun k _ => hfree hclear k⟩

/-- At a time from which on doubles are two seconds apart, a cycle that takes one second
ends when it begins.  The timer for its end has another one made for the same time. -/
theorem boundary_rounded_away :
    let s := afterAll [.start (.pattern (.leaf (.text "a"))) none]
      (initial .default Policy.roundRobin ⟨none, fun _ _ => .sounded⟩ none 1.0 9007199254740992.0)
    checkRate (.number (.float 1.0)) = .ok 1.0 ∧ ∃ run, s.run = some run ∧
      Double.isFinite run.cycleStart = true ∧
      ∃ v ∈ s.clock.live, v.task = .boundary s.generation ∧
        ∃ u ∈ ((Occurrence.ring v.id).next s).clock.live,
          ((Occurrence.ring v.id).next s).boundary = some u.id ∧ u.id ≠ v.id ∧
          u.task = .boundary s.generation ∧ Double.isFinite u.due = true ∧ ¬ v.due < u.due := by
  intro s
  have hstart : s.run.map (fun run => Double.isFinite run.cycleStart) = some true := by
    decide +kernel
  have hending : s.clock.timers[1]?.map (fun v => (v.id, v.task, v.waiting, Double.toRat? v.due)) =
      some (1, .boundary s.generation, true, some 9007199254740992) := by decide +kernel
  have hknown : ((Occurrence.ring 1).next s).boundary = some 3 := by decide +kernel
  have hnext : ((Occurrence.ring 1).next s).clock.timers[3]?.map
      (fun u => (u.id, u.task, u.waiting, Double.toRat? u.due)) =
      some (3, .boundary s.generation, true, some 9007199254740992) := by decide +kernel
  obtain ⟨run, hrun, hfinite⟩ := Option.map_eq_some_iff.mp hstart
  obtain ⟨v, hget, hv⟩ := Option.map_eq_some_iff.mp hending
  obtain ⟨u, hget', hu⟩ := Option.map_eq_some_iff.mp hnext
  simp only [Prod.mk.injEq] at hv hu
  obtain ⟨hid, htask, hwaiting, hdue⟩ := hv
  obtain ⟨hid', htask', hwaiting', hdue'⟩ := hu
  refine ⟨rfl, run, hrun, hfinite, v, List.mem_filter.mpr ⟨List.mem_of_getElem? hget, hwaiting⟩,
    htask, ?_⟩
  rw [hid]
  refine ⟨u, List.mem_filter.mpr ⟨List.mem_of_getElem? hget', hwaiting'⟩, ?_, by omega, htask',
    Double.isFinite_of_toRat? hdue', ?_⟩
  · rw [hknown, hid']
  · exact fun hlt => absurd (Double.toRat?_lt hdue hdue' hlt) (lt_irrefl _)

end Scheduler

end Ostinato
