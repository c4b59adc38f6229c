import Ostinato.Proofs.Number.Nearest
import Ostinato.Proofs.Rendering.Confinement
import Ostinato.Proofs.Scheduler.Effects

/-!
# Ostinato.Proofs.Scheduler.Bookings

How a cycle gets on the clock.

A booking binds an event to clock times.  The plan of a cycle has a booking
for each of its onsets, in order, and a plan fails only where the query for
the cycle fails (`plan_eq_ok`).  Scheduling a cycle makes its bookings, one
after another, or changes nothing (`scheduleCycle_ok`, `scheduleCycle_error`).
With this, starting a pattern and passing a cycle boundary come down to
equations.
-/

namespace Ostinato

/-- An event bound to clock times. -/
structure Booking where
  event : Event
  cycle : Int
  fireTime : Float
  duration : Float

/-- What an event is scheduled for. -/
def Scheduled.booking (item : Scheduled) : Booking :=
  ⟨item.event, item.cycle, item.fireTime, item.duration⟩

@[simp] theorem Scheduled.booking_fated (id : Nat) (fate : Fate) (item : Scheduled) :
    (item.fated id fate).booking = item.booking := by
  unfold fated
  split <;> rfl

namespace Booking

/-- The clock times of an event of a cycle that begins at `cycleStart`. -/
def of (cycle : Int) (cycleStart rate : Float) (e : Event) : Except Fault Booking := do
  let start ← (Number.ratio e.active.start).toFloat
  let length ← (Number.ratio e.duration).toFloat
  return ⟨e, cycle, cycleStart + start / rate, length / rate⟩

/-- Every event inside a cycle has clock times. -/
theorem of_unit {e : Event} (hcut : e.WellCut) (hpos : 0 ≤ e.active.start)
    (hle : e.active.stop ≤ 1) (cycle : Int) (cycleStart rate : Float) :
    ∃ b, of cycle cycleStart rate e = .ok b := by
  have hlt := hcut.pos
  obtain ⟨start, hstart⟩ := Number.toFloat_unit hpos (by linarith)
  have hduration : 0 ≤ e.duration ∧ e.duration ≤ 1 := by
    unfold Event.duration Span.length
    constructor <;> linarith
  obtain ⟨length, hlength⟩ := Number.toFloat_unit hduration.1 hduration.2
  unfold of
  rw [hstart, hlength]
  exact ⟨_, rfl⟩

/-- A booking keeps its event and the number of its cycle. -/
theorem event_of {cycle : Int} {cycleStart rate : Float} {e : Event} {b : Booking}
    (h : of cycle cycleStart rate e = .ok b) : b.event = e ∧ b.cycle = cycle := by
  obtain ⟨start, -, hrest⟩ := bind_ok h
  obtain ⟨length, -, hb⟩ := bind_ok hrest
  rw [← Except.ok.inj hb]
  exact ⟨rfl, rfl⟩

end Booking

/-- A mapping succeeds if it does so on each item. -/
theorem mapM_eq_ok {α β : Type} {f : α → Except Fault β} {as : List α}
    (h : ∀ a ∈ as, ∃ b, f a = .ok b) : ∃ bs, as.mapM f = .ok bs := by
  induction as with
  | nil => exact ⟨[], rfl⟩
  | cons a as ih =>
      obtain ⟨b, hb⟩ := h a List.mem_cons_self
      obtain ⟨bs, hbs⟩ := ih fun a' ha' => h a' (List.mem_cons_of_mem a ha')
      rw [List.mapM_cons, hb, hbs]
      exact ⟨b :: bs, rfl⟩

/-- The bookings for a cycle of a pattern: its onsets, those after a time if
one is given. -/
def Performance.plan (perf : Performance) (p : Pattern) (cycle : Int) (cycleStart rate : Float)
    (after : Option Rat) : Except Fault (List Booking) := do
  let events ← perf.query p cycle none
  (Scheduler.dueEvents events after).mapM (Booking.of cycle cycleStart rate)

/-- A cycle can be planned if its events can be found. -/
theorem Performance.plan_eq_ok {perf : Performance} {p : Pattern} {cycle : Int}
    {events : List Event} (h : perf.query p cycle none = .ok events) (cycleStart rate : Float)
    (after : Option Rat) : ∃ bookings, perf.plan p cycle cycleStart rate after = .ok bookings := by
  unfold plan
  rw [h]
  refine mapM_eq_ok fun e he => ?_
  obtain ⟨hcut, hpos, hle⟩ := perf.laid_query h e (List.mem_of_mem_filter he)
  exact Booking.of_unit hcut hpos hle cycle cycleStart rate

/-- A plan fails where and as the query does. -/
theorem Performance.plan_eq_error_iff {perf : Performance} {p : Pattern} {cycle : Int}
    {cycleStart rate : Float} {after : Option Rat} {cause : Fault} :
    perf.plan p cycle cycleStart rate after = .error cause ↔
      perf.query p cycle none = .error cause := by
  cases hquery : perf.query p cycle none with
  | error cause' =>
      unfold plan
      rw [hquery]
      exact ⟨fun h => congrArg Except.error (Except.error.inj h),
        fun h => congrArg Except.error (Except.error.inj h)⟩
  | ok events =>
      obtain ⟨bookings, hbookings⟩ := perf.plan_eq_ok hquery cycleStart rate after
      rw [hbookings]
      exact ⟨nofun, nofun⟩

namespace Scheduler

open Scheduling

/-! ## Making bookings -/

/-- The scheduler with a booking made. -/
def book (s : Scheduler) (b : Booking) : Scheduler := { s with
  items := s.items ++ [⟨s.items.length, b.event, b.cycle, b.fireTime, b.duration,
    s.clock.timers.length, .pending⟩]
  clock := (s.clock.arm b.fireTime (.fire s.items.length)).2
  run := s.run.map fun run => { run with pending := run.pending ++ [s.items.length] } }

/-- The scheduler with some bookings made, in order. -/
def bookAll (s : Scheduler) (bookings : List Booking) : Scheduler := bookings.foldl book s

/-- Booking neither starts nor stops the playing. -/
theorem isRunning_book (s : Scheduler) (b : Booking) : (s.book b).isRunning = s.isRunning := by
  unfold isRunning book
  cases s.run <;> rfl

/-- A scheduler with a cycle plays. -/
theorem isRunning_of_run {s : Scheduler} {run : Run} (hrun : s.run = some run) :
    s.isRunning = true := by
  unfold isRunning
  rw [hrun]
  rfl

/-- The same bookings keep schedulers alike. -/
theorem Alike.bookAll {s t : Scheduler} (h : Alike s t) (bookings : List Booking) :
    Alike (s.bookAll bookings) (t.bookAll bookings) := by
  induction bookings generalizing s t with
  | nil => exact h
  | cons b bookings ih =>
      have hbook : Alike (s.book b) (t.book b) :=
        congrArg (fun u : Scheduler => u.book b) (show s.silent = t.silent from h)
      exact ih hbook

/-- An event that has clock times is put on the clock. -/
theorem schedule_eq {s : Scheduler} {run : Run} {e : Event} {b : Booking}
    (h : Booking.of run.cycleIndex run.cycleStart s.rate e = .ok b) :
    (schedule run e).outcome s = .ok () ∧ (schedule run e).after s = s.book b := by
  obtain ⟨start, hstart, hrest⟩ := bind_ok h
  obtain ⟨length, hlength, hb⟩ := bind_ok hrest
  unfold schedule
  rw [outcome_get_bind, after_get_bind, hstart, hlength]
  rw [← Except.ok.inj hb]
  exact ⟨rfl, rfl⟩

/-- Events that have clock times are put on the clock one after another. -/
theorem forM_schedule {s : Scheduler} {run : Run} {events : List Event} {bookings : List Booking}
    (h : events.mapM (Booking.of run.cycleIndex run.cycleStart s.rate) = .ok bookings) :
    (events.forM (schedule run)).outcome s = .ok () ∧
      (events.forM (schedule run)).after s = s.bookAll bookings := by
  induction events generalizing s bookings with
  | nil =>
      have hnil : [] = bookings := Except.ok.inj h
      rw [← hnil]
      exact ⟨rfl, rfl⟩
  | cons e events ih =>
      rw [List.mapM_cons] at h
      obtain ⟨b, hb, hrest⟩ := bind_ok h
      obtain ⟨bs, hbs, hcons⟩ := bind_ok hrest
      obtain ⟨houtcome, hafter⟩ := schedule_eq hb
      have hlater := ih (s := s.book b) hbs
      rw [← Except.ok.inj hcons]
      constructor
      · change (schedule run e >>= fun _ => events.forM (schedule run)).outcome s = _
        rw [outcome_bind houtcome, hafter]
        exact hlater.1
      · change (schedule run e >>= fun _ => events.forM (schedule run)).after s = _
        rw [after_bind houtcome, hafter]
        exact hlater.2

/-- A cycle that can be planned is booked. -/
theorem scheduleCycle_ok {s : Scheduler} {run : Run} (hrun : s.run = some run) {after : Option Rat}
    {bookings : List Booking}
    (h : s.performance.plan run.pattern run.cycleIndex run.cycleStart s.rate after = .ok bookings) :
    (scheduleCycle after).outcome s = .ok bookings.length ∧
      (scheduleCycle after).after s = s.bookAll bookings := by
  obtain ⟨events, hevents, hbookings⟩ := bind_ok h
  have hlength : (dueEvents events after).length = bookings.length :=
    (forall₂_of_mapM hbookings).length_eq
  obtain ⟨houtcome, hafter⟩ := forM_schedule hbookings
  unfold scheduleCycle
  rw [outcome_get_bind, after_get_bind, hrun]
  simp only [hevents, orFault_ok, pure_bind]
  rw [outcome_bind houtcome, after_bind houtcome, hafter]
  exact ⟨congrArg Except.ok hlength, rfl⟩

/-- A cycle that cannot be planned leaves the scheduler as it is. -/
theorem scheduleCycle_error {s : Scheduler} {run : Run} (hrun : s.run = some run)
    {after : Option Rat} {cause : Fault}
    (h : s.performance.plan run.pattern run.cycleIndex run.cycleStart s.rate after =
      .error cause) :
    (scheduleCycle after).outcome s = .error (.fault cause) ∧
      (scheduleCycle after).after s = s := by
  have hquery := Performance.plan_eq_error_iff.mp h
  unfold scheduleCycle
  rw [outcome_get_bind, after_get_bind, hrun]
  simp only [hquery, orFault_error]
  exact ⟨rfl, rfl⟩

/-! ## The end of a cycle -/

/-- The scheduler with a timer for the end of its cycle. -/
def armed (s : Scheduler) : Scheduler :=
  match s.run with
  | none => s
  | some run => { s with
      clock := (s.clock.arm (run.cycleStart + 1.0 / s.rate) (.boundary s.generation)).2
      boundary := some s.clock.timers.length }

/-- Putting the end of the cycle on the clock does not fail. -/
theorem armBoundary_eq (s : Scheduler) :
    armBoundary.outcome s = .ok () ∧ armBoundary.after s = s.armed := by
  unfold armBoundary armed
  rw [outcome_get_bind, after_get_bind]
  cases s.run <;> exact ⟨rfl, rfl⟩

/-- The timer for the end of the cycle is made without a word to others. -/
theorem silent_armed (s : Scheduler) : s.armed.silent = s.silent.armed := by
  unfold armed
  have hrun : s.silent.run = s.run := rfl
  rw [hrun]
  cases s.run <;> rfl

/-- The timer for the end of the cycle keeps schedulers alike. -/
theorem Alike.armed {s t : Scheduler} (h : Alike s t) : Alike s.armed t.armed := by
  unfold Alike
  rw [silent_armed, silent_armed]
  exact congrArg Scheduler.armed h

/-- The scheduler at the beginning of its next cycle. -/
def turned (s : Scheduler) (run : Run) : Scheduler := { s with
  run := some { run with
    cycleStart := run.cycleStart + 1.0 / s.rate
    cycleIndex := run.cycleIndex + 1 }
  rate := s.pendingRate.getD s.rate
  pendingRate := none }

/-- A boundary that does not belong to what is being played does nothing. -/
theorem passBoundary_stale_eq {s : Scheduler} {generation : Nat}
    (h : s.run = none ∨ generation ≠ s.generation) :
    (passBoundary generation).outcome s = .ok () ∧ (passBoundary generation).after s = s := by
  unfold passBoundary
  rw [outcome_get_bind, after_get_bind]
  cases hrun : s.run with
  | none => exact ⟨rfl, rfl⟩
  | some run =>
      have hne : generation ≠ s.generation := by
        cases h with
        | inl hnone => rw [hrun] at hnone; nomatch hnone
        | inr hne => exact hne
      simp only [bne_iff_ne, ne_eq, hne, not_false_eq_true, if_true, outcome_pure, after_pure,
        and_self]

/-- Without a run, or for another generation, a boundary does nothing. -/
theorem passBoundary_stale {s : Scheduler} {generation : Nat}
    (h : s.run = none ∨ generation ≠ s.generation) : (passBoundary generation).after s = s :=
  (passBoundary_stale_eq h).2

/-- Up to the planning of the next cycle. -/
theorem after_passBoundary {s : Scheduler} {run : Run} (hrun : s.run = some run) :
    ∃ t, Alike t (s.turned run) ∧ (passBoundary s.generation).after s = after (do
      let count ← scheduleCycle none
      armBoundary
      log "cycle" ("cycle=" ++ toString (run.cycleIndex + 1) ++ " events=" ++ toString count) 1)
        t := by
  let moved : Scheduler := { s with
    run := some { run with
      cycleStart := run.cycleStart + 1.0 / s.rate
      cycleIndex := run.cycleIndex + 1 } }
  obtain ⟨hadopted, houtcome⟩ := alike_adoptRate moved
  refine ⟨adoptRate.after moved, hadopted, ?_⟩
  unfold passBoundary
  rw [after_get_bind, hrun]
  simp only [bne_self_eq_false, Bool.false_eq_true, if_false, after_set_bind]
  exact after_bind houtcome

/-- A boundary begins the next cycle. -/
theorem passBoundary_ok {s : Scheduler} {run : Run} (hrun : s.run = some run)
    {bookings : List Booking}
    (h : s.performance.plan run.pattern (run.cycleIndex + 1) (run.cycleStart + 1.0 / s.rate)
      (s.pendingRate.getD s.rate) none = .ok bookings) :
    Alike ((passBoundary s.generation).after s) ((s.turned run).bookAll bookings).armed := by
  obtain ⟨t, ht, hafter⟩ := after_passBoundary hrun
  have hplan : t.performance.plan run.pattern (run.cycleIndex + 1)
      (run.cycleStart + 1.0 / s.rate) t.rate none = .ok bookings := by
    rw [ht.performance, ht.rate]
    exact h
  obtain ⟨houtcome, hbooked⟩ := scheduleCycle_ok ht.run hplan
  rw [hafter, after_bind houtcome, hbooked, after_bind (armBoundary_eq _).1, (armBoundary_eq _).2]
  exact (alike_log _ _ _ _).trans (ht.bookAll bookings).armed

/-- Where the next cycle cannot be planned, nothing more happens in it. -/
theorem passBoundary_error {s : Scheduler} {run : Run} (hrun : s.run = some run) {cause : Fault}
    (h : s.performance.plan run.pattern (run.cycleIndex + 1) (run.cycleStart + 1.0 / s.rate)
      (s.pendingRate.getD s.rate) none = .error cause) :
    Alike ((passBoundary s.generation).after s) (s.turned run) := by
  obtain ⟨t, ht, hafter⟩ := after_passBoundary hrun
  have hplan : t.performance.plan run.pattern (run.cycleIndex + 1)
      (run.cycleStart + 1.0 / s.rate) t.rate none = .error cause := by
    rw [ht.performance, ht.rate]
    exact h
  obtain ⟨houtcome, hleft⟩ := scheduleCycle_error ht.run hplan
  rw [hafter, after_bind_error houtcome, hleft]
  exact ht

/-! ## The start -/

/-- The scheduler at the beginning of cycle zero. -/
def begun (s : Scheduler) (node : Pattern) (rate : Option Float) : Scheduler := { s with
  rate := rate.getD s.rate
  pendingRate := none
  generation := s.generation + 1
  run := some ⟨node, s.clock.now, 0, []⟩ }

/-- Up to the planning of cycle zero. -/
theorem after_start {s : Scheduler} (hstopped : s.isRunning = false) {v : Value} {node : Pattern}
    (hnode : (coerce v).outcome s = .ok node) {given : Option Value} {rate : Option Float}
    (hrate : given.mapM checkRate = .ok rate) :
    ∃ t, Alike t (s.begun node rate) ∧ (start v given).after s = after (do
      let count ← scheduleCycle none
      armBoundary
      let s ← get
      let shown ← orFault (Value.pattern node).written
      log "scheduler" ("start cps=" ++ Double.text s.rate ++ " events=" ++ toString count ++
        " pattern=" ++ shown) 1) t := by
  have hread := alike_coerce v s
  refine ⟨((coerce v).after s).begun node rate, ?_, ?_⟩
  · exact congrArg (fun u : Scheduler => u.begun node rate)
      (show ((coerce v).after s).silent = s.silent from hread)
  · have hstill : ((coerce v).after s).isRunning = false := by
      unfold isRunning
      rw [hread.run]
      exact hstopped
    unfold start
    rw [after_bind hnode, hrate, orFault_ok, pure_bind, after_get_bind]
    simp only [hstill, Bool.false_eq_true, if_false, after_set_bind]
    rfl

/-- The start of a pattern that can be planned, also where no entry can be made
for it. -/
theorem start_ok {s : Scheduler} (hstopped : s.isRunning = false) {v : Value} {node : Pattern}
    (hnode : (coerce v).outcome s = .ok node) {given : Option Value} {rate : Option Float}
    (hrate : given.mapM checkRate = .ok rate) {bookings : List Booking}
    (h : s.performance.plan node 0 s.clock.now (rate.getD s.rate) none = .ok bookings) :
    Alike ((start v given).after s) ((s.begun node rate).bookAll bookings).armed := by
  obtain ⟨t, ht, hafter⟩ := after_start hstopped hnode hrate
  have hplan : t.performance.plan node 0 s.clock.now t.rate none = .ok bookings := by
    rw [ht.performance, ht.rate]
    exact h
  obtain ⟨houtcome, hbooked⟩ := scheduleCycle_ok ht.run hplan
  rw [hafter, after_bind houtcome, hbooked, after_bind (armBoundary_eq _).1, (armBoundary_eq _).2,
    after_get_bind]
  refine Alike.trans ?_ (ht.bookAll bookings).armed
  unfold Value.written
  cases (Value.pattern node).isWritable with
  | true => exact alike_log _ _ _ _
  | false => exact Alike.refl _

/-- Where cycle zero cannot be planned, the scheduler is left at its
beginning. -/
theorem start_error {s : Scheduler} (hstopped : s.isRunning = false) {v : Value} {node : Pattern}
    (hnode : (coerce v).outcome s = .ok node) {given : Option Value} {rate : Option Float}
    (hrate : given.mapM checkRate = .ok rate) {cause : Fault}
    (h : s.performance.plan node 0 s.clock.now (rate.getD s.rate) none = .error cause) :
    Alike ((start v given).after s) (s.begun node rate) := by
  obtain ⟨t, ht, hafter⟩ := after_start hstopped hnode hrate
  have hplan : t.performance.plan node 0 s.clock.now t.rate none = .error cause := by
    rw [ht.performance, ht.rate]
    exact h
  obtain ⟨houtcome, hleft⟩ := scheduleCycle_error ht.run hplan
  rw [hafter, after_bind_error houtcome, hleft]
  exact ht

/-- A start that is refused leaves the scheduler as it is. -/
theorem start_refused {s : Scheduler} {v : Value} {given : Option Value}
    (h : s.isRunning = true ∨ (∃ e, (coerce v).outcome s = .error e) ∨
      ∃ cause, given.mapM checkRate = .error cause) :
    Alike ((start v given).after s) s := by
  have hread := alike_coerce v s
  unfold start
  cases hnode : (coerce v).outcome s with
  | error e =>
      rw [after_bind_error hnode]
      exact hread
  | ok node =>
      rw [after_bind hnode]
      cases hrate : given.mapM checkRate with
      | error cause =>
          rw [orFault_error, after_bind_error rfl]
          exact hread
      | ok rate =>
          have hrunning : s.isRunning = true := by
            rcases h with hrunning | ⟨e, he⟩ | ⟨cause, hcause⟩
            · exact hrunning
            · rw [hnode] at he; nomatch he
            · rw [hrate] at hcause; nomatch hcause
          have hstill : ((coerce v).after s).isRunning = true := by
            unfold isRunning
            rw [hread.run]
            exact hrunning
          rw [orFault_ok, pure_bind, after_get_bind]
          simp only [hstill, if_true]
          exact hread

/-- A start that is not refused is of a scheduler that is stopped, and has a pattern
and a rate that can be read. -/
theorem readable_of_not_refused {v : Value} {given : Option Value} {s : Scheduler}
    (h : ¬ (s.isRunning = true ∨ (∃ e, (coerce v).outcome s = .error e) ∨
      ∃ cause, given.mapM checkRate = .error cause)) :
    s.isRunning = false ∧ ∃ node rate, (coerce v).outcome s = .ok node ∧
      given.mapM checkRate = .ok rate := by
  rw [not_or, not_or] at h
  obtain ⟨hrunning, hread, hrated⟩ := h
  refine ⟨Bool.eq_false_iff.mpr hrunning, ?_⟩
  cases hnode : (coerce v).outcome s with
  | error e => exact absurd ⟨e, hnode⟩ hread
  | ok node =>
      cases hrate : given.mapM checkRate with
      | error cause => exact absurd ⟨cause, hrate⟩ hrated
      | ok rate => exact ⟨node, rate, rfl, rfl⟩

/-! ## What can come of them -/

/-- What a boundary can come to: it is not of this run, or the next cycle is
begun, and planned if that is possible. -/
theorem passBoundary_cases (generation : Nat) (s : Scheduler) :
    (passBoundary generation).after s = s ∨
      ∃ run, s.run = some run ∧ generation = s.generation ∧
        (Alike ((passBoundary generation).after s) (s.turned run) ∨
          ∃ bookings, Alike ((passBoundary generation).after s)
            ((s.turned run).bookAll bookings).armed) := by
  by_cases hstale : s.run = none ∨ generation ≠ s.generation
  · exact .inl (passBoundary_stale hstale)
  · rw [not_or, not_not] at hstale
    obtain ⟨run, hrun⟩ := Option.ne_none_iff_exists'.mp hstale.1
    refine .inr ⟨run, hrun, hstale.2, ?_⟩
    rw [hstale.2]
    cases hplan : s.performance.plan run.pattern (run.cycleIndex + 1)
        (run.cycleStart + 1.0 / s.rate) (s.pendingRate.getD s.rate) none with
    | error cause => exact .inl (passBoundary_error hrun hplan)
    | ok bookings => exact .inr ⟨bookings, passBoundary_ok hrun hplan⟩

/-- What a start can come to: it is refused, or cycle zero is begun, and
planned if that is possible. -/
theorem start_cases (v : Value) (given : Option Value) (s : Scheduler) :
    Alike ((start v given).after s) s ∨
      s.isRunning = false ∧ ∃ node rate,
        (Alike ((start v given).after s) (s.begun node rate) ∨
          ∃ bookings, Alike ((start v given).after s)
            ((s.begun node rate).bookAll bookings).armed) := by
  by_cases hrefused : s.isRunning = true ∨ (∃ e, (coerce v).outcome s = .error e) ∨
      ∃ cause, given.mapM checkRate = .error cause
  · exact .inl (start_refused hrefused)
  · obtain ⟨hstopped, node, rate, hnode, hrate⟩ := readable_of_not_refused hrefused
    refine .inr ⟨hstopped, node, rate, ?_⟩
    cases hplan : s.performance.plan node 0 s.clock.now (rate.getD s.rate) none with
    | error cause => exact .inl (start_error hstopped hnode hrate hplan)
    | ok bookings => exact .inr ⟨bookings, start_ok hstopped hnode hrate hplan⟩

end Scheduler

end Ostinato
