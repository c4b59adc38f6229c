import Mathlib.Data.List.Induction
import Ostinato.Proofs.Scheduler.Books
import Ostinato.Proofs.Scheduler.Tempo

/-!
# Ostinato.Proofs.Scheduler.Playing

A pattern that is left to play is planned cycle by cycle.

1. `Course` — where a scheduler stands that was started with a pattern: which
   cycle it is in, at which tempo, and how many cycles were planned so far, each
   once and as a whole.
2. `Playing` — the present cycle was planned, and one timer waits for its end.
   Whatever happens then keeps this or begins the next cycle (`playing_next`),
   unless the events of a cycle that was reached cannot be found (`Derailed`).
3. `underway_afterAll` — a run after a start, whatever the order in which rates
   are set and timers go off.
-/

namespace Ostinato

namespace Scheduler

open Scheduling

/-! ## What changes leave as it is -/

/-- Booked events come after the others, are pending, and stand for their
bookings. -/
theorem items_bookAll (s : Scheduler) (bookings : List Booking) :
    ∃ items, (s.bookAll bookings).items = s.items ++ items ∧ items.map (·.booking) = bookings ∧
      ∀ item ∈ items, item.fate = .pending := by
  induction bookings generalizing s with
  | nil => exact ⟨[], (List.append_nil _).symm, rfl, fun _ h => absurd h List.not_mem_nil⟩
  | cons b bookings ih =>
      obtain ⟨items, hitems, hbookings, hpending⟩ := ih (s.book b)
      refine ⟨⟨s.items.length, b.event, b.cycle, b.fireTime, b.duration, s.clock.timers.length,
        .pending⟩ :: items, ?_, ?_, ?_⟩
      · change ((s.book b).bookAll bookings).items = _
        rw [hitems]
        unfold book
        rw [List.append_assoc]
        rfl
      · rw [List.map_cons, hbookings]
        rfl
      · intro item hitem
        rw [List.mem_cons] at hitem
        cases hitem with
        | inl hfirst => rw [hfirst]
        | inr hlater => exact hpending item hlater

/-- Bookings change nothing of a run but what is pending. -/
theorem run_bookAll {s : Scheduler} {run : Run} (hrun : s.run = some run)
    (bookings : List Booking) :
    ∃ pending, (s.bookAll bookings).run = some { run with pending := pending } := by
  induction bookings generalizing s run with
  | nil => exact ⟨run.pending, hrun⟩
  | cons b bookings ih =>
      have hbook : (s.book b).run =
          some { run with pending := run.pending ++ [s.items.length] } := by
        unfold book
        rw [hrun]
        rfl
      obtain ⟨pending, hpending⟩ := ih hbook
      exact ⟨pending, hpending⟩

/-- What bookings and a new boundary timer leave as it is. -/
structure SameCourse (s t : Scheduler) : Prop where
  rate : t.rate = s.rate
  pendingRate : t.pendingRate = s.pendingRate
  performance : t.performance = s.performance
  generation : t.generation = s.generation

/-- Bookings leave the course as it is. -/
theorem sameCourse_bookAll (s : Scheduler) (bookings : List Booking) :
    SameCourse s (s.bookAll bookings) := by
  induction bookings generalizing s with
  | nil => exact ⟨rfl, rfl, rfl, rfl⟩
  | cons b bookings ih =>
      have hlater := ih (s.book b)
      exact ⟨hlater.rate, hlater.pendingRate, hlater.performance, hlater.generation⟩

/-- So does the timer for the end of the cycle. -/
theorem sameCourse_armed (s : Scheduler) : SameCourse s s.armed := by
  unfold armed
  cases s.run <;> exact ⟨rfl, rfl, rfl, rfl⟩

/-- The timer for the end of the cycle is no event. -/
theorem items_armed (s : Scheduler) : s.armed.items = s.items := by
  unfold armed
  cases s.run <;> rfl

/-- The tasks of all timers ever made. -/
def tasks (s : Scheduler) : List Task := s.clock.timers.map (·.task)

/-- A timer that stops waiting has the task that it had. -/
theorem tasks_expired (s : Scheduler) (id : Nat) : (s.expired id).tasks = s.tasks := by
  unfold tasks expired Clock.settle
  rw [List.map_map]
  refine List.map_congr_left fun t _ => ?_
  simp only [Function.comp_apply]
  split <;> rfl

/-- Bookings make timers after those that there are. -/
theorem tasks_bookAll (s : Scheduler) (bookings : List Booking) :
    s.tasks <+: (s.bookAll bookings).tasks := by
  induction bookings generalizing s with
  | nil => exact List.prefix_rfl
  | cons b bookings ih =>
      have hbook : s.tasks <+: (s.book b).tasks := by
        unfold tasks book
        rw [Clock.timers_arm, List.map_append]
        exact List.prefix_append _ _
      exact hbook.trans (ih (s.book b))

/-- The timer for the end of the cycle comes after all others. -/
theorem tasks_armed (s : Scheduler) : s.tasks <+: s.armed.tasks := by
  unfold armed
  cases s.run with
  | none => exact List.prefix_rfl
  | some run =>
      unfold tasks
      rw [Clock.timers_arm, List.map_append]
      exact List.prefix_append _ _

/-! ## The course of a run -/

/-- A scheduler that was started with a pattern after `before`, in cycle `k` at
a tempo, when the first `n` cycles were planned. -/
structure Course (before : Scheduler) (p : Pattern) (tempo : Tempo) (k n : Nat) (s : Scheduler) :
    Prop where
  run : ∃ pending, s.run = some ⟨p, tempo.start k, k, pending⟩
  rate : s.rate = tempo.rate k
  /-- The last rate set in this cycle waits for its end. -/
  pendingRate : s.pendingRate = (tempo.set k).getLast?
  ahead : ∀ j, k < j → tempo.set j = []
  performance : s.performance = before.performance
  generation : s.generation = before.generation + 1
  kept : before.items.length ≤ s.items.length
  planned : ∃ plan : Nat → List Booking,
    (∀ j < n, before.performance.plan p j (tempo.start j) (tempo.rate j) none = .ok (plan j)) ∧
    (s.items.drop before.items.length).map (·.booking) = (List.range n).flatMap plan
  uncancelled : ∀ item ∈ s.items.drop before.items.length, item.fate ≠ .cancelled
  timed : s.Timed
  tasks : before.tasks <+: s.tasks

namespace Course

variable {before : Scheduler} {p : Pattern} {tempo : Tempo} {k n : Nat} {s t : Scheduler}

/-- The cycle of a course is the one that is being played. -/
theorem cycle (h : Course before p tempo k n s) : s.cycle = k := by
  obtain ⟨pending, hrun⟩ := h.run
  unfold Scheduler.cycle
  rw [hrun]
  rfl

/-- Schedulers that play alike are on the same course. -/
theorem alike (h : Course before p tempo k n s) (halike : Alike t s) :
    Course before p tempo k n t where
  run := by rw [halike.run]; exact h.run
  rate := by rw [halike.rate]; exact h.rate
  pendingRate := by rw [halike.pendingRate]; exact h.pendingRate
  ahead := h.ahead
  performance := by rw [halike.performance]; exact h.performance
  generation := by rw [halike.generation]; exact h.generation
  kept := by rw [halike.items]; exact h.kept
  planned := by rw [halike.items]; exact h.planned
  uncancelled := by rw [halike.items]; exact h.uncancelled
  timed := halike.symm.steady.timed h.timed
  tasks := by
    unfold Scheduler.tasks
    rw [halike.clock]
    exact h.tasks

/-- Rates that are set wait for the end of the cycle, the last one wins. -/
theorem more (h : Course before p tempo k n s) (hn : n ≤ k + 1) (rates : List Float) :
    Course before p (tempo.more k rates) k n
      { s with pendingRate := (tempo.set k ++ rates).getLast? } where
  run := by rw [tempo.start_more (le_refl k)]; exact h.run
  rate := by rw [tempo.rate_more (le_refl k)]; exact h.rate
  pendingRate := by rw [tempo.set_more]
  ahead := by
    intro j hj
    rw [tempo.set_more_of_ne (by omega)]
    exact h.ahead j hj
  performance := h.performance
  generation := h.generation
  kept := h.kept
  planned := by
    obtain ⟨plan, hplan, hitems⟩ := h.planned
    refine ⟨plan, fun j hj => ?_, hitems⟩
    rw [tempo.start_more (by omega), tempo.rate_more (by omega)]
    exact hplan j hj
  uncancelled := h.uncancelled
  timed := ⟨h.timed.ids, h.timed.generations⟩
  tasks := h.tasks

/-- A timer went off, and its task is not done yet. -/
theorem expired (h : Course before p tempo k n s) (id : Nat) :
    Course before p tempo k n (s.expired id) :=
  { h with
    timed := timed_expired h.timed id
    tasks := by rw [tasks_expired]; exact h.tasks }

/-- The passing of time. -/
theorem atTime (h : Course before p tempo k n s) (now : Float) :
    Course before p tempo k n (s.atTime now) :=
  { h with timed := ⟨h.timed.ids, h.timed.generations⟩ }

/-- Asking the sounder. -/
theorem asked (h : Course before p tempo k n s) (attempt : Attempt) :
    Course before p tempo k n (s.asked attempt) :=
  { h with timed := ⟨h.timed.ids, h.timed.generations⟩ }

/-- An event that is fired stands for the same booking. -/
theorem fired (h : Course before p tempo k n s) (id : Nat) :
    Course before p tempo k n (s.settle id .sounded) where
  run := by
    obtain ⟨pending, hrun⟩ := h.run
    refine ⟨pending.filter (· != id), ?_⟩
    unfold settle
    rw [hrun]
    rfl
  rate := h.rate
  pendingRate := h.pendingRate
  ahead := h.ahead
  performance := h.performance
  generation := h.generation
  kept := by
    unfold settle
    rw [List.length_map]
    exact h.kept
  planned := by
    obtain ⟨plan, hplan, hitems⟩ := h.planned
    refine ⟨plan, hplan, ?_⟩
    unfold settle
    rw [← List.map_drop, List.map_map, ← hitems]
    exact List.map_congr_left fun item _ => Scheduled.booking_fated id .sounded item
  uncancelled := by
    unfold settle
    rw [← List.map_drop]
    intro item hitem
    obtain ⟨x, hx, rfl⟩ := List.mem_map.mp hitem
    by_cases hid : x.id = id
    · rw [Ledger.fate_fated hid]
      exact nofun
    · rw [Ledger.fated_of_ne hid]
      exact h.uncancelled x hx
  timed := (steady_settleFate s id .sounded).timed h.timed
  tasks := h.tasks

/-- The beginning of cycle zero. -/
theorem begun (htimed : before.Timed) (p : Pattern) (rate : Option Float) :
    Course before p ⟨before.clock.now, rate.getD before.rate, fun _ => []⟩ 0 0
      (before.begun p rate) where
  run := ⟨[], rfl⟩
  rate := rfl
  pendingRate := rfl
  ahead := fun _ _ => rfl
  performance := rfl
  generation := rfl
  kept := le_refl _
  planned := by
    refine ⟨fun _ => [], fun j hj => absurd hj (Nat.not_lt_zero j), ?_⟩
    change (before.items.drop before.items.length).map (·.booking) = []
    rw [List.drop_length]
    rfl
  uncancelled := by
    change ∀ item ∈ before.items.drop before.items.length, item.fate ≠ .cancelled
    rw [List.drop_length]
    exact fun item hitem => absurd hitem List.not_mem_nil
  timed := timed_begun htimed p rate
  tasks := List.prefix_rfl

/-- The beginning of the next cycle. -/
theorem turned (h : Course before p tempo k n s) {run : Run} (hrun : s.run = some run) :
    Course before p tempo (k + 1) n (s.turned run) where
  run := by
    obtain ⟨pending, hcourse⟩ := h.run
    rw [hrun, Option.some_inj] at hcourse
    refine ⟨pending, ?_⟩
    unfold Scheduler.turned
    rw [hcourse, h.rate]
    rfl
  rate := by
    change s.pendingRate.getD s.rate = _
    rw [h.pendingRate, h.rate]
    rfl
  pendingRate := by
    rw [h.ahead (k + 1) (Nat.lt_succ_self k)]
    rfl
  ahead := fun j hj => h.ahead j (by omega)
  performance := h.performance
  generation := h.generation
  kept := h.kept
  planned := h.planned
  uncancelled := h.uncancelled
  timed := (steady_turned hrun).timed h.timed
  tasks := h.tasks

/-- The planning of the present cycle. -/
theorem armed (h : Course before p tempo k k s) {bookings : List Booking}
    (hbookings : before.performance.plan p k (tempo.start k) (tempo.rate k) none = .ok bookings) :
    Course before p tempo k (k + 1) (s.bookAll bookings).armed := by
  have hbooked := sameCourse_bookAll s bookings
  have harmed := sameCourse_armed (s.bookAll bookings)
  obtain ⟨items, hitems, hitemsBookings, hpending⟩ := items_bookAll s bookings
  have hdrop : (s.bookAll bookings).armed.items.drop before.items.length =
      s.items.drop before.items.length ++ items := by
    rw [items_armed, hitems, List.drop_append_of_le_length h.kept]
  exact {
    run := by
      obtain ⟨pending, hrun⟩ := h.run
      obtain ⟨more, hmore⟩ := run_bookAll hrun bookings
      refine ⟨more, ?_⟩
      rw [run_armed, hmore]
    rate := by rw [harmed.rate, hbooked.rate, h.rate]
    pendingRate := by rw [harmed.pendingRate, hbooked.pendingRate, h.pendingRate]
    ahead := h.ahead
    performance := by rw [harmed.performance, hbooked.performance, h.performance]
    generation := by rw [harmed.generation, hbooked.generation, h.generation]
    kept := by
      rw [items_armed, hitems, List.length_append]
      exact Nat.le_add_right_of_le h.kept
    planned := by
      obtain ⟨plan, hplan, hplanned⟩ := h.planned
      refine ⟨Function.update plan k bookings, fun j hj => ?_, ?_⟩
      · by_cases hjk : j = k
        · rw [hjk, Function.update_self]
          exact hbookings
        · rw [Function.update_of_ne hjk]
          exact hplan j (by omega)
      · -- the plans of the cycles before are the same
        have hbefore : (List.range k).flatMap (Function.update plan k bookings) =
            (List.range k).flatMap plan := by
          refine List.flatMap_congr fun j hj => Function.update_of_ne ?_ _ _
          exact (List.mem_range.mp hj).ne
        rw [hdrop, List.map_append, hplanned, hitemsBookings, List.range_succ,
          List.flatMap_append, hbefore]
        simp
    uncancelled := by
      rw [hdrop]
      intro item hitem
      rw [List.mem_append] at hitem
      cases hitem with
      | inl hold => exact h.uncancelled item hold
      | inr hnew =>
          rw [hpending item hnew]
          exact nofun
    timed := timed_armed ((steady_bookAll s bookings).timed h.timed)
    tasks := (h.tasks.trans (tasks_bookAll s bookings)).trans (tasks_armed _) }

/-- A timer from before is not for the end of a cycle of this run. -/
theorem task_of_lt (htimed : before.Timed) (h : Course before p tempo k n s) {t : Timer Task}
    (ht : t ∈ s.clock.timers) (hid : t.id < before.clock.timers.length) :
    t.task ≠ .boundary s.generation := by
  intro htask
  obtain ⟨i, hi, hget⟩ := List.mem_iff_getElem.mp ht
  have hti : t.id = i := by
    have hids : (s.clock.timers.map (·.id))[i]? = some i := by
      rw [h.timed.ids, List.getElem?_range hi]
    rw [List.getElem?_map, List.getElem?_eq_getElem hi, hget, Option.map_some,
      Option.some_inj] at hids
    exact hids
  have hbefore : i < before.tasks.length := by
    unfold Scheduler.tasks
    rw [List.length_map, ← hti]
    exact hid
  have hsame : before.tasks[i] = t.task := by
    rw [h.tasks.getElem hbefore]
    unfold Scheduler.tasks
    rw [List.getElem_map, hget]
  have hmem : t.task ∈ before.tasks := by
    rw [← hsame]
    exact List.getElem_mem hbefore
  obtain ⟨u, hu, hutask⟩ := List.mem_map.mp hmem
  rw [htask] at hutask
  have hgeneration := htimed.generations u hu s.generation hutask
  have hnow := h.generation
  omega

end Course

/-! ## Playing -/

/-- A scheduler that was started with a pattern after `before` and plays cycle
`k` at a tempo. -/
structure Playing (before : Scheduler) (p : Pattern) (tempo : Tempo) (k : Nat) (s : Scheduler) :
    Prop extends Course before p tempo k (k + 1) s where
  /-- One timer waits for the end of this cycle; others are from before. -/
  awaited : ∃ stale t, s.awaited = stale ++ [t] ∧ (∀ u ∈ stale, u ∈ before.awaited) ∧
    t.task = .boundary s.generation ∧ t.due = tempo.start k + 1.0 / tempo.rate k

/-- The events of a cycle that was reached cannot be found. -/
def Derailed (before : Scheduler) (p : Pattern) (s : Scheduler) : Prop :=
  ∃ j : Nat, (j : Int) ≤ s.cycle ∧
    ∀ events, before.performance.query p j none ≠ .ok events

variable {before : Scheduler} {p : Pattern} {tempo : Tempo} {k : Nat} {s t : Scheduler}

/-- What cannot be found still cannot be found later. -/
theorem Derailed.later (h : Derailed before p s) (hlater : Later s t) : Derailed before p t := by
  obtain ⟨j, hj, hquery⟩ := h
  exact ⟨j, Int.le_trans hj hlater, hquery⟩

/-- Where a cycle cannot be planned, its events cannot be found. -/
theorem derailed_of_plan {cycleStart rate : Float} {cause : Fault}
    (h : before.performance.plan p k cycleStart rate none = .error cause)
    (hcycle : (k : Int) ≤ s.cycle) : Derailed before p s := by
  refine ⟨k, hcycle, fun events hevents => ?_⟩
  obtain ⟨bookings, hbookings⟩ :=
    before.performance.plan_eq_ok hevents cycleStart rate none
  rw [hbookings] at h
  nomatch h

/-- Once its cycle was planned, a scheduler plays. -/
theorem Course.playing (h : Course before p tempo k k s)
    (hstale : ∀ u ∈ s.awaited, u ∈ before.awaited) {bookings : List Booking}
    (hbookings : before.performance.plan p k (tempo.start k) (tempo.rate k) none = .ok bookings) :
    Playing before p tempo k (s.bookAll bookings).armed where
  toCourse := h.armed hbookings
  awaited := by
    have hbooked := sameCourse_bookAll s bookings
    have harmed := sameCourse_armed (s.bookAll bookings)
    obtain ⟨pending, hrun⟩ := h.run
    obtain ⟨more, hmore⟩ := run_bookAll hrun bookings
    have hawaited := awaited_armed hmore
    rw [awaited_bookAll] at hawaited
    refine ⟨s.awaited, _, hawaited, hstale, ?_, ?_⟩
    · rw [harmed.generation]
    · rw [hbooked.rate, h.rate]

namespace Playing

/-- Schedulers that play alike play the same cycle. -/
theorem alike (h : Playing before p tempo k s) (halike : Alike t s) :
    Playing before p tempo k t where
  toCourse := h.toCourse.alike halike
  awaited := by
    rw [halike.generation]
    unfold Scheduler.awaited
    rw [halike.clock]
    exact h.awaited

/-- The time on the clock is no part of the course. -/
theorem atTime (h : Playing before p tempo k s) (now : Float) :
    Playing before p tempo k (s.atTime now) where
  toCourse := h.toCourse.atTime now
  awaited := h.awaited

/-- Setting a rate, accepted or not. -/
theorem setRate (h : Playing before p tempo k s) (v : Value) :
    Playing before p (tempo.more k (Occurrence.setRate v).rates) k ((setRate v).after s) := by
  obtain ⟨pending, hrun⟩ := h.run
  have hrates : (Occurrence.setRate v).rates = (checkRate v).toOption.toList := rfl
  rw [hrates]
  cases hrate : checkRate v with
  | error cause =>
      have hnone : (Except.error cause : Except Fault Float).toOption.toList = [] := rfl
      rw [setRate_error hrate, hnone, tempo.more_nil]
      exact h
  | ok rate =>
      have hone : (Except.ok rate : Except Fault Float).toOption.toList = [rate] := rfl
      have hmore := h.toCourse.more (le_refl (k + 1)) [rate]
      rw [List.getLast?_concat] at hmore
      rw [hone]
      refine Playing.alike ⟨hmore, ?_⟩ (alike_setRate (isRunning_of_run hrun) hrate)
      rw [tempo.start_more (le_refl k), tempo.rate_more (le_refl k)]
      exact h.awaited

/-- A timer that is not for the end of this cycle went off. -/
theorem expired (h : Playing before p tempo k s) {t : Timer Task} (ht : t ∈ s.clock.live)
    (hother : t.task ≠ .boundary s.generation) : Playing before p tempo k (s.expired t.id) where
  toCourse := h.toCourse.expired t.id
  awaited := by
    obtain ⟨stale, last, hawaited, hstale, htask, hdue⟩ := h.awaited
    have hlast : last ∈ s.awaited := by
      rw [hawaited]
      exact List.mem_append_right _ List.mem_cons_self
    have hid : last.id ≠ t.id := by
      intro hid
      have hsame := h.timed.eq_of_id (mem_timers_of_awaited hlast)
        (List.mem_of_mem_filter ht) hid
      rw [hsame] at htask
      exact hother htask
    refine ⟨stale.filter (·.id != t.id), last, ?_, ?_, htask, hdue⟩
    · rw [awaited_expired, hawaited, List.filter_append]
      simp [hid]
    · exact fun u hu => hstale u (List.mem_of_mem_filter hu)

/-- Firing an event, whatever comes of it. -/
theorem fire (h : Playing before p tempo k s) (id : Nat) :
    Playing before p tempo k ((Scheduler.fire id).after s) := by
  cases hopen : s.isOpen id with
  | false =>
      rw [fire_closed hopen]
      exact h
  | true =>
      obtain ⟨item, hitem, hfate⟩ := isOpen_eq_true.mp hopen
      have hfired : Playing before p tempo k (s.settle id .sounded) :=
        ⟨h.toCourse.fired id, h.awaited⟩
      cases hwritable : item.event.value.isWritable with
      | true =>
          have hasked : Playing before p tempo k ((s.settle id .sounded).asked item.attempt) :=
            ⟨hfired.toCourse.asked item.attempt, hfired.awaited⟩
          exact hasked.alike (fire_writable hitem hfate hwritable)
      | false =>
          rw [fire_unwritable hitem hfate hwritable]
          exact hfired

/-- After the timer for the end of this cycle went off, only timers from before
wait. -/
theorem awaited_boundary (hbefore : before.Timed) (h : Playing before p tempo k s)
    {t : Timer Task} (ht : t ∈ s.clock.live) (hcurrent : t.task = .boundary s.generation) :
    ∀ u ∈ (s.expired t.id).awaited, u ∈ before.awaited := by
  obtain ⟨stale, last, hawaited, hstale, -, -⟩ := h.awaited
  have hmem : t ∈ s.awaited := by
    refine List.mem_filter.mpr ⟨ht, ?_⟩
    unfold Timer.isBoundary
    rw [hcurrent]
  have hlast : t = last := by
    rw [hawaited, List.mem_append, List.mem_singleton] at hmem
    cases hmem with
    | inl hold =>
        -- timers from before belong to an earlier generation
        have hgeneration := hbefore.generations t (mem_timers_of_awaited (hstale t hold))
          s.generation hcurrent
        have hnow := h.generation
        omega
    | inr hnew => exact hnew
  intro u hu
  rw [awaited_expired, hawaited, List.mem_filter, List.mem_append, List.mem_singleton] at hu
  obtain ⟨hmem, hid⟩ := hu
  cases hmem with
  | inl hold => exact hstale u hold
  | inr hnew =>
      rw [hnew, hlast] at hid
      simp at hid

/-- The end of a cycle begins the next one. -/
theorem boundary (hbefore : before.Timed) (h : Playing before p tempo k s) {t : Timer Task}
    (ht : t ∈ s.clock.live) (hcurrent : t.task = .boundary s.generation) :
    Derailed before p ((passBoundary s.generation).after (s.expired t.id)) ∨
      Playing before p tempo (k + 1)
        ((passBoundary s.generation).after (s.expired t.id)) := by
  obtain ⟨pending, hrun⟩ := h.run
  have hexpired : (s.expired t.id).run = some ⟨p, tempo.start k, k, pending⟩ := hrun
  have hturned := (h.toCourse.expired t.id).turned hexpired
  have hstart : tempo.start k + 1.0 / s.rate = tempo.start (k + 1) := by
    rw [h.rate]
    rfl
  have hrate : s.pendingRate.getD s.rate = tempo.rate (k + 1) := hturned.rate
  cases hplan : before.performance.plan p (k + 1 : Nat) (tempo.start (k + 1))
      (tempo.rate (k + 1)) none with
  | error cause =>
      refine .inl ?_
      have hnext : (s.expired t.id).performance.plan p ((k : Int) + 1)
          (tempo.start k + 1.0 / s.rate) (s.pendingRate.getD s.rate) none = .error cause := by
        rw [hstart, hrate, ← hplan, ← h.performance]
        rfl
      have halike := passBoundary_error hexpired hnext
      have hcycle := (hturned.alike halike).cycle
      exact derailed_of_plan hplan (le_of_eq hcycle.symm)
  | ok bookings =>
      refine .inr ?_
      have hnext : (s.expired t.id).performance.plan p ((k : Int) + 1)
          (tempo.start k + 1.0 / s.rate) (s.pendingRate.getD s.rate) none = .ok bookings := by
        rw [hstart, hrate, ← hplan, ← h.performance]
        rfl
      have hplayed := hturned.playing (h.awaited_boundary hbefore ht hcurrent) hplan
      exact hplayed.alike (passBoundary_ok hexpired hnext)

/-- A task that does not end this cycle. -/
theorem other (h : Playing before p tempo k s) {task : Task}
    (hother : task ≠ .boundary s.generation) :
    Playing before p tempo k ((Scheduler.perform task).after s) := by
  rcases perform_of_ne hother with ⟨id, rfl⟩ | hsame
  · exact h.fire id
  · rw [hsame]
    exact h

/-- A timer that waits goes off. -/
theorem perform (hbefore : before.Timed) (h : Playing before p tempo k s) {t : Timer Task}
    (ht : t ∈ s.clock.live) :
    Derailed before p ((Scheduler.perform t.task).after (s.expired t.id)) ∨
      ∃ k', Playing before p tempo k' ((Scheduler.perform t.task).after (s.expired t.id)) := by
  by_cases hcurrent : t.task = .boundary s.generation
  · rw [hcurrent]
    cases h.boundary hbefore ht hcurrent with
    | inl hderailed => exact .inl hderailed
    | inr hplaying => exact .inr ⟨k + 1, hplaying⟩
  · exact .inr ⟨k, (h.expired ht hcurrent).other hcurrent⟩

end Playing

/-! ## Runs -/

/-- A scheduler that plays some cycle, unless the events of one could not be
found. -/
def Underway (before : Scheduler) (p : Pattern) (tempo : Tempo) (s : Scheduler) : Prop :=
  Derailed before p s ∨ ∃ k, Playing before p tempo k s

/-- A timer that goes off keeps the playing underway, or finds that the next cycle
cannot be planned. -/
theorem Underway.perform (hbefore : before.Timed) (h : Underway before p tempo s) {t : Timer Task}
    (ht : t ∈ s.clock.live) :
    Underway before p tempo ((Scheduler.perform t.task).after (s.expired t.id)) := by
  rcases h with hderailed | ⟨k, hplaying⟩
  · exact .inl (hderailed.later (later_perform t.task (s.expired t.id)))
  · exact hplaying.perform hbefore ht

/-- An accepted start plays cycle zero. -/
theorem underway_start (htimed : before.Timed) (hstopped : before.isRunning = false) {v : Value}
    (hread : (coerce v).outcome before = .ok p) {given : Option Value} {accepted : Option Float}
    (haccepted : given.mapM checkRate = .ok accepted) :
    Underway before p ⟨before.clock.now, accepted.getD before.rate, fun _ => []⟩
      ((Occurrence.start v given).next before) := by
  have hbegun := Course.begun htimed p accepted
  cases hplan : before.performance.plan p 0 before.clock.now (accepted.getD before.rate) none with
  | error cause =>
      have halike := start_error hstopped hread haccepted hplan
      have hcycle := (hbegun.alike halike).cycle
      exact .inl (derailed_of_plan hplan (le_of_eq hcycle.symm))
  | ok bookings =>
      have hplayed := hbegun.playing (fun u hu => hu) hplan
      exact .inr ⟨0, hplayed.alike (start_ok hstopped hread haccepted hplan)⟩

/-- Whatever happens to a pattern that is left to play, it plays on, at the
tempo that was set. -/
theorem playing_next (hbefore : before.Timed) (h : Playing before p tempo k s) {o : Occurrence}
    (ho : o.letsPlay before.clock.timers.length = true) :
    Underway before p (tempo.more k o.rates) (o.next s) := by
  have hquiet : o.rates = [] → tempo.more k o.rates = tempo := by
    intro hnone
    rw [hnone, tempo.more_nil]
  cases o with
  | setRate v => exact .inr ⟨k, h.setRate v⟩
  | configureJournal enable level =>
      rw [hquiet rfl]
      exact .inr ⟨k, h.alike (alike_configureJournal enable level s)⟩
  | advance time =>
      rw [hquiet rfl]
      refine advanceWithin_related
        (R := fun s t => Underway before p tempo s → Underway before p tempo t) (fun _ hs => hs)
        (fun hst htu hs => htu (hst hs)) ?_ (fun s t ht hs => hs.perform hbefore ht) patience
        time s (.inr ⟨k, h⟩)
      rintro s now (hderailed | ⟨k, hplaying⟩)
      · exact .inl (hderailed.later (Int.le_refl _))
      · exact .inr ⟨k, hplaying.atTime now⟩
  | jump time =>
      rw [hquiet rfl]
      exact .inr ⟨k, h.atTime time⟩
  | ring timer =>
      rw [hquiet rfl]
      change Underway before p tempo ((ring timer).after s)
      rcases ring_cases timer s with hsame | ⟨t, ht, rfl, hrung⟩
      · rw [hsame]
        exact .inr ⟨k, h⟩
      · rw [hrung]
        exact h.perform hbefore ht
  | poke timer =>
      rw [hquiet rfl]
      change Underway before p tempo ((poke timer).after s)
      rcases poke_cases timer s with hsame | ⟨t, ht, rfl, hpoked⟩
      · rw [hsame]
        exact .inr ⟨k, h⟩
      · rw [hpoked]
        exact .inr ⟨k, h.other (h.toCourse.task_of_lt hbefore ht (of_decide_eq_true ho))⟩
  | start v rate | replace v | stop => nomatch ho

/-- A pattern that was started and is left to play plays on over any run. -/
theorem underway_afterAll (htimed : before.Timed) (hstopped : before.isRunning = false)
    {v : Value} (hread : (coerce v).outcome before = .ok p) {given : Option Value}
    {accepted : Option Float} (haccepted : given.mapM checkRate = .ok accepted)
    {later : List Occurrence} (hlater : ∀ o ∈ later, o.letsPlay before.clock.timers.length = true) :
    let first := (Occurrence.start v given).next before
    Underway before p ⟨before.clock.now, accepted.getD before.rate,
      fun k => ratesSet k first later⟩ (afterAll later first) := by
  intro first
  induction later using List.reverseRec with
  | nil => exact underway_start htimed hstopped hread haccepted
  | append_singleton later o ih =>
      have ho := hlater o (List.mem_append_right _ List.mem_cons_self)
      have hbefore := ih fun o' ho' => hlater o' (List.mem_append_left _ ho')
      rw [afterAll_append]
      change Underway _ _ _ (o.next (afterAll later first))
      rcases hbefore with hderailed | ⟨k, hplaying⟩
      · exact .inl (hderailed.later (later_next ho _))
      · have hnext := playing_next htimed hplaying ho
        have htempo : (fun j : Nat => ratesSet j first (later ++ [o])) =
            fun j : Nat => ratesSet j first later ++ if j = k then o.rates else [] := by
          funext j
          rw [ratesSet_concat, hplaying.cycle]
          simp only [Nat.cast_inj, eq_comm]
        rw [htempo]
        exact hnext

end Scheduler

end Ostinato
