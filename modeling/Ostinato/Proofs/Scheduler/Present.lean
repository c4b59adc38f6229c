import Ostinato.Proofs.Scheduler.Tempo
import Ostinato.Proofs.Scheduler.Planned
import Ostinato.Proofs.Scheduler.Withdrawals

/-!
# Ostinato.Proofs.Scheduler.Present

Which cycles the events are of.

No event that is pending is of a later cycle than the one that is being played
(`present_afterAll`): events are booked for the present cycle only, and cycles
move on while there are any.
-/

namespace Ostinato

namespace Scheduler

open Scheduling

/-! ## Pending events -/

/-- All events that are pending are booked as `P` says. -/
def PendingIn (P : Booking → Prop) (items : List Scheduled) : Prop :=
  ∀ item ∈ items, item.fate = .pending → P item.booking

namespace PendingIn

variable {P Q : Booking → Prop} {items : List Scheduled} {s : Scheduler}

/-- What holds of the bookings of pending events can be weakened. -/
theorem imp (h : PendingIn P items) (himp : ∀ b, P b → Q b) : PendingIn Q items :=
  fun item hitem hpending => himp _ (h item hitem hpending)

/-- With an event settled, fewer are pending. -/
theorem fated (h : PendingIn P items) (id : Nat) {fate : Fate} (hfate : fate ≠ .pending) :
    PendingIn P (items.map (·.fated id fate)) := by
  intro item hitem hpending
  obtain ⟨x, hx, rfl⟩ := List.mem_map.mp hitem
  by_cases hid : x.id = id
  · rw [Ledger.fate_fated hid] at hpending
    exact absurd hpending hfate
  · rw [Ledger.fated_of_ne hid] at hpending ⊢
    exact h x hx hpending

/-- With some events withdrawn, fewer are pending. -/
theorem withdraw (h : PendingIn P s.items) (withdrawn : List Scheduled) :
    PendingIn P (s.withdraw withdrawn).items := by
  induction withdrawn generalizing s with
  | nil => exact h
  | cons item withdrawn ih => exact ih (s := s.cancelled item) (h.fated item.id nofun)

/-- Bookings add pending events that are booked as they say. -/
theorem bookAll (h : PendingIn P s.items) {bookings : List Booking}
    (hbookings : ∀ b ∈ bookings, P b) : PendingIn P (s.bookAll bookings).items := by
  obtain ⟨items, hitems, rfl, -⟩ := items_bookAll s bookings
  rw [hitems]
  intro item hitem hpending
  rw [List.mem_append] at hitem
  cases hitem with
  | inl hold => exact h item hold hpending
  | inr hnew => exact hbookings item.booking (List.mem_map_of_mem hnew)

/-- Firing an event leaves fewer pending, or as many. -/
theorem fire (h : PendingIn P s.items) (id : Nat) :
    PendingIn P ((Scheduler.fire id).after s).items := by
  cases hopen : s.isOpen id with
  | false =>
      rw [fire_closed hopen]
      exact h
  | true =>
      obtain ⟨item, hitem, hfate⟩ := isOpen_eq_true.mp hopen
      cases hwritable : item.event.value.isWritable with
      | true =>
          rw [(fire_writable hitem hfate hwritable).items]
          exact h.fated id nofun
      | false =>
          rw [fire_unwritable hitem hfate hwritable]
          exact h.fated id nofun

end PendingIn

/-- All events that are pending are of cycles before `low`. -/
def PendingBefore (low : Int) : List Scheduled → Prop := PendingIn (·.cycle < low)

/-- Events of cycles before one are of cycles before any later one. -/
theorem PendingBefore.mono {low higher : Int} {items : List Scheduled}
    (h : PendingBefore low items) (hle : low ≤ higher) : PendingBefore higher items :=
  PendingIn.imp h fun _ hlow => Int.lt_of_lt_of_le hlow hle

/-- Nothing is pending while nothing is played. -/
theorem pendingIn_of_stopped {s : Scheduler} {heard : List Nat} (hbooks : s.ledger.Balanced heard)
    (hstopped : s.isRunning = false) (P : Booking → Prop) : PendingIn P s.items := by
  intro item hitem hpending
  have hlisted := (hbooks.mem_pending hitem).mpr hpending
  unfold ledger at hlisted
  rw [Option.not_isSome_iff_eq_none.mp (Bool.eq_false_iff.mp hstopped)] at hlisted
  exact absurd hlisted List.not_mem_nil

/-- No pending event is of a later cycle than the one that is being played. -/
def Present (s : Scheduler) : Prop :=
  ∀ run, s.run = some run → PendingBefore (run.cycleIndex + 1) s.items

section Present

variable {s t : Scheduler}

/-- In the same cycle, changes that keep pending events to their cycles keep them to
the present one. -/
theorem present_of_sameCycle (hcycle : SameCycle s t)
    (hitems : ∀ low, PendingBefore low s.items → PendingBefore low t.items) (h : s.Present) :
    t.Present := by
  intro run hrun
  have hmap : s.run.map (·.cycleIndex) = some run.cycleIndex := by
    rw [← show t.run.map (·.cycleIndex) = s.run.map (·.cycleIndex) from hcycle, hrun]
    rfl
  obtain ⟨before, hbefore, hindex⟩ := Option.map_eq_some_iff.mp hmap
  rw [← hindex]
  exact hitems _ (h before hbefore)

/-- Schedulers that play alike have the same events in the same cycle. -/
theorem Alike.present (h : Alike t s) (hs : s.Present) : t.Present :=
  present_of_sameCycle (tracks_sameCycle.alike h.symm) (fun _ hlow => h.items ▸ hlow) hs

/-- What is booked for the present cycle. -/
theorem present_bookAll (h : s.Present) {run : Run} (hrun : s.run = some run)
    {bookings : List Booking} (hcycle : ∀ b ∈ bookings, b.cycle = run.cycleIndex) :
    (s.bookAll bookings).Present := by
  intro run' hrun'
  obtain ⟨pending, hpending⟩ := run_bookAll hrun bookings
  rw [hpending, Option.some_inj] at hrun'
  rw [← hrun']
  refine (h run hrun).bookAll fun b hb => ?_
  have hb := hcycle b hb
  change b.cycle < run.cycleIndex + 1
  omega

/-- The timer for the end of a cycle is no event. -/
theorem present_armed (h : s.Present) : s.armed.Present := by
  intro run hrun
  rw [run_armed] at hrun
  rw [items_armed]
  exact h run hrun

/-- Events of no later cycle than this one are of none later than the next. -/
theorem present_turned (h : s.Present) {run : Run} (hrun : s.run = some run) :
    (s.turned run).Present := by
  rintro run' hrun'
  have hnext : run'.cycleIndex = run.cycleIndex + 1 := by
    rw [← Option.some.inj hrun']
  have hle : run.cycleIndex + 1 ≤ run'.cycleIndex + 1 := by omega
  exact (h run hrun).mono hle

/-- A task fires an event, or begins a cycle and books events for it. -/
theorem present_perform (h : s.Present) (task : Task) : ((perform task).after s).Present := by
  cases task with
  | fire id =>
      exact present_of_sameCycle (tracks_sameCycle.fire id s) (fun _ hlow => hlow.fire id) h
  | boundary generation =>
      change ((passBoundary generation).after s).Present
      by_cases hstale : s.run = none ∨ generation ≠ s.generation
      · rw [passBoundary_stale hstale]
        exact h
      · rw [not_or, not_not] at hstale
        obtain ⟨run, hrun⟩ := Option.ne_none_iff_exists'.mp hstale.1
        have hturned := present_turned h hrun
        rw [hstale.2]
        cases hplan : s.performance.plan run.pattern (run.cycleIndex + 1)
            (run.cycleStart + 1.0 / s.rate) (s.pendingRate.getD s.rate) none with
        | error cause => exact (passBoundary_error hrun hplan).present hturned
        | ok bookings =>
            refine (passBoundary_ok hrun hplan).present (present_armed ?_)
            exact present_bookAll hturned rfl (Performance.cycle_of_plan hplan)

/-- Nothing is pending when a pattern is started. -/
theorem present_start {heard : List Nat} (hbooks : s.ledger.Balanced heard) (h : s.Present)
    (v : Value) (given : Option Value) : ((start v given).after s).Present := by
  by_cases hrefused : s.isRunning = true ∨ (∃ e, (coerce v).outcome s = .error e) ∨
      ∃ cause, given.mapM checkRate = .error cause
  · exact (start_refused hrefused).present h
  · obtain ⟨hstopped, node, rate, hnode, hrate⟩ := readable_of_not_refused hrefused
    have hbegun : (s.begun node rate).Present := fun _ _ => pendingIn_of_stopped hbooks hstopped _
    cases hplan : s.performance.plan node 0 s.clock.now (rate.getD s.rate) none with
    | error cause => exact (start_error hstopped hnode hrate hplan).present hbegun
    | ok bookings =>
        refine (start_ok hstopped hnode hrate hplan).present (present_armed ?_)
        exact present_bookAll hbegun rfl (Performance.cycle_of_plan hplan)

/-- Withdrawing books nothing. -/
theorem present_withdraw (h : s.Present) (items : List Scheduled) : (s.withdraw items).Present := by
  refine present_of_sameCycle ?_ (fun _ hlow => hlow.withdraw items) h
  unfold SameCycle
  rw [withdraw_eq, Option.map_map]
  rfl

/-- Nor does taking up another pattern. -/
theorem present_swapped (h : s.Present) (node : Pattern) : (s.swapped node).Present :=
  present_of_sameCycle (tracks_sameCycle.swapped s node) (fun _ hlow => hlow) h

/-- After a stop that succeeds nothing is pending; one that fails has withdrawn some
events. -/
theorem present_stop {heard : List Nat} (hbooks : s.ledger.Balanced heard) (h : s.Present) :
    (stop.after s).Present := by
  cases hrunning : s.isRunning with
  | false =>
      rw [stop_of_stopped hrunning]
      exact h
  | true =>
      rcases after_stop hbooks hrunning with ⟨-, halike⟩ | ⟨-, first, -, halike⟩
      · refine halike.present fun run hrun => ?_
        nomatch hrun
      · exact halike.present (present_withdraw (s := s.halted) h first)

/-- A replacement books for the cycle that is being played. -/
theorem present_replace {heard : List Nat} (hbooks : s.ledger.Balanced heard) (h : s.Present)
    (v : Value) : ((replace v).after s).Present := by
  by_cases hrefused : s.isRunning = false ∨ (∃ e, (coerce v).outcome s = .error e) ∨
      ∃ run cause, s.run = some run ∧ s.elapsed run = .error cause
  · exact (replace_refused hrefused).present h
  · obtain ⟨run, node, place, hrun, hnode, hplace⟩ := accepted_of_not_refused hrefused
    have hswapped := present_swapped (present_withdraw h (s.ahead run place)) node
    rcases after_replace hbooks hrun hnode hplace with
      ⟨-, first, -, -, -, halike⟩ | ⟨-, ⟨cause, -, -, halike⟩ | ⟨bookings, hplan, halike⟩⟩
    · exact halike.present (present_withdraw h first)
    · exact halike.present hswapped
    · refine halike.present (present_bookAll hswapped (run_swapped hrun _ node) ?_)
      exact Performance.cycle_of_plan hplan

/-- Every occurrence keeps pending events to the present cycle.  The cases follow
the occurrences; only a start and a boundary begin a cycle, and both book for it
alone. -/
theorem present_next {heard : List Nat} (hbooks : s.ledger.Balanced heard) (h : s.Present)
    (o : Occurrence) : (o.next s).Present := by
  cases o with
  | start v given => exact present_start hbooks h v given
  | replace v => exact present_replace hbooks h v
  | stop => exact present_stop hbooks h
  | setRate v =>
      have hitems : ((setRate v).after s).items = s.items := by
        unfold setRate
        cases checkRate v with
        | error cause => rfl
        | ok rate =>
            rw [orFault_ok, pure_bind, after_get_bind]
            split <;> rfl
      refine present_of_sameCycle (tracks_sameCycle.setRate v s) (fun low hlow => ?_) h
      change PendingBefore low ((setRate v).after s).items
      rwa [hitems]
  | configureJournal enable level => exact (alike_configureJournal enable level s).present h
  | advance time =>
      exact advanceWithin_related (R := fun s t => s.Present → t.Present) (fun _ hs => hs)
        (fun hst htu hs => htu (hst hs)) (fun _ _ hs => hs)
        (fun s t _ hs => present_perform (s := s.expired t.id) hs t.task) patience time s h
  | jump time => exact h
  | ring timer =>
      change ((ring timer).after s).Present
      rcases ring_cases timer s with hsame | ⟨t, -, -, hrung⟩
      · rwa [hsame]
      · rw [hrung]
        exact present_perform (s := s.expired timer) h t.task
  | poke timer =>
      change ((poke timer).after s).Present
      rcases poke_cases timer s with hsame | ⟨t, -, -, hpoked⟩
      · rwa [hsame]
      · rw [hpoked]
        exact present_perform h t.task

/-- So does every run from books that balance. -/
theorem Present.afterAll {heard : List Nat} (hbooks : s.ledger.Balanced heard) (h : s.Present)
    (os : List Occurrence) : (afterAll os s).Present := by
  induction os generalizing s heard with
  | nil => exact h
  | cons o os ih =>
      obtain ⟨more, hmore⟩ := hbooks.steps (moves_next o s heard hbooks)
      exact ih hmore (present_next hbooks h o)

/-- In every run no pending event is of a later cycle. -/
theorem present_afterAll (perf : Performance) (policy : Policy) (sounder : Sounder)
    (listener : Option Listener) (rate now : Float) (os : List Occurrence) :
    (afterAll os (initial perf policy sounder listener rate now)).Present := by
  obtain ⟨heard, hbooks⟩ := balanced_afterAll perf policy sounder listener rate now []
  exact Present.afterAll hbooks (fun run hnone => nomatch hnone) os

end Present

/-! ## Events that were booked -/

/-- Of the first `n` events those that are pending are of cycles before `low`, and
the others are of no cycle after `high`. -/
structure Bounds (n : Nat) (low high : Int) (items : List Scheduled) : Prop where
  size : n ≤ items.length
  old : PendingBefore low (items.take n)
  recent : ∀ item ∈ items.drop n, item.cycle ≤ high

namespace Bounds

variable {n : Nat} {low high : Int} {items : List Scheduled}

/-- The fate of an event does not change its cycle. -/
theorem fated (h : Bounds n low high items) (id : Nat) {fate : Fate} (hfate : fate ≠ .pending) :
    Bounds n low high (items.map (·.fated id fate)) where
  size := by
    rw [List.length_map]
    exact h.size
  old := by
    rw [← List.map_take]
    exact h.old.fated id hfate
  recent := by
    rw [← List.map_drop]
    intro item hitem
    obtain ⟨x, hx, rfl⟩ := List.mem_map.mp hitem
    change (x.fated id fate).booking.cycle ≤ high
    rw [Scheduled.booking_fated]
    exact h.recent x hx

/-- Bounds can be raised. -/
theorem mono (h : Bounds n low high items) {higher : Int} (hle : high ≤ higher) :
    Bounds n low higher items :=
  ⟨h.size, h.old, fun item hitem => Int.le_trans (h.recent item hitem) hle⟩

/-- Withdrawn events keep their cycles. -/
theorem withdraw {s : Scheduler} (h : Bounds n low high s.items) (withdrawn : List Scheduled) :
    Bounds n low high (s.withdraw withdrawn).items := by
  induction withdrawn generalizing s with
  | nil => exact h
  | cons item withdrawn ih => exact ih (s := s.cancelled item) (h.fated item.id nofun)

/-- Bookings of cycles within the bound keep to it. -/
theorem bookAll {s : Scheduler} (h : Bounds n low high s.items) {bookings : List Booking}
    (hcycle : ∀ b ∈ bookings, b.cycle ≤ high) : Bounds n low high (s.bookAll bookings).items := by
  obtain ⟨items, hitems, hbookings, -⟩ := items_bookAll s bookings
  rw [hitems]
  refine ⟨?_, ?_, fun item hitem => ?_⟩
  · rw [List.length_append]
    exact Nat.le_add_right_of_le h.size
  · rw [List.take_append_of_le_length h.size]
    exact h.old
  · rw [List.drop_append_of_le_length h.size, List.mem_append] at hitem
    cases hitem with
    | inl hold => exact h.recent item hold
    | inr hnew => exact hcycle item.booking (hbookings ▸ List.mem_map_of_mem hnew)

end Bounds

end Scheduler

end Ostinato
