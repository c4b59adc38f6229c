import Ostinato.Proofs.Scheduler.Playing
import Ostinato.Proofs.Scheduler.Survival

/-!
# Ostinato.Proofs.Scheduler.Waiting

Pending events are waited for.

While no timer goes off out of turn, every pending event has a timer that waits
until its time comes (`Waiting`).  So an event whose time has come is fired as
soon as the timers that are due have gone off (`Waiting.not_due`).
-/

namespace Ostinato

namespace Scheduler

open Scheduling

/-- Every pending event has a timer that waits for its time, and the timer that is
known for the end of the cycle is no timer of an event. -/
structure Waiting (s : Scheduler) : Prop where
  event : ∀ item ∈ s.items, item.fate = .pending →
    ∃ t ∈ s.clock.live, t.task = .fire item.id ∧ t.due = item.fireTime
  boundary : ∀ id, s.boundary = some id → ∃ generation, s.tasks[id]? = some (.boundary generation)

/-- Once no waiting timer is due, no event is late. -/
theorem Waiting.not_due {s : Scheduler} (h : s.Waiting) {time : Float}
    (hdue : ∀ t ∈ s.clock.live, ¬ t.due ≤ time) {item : Scheduled} (hitem : item ∈ s.items)
    (hfate : item.fate = .pending) : ¬ item.fireTime ≤ time := by
  obtain ⟨t, ht, -, htime⟩ := h.event item hitem hfate
  rw [← htime]
  exact hdue t ht

/-- Whether an event is fired by the timer that was made for it. -/
def Owns (s : Scheduler) (item : Scheduled) : Prop :=
  ∃ t ∈ s.clock.timers, t.id = item.timer ∧ t.task = .fire item.id

/-- A timer is found by its number among all tasks. -/
theorem Timed.task_eq {s : Scheduler} (h : s.Timed) {t : Timer Task} (ht : t ∈ s.clock.timers) :
    s.tasks[t.id]? = some t.task := by
  obtain ⟨i, hi, rfl⟩ := List.getElem_of_mem ht
  have hid : s.clock.timers[i].id = i := by
    have hids := congrArg (fun ids => ids[i]?) h.ids
    simpa [hi] using hids
  rw [hid]
  unfold tasks
  simp [hi]

/-! ## Single changes -/

/-- Pending events are waited for where events, timers and the known end are the
same. -/
theorem waiting_of_eq {s t : Scheduler} (h : s.Waiting) (hitems : t.items = s.items)
    (hclock : t.clock.timers = s.clock.timers) (hboundary : t.boundary = s.boundary) :
    t.Waiting where
  event := by
    unfold Clock.live
    rw [hitems, hclock]
    exact h.event
  boundary := by
    unfold tasks
    rw [hboundary, hclock]
    exact h.boundary

/-- Schedulers that play alike wait alike. -/
theorem Alike.waiting {s t : Scheduler} (h : Alike t s) (hs : s.Waiting) : t.Waiting :=
  waiting_of_eq hs h.items (congrArg Clock.timers h.clock) h.boundary

/-- A timer goes off that waits for no event. -/
theorem waiting_expired {s : Scheduler} (htimed : s.Timed) (h : s.Waiting) {t : Timer Task}
    (ht : t ∈ s.clock.timers) (htask : ∀ id, t.task ≠ .fire id) : (s.expired t.id).Waiting where
  event := by
    intro item hitem hfate
    obtain ⟨u, hu, hutask, hdue⟩ := h.event item hitem hfate
    refine ⟨u, mem_live_expired.mpr ⟨hu, fun hid => ?_⟩, hutask, hdue⟩
    have hsame := htimed.eq_of_id (List.mem_of_mem_filter hu) ht hid
    exact htask item.id (hsame ▸ hutask)
  boundary := by
    rw [tasks_expired]
    exact h.boundary

/-- An event meets its fate when its timer goes off or is cancelled. -/
theorem waiting_settle {s : Scheduler} (htimed : s.Timed) (h : s.Waiting) {t : Timer Task}
    (ht : t ∈ s.clock.timers) {id : Nat} (htask : t.task = .fire id) (fate : Fate)
    (hfate : fate ≠ .pending) : ((s.expired t.id).settle id fate).Waiting where
  event := by
    intro x hx hpending
    obtain ⟨item, hitem, rfl⟩ := List.mem_map.mp hx
    have hne : item.id ≠ id := by
      intro hid
      rw [Ledger.fate_fated hid] at hpending
      exact hfate hpending
    rw [Ledger.fated_of_ne hne] at hpending ⊢
    obtain ⟨u, hu, hutask, hdue⟩ := h.event item hitem hpending
    refine ⟨u, mem_live_expired.mpr ⟨hu, fun hid => hne ?_⟩, hutask, hdue⟩
    have hsame := htimed.eq_of_id (List.mem_of_mem_filter hu) ht hid
    rw [hsame, htask] at hutask
    exact (Task.fire.inj hutask).symm
  boundary := by
    intro timer htimer
    obtain ⟨generation, hknown⟩ := h.boundary timer htimer
    refine ⟨generation, ?_⟩
    change (s.expired t.id).tasks[timer]? = _
    rwa [tasks_expired]

/-- Withdrawing settles each event with its own timer, so that the others still wait
for theirs. -/
theorem waiting_withdraw {s : Scheduler} (htimed : s.Timed) (h : s.Waiting)
    {items : List Scheduled} (howned : ∀ item ∈ items, s.Owns item) :
    (s.withdraw items).Waiting := by
  induction items generalizing s with
  | nil => exact h
  | cons item items ih =>
      rw [List.forall_mem_cons] at howned
      obtain ⟨⟨t, ht, hid, htask⟩, hothers⟩ := howned
      have hcancelled : (s.cancelled item).Waiting := by
        have hsettled := waiting_settle htimed h ht htask .cancelled nofun
        rwa [hid] at hsettled
      have hexpired := timed_expired htimed item.timer
      refine ih (s := s.cancelled item) ⟨hexpired.ids, hexpired.generations⟩ hcancelled
        fun x hx => ?_
      obtain ⟨u, hu, huid, hutask⟩ := hothers x hx
      obtain ⟨v, hv, hvid, hvtask⟩ := exists_expired item.timer hu
      exact ⟨v, hv, hvid.trans huid, hvtask.trans hutask⟩

/-- A booking makes an event and a timer for its time. -/
theorem waiting_book {s : Scheduler} (h : s.Waiting) (b : Booking) : (s.book b).Waiting where
  event := by
    intro item hitem hfate
    change ∃ t ∈ (s.clock.arm b.fireTime (.fire s.items.length)).2.live, _
    rw [Clock.live_arm]
    change item ∈ s.items ++ [_] at hitem
    rw [List.mem_append, List.mem_singleton] at hitem
    rcases hitem with hold | rfl
    · obtain ⟨t, ht, hwaits⟩ := h.event item hold hfate
      exact ⟨t, List.mem_append_left _ ht, hwaits⟩
    · exact ⟨_, List.mem_append_right _ List.mem_cons_self, rfl, rfl⟩
  boundary := by
    intro id hid
    obtain ⟨generation, htask⟩ := h.boundary id hid
    obtain ⟨more, hmore⟩ := tasks_bookAll s [b]
    refine ⟨generation, ?_⟩
    change ((s.bookAll [b]).tasks)[id]? = _
    rw [← hmore, List.getElem?_append_left (List.getElem?_eq_some_iff.mp htask).1]
    exact htask

/-- Bookings make events that wait for their times. -/
theorem waiting_bookAll {s : Scheduler} (h : s.Waiting) (bookings : List Booking) :
    (s.bookAll bookings).Waiting := by
  induction bookings generalizing s with
  | nil => exact h
  | cons b bookings ih => exact ih (waiting_book h b)

/-- The timer for the end of a cycle is for no event. -/
theorem waiting_armed {s : Scheduler} (h : s.Waiting) : s.armed.Waiting := by
  cases hrun : s.run with
  | none =>
      unfold armed
      rw [hrun]
      exact h
  | some run =>
      rw [armed_of_run hrun]
      constructor
      · intro item hitem hfate
        obtain ⟨t, ht, hwaits⟩ := h.event item hitem hfate
        change ∃ t ∈ (s.clock.arm _ _).2.live, _
        rw [Clock.live_arm]
        exact ⟨t, List.mem_append_left _ ht, hwaits⟩
      · intro id hid
        refine ⟨s.generation, ?_⟩
        rw [← Option.some.inj hid]
        unfold tasks
        simp [Clock.timers_arm]

/-- The timer that a stop settles is for the end of a cycle, so no event loses its
own. -/
theorem waiting_halted {s : Scheduler} (htimed : s.Timed) (h : s.Waiting) : s.halted.Waiting := by
  unfold halted
  cases hboundary : s.boundary with
  | none => exact ⟨h.event, nofun⟩
  | some timer =>
      refine ⟨fun item hitem hfate => ?_, nofun⟩
      obtain ⟨t, ht, htask, hdue⟩ := h.event item hitem hfate
      refine ⟨t, mem_live_expired.mpr ⟨ht, fun hid => ?_⟩, htask, hdue⟩
      obtain ⟨generation, hknown⟩ := h.boundary timer hboundary
      rw [← hid, htimed.task_eq (List.mem_of_mem_filter ht), htask] at hknown
      nomatch hknown

/-! ## Commands and timers -/

/-- A boundary books events that wait for their times. -/
theorem waiting_passBoundary {s : Scheduler} (h : s.Waiting) (generation : Nat) :
    ((passBoundary generation).after s).Waiting := by
  have hturned : ∀ run, (s.turned run).Waiting := fun _ => waiting_of_eq h rfl rfl rfl
  rcases passBoundary_cases generation s with hsame | ⟨run, -, -, halike | ⟨bookings, halike⟩⟩
  · rw [hsame]
    exact h
  · exact halike.waiting (hturned run)
  · exact halike.waiting (waiting_armed (waiting_bookAll (hturned run) bookings))

/-- A timer that waits goes off. -/
theorem waiting_rung {s : Scheduler} (hintact : s.Intact) (h : s.Waiting) {t : Timer Task}
    (ht : t ∈ s.clock.live) : ((perform t.task).after (s.expired t.id)).Waiting := by
  have hmem := List.mem_of_mem_filter ht
  cases htask : t.task with
  | fire id =>
      obtain ⟨heard, hbooks⟩ := hintact.balanced
      obtain ⟨item, hitem, hid, hfate, -⟩ := hintact.paired.event t ht id htask
      have hpending := (mem_pendingItems_iff hbooks hitem).mpr hfate
      have hopen : (s.expired t.id).isOpen id = true :=
        hid ▸ (isOpen_of_mem_pendingItems hbooks hpending).2
      have hsettled := waiting_settle hintact.timed h hmem htask .sounded nofun
      obtain ⟨x, hx, hxfate⟩ := isOpen_eq_true.mp hopen
      cases hwritable : x.event.value.isWritable with
      | true =>
          exact (fire_writable hx hxfate hwritable).waiting (waiting_of_eq hsettled rfl rfl rfl)
      | false =>
          change ((fire id).after (s.expired t.id)).Waiting
          rw [fire_unwritable hx hxfate hwritable]
          exact hsettled
  | boundary generation =>
      have hexpired : (s.expired t.id).Waiting :=
        waiting_expired hintact.timed h hmem fun id hfire => nomatch htask.symm.trans hfire
      exact waiting_passBoundary hexpired generation

/-- A start books events that wait for their times. -/
theorem waiting_start {s : Scheduler} (h : s.Waiting) (v : Value) (given : Option Value) :
    ((start v given).after s).Waiting := by
  have hbegun : ∀ node rate, (s.begun node rate).Waiting := fun _ _ => waiting_of_eq h rfl rfl rfl
  rcases start_cases v given s with hsame | ⟨-, node, rate, halike | ⟨bookings, halike⟩⟩
  · exact hsame.waiting h
  · exact halike.waiting (hbegun node rate)
  · exact halike.waiting (waiting_armed (waiting_bookAll (hbegun node rate) bookings))

/-- Pending events are fired by the timers that were made for them. -/
theorem owns_of_sublist {s : Scheduler} (h : s.Intact) {items : List Scheduled}
    (hitems : items.Sublist s.pendingItems) : ∀ item ∈ items, s.Owns item := by
  intro item hitem
  obtain ⟨heard, hbooks⟩ := h.balanced
  exact h.paired.timer item (isOpen_of_mem_pendingItems hbooks (hitems.subset hitem)).1

/-- A scheduler that is halted has the same timers. -/
theorem owns_halted {s : Scheduler} {item : Scheduled} (h : s.Owns item) : s.halted.Owns item := by
  unfold halted
  cases s.boundary with
  | none => exact h
  | some timer =>
      obtain ⟨t, ht, hid, htask⟩ := h
      obtain ⟨u, hu, huid, hutask⟩ := exists_expired timer ht
      exact ⟨u, hu, huid.trans hid, hutask.trans htask⟩

/-- A stop withdraws events, all or some of them, and no other stops waiting. -/
theorem waiting_stop {s : Scheduler} (hintact : s.Intact) (h : s.Waiting) :
    (stop.after s).Waiting := by
  obtain ⟨heard, hbooks⟩ := hintact.balanced
  have hwithdrawn : ∀ {items : List Scheduled}, items.Sublist s.pendingItems →
      (s.halted.withdraw items).Waiting := fun hitems =>
    waiting_withdraw (timed_halted hintact.timed) (waiting_halted hintact.timed h)
      fun item hitem => owns_halted (owns_of_sublist hintact hitems item hitem)
  cases hrunning : s.isRunning with
  | false =>
      rw [stop_of_stopped hrunning]
      exact h
  | true =>
      rcases after_stop hbooks hrunning with ⟨-, halike⟩ | ⟨-, first, hfirst, halike⟩
      · exact halike.waiting (waiting_of_eq (hwithdrawn (List.Sublist.refl _)) rfl rfl rfl)
      · exact halike.waiting (hwithdrawn hfirst.sublist)

/-- A replacement withdraws events and books others, and the rest wait as before. -/
theorem waiting_replace {s : Scheduler} (hintact : s.Intact) (h : s.Waiting) (v : Value) :
    ((replace v).after s).Waiting := by
  obtain ⟨heard, hbooks⟩ := hintact.balanced
  by_cases hrefused : s.isRunning = false ∨ (∃ e, (coerce v).outcome s = .error e) ∨
      ∃ run cause, s.run = some run ∧ s.elapsed run = .error cause
  · exact (replace_refused hrefused).waiting h
  · obtain ⟨run, node, place, hrun, hnode, hplace⟩ := accepted_of_not_refused hrefused
    have hahead := s.ahead_sublist run place
    have hwithdrawn := waiting_withdraw hintact.timed h (owns_of_sublist hintact hahead)
    have hswapped : ((s.withdraw (s.ahead run place)).swapped node).Waiting :=
      waiting_of_eq hwithdrawn rfl rfl rfl
    rcases after_replace hbooks hrun hnode hplace with
      ⟨-, first, hfirst, -, -, halike⟩ | ⟨-, ⟨cause, -, -, halike⟩ | ⟨bookings, -, halike⟩⟩
    · exact halike.waiting (waiting_withdraw hintact.timed h
        (owns_of_sublist hintact (hfirst.sublist.trans hahead)))
    · exact halike.waiting hswapped
    · exact halike.waiting (waiting_bookAll hswapped bookings)

/-- A rate settles no timer. -/
theorem waiting_setRate {s : Scheduler} (h : s.Waiting) (v : Value) :
    ((setRate v).after s).Waiting := by
  cases hrate : checkRate v with
  | error cause =>
      rw [setRate_error hrate]
      exact h
  | ok rate =>
      cases hrunning : s.isRunning with
      | true => exact (alike_setRate hrunning hrate).waiting (waiting_of_eq h rfl rfl rfl)
      | false =>
          rw [setRate_of_stopped hrunning hrate]
          exact waiting_of_eq h rfl rfl rfl

/-- Every single step leaves the pending events waited for. -/
theorem waiting_next {o : Occurrence} (ho : o.isSingle = true) {s : Scheduler}
    (hintact : s.Intact) (h : s.Waiting) : (o.next s).Waiting := by
  cases o with
  | start v given => exact waiting_start h v given
  | replace v => exact waiting_replace hintact h v
  | stop => exact waiting_stop hintact h
  | setRate v => exact waiting_setRate h v
  | configureJournal enable level => exact (alike_configureJournal enable level s).waiting h
  | jump time => exact waiting_of_eq h rfl rfl rfl
  | ring timer =>
      change ((ring timer).after s).Waiting
      rcases ring_cases timer s with hsame | ⟨t, ht, rfl, hrung⟩
      · rw [hsame]
        exact h
      · rw [hrung]
        exact waiting_rung hintact h ht
  | advance time | poke timer => nomatch ho

/-- A new scheduler has no events to wait for. -/
theorem waiting_initial (perf : Performance) (policy : Policy) (sounder : Sounder)
    (listener : Option Listener) (rate now : Float) :
    (initial perf policy sounder listener rate now).Waiting where
  event := fun _ h => absurd h List.not_mem_nil
  boundary := nofun

end Scheduler

end Ostinato
