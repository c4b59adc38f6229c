import Ostinato.Proofs.Scheduler.Withdrawals

/-!
# Ostinato.Proofs.Scheduler.Pairing

Events and the timers that fire them.

Every event has a timer that fires it, and while that timer waits the event is
pending (`Paired`).  This holds as long as no timer goes off out of turn: what
books an event makes both, what cancels an event settles both, and a timer that
goes off has its event fired.  With what is known of books and of boundary
timers it says which timers wait at all (`Intact`); every occurrence keeps that
(`intact_next`), and of a stopped scheduler no timer waits
(`Intact.live_of_stopped`).
-/

namespace Ostinato

namespace Scheduler

open Scheduling

/-- Every event has a timer that fires it, and an event whose timer waits is
pending. -/
structure Paired (s : Scheduler) : Prop where
  timer : ∀ item ∈ s.items, ∃ t ∈ s.clock.timers, t.id = item.timer ∧ t.task = .fire item.id
  event : ∀ t ∈ s.clock.live, ∀ id, t.task = .fire id →
    ∃ item ∈ s.items, item.id = id ∧ item.fate = .pending ∧ item.timer = t.id

/-- Whether an event has the timer that the scheduler made for it. -/
def Knows (s : Scheduler) (item : Scheduled) : Prop :=
  ∀ x ∈ s.items, x.id = item.id → x.timer = item.timer

/-- An event in the books has the timer that was made for it. -/
theorem knows_of_mem {s : Scheduler} {heard : List Nat} (h : s.ledger.Balanced heard)
    {item : Scheduled} (hitem : item ∈ s.items) : s.Knows item :=
  fun _ hx hid => congrArg Scheduled.timer (h.eq_of_id hx hitem hid)

/-! ## Single changes -/

/-- Events are paired with timers where events and timers are the same. -/
theorem paired_of_eq {s t : Scheduler} (h : s.Paired) (hitems : t.items = s.items)
    (hclock : t.clock.timers = s.clock.timers) : t.Paired where
  timer := by
    rw [hitems, hclock]
    exact h.timer
  event := by
    unfold Clock.live
    rw [hitems, hclock]
    exact h.event

/-- So they are where schedulers play alike. -/
theorem Alike.paired {s t : Scheduler} (h : Alike t s) (hs : s.Paired) : t.Paired :=
  paired_of_eq hs h.items (congrArg Clock.timers h.clock)

/-- Settling a timer changes neither its number nor its task. -/
theorem exists_expired {s : Scheduler} (id : Nat) {t : Timer Task} (ht : t ∈ s.clock.timers) :
    ∃ u ∈ (s.expired id).clock.timers, u.id = t.id ∧ u.task = t.task := by
  refine ⟨_, List.mem_map_of_mem ht, ?_⟩
  split <;> exact ⟨rfl, rfl⟩

/-- When a timer stops waiting, the others that wait still do. -/
theorem mem_live_expired {s : Scheduler} {id : Nat} {t : Timer Task} :
    t ∈ (s.expired id).clock.live ↔ t ∈ s.clock.live ∧ t.id ≠ id := by
  change t ∈ (s.clock.settle id).live ↔ _
  simp [Clock.live_settle]

/-- A timer that no longer waits need not have a pending event. -/
theorem paired_expired {s : Scheduler} (h : s.Paired) (id : Nat) : (s.expired id).Paired where
  timer := by
    intro item hitem
    obtain ⟨t, ht, hid, htask⟩ := h.timer item hitem
    obtain ⟨u, hu, huid, hutask⟩ := exists_expired id ht
    exact ⟨u, hu, huid.trans hid, hutask.trans htask⟩
  event := fun t ht => h.event t (mem_live_expired.mp ht).1

/-- An event may meet its fate once its timer no longer waits. -/
theorem paired_settle {s : Scheduler} (h : s.Paired) {id : Nat}
    (hnone : ∀ t ∈ s.clock.live, t.task ≠ .fire id) (fate : Fate) : (s.settle id fate).Paired where
  timer := by
    intro x hx
    obtain ⟨item, hitem, rfl⟩ := List.mem_map.mp hx
    obtain ⟨t, ht, hid, htask⟩ := h.timer item hitem
    refine ⟨t, ht, ?_, ?_⟩
    · rw [hid]
      unfold Scheduled.fated
      split <;> rfl
    · rw [htask, Scheduled.id_fated]
  event := by
    intro t ht other htask
    obtain ⟨item, hitem, hid, hfate, htimer⟩ := h.event t ht other htask
    have hne : item.id ≠ id := by
      rintro rfl
      exact hnone t ht (htask.trans (congrArg Task.fire hid.symm))
    refine ⟨item, ?_, hid, hfate, htimer⟩
    exact List.mem_map.mpr ⟨item, hitem, Ledger.fated_of_ne hne⟩

/-- Once the timer of an event no longer waits, none waits to fire it. -/
theorem Paired.task_ne_of_expired {s : Scheduler} (h : s.Paired) {item : Scheduled}
    (hknown : s.Knows item) :
    ∀ t ∈ (s.expired item.timer).clock.live, t.task ≠ .fire item.id := by
  intro t ht htask
  obtain ⟨hlive, hne⟩ := mem_live_expired.mp ht
  obtain ⟨x, hx, hid, -, htimer⟩ := h.event t hlive item.id htask
  exact hne (htimer.symm.trans (hknown x hx hid))

/-- Cancelling settles an event and its timer together. -/
theorem paired_cancelled {s : Scheduler} (h : s.Paired) {item : Scheduled}
    (hknown : s.Knows item) : (s.cancelled item).Paired :=
  paired_settle (paired_expired h item.timer) (h.task_ne_of_expired hknown) .cancelled

/-- The events keep their timers when one of them is cancelled. -/
theorem knows_cancelled {s : Scheduler} {item other : Scheduled} (h : s.Knows other) :
    (s.cancelled item).Knows other := by
  intro x hx hid
  obtain ⟨y, hy, rfl⟩ := List.mem_map.mp hx
  rw [Scheduled.id_fated] at hid
  rw [← h y hy hid]
  unfold Scheduled.fated
  split <;> rfl

/-- Withdrawing settles events and their timers, one pair after another. -/
theorem paired_withdraw {s : Scheduler} (h : s.Paired) {items : List Scheduled}
    (hknown : ∀ item ∈ items, s.Knows item) : (s.withdraw items).Paired := by
  induction items generalizing s with
  | nil => exact h
  | cons item items ih =>
      rw [List.forall_mem_cons] at hknown
      exact ih (paired_cancelled h hknown.1) fun x hx => knows_cancelled (hknown.2 x hx)

/-- A booking makes an event and its timer. -/
theorem paired_book {s : Scheduler} (h : s.Paired) (b : Booking) : (s.book b).Paired where
  timer := by
    intro item hitem
    change item ∈ s.items ++ [_] at hitem
    change ∃ t ∈ s.clock.timers ++ [_], _
    rw [List.mem_append, List.mem_singleton] at hitem
    rcases hitem with hold | rfl
    · obtain ⟨t, ht, hpair⟩ := h.timer item hold
      exact ⟨t, List.mem_append_left _ ht, hpair⟩
    · exact ⟨_, List.mem_append_right _ List.mem_cons_self, rfl, rfl⟩
  event := by
    intro t ht id htask
    change t ∈ (s.clock.arm b.fireTime (.fire s.items.length)).2.live at ht
    change ∃ item ∈ s.items ++ [_], _
    rw [Clock.live_arm, List.mem_append, List.mem_singleton] at ht
    rcases ht with hold | rfl
    · obtain ⟨item, hitem, hpair⟩ := h.event t hold id htask
      exact ⟨item, List.mem_append_left _ hitem, hpair⟩
    · exact ⟨_, List.mem_append_right _ List.mem_cons_self, Task.fire.inj htask, rfl, rfl⟩

/-- Bookings make events and their timers, one pair after another. -/
theorem paired_bookAll {s : Scheduler} (h : s.Paired) (bookings : List Booking) :
    (s.bookAll bookings).Paired := by
  induction bookings generalizing s with
  | nil => exact h
  | cons b bookings ih => exact ih (paired_book h b)

/-- A boundary timer fires no event. -/
theorem paired_armed {s : Scheduler} (h : s.Paired) : s.armed.Paired := by
  cases hrun : s.run with
  | none =>
      unfold armed
      rw [hrun]
      exact h
  | some run =>
      rw [armed_of_run hrun]
      constructor
      · intro item hitem
        obtain ⟨t, ht, hpair⟩ := h.timer item hitem
        exact ⟨t, List.mem_append_left _ ht, hpair⟩
      · intro t ht id htask
        rw [Clock.live_arm, List.mem_append, List.mem_singleton] at ht
        rcases ht with hold | rfl
        · exact h.event t hold id htask
        · nomatch htask

/-- The timer that a stop settles is for no event. -/
theorem paired_halted {s : Scheduler} (h : s.Paired) : s.halted.Paired := by
  unfold halted
  cases s.boundary with
  | none => exact paired_of_eq h rfl rfl
  | some timer => exact paired_of_eq (paired_expired h timer) rfl rfl

/-! ## Commands and timers -/

/-- An event is fired whose timer no longer waits. -/
theorem paired_fire {s : Scheduler} (h : s.Paired) {id : Nat}
    (hnone : ∀ t ∈ s.clock.live, t.task ≠ .fire id) : ((fire id).after s).Paired := by
  cases hopen : s.isOpen id with
  | false =>
      rw [fire_closed hopen]
      exact h
  | true =>
      obtain ⟨item, hitem, hfate⟩ := isOpen_eq_true.mp hopen
      have hsettled := paired_settle h hnone .sounded
      cases hwritable : item.event.value.isWritable with
      | true =>
          exact (fire_writable hitem hfate hwritable).paired (paired_of_eq hsettled rfl rfl)
      | false =>
          rw [fire_unwritable hitem hfate hwritable]
          exact hsettled

/-- A boundary books events with their timers and makes one more for the end of the
cycle. -/
theorem paired_passBoundary {s : Scheduler} (h : s.Paired) (generation : Nat) :
    ((passBoundary generation).after s).Paired := by
  have hturned : ∀ run, (s.turned run).Paired := fun _ => paired_of_eq h rfl rfl
  rcases passBoundary_cases generation s with hsame | ⟨run, -, -, halike | ⟨bookings, halike⟩⟩
  · rw [hsame]
    exact h
  · exact halike.paired (hturned run)
  · exact halike.paired (paired_armed (paired_bookAll (hturned run) bookings))

/-- A timer that waits goes off. -/
theorem paired_rung {s : Scheduler} {heard : List Nat} (hbooks : s.ledger.Balanced heard)
    (h : s.Paired) {t : Timer Task} (ht : t ∈ s.clock.live) :
    ((perform t.task).after (s.expired t.id)).Paired := by
  have hexpired := paired_expired h t.id
  cases htask : t.task with
  | fire id =>
      obtain ⟨item, hitem, rfl, -, htimer⟩ := h.event t ht id htask
      refine paired_fire hexpired ?_
      rw [← htimer]
      exact h.task_ne_of_expired (knows_of_mem hbooks hitem)
  | boundary generation => exact paired_passBoundary hexpired generation

/-- A start books events with their timers and makes one for the end of the cycle. -/
theorem paired_start {s : Scheduler} (h : s.Paired) (v : Value) (given : Option Value) :
    ((start v given).after s).Paired := by
  have hbegun : ∀ node rate, (s.begun node rate).Paired := fun _ _ => paired_of_eq h rfl rfl
  rcases start_cases v given s with hsame | ⟨-, node, rate, halike | ⟨bookings, halike⟩⟩
  · exact hsame.paired h
  · exact halike.paired (hbegun node rate)
  · exact halike.paired (paired_armed (paired_bookAll (hbegun node rate) bookings))

/-- The pending events have the timers that were made for them. -/
theorem knows_of_sublist {s : Scheduler} {heard : List Nat} (hbooks : s.ledger.Balanced heard)
    {items : List Scheduled} (hitems : items.Sublist s.pendingItems) :
    ∀ item ∈ items, s.Knows item := fun _ hitem =>
  knows_of_mem hbooks (isOpen_of_mem_pendingItems hbooks (hitems.subset hitem)).1

/-- A stop withdraws events with their timers, all of them or up to one that it
fails at. -/
theorem paired_stop {s : Scheduler} {heard : List Nat} (hbooks : s.ledger.Balanced heard)
    (h : s.Paired) : (stop.after s).Paired := by
  have hwithdrawn : ∀ {items : List Scheduled}, items.Sublist s.pendingItems →
      (s.halted.withdraw items).Paired := fun hitems =>
    paired_withdraw (paired_halted h) (knows_of_sublist hbooks hitems)
  cases hrunning : s.isRunning with
  | false =>
      rw [stop_of_stopped hrunning]
      exact h
  | true =>
      rcases after_stop hbooks hrunning with ⟨-, halike⟩ | ⟨-, first, hfirst, halike⟩
      · exact halike.paired (paired_of_eq (hwithdrawn (List.Sublist.refl _)) rfl rfl)
      · exact halike.paired (hwithdrawn hfirst.sublist)

/-- A replacement withdraws events with their timers and books others. -/
theorem paired_replace {s : Scheduler} {heard : List Nat} (hbooks : s.ledger.Balanced heard)
    (h : s.Paired) (v : Value) : ((replace v).after s).Paired := by
  by_cases hrefused : s.isRunning = false ∨ (∃ e, (coerce v).outcome s = .error e) ∨
      ∃ run cause, s.run = some run ∧ s.elapsed run = .error cause
  · exact (replace_refused hrefused).paired h
  · obtain ⟨run, node, place, hrun, hnode, hplace⟩ := accepted_of_not_refused hrefused
    have hahead := s.ahead_sublist run place
    have hwithdrawn := paired_withdraw h (knows_of_sublist hbooks hahead)
    have hswapped : ((s.withdraw (s.ahead run place)).swapped node).Paired :=
      paired_of_eq hwithdrawn rfl rfl
    rcases after_replace hbooks hrun hnode hplace with
      ⟨-, first, hfirst, -, -, halike⟩ | ⟨-, ⟨cause, -, -, halike⟩ | ⟨bookings, -, halike⟩⟩
    · exact halike.paired
        (paired_withdraw h (knows_of_sublist hbooks (hfirst.sublist.trans hahead)))
    · exact halike.paired hswapped
    · exact halike.paired (paired_bookAll hswapped bookings)

/-- A rate has nothing to do with events and timers. -/
theorem paired_setRate {s : Scheduler} (h : s.Paired) (v : Value) :
    ((setRate v).after s).Paired := by
  cases hrate : checkRate v with
  | error cause =>
      rw [setRate_error hrate]
      exact h
  | ok rate =>
      cases hrunning : s.isRunning with
      | true => exact (alike_setRate hrunning hrate).paired (paired_of_eq h rfl rfl)
      | false =>
          rw [setRate_of_stopped hrunning hrate]
          exact paired_of_eq h rfl rfl

/-! ## The present cycle -/

/-- Every boundary timer that waits is for the end of the present run's
cycle. -/
def Current (s : Scheduler) : Prop := ∀ t ∈ s.awaited, t.task = .boundary s.generation

/-- Where no boundary timer was made, those that wait are current still. -/
theorem Steady.current {s t : Scheduler} (h : Steady s t) (hs : s.Current) : t.Current := by
  intro u hu
  rw [h.generation]
  exact hs u (h.awaited u hu)

/-- Where none is awaited, none is of another run. -/
theorem current_of_awaited {s : Scheduler} (h : s.awaited = []) : s.Current := by
  intro t ht
  rw [h] at ht
  exact absurd ht List.not_mem_nil

/-- The timer for the end of the cycle is of this run. -/
theorem current_armed {s : Scheduler} (hnone : s.awaited = []) : s.armed.Current := by
  cases hrun : s.run with
  | none =>
      unfold armed
      rw [hrun]
      exact current_of_awaited hnone
  | some run =>
      intro t ht
      rw [awaited_armed hrun, hnone, List.nil_append, List.mem_singleton] at ht
      rw [ht, armed_of_run hrun]

/-- So is the one that a boundary makes, if no other is awaited. -/
theorem current_passBoundary {s : Scheduler} (hnone : s.awaited = []) (generation : Nat) :
    ((passBoundary generation).after s).Current := by
  rcases passBoundary_armed generation s with hsteady | ⟨t, hsteady, harmed⟩
  · exact current_of_awaited (hsteady.awaited_eq_nil hnone)
  · exact harmed.symm.steady.current (current_armed (hsteady.awaited_eq_nil hnone))

/-- When the only boundary timer goes off, the next one is of this run. -/
theorem current_rung {s : Scheduler} (hsole : s.Sole) (h : s.Current) {t : Timer Task}
    (ht : t ∈ s.clock.live) : ((perform t.task).after (s.expired t.id)).Current := by
  cases htask : t.task with
  | fire id => exact (tracks_steady.fire id _).current ((steady_expired s t.id).current h)
  | boundary generation =>
      have hawaited : t ∈ s.awaited := List.mem_filter.mpr ⟨ht, by simp [Timer.isBoundary, htask]⟩
      exact current_passBoundary (hsole.awaited_expired hawaited) generation

/-- A start finds none awaited, and makes one of its own run. -/
theorem current_start {s : Scheduler} (hsole : s.Sole) (h : s.Current) (v : Value)
    (given : Option Value) : ((start v given).after s).Current := by
  rcases start_cases v given s with hsame | ⟨hstopped, node, rate, halike | ⟨bookings, halike⟩⟩
  · exact hsame.symm.steady.current h
  · have hnone : (s.begun node rate).awaited = [] := hsole.stopped hstopped
    exact halike.symm.steady.current (current_of_awaited hnone)
  · have hnone : (s.begun node rate).awaited = [] := hsole.stopped hstopped
    exact halike.symm.steady.current
      (current_armed ((steady_bookAll _ bookings).awaited_eq_nil hnone))

/-- A stop leaves none awaited, whether it succeeds or fails. -/
theorem current_stop {s : Scheduler} (hsole : s.Sole) (h : s.Current) : (stop.after s).Current := by
  have hnone := (tracks_steady.cancelAll s.pendingItems s.halted).awaited_eq_nil
    hsole.awaited_halted
  rcases stop_cases s with hsame | hfailed | ⟨count, -, hstopped⟩
  · rw [hsame]
    exact h
  · rw [hfailed]
    exact current_of_awaited hnone
  · exact hstopped.symm.steady.current (current_of_awaited hnone)

/-- Occurrences at which no timer goes off out of turn leave no boundary timer
of an earlier run. -/
theorem current_next {o : Occurrence} {s : Scheduler} (ho : ∀ timer, o ≠ .poke timer)
    (hsole : s.Sole) (h : s.Current) : (o.next s).Current := by
  have hnext : s.Sole ∧ s.Current → (o.next s).Sole ∧ (o.next s).Current :=
    next_related (R := fun s t => s.Sole ∧ s.Current → t.Sole ∧ t.Current) tracks_steady
      (fun hst hs => ⟨hst.sole hs.1, hst.current hs.2⟩) (fun hst htu hs => htu (hst hs))
      (fun _ _ hs => ⟨⟨hs.1.known, hs.1.stopped⟩, hs.2⟩)
      (fun s t ht hs => ⟨sole_expired hs.1 ht, current_rung hs.1 hs.2 ht⟩)
      (fun v given _ hs => ⟨sole_start hs.1, current_start hs.1 hs.2 v given⟩)
      (fun _ hs => ⟨sole_stop hs.1, current_stop hs.1 hs.2⟩)
      fun t _ hpoke => absurd hpoke (ho t.id)
  exact (hnext ⟨hsole, h⟩).2

end Scheduler

/-! ## Every occurrence -/

/-- Whether an occurrence is a single step, at which no timer goes off out of
turn. -/
def Occurrence.isSingle : Occurrence → Bool
  | advance _ | poke _ => false
  | _ => true

namespace Scheduler

/-- A scheduler of which no timer went off out of turn. -/
structure Intact (s : Scheduler) : Prop where
  timed : s.Timed
  balanced : ∃ heard, s.ledger.Balanced heard
  sole : s.Sole
  current : s.Current
  paired : s.Paired

/-- Every single step keeps events paired with timers.  Moving forward and timers
out of turn are left out: the one is many steps, the others may fire an event whose
own timer still waits. -/
theorem paired_next {o : Occurrence} (ho : o.isSingle = true) {s : Scheduler} (h : s.Intact) :
    (o.next s).Paired := by
  obtain ⟨heard, hbooks⟩ := h.balanced
  cases o with
  | start v given => exact paired_start h.paired v given
  | replace v => exact paired_replace hbooks h.paired v
  | stop => exact paired_stop hbooks h.paired
  | setRate v => exact paired_setRate h.paired v
  | configureJournal enable level => exact (alike_configureJournal enable level s).paired h.paired
  | jump time => exact paired_of_eq h.paired rfl rfl
  | ring timer =>
      change ((ring timer).after s).Paired
      rcases ring_cases timer s with hsame | ⟨t, ht, rfl, hrung⟩
      · rw [hsame]
        exact h.paired
      · rw [hrung]
        exact paired_rung hbooks h.paired ht
  | advance time | poke timer => nomatch ho

/-- Every single step keeps a scheduler intact. -/
theorem intact_next {o : Occurrence} (ho : o.isSingle = true) {s : Scheduler} (h : s.Intact) :
    (o.next s).Intact where
  timed := timed_next o h.timed
  balanced := by
    obtain ⟨heard, hbooks⟩ := h.balanced
    obtain ⟨more, hmore⟩ := hbooks.steps (moves_next o s heard hbooks)
    exact ⟨heard ++ more, hmore⟩
  sole := by
    refine sole_next ?_ h.sole
    cases o with
    | poke timer => nomatch ho
    | _ => exact id
  current := by
    refine current_next ?_ h.sole h.current
    rintro timer rfl
    nomatch ho
  paired := paired_next ho h

/-- So does every run of single steps that begins with an intact scheduler. -/
theorem intact_afterAll {os : List Occurrence} (hos : ∀ o ∈ os, o.isSingle = true)
    {s : Scheduler} (h : s.Intact) : (afterAll os s).Intact := by
  induction os generalizing s with
  | nil => exact h
  | cons o os ih =>
      rw [List.forall_mem_cons] at hos
      exact ih hos.2 (intact_next hos.1 h)

/-- A new scheduler has no timers. -/
theorem intact_initial (perf : Performance) (policy : Policy) (sounder : Sounder)
    (listener : Option Listener) (rate now : Float) :
    (initial perf policy sounder listener rate now).Intact where
  timed := timed_afterAll perf policy sounder listener rate now []
  balanced := balanced_afterAll perf policy sounder listener rate now []
  sole := sole_of_awaited rfl
  current := current_of_awaited rfl
  paired := ⟨fun _ h => absurd h List.not_mem_nil, fun _ h => absurd h List.not_mem_nil⟩

namespace Intact

variable {s : Scheduler}

/-- Of a stopped scheduler no timer waits. -/
theorem live_of_stopped (h : s.Intact) (hstopped : s.isRunning = false) : s.clock.live = [] := by
  obtain ⟨heard, hbooks⟩ := h.balanced
  have hrun : s.run = none := by
    unfold isRunning at hstopped
    rwa [Option.isSome_eq_false_iff, Option.isNone_iff_eq_none] at hstopped
  have hpending : s.ledger.pending = [] := by
    unfold ledger
    rw [hrun]
    rfl
  refine List.eq_nil_iff_forall_not_mem.mpr fun t ht => ?_
  cases htask : t.task with
  | fire id =>
      obtain ⟨item, hitem, -, hfate, -⟩ := h.paired.event t ht id htask
      have hid := (hbooks.mem_pending hitem).mpr hfate
      rw [hpending] at hid
      exact absurd hid List.not_mem_nil
  | boundary generation =>
      have hawaited : t ∈ s.awaited := List.mem_filter.mpr ⟨ht, by simp [Timer.isBoundary, htask]⟩
      rw [h.sole.stopped hstopped] at hawaited
      exact absurd hawaited List.not_mem_nil

/-- Boundary timers wait only while something plays, and then there is one at
most: the one that is known, for the end of the present cycle. -/
theorem awaited_cases (h : s.Intact) : s.awaited = [] ∨
    s.isRunning = true ∧ ∃ t, s.awaited = [t] ∧ t.task = .boundary s.generation ∧
      s.boundary = some t.id := by
  cases hawaited : s.awaited with
  | nil => exact .inl rfl
  | cons t ts =>
      have ht : t ∈ s.awaited := by simp [hawaited]
      have hrunning : s.isRunning = true := by
        by_contra hstopped
        rw [Bool.not_eq_true] at hstopped
        rw [h.sole.stopped hstopped] at ht
        exact absurd ht List.not_mem_nil
      have hids : (s.awaited.map (·.id)).Nodup := by
        have hsublist : s.awaited.Sublist s.clock.timers :=
          List.filter_sublist.trans List.filter_sublist
        refine (hsublist.map _).nodup ?_
        rw [h.timed.ids]
        exact List.nodup_range
      have hnil : ts = [] := by
        refine List.eq_nil_iff_forall_not_mem.mpr fun u hu => ?_
        have hknown := h.sole.known u (by simp [hawaited, hu])
        rw [h.sole.known t ht, Option.some_inj] at hknown
        rw [hawaited, List.map_cons, List.nodup_cons] at hids
        exact hids.1 (hknown ▸ List.mem_map_of_mem hu)
      exact .inr ⟨hrunning, t, by rw [hnil], h.current t ht, h.sole.known t ht⟩

end Intact

end Scheduler

end Ostinato
