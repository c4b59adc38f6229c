import Ostinato.Proofs.Scheduler.Present
import Ostinato.Proofs.Scheduler.Unfinished
import Ostinato.Proofs.Scheduler.Waiting

/-!
# Ostinato.Proofs.Scheduler.Splitting

A replacement splits the cycle at its place.

1. Bookings make events with the next numbers, each on a timer of its own
   (`bookAll_eq`), and events that are withdrawn are cancelled where they stand
   (`items_withdraw`).
2. Every event is fired by the timer that was made for it, in every run
   (`regular_afterAll`), so what is cancelled takes no other timer with it.
3. `Split` — what stands before the place stays with its timers, what stands
   after it is cancelled with its own, and the onsets of the new pattern that are
   after it are booked (`splits_cycle`).
-/

namespace Ostinato

/-- The events that are made of bookings, numbered from `id` on, with timers
numbered from `timer` on. -/
def Booking.numbered : Nat → Nat → List Booking → List Scheduled
  | _, _, [] => []
  | id, timer, b :: bookings =>
    ⟨id, b.event, b.cycle, b.fireTime, b.duration, timer, .pending⟩ ::
      numbered (id + 1) (timer + 1) bookings

/-- The timer that an event waits for. -/
def Scheduled.awaiting (item : Scheduled) : Timer Task :=
  ⟨item.timer, item.fireTime, .fire item.id, true⟩

namespace Booking

/-- Numbered events are booked as the bookings say. -/
theorem booking_numbered (id timer : Nat) (bookings : List Booking) :
    (numbered id timer bookings).map (·.booking) = bookings := by
  induction bookings generalizing id timer with
  | nil => rfl
  | cons b bookings ih => exact congrArg (b :: ·) (ih (id + 1) (timer + 1))

theorem length_numbered (id timer : Nat) (bookings : List Booking) :
    (numbered id timer bookings).length = bookings.length := by
  rw [← List.length_map (·.booking), booking_numbered]

/-- Numbered events are pending, and numbered from the given numbers on. -/
theorem of_mem_numbered {id timer : Nat} {bookings : List Booking} {item : Scheduled}
    (h : item ∈ numbered id timer bookings) :
    item.fate = .pending ∧ id ≤ item.id ∧ timer ≤ item.timer ∧ item.booking ∈ bookings := by
  induction bookings generalizing id timer with
  | nil => exact absurd h List.not_mem_nil
  | cons b bookings ih =>
      unfold numbered at h
      rw [List.mem_cons] at h
      rcases h with rfl | hlater
      · exact ⟨rfl, Nat.le_refl _, Nat.le_refl _, List.mem_cons_self⟩
      · obtain ⟨hfate, hid, htimer, hbooking⟩ := ih hlater
        exact ⟨hfate, by omega, by omega, List.mem_cons_of_mem b hbooking⟩

end Booking

namespace Scheduler

open Scheduling

/-! ## What changes come to -/

/-- Bookings are numbered on, and nothing that was there before is changed. -/
theorem bookAll_eq (s : Scheduler) (bookings : List Booking) :
    let fresh := Booking.numbered s.items.length s.clock.timers.length bookings
    s.bookAll bookings = { s with
      items := s.items ++ fresh
      clock := { s.clock with timers := s.clock.timers ++ fresh.map Scheduled.awaiting }
      run := s.run.map fun run => { run with pending := run.pending ++ fresh.map (·.id) } } := by
  induction bookings generalizing s with
  | nil =>
      have hrun : s.run.map (fun run => { run with pending := run.pending ++ [] }) = s.run := by
        cases s.run <;> simp
      simp only [Booking.numbered, List.map_nil, List.append_nil] at hrun ⊢
      rw [hrun]
      rfl
  | cons b bookings ih =>
      intro fresh
      change (s.book b).bookAll bookings = _
      rw [ih (s.book b)]
      have hitems : (s.book b).items.length = s.items.length + 1 := by
        unfold book
        rw [List.length_append]
        rfl
      have htimers : (s.book b).clock.timers.length = s.clock.timers.length + 1 := by
        unfold book
        rw [Clock.timers_arm, List.length_append]
        rfl
      rw [hitems, htimers]
      unfold book
      simp only [Clock.arm, Option.map_map, List.append_assoc, fresh, Booking.numbered]
      congr 1
      cases s.run <;> simp

/-- Withdrawn events are cancelled where they stand. -/
theorem items_withdraw (s : Scheduler) (items : List Scheduled) :
    (s.withdraw items).items = s.items.map fun x =>
      if x.id ∈ items.map (·.id) then { x with fate := .cancelled } else x := by
  induction items generalizing s with
  | nil => simp [withdraw]
  | cons item items ih =>
      change ((s.cancelled item).withdraw items).items = _
      rw [ih]
      change (s.items.map (·.fated item.id .cancelled)).map _ = _
      rw [List.map_map]
      refine List.map_congr_left fun x _ => ?_
      simp only [Function.comp_apply, Scheduled.id_fated, List.map_cons, List.mem_cons]
      unfold Scheduled.fated
      by_cases hid : x.id = item.id
      · simp [hid]
      · simp [hid]

/-- Withdrawing events forgets no timer. -/
theorem length_timers_withdraw (s : Scheduler) (items : List Scheduled) :
    (s.withdraw items).clock.timers.length = s.clock.timers.length := by
  induction items generalizing s with
  | nil => rfl
  | cons item items ih =>
      change ((s.cancelled item).withdraw items).clock.timers.length = _
      rw [ih]
      exact List.length_map _

/-- In books that balance the pending events are those without a fate, in the
order in which they were booked. -/
theorem pendingItems_eq {s : Scheduler} {heard : List Nat} (h : s.ledger.Balanced heard) :
    s.pendingItems = s.items.filter (·.fate == .pending) := by
  have hpending := h.pending
  unfold ledger at hpending
  unfold pendingItems
  cases hrun : s.run with
  | none =>
      rw [hrun] at hpending
      exact (List.map_eq_nil_iff.mp hpending.symm).symm
  | some run =>
      rw [hrun] at hpending
      simp only [Option.map_some, Option.getD_some] at hpending ⊢
      rw [hpending, List.filterMap_map]
      have hfound : ∀ item ∈ s.items.filter (·.fate == .pending),
          (s.item? ∘ fun item => item.id) item = some item :=
        fun item hitem => item?_of_mem h (List.mem_of_mem_filter hitem)
      rw [List.filterMap_congr hfound, List.filterMap_some]

/-- What is withdrawn is no longer without a fate. -/
theorem filter_pending_withdraw (s : Scheduler) (items : List Scheduled) :
    (s.withdraw items).items.filter (·.fate == .pending) =
      (s.items.filter (·.fate == .pending)).filter (·.id ∉ items.map (·.id)) := by
  rw [items_withdraw]
  induction s.items with
  | nil => rfl
  | cons x xs ih =>
      rw [List.map_cons]
      by_cases hid : x.id ∈ items.map (·.id)
      · rw [if_pos hid, List.filter_cons_of_neg Bool.false_ne_true, ih, List.filter_cons]
        split
        · rw [List.filter_cons_of_neg (by simpa using hid)]
        · rfl
      · rw [if_neg hid, List.filter_cons, List.filter_cons, ih]
        split
        · rw [List.filter_cons_of_pos (by simpa using hid)]
        · rfl

/-! ## Events and their timers -/

/-- Every event is fired by the timer that was made for it. -/
def Owning (s : Scheduler) : Prop := ∀ item ∈ s.items, s.Owns item

/-- Events have their timers from before, which have their tasks from before. -/
theorem owning_of_kept {s t : Scheduler} (h : s.Owning)
    (hitems : ∀ x ∈ t.items, ∃ y ∈ s.items, y.id = x.id ∧ y.timer = x.timer)
    (htimers : ∀ u ∈ s.clock.timers, ∃ w ∈ t.clock.timers, w.id = u.id ∧ w.task = u.task) :
    t.Owning := by
  intro x hx
  obtain ⟨y, hy, hid, htimer⟩ := hitems x hx
  obtain ⟨u, hu, huid, htask⟩ := h y hy
  obtain ⟨w, hw, hwid, hwtask⟩ := htimers u hu
  refine ⟨w, hw, ?_, ?_⟩
  · rw [hwid, huid, htimer]
  · rw [hwtask, htask, hid]

/-- The fate of an event takes neither its number nor its timer. -/
theorem owning_settle {s : Scheduler} (h : s.Owning) (id : Nat) (fate : Fate) :
    (s.settle id fate).Owning := by
  refine owning_of_kept h (fun x hx => ?_) fun u hu => ⟨u, hu, rfl, rfl⟩
  obtain ⟨y, hy, rfl⟩ := List.mem_map.mp hx
  refine ⟨y, hy, (y.id_fated id fate).symm, ?_⟩
  unfold Scheduled.fated
  split <;> rfl

/-- A timer that stops waiting still belongs to its event. -/
theorem owning_expired {s : Scheduler} (h : s.Owning) (id : Nat) : (s.expired id).Owning :=
  owning_of_kept h (fun x hx => ⟨x, hx, rfl, rfl⟩) fun _ hu => exists_expired id hu

/-- Events own their timers where both are the same. -/
theorem owning_of_eq {s t : Scheduler} (h : s.Owning) (hitems : t.items = s.items)
    (hclock : t.clock.timers = s.clock.timers) : t.Owning := by
  refine owning_of_kept h (fun x hx => ⟨x, hitems ▸ hx, rfl, rfl⟩) fun u hu => ?_
  exact ⟨u, hclock ▸ hu, rfl, rfl⟩

theorem Alike.owning {s t : Scheduler} (h : Alike t s) (hs : s.Owning) : t.Owning :=
  owning_of_eq hs h.items (congrArg Clock.timers h.clock)

/-- A booking makes an event that owns the timer made with it. -/
theorem owning_book {s : Scheduler} (h : s.Owning) (b : Booking) : (s.book b).Owning := by
  intro item hitem
  change item ∈ s.items ++ [_] at hitem
  rw [List.mem_append, List.mem_singleton] at hitem
  rcases hitem with hold | rfl
  · obtain ⟨t, ht, howned⟩ := h item hold
    exact ⟨t, List.mem_append_left _ ht, howned⟩
  · exact ⟨_, List.mem_append_right _ List.mem_cons_self, rfl, rfl⟩

/-- Single changes keep every event with its timer. -/
theorem tracks_owning : Tracks fun s t => s.Owning → t.Owning where
  trans := fun hst htu h => htu (hst h)
  alike := fun halike h => halike.symm.owning h
  cancelled := fun _ h => owning_expired (owning_settle h _ .cancelled) _
  sounded := fun _ _ _ h => owning_of_eq (owning_settle h _ .sounded) rfl rfl
  givenUp := fun _ _ _ h => owning_settle h _ .sounded
  booked := fun b _ h => owning_book h b
  swapped := fun _ _ h => owning_of_eq h rfl rfl
  rated := fun _ _ _ h => owning_of_eq h rfl rfl

/-- The timer for the end of a cycle takes none from an event. -/
theorem owning_armed {s : Scheduler} (h : s.Owning) : s.armed.Owning := by
  unfold armed
  cases s.run with
  | none => exact h
  | some run =>
      refine owning_of_kept h (fun x hx => ⟨x, hx, rfl, rfl⟩) fun u hu => ?_
      exact ⟨u, List.mem_append_left _ hu, rfl, rfl⟩

/-- The beginning of a cycle books its events and makes a boundary timer. -/
theorem owning_begun {s t : Scheduler} (h : s.Owning) (hitems : t.items = s.items)
    (hclock : t.clock = s.clock) (hrunning : t.isRunning = true) (bookings : List Booking) :
    ((t.bookAll bookings).armed).Owning :=
  owning_armed (tracks_owning.bookAll hrunning bookings
    (owning_of_eq h hitems (congrArg Clock.timers hclock)))

/-- A task fires an event, or books others, and leaves timers to their events. -/
theorem owning_perform {s : Scheduler} (h : s.Owning) (task : Task) :
    ((perform task).after s).Owning := by
  cases task with
  | fire id => exact tracks_owning.fire id s h
  | boundary generation =>
      change ((passBoundary generation).after s).Owning
      rcases passBoundary_cases generation s with
        hsame | ⟨run, hrun, -, hturned | ⟨bookings, hbooked⟩⟩
      · rw [hsame]
        exact h
      · exact hturned.owning (owning_of_eq h rfl rfl)
      · exact hbooked.owning (owning_begun (t := s.turned run) h rfl rfl rfl bookings)

/-- So does a start. -/
theorem owning_start {s : Scheduler} (h : s.Owning) (v : Value) (given : Option Value) :
    ((start v given).after s).Owning := by
  rcases start_cases v given s with hsame | ⟨-, node, rate, hbegun | ⟨bookings, hbooked⟩⟩
  · exact hsame.owning h
  · exact hbegun.owning (owning_of_eq h rfl rfl)
  · exact hbooked.owning (owning_begun (t := s.begun node rate) h rfl rfl rfl bookings)

/-- So does a stop, whether or not it fails halfway. -/
theorem owning_stop {s : Scheduler} (h : s.Owning) : (stop.after s).Owning := by
  have hhalted : s.halted.Owning := by
    unfold halted
    cases s.boundary with
    | none => exact owning_of_eq h rfl rfl
    | some timer => exact owning_of_eq (owning_expired h timer) rfl rfl
  have hcancelled := tracks_owning.cancelAll s.pendingItems s.halted hhalted
  rcases stop_cases s with hsame | hfailed | ⟨count, -, hstopped⟩
  · rw [hsame]
    exact h
  · rw [hfailed]
    exact hcancelled
  · exact hstopped.owning (owning_of_eq hcancelled rfl rfl)

/-- So does every occurrence. -/
theorem owning_next (o : Occurrence) (s : Scheduler) : s.Owning → (o.next s).Owning :=
  next_related (R := fun s t => s.Owning → t.Owning) tracks_owning id
    (fun hst htu h => htu (hst h)) (fun _ _ h => owning_of_eq h rfl rfl)
    (fun _ t _ h => owning_perform (owning_expired h t.id) t.task)
    (fun v given _ h => owning_start h v given) (fun _ => owning_stop)
    fun t _ _ h => owning_perform h t.task

/-- What is known of a scheduler whatever happens to it: its timers are numbered,
every event has its own, no pending event is of a later cycle, and the books
balance. -/
structure Regular (s : Scheduler) : Prop where
  timed : s.Timed
  owning : s.Owning
  present : s.Present
  balanced : ∃ heard, s.ledger.Balanced heard

/-- A scheduler that is regular stays so, whatever happens. -/
theorem regular_next (o : Occurrence) {s : Scheduler} (h : s.Regular) : (o.next s).Regular := by
  obtain ⟨heard, hbooks⟩ := h.balanced
  obtain ⟨more, hmore⟩ := hbooks.steps (moves_next o s heard hbooks)
  exact ⟨timed_next o h.timed, owning_next o s h.owning, present_next hbooks h.present o,
    _, hmore⟩

/-- In every run a scheduler is regular. -/
theorem regular_afterAll (perf : Performance) (policy : Policy) (sounder : Sounder)
    (listener : Option Listener) (rate now : Float) (os : List Occurrence) :
    (afterAll os (initial perf policy sounder listener rate now)).Regular := by
  have hinitial : (initial perf policy sounder listener rate now).Regular :=
    ⟨timed_afterAll perf policy sounder listener rate now [],
      fun _ hitem => absurd hitem List.not_mem_nil, fun _ hrun => (nomatch hrun),
      balanced_afterAll perf policy sounder listener rate now []⟩
  exact afterAll_related (R := fun s t => s.Regular → t.Regular) (fun _ h => h)
    (fun hst htu h => htu (hst h)) (fun o _ _ h => regular_next o h) _ hinitial

namespace Regular

variable {s : Scheduler} (h : s.Regular)

include h

/-- The events still to be sounded are scheduled ones. -/
theorem mem_items {item : Scheduled} (hitem : item ∈ s.pendingItems) : item ∈ s.items := by
  obtain ⟨heard, hbooks⟩ := h.balanced
  exact (isOpen_of_mem_pendingItems hbooks hitem).1

/-- No two events have the same timer. -/
theorem eq_of_timer {x y : Scheduled} (hx : x ∈ s.items) (hy : y ∈ s.items)
    (htimer : x.timer = y.timer) : x = y := by
  obtain ⟨heard, hbooks⟩ := h.balanced
  obtain ⟨t, ht, htid, httask⟩ := h.owning x hx
  obtain ⟨u, hu, huid, hutask⟩ := h.owning y hy
  have hsame := h.timed.eq_of_id ht hu (by rw [htid, huid, htimer])
  rw [← hsame, httask] at hutask
  exact hbooks.eq_of_id hx hy (Task.fire.inj hutask)

theorem timer_lt_of_mem {t : Timer Task} (ht : t ∈ s.clock.timers) :
    t.id < s.clock.timers.length := by
  have hid : t.id ∈ s.clock.timers.map (·.id) := List.mem_map_of_mem ht
  rwa [h.timed.ids, List.mem_range] at hid

/-- The timer of an event is one that was made. -/
theorem timer_lt {x : Scheduled} (hx : x ∈ s.items) : x.timer < s.clock.timers.length := by
  obtain ⟨t, ht, htid, -⟩ := h.owning x hx
  exact htid ▸ h.timer_lt_of_mem ht

/-- Of some events only one of them has the timer of an event. -/
theorem mem_map_timer {items : List Scheduled} (hitems : ∀ x ∈ items, x ∈ s.items) {item : Scheduled}
    (hitem : item ∈ s.items) : item.timer ∈ items.map (·.timer) ↔ item ∈ items := by
  refine ⟨fun htimer => ?_, List.mem_map_of_mem⟩
  obtain ⟨other, hother, hsame⟩ := List.mem_map.mp htimer
  exact h.eq_of_timer (hitems other hother) hitem hsame ▸ hother

/-- The timers of new events are none that there were. -/
theorem timer_ne_of_numbered {item : Scheduled} (hitem : item ∈ s.items) {bookings : List Booking}
    {u : Timer Task} (hu : u ∈ (Booking.numbered s.items.length s.clock.timers.length
      bookings).map Scheduled.awaiting) : u.id ≠ item.timer := by
  obtain ⟨new, hnew, rfl⟩ := List.mem_map.mp hu
  have hle : s.clock.timers.length ≤ new.timer := (Booking.of_mem_numbered hnew).2.2.1
  have hlt := h.timer_lt hitem
  change new.timer ≠ item.timer
  omega

/-- Withdrawing events leaves the boundary timers waiting. -/
theorem awaited_withdraw {items : List Scheduled} (hitems : ∀ item ∈ items, item ∈ s.items) :
    (s.withdraw items).awaited = s.awaited :=
  Scheduler.awaited_withdraw h.timed fun item hitem => h.owning item (hitems item hitem)

end Regular

/-! ## The split -/

end Scheduler

/-- Whether a swap at a place of the present cycle leaves a pending event alone:
it is of an earlier cycle, or does not begin after that place. -/
def Scheduled.stays (run : Run) (place : Rat) (item : Scheduled) : Bool :=
  item.cycle < run.cycleIndex || item.event.active.start ≤ place

namespace Scheduler

open Scheduling

/-- The present cycle of a scheduler was split at a place: what is left became
`t`.  What began by then stays with its timers, all other pending events are
cancelled with theirs, and the onsets of the new pattern after that place are
booked. -/
structure Split (s : Scheduler) (run : Run) (place : Rat) (node : Pattern) (events : List Event)
    (t : Scheduler) (fresh : List Scheduled) : Prop where
  /-- One new event for each onset after the place, in order. -/
  onsets : List.Forall₂
    (fun e item => Booking.of run.cycleIndex run.cycleStart s.rate e = .ok item.booking)
    (events.filter fun e => e.hasOnset && place < e.active.start) fresh
  /-- New events have new numbers and new timers. -/
  numbers : fresh.map (·.id) = List.range' s.items.length fresh.length ∧
    fresh.map (·.timer) = List.range' s.clock.timers.length fresh.length
  pending : t.pendingItems = s.pendingItems.filter (·.stays run place) ++ fresh
  /-- The timers that wait are those that waited and were not cancelled, and those
  of the new events. -/
  live : t.clock.live = s.clock.live.filter (·.id ∉
    (s.pendingItems.filter (!·.stays run place)).map (·.timer)) ++ fresh.map Scheduled.awaiting
  stayed : ∀ item ∈ s.pendingItems, item.stays run place = true →
    ∀ u, u.id = item.timer → (u ∈ t.clock.live ↔ u ∈ s.clock.live)
  cancelled : ∀ item ∈ s.pendingItems, item.stays run place = false →
    { item with fate := .cancelled } ∈ t.items ∧ ∀ u ∈ t.clock.live, u.id ≠ item.timer
  cycle : ∃ pending, t.run = some ⟨node, run.cycleStart, run.cycleIndex, pending⟩
  rates : t.rate = s.rate ∧ t.pendingRate = s.pendingRate
  boundary : t.boundary = s.boundary ∧ t.awaited = s.awaited

section Split

variable {s t : Scheduler} {run : Run} {place : Rat} {node : Pattern} {events : List Event}
  {bookings : List Booking}

/-- A pending event is ahead or stays. -/
theorem Regular.isAhead_eq (h : s.Regular) (hrun : s.run = some run) (place : Rat)
    {item : Scheduled} (hitem : item ∈ s.pendingItems) :
    isAhead run place item = !item.stays run place := by
  obtain ⟨heard, hbooks⟩ := h.balanced
  have hmem := h.mem_items hitem
  have hcycle : item.cycle < run.cycleIndex + 1 :=
    h.present run hrun item hmem ((mem_pendingItems_iff hbooks hmem).mp hitem)
  unfold isAhead Scheduled.stays
  rw [Bool.eq_iff_iff]
  by_cases hearlier : item.cycle < run.cycleIndex
  · have hne : item.cycle ≠ run.cycleIndex := by omega
    have hnot : ¬ run.cycleIndex < item.cycle := by omega
    simp [hearlier, hne, hnot]
  · have heq : item.cycle = run.cycleIndex := by omega
    simp [heq]

/-- What a replacement cancels is what does not stay. -/
theorem Regular.ahead_eq (h : s.Regular) (hrun : s.run = some run) (place : Rat) :
    s.ahead run place = s.pendingItems.filter (!·.stays run place) :=
  List.filter_congr fun _ hitem => h.isAhead_eq hrun place hitem

/-- Events and timers are numbered one after another. -/
theorem ids_numbered (id timer : Nat) (bookings : List Booking) :
    (Booking.numbered id timer bookings).map (·.id) = List.range' id bookings.length ∧
      (Booking.numbered id timer bookings).map (·.timer) = List.range' timer bookings.length := by
  induction bookings generalizing id timer with
  | nil => exact ⟨rfl, rfl⟩
  | cons b bookings ih =>
      obtain ⟨hids, htimers⟩ := ih (id + 1) (timer + 1)
      exact ⟨congrArg (id :: ·) hids, congrArg (timer :: ·) htimers⟩

/-- What is pending and what waits once a swap is done. -/
theorem pending_of_swap (h : s.Regular) (h' : t.Regular)
    (ht : Alike t (((s.withdraw (s.ahead run place)).swapped node).bookAll bookings)) :
    let fresh := Booking.numbered s.items.length s.clock.timers.length bookings
    t.items = (s.withdraw (s.ahead run place)).items ++ fresh ∧
      t.pendingItems = s.pendingItems.filter (fun item => !isAhead run place item) ++ fresh ∧
      t.clock.live = s.clock.live.filter (·.id ∉ (s.ahead run place).map (·.timer)) ++
        fresh.map Scheduled.awaiting := by
  obtain ⟨heard, hbooks⟩ := h.balanced
  obtain ⟨heard', hbooks'⟩ := h'.balanced
  intro fresh
  have hlength : (s.withdraw (s.ahead run place)).items.length = s.items.length := by
    rw [items_withdraw, List.length_map]
  have hbooked := bookAll_eq ((s.withdraw (s.ahead run place)).swapped node) bookings
  have hfresh : Booking.numbered ((s.withdraw (s.ahead run place)).swapped node).items.length
      ((s.withdraw (s.ahead run place)).swapped node).clock.timers.length bookings = fresh := by
    change Booking.numbered (s.withdraw (s.ahead run place)).items.length
      (s.withdraw (s.ahead run place)).clock.timers.length bookings = fresh
    rw [hlength, length_timers_withdraw]
  rw [hfresh] at hbooked
  have hitems : t.items = (s.withdraw (s.ahead run place)).items ++ fresh := by
    rw [ht.items, hbooked]
    rfl
  refine ⟨hitems, ?_, ?_⟩
  · have hpending : fresh.filter (·.fate == .pending) = fresh := by
      refine List.filter_eq_self.mpr fun item hitem => ?_
      rw [(Booking.of_mem_numbered hitem).1]
      rfl
    rw [pendingItems_eq hbooks', hitems, List.filter_append, hpending, filter_pending_withdraw,
      ← pendingItems_eq hbooks, ← pendingItems_withdraw, pendingItems_withdraw_ahead hbooks]
  · have hwaiting : (fresh.map Scheduled.awaiting).filter (·.waiting) =
        fresh.map Scheduled.awaiting := by
      rw [List.filter_map]
      exact congrArg _ (List.filter_eq_self.mpr fun _ _ => rfl)
    rw [ht.clock, hbooked]
    change List.filter _ ((s.withdraw (s.ahead run place)).clock.timers ++ _) = _
    rw [List.filter_append, hwaiting]
    exact congrArg (· ++ _) (s.live_withdraw (s.ahead run place))

/-- What a swap comes to if nothing ends it early. -/
theorem split_of_swap (h : s.Regular) (h' : t.Regular) (hrun : s.run = some run)
    (hquery : s.performance.query node run.cycleIndex none = .ok events)
    (hplan : s.performance.plan node run.cycleIndex run.cycleStart s.rate (some place) =
      .ok bookings)
    (ht : Alike t (((s.withdraw (s.ahead run place)).swapped node).bookAll bookings)) :
    Split s run place node events t
      (Booking.numbered s.items.length s.clock.timers.length bookings) := by
  obtain ⟨hitems, hpending, hlive⟩ := pending_of_swap h h' ht
  have hahead := h.ahead_eq hrun place
  have hwithdrawn : ∀ item ∈ s.ahead run place, item ∈ s.items :=
    fun item hitem => h.mem_items ((s.ahead_sublist run place).subset hitem)
  rw [hahead] at hlive
  constructor
  case onsets =>
    obtain ⟨events', hevents', hbookings⟩ := bind_ok hplan
    obtain rfl : events = events' := Except.ok.inj (hquery.symm.trans hevents')
    have honsets := forall₂_of_mapM hbookings
    rw [← Booking.booking_numbered s.items.length s.clock.timers.length bookings,
      List.forall₂_map_right_iff] at honsets
    exact honsets
  case numbers =>
    rw [Booking.length_numbered]
    exact ids_numbered _ _ bookings
  case pending =>
    rw [hpending]
    refine congrArg (· ++ _) (List.filter_congr fun item hitem => ?_)
    rw [h.isAhead_eq hrun place hitem, Bool.not_not]
  case live => exact hlive
  case stayed =>
    intro item hitem hstays u hid
    have hnew : u ∉ (Booking.numbered s.items.length s.clock.timers.length bookings).map
        Scheduled.awaiting := fun hu => h.timer_ne_of_numbered (h.mem_items hitem) hu hid
    have hkept : u.id ∉ (s.pendingItems.filter (!·.stays run place)).map (·.timer) := by
      rw [hid, h.mem_map_timer (hahead ▸ hwithdrawn) (h.mem_items hitem), List.mem_filter, hstays]
      exact fun hgone => nomatch hgone.2
    rw [hlive, List.mem_append, List.mem_filter]
    simp [hnew, hkept]
  case cancelled =>
    intro item hitem hnot
    have hgone : item ∈ s.pendingItems.filter (!·.stays run place) :=
      List.mem_filter.mpr ⟨hitem, by rw [hnot]; rfl⟩
    constructor
    · rw [hitems, items_withdraw, hahead]
      refine List.mem_append_left _ (List.mem_map.mpr ⟨item, h.mem_items hitem, ?_⟩)
      rw [if_pos (List.mem_map_of_mem hgone)]
    · intro u hu hid
      rw [hlive, List.mem_append, List.mem_filter] at hu
      rcases hu with ⟨-, hkept⟩ | hnew
      · exact of_decide_eq_true hkept (hid ▸ List.mem_map_of_mem hgone)
      · exact h.timer_ne_of_numbered (h.mem_items hitem) hnew hid
  case cycle =>
    obtain ⟨pending, hbooked⟩ := run_bookAll (run_swapped hrun (s.ahead run place) node) bookings
    exact ⟨pending, ht.run.trans hbooked⟩
  case rates =>
    have hcourse := sameCourse_bookAll ((s.withdraw (s.ahead run place)).swapped node) bookings
    rw [ht.rate, ht.pendingRate, hcourse.rate, hcourse.pendingRate, withdraw_eq]
    exact ⟨rfl, rfl⟩
  case boundary =>
    constructor
    · rw [ht.boundary, (steady_bookAll _ bookings).boundary, withdraw_eq]
      rfl
    · rw [awaited_of_timers (congrArg Clock.timers ht.clock), awaited_bookAll]
      exact h.awaited_withdraw hwithdrawn

end Split

/-- A swap where the place is not known is refused, for that reason. -/
theorem replace_of_unplaced {s : Scheduler} {run : Run} (hrun : s.run = some run) {v : Value}
    {node : Pattern} (hnode : (coerce v).outcome s = .ok node) {cause : Fault}
    (hplace : s.elapsed run = .error cause) :
    (replace v).outcome s = .error (.fault cause) ∧ Alike ((replace v).after s) s := by
  refine ⟨?_, replace_refused (.inr (.inr ⟨run, cause, hrun, hplace⟩))⟩
  have hread := alike_coerce v s
  have hplace' : ((coerce v).after s).elapsed run = .error cause := by
    unfold elapsed at hplace ⊢
    rw [hread.clock, hread.rate]
    exact hplace
  unfold replace
  rw [outcome_bind hnode, outcome_get_bind, hread.run, hrun]
  simp only [hplace', orFault_error]
  rfl

/-- **The split of a cycle**: in every run a replacement by a pattern whose
present cycle can be found splits that cycle at its place.  There are two
exceptions.  Where the place is no number the replacement fails and changes
nothing.  An event after the place that cannot be written ends it: some events
after the place are cancelled, that one the last, and that is all. -/
theorem splits_cycle (perf : Performance) (policy : Policy) (sounder : Sounder)
    (listener : Option Listener) (rate now : Float) (os : List Occurrence) {run : Run} {v : Value}
    {node : Pattern} {events : List Event} :
    let s := afterAll os (initial perf policy sounder listener rate now)
    let t := (replace v).after s
    s.run = some run → (coerce v).outcome s = .ok node →
    s.performance.query node run.cycleIndex none = .ok events →
    (∀ place, s.elapsed run = .ok place →
      let gone := s.pendingItems.filter (!·.stays run place)
      ((∀ item ∈ gone, item.event.value.isWritable = true) →
        ∃ fresh, Split s run place node events t fresh) ∧
      ((∃ item ∈ gone, item.event.value.isWritable = false) →
        (replace v).outcome s = .error (.fault .unwritable) ∧
        ∃ first, first <+: gone ∧ first ≠ [] ∧ Alike t (s.withdraw first))) ∧
    ∀ cause, s.elapsed run = .error cause →
      (replace v).outcome s = .error (.fault cause) ∧ Alike t s := by
  intro s t hrun hnode hquery
  have h : s.Regular := regular_afterAll perf policy sounder listener rate now os
  have h' : t.Regular := regular_next (.replace v) h
  obtain ⟨heard, hbooks⟩ := h.balanced
  refine ⟨fun place hplace => ?_, fun cause hplace => replace_of_unplaced hrun hnode hplace⟩
  have hahead := h.ahead_eq hrun place
  intro gone
  rcases after_replace hbooks hrun hnode hplace with
    ⟨⟨item, hitem, hlong⟩, first, hfirst, hne, hfailed, halike⟩ |
    ⟨hall, ⟨cause, hplan, -, -⟩ | ⟨bookings, hplan, halike⟩⟩
  · rw [hahead] at hitem hfirst
    refine ⟨fun hall => ?_, fun _ => ⟨hfailed, first, hfirst, hne, halike⟩⟩
    rw [hall item hitem] at hlong
    nomatch hlong
  · rw [Performance.plan_eq_error_iff, hquery] at hplan
    nomatch hplan
  · rw [hahead] at hall
    refine ⟨fun _ => ⟨_, split_of_swap h h' hrun hquery hplan halike⟩,
      fun ⟨item, hitem, hlong⟩ => ?_⟩
    rw [hall item hitem] at hlong
    nomatch hlong

/-- Four notes of which none was fired are replaced by others three tenths into the
cycle: the first two stay, the others are cancelled, and the last two of the new
notes are booked. -/
theorem splits_cycle_notes :
    let s := afterAll [.start (.text "a b c d") none, .jump 0.3]
      (initial .default Policy.roundRobin ⟨none, fun _ _ => .sounded⟩ none 1.0 0.0)
    let t := (replace (.text "e f g h")).after s
    (∃ run node events place fresh, s.run = some run ∧ s.elapsed run = .ok place ∧ place = 3 / 10 ∧
      Split s run place node events t fresh) ∧
    (t.pendingItems.map fun item => (item.id, item.event.value.plain, item.fireTime)) =
      [(0, "a", 0.0), (1, "b", 0.25), (4, "g", 0.5), (5, "h", 0.75)] := by
  intro s t
  have hfacts : s.run.map (fun run => ((coerce (.text "e f g h")).outcome s).toOption.map
      fun node => ((s.performance.query node run.cycleIndex none).toOption.map fun _ =>
        (s.elapsed run).toOption.map fun place =>
        (place, (s.pendingItems.filter (!·.stays run place)).all (·.event.value.isWritable)))) =
      some (some (some (some (3 / 10, true)))) := by
    decide +kernel
  have hpending : (t.pendingItems.map fun item => (item.id, item.event.value.plain,
      item.fireTime)) = [(0, "a", 0.0), (1, "b", 0.25), (4, "g", 0.5), (5, "h", 0.75)] := by
    decide +kernel
  obtain ⟨run, hrun, hfacts⟩ := Option.map_eq_some_iff.mp hfacts
  obtain ⟨node, hnode, hfacts⟩ := ok_of_toOption_map hfacts
  obtain ⟨events, hquery, hfacts⟩ := ok_of_toOption_map hfacts
  obtain ⟨place, hplace, hfacts⟩ := ok_of_toOption_map hfacts
  obtain ⟨hvalue, hwritable⟩ := Prod.mk.inj hfacts
  obtain ⟨fresh, hsplit⟩ := ((splits_cycle .default Policy.roundRobin ⟨none, fun _ _ => .sounded⟩
    none 1.0 0.0 [.start (.text "a b c d") none, .jump 0.3] hrun hnode hquery).1 place
    hplace).1 (List.all_eq_true.mp hwritable)
  exact ⟨⟨run, node, events, place, fresh, hrun, hplace, hvalue, hsplit⟩, hpending⟩

/-- At an infinite rate the place of a cycle that has just begun is no number, and
two notes are not replaced.  Nor are they at one cycle per second if the second
cannot be written: it is cancelled, and no other is booked. -/
theorem unsplit_cycle :
    let notes := Pattern.sequence [.leaf (.text "a"), .leaf (.text "b")]
    let product := Pattern.operation (.leaf (.number (.int (10 ^ 2200)))) "*"
      (.number (.ratio (10 ^ 2200)))
    let node := Pattern.sequence [.leaf (.text "c"), .leaf (.text "d")]
    let started (p : Pattern) (rate : Float) := afterAll [.start (.pattern p) none]
      (initial .default Policy.roundRobin ⟨none, fun _ _ => .sounded⟩ none rate 0.0)
    (let s := started notes (1.0 / 0.0)
      ∃ run events, s.run = some run ∧ s.performance.query node run.cycleIndex none = .ok events ∧
        ∀ place fresh, ¬ Split s run place node events ((replace (.pattern node)).after s) fresh) ∧
    let s := started (.sequence [.leaf (.text "a"), product]) 1.0
    ∃ run events place, s.run = some run ∧
      s.performance.query node run.cycleIndex none = .ok events ∧ s.elapsed run = .ok place ∧
        ∀ fresh, ¬ Split s run place node events ((replace (.pattern node)).after s) fresh := by
  intro notes product node started
  have hshown : ∀ {s t : Scheduler} {run : Run} {place : Rat} {events : List Event}
      {fresh : List Scheduled}, Split s run place node events t fresh →
      t.run.map (·.pattern.shown) = some node.shown := by
    intro s t run place events fresh h
    obtain ⟨pending, hcycle⟩ := h.cycle
    rw [hcycle]
    rfl
  constructor
  · intro s
    have hfacts : s.run.map (fun run =>
        (s.performance.query node run.cycleIndex none).toOption.isSome) = some true := by
      decide +kernel
    have hkept : ¬ ((replace (.pattern node)).after s).run.map (·.pattern.shown) =
        some node.shown := by
      decide +kernel
    obtain ⟨run, hrun, hfound⟩ := Option.map_eq_some_iff.mp hfacts
    obtain ⟨events, hquery⟩ := ok_of_isSome hfound
    exact ⟨run, events, hrun, hquery, fun place fresh h => hkept (hshown h)⟩
  · intro s
    have hfacts : s.run.map (fun run =>
        (s.performance.query node run.cycleIndex none).toOption.map fun _ =>
          (s.elapsed run).toOption.isSome) = some (some true) := by
      decide +kernel
    have hkept : ¬ ((replace (.pattern node)).after s).run.map (·.pattern.shown) =
        some node.shown := by
      decide +kernel
    obtain ⟨run, hrun, hfacts⟩ := Option.map_eq_some_iff.mp hfacts
    obtain ⟨events, hquery, hfound⟩ := ok_of_toOption_map hfacts
    obtain ⟨place, hplace⟩ := ok_of_isSome hfound
    exact ⟨run, events, place, hrun, hquery, hplace, fun fresh h => hkept (hshown h)⟩

end Scheduler

end Ostinato
