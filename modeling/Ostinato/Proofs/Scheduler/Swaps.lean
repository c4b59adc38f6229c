import Ostinato.Proofs.Scheduler.Renewals
import Ostinato.Proofs.Scheduler.Splitting

/-!
# Ostinato.Proofs.Scheduler.Swaps

Replacements one after another at the same time.

Each replacement cancels exactly what the one before it booked: those events are
all after the place of the cycle at which they were booked, and what stays does
so again (`swapped_replace`).  So of several replacements only the last one
counts (`last_swap_wins`), up to the numbers that the others used up
(`Renumbered`).
-/

namespace Ostinato

/-! ## Numbers that were used up -/

/-- An event with its number and its timer moved on by `k`, if it is numbered from
`n` on. -/
def Scheduled.shifted (n k : Nat) (item : Scheduled) : Scheduled :=
  if item.id < n then item else { item with id := item.id + k, timer := item.timer + k }

/-- The task with the number of its event moved on. -/
def Task.shifted (k : Nat) : Task → Task
  | fire id => fire (id + k)
  | boundary generation => boundary generation

/-- A timer with its number and that of its event moved on by `k`, if it is numbered
from `m` on. -/
def Timer.shifted (m k : Nat) (t : Timer Task) : Timer Task :=
  if t.id < m then t else { t with id := t.id + k, task := t.task.shifted k }

/-- An event with another number is booked for the same. -/
theorem Scheduled.booking_shifted (n k : Nat) (item : Scheduled) :
    (item.shifted n k).booking = item.booking := by
  unfold shifted
  split <;> rfl

theorem Scheduled.shifted_of_lt {n : Nat} {item : Scheduled} (h : item.id < n) (k : Nat) :
    item.shifted n k = item := if_pos h

theorem Timer.shifted_of_lt {m : Nat} {t : Timer Task} (h : t.id < m) (k : Nat) :
    t.shifted m k = t := if_pos h

/-- Later numbers are numbers moved on. -/
theorem Booking.numbered_shifted {n id : Nat} (h : n ≤ id) (timer k : Nat)
    (bookings : List Booking) :
    (numbered id timer bookings).map (·.shifted n k) = numbered (id + k) (timer + k) bookings := by
  induction bookings generalizing id timer with
  | nil => rfl
  | cons b bookings ih =>
      have hnot : ¬ id < n := Nat.not_lt.mpr h
      have hfirst : Scheduled.shifted n k
          ⟨id, b.event, b.cycle, b.fireTime, b.duration, timer, .pending⟩ =
          ⟨id + k, b.event, b.cycle, b.fireTime, b.duration, timer + k, .pending⟩ := if_neg hnot
      unfold numbered
      rw [List.map_cons, hfirst, ih (Nat.le_succ_of_le h), Nat.add_right_comm id 1 k,
        Nat.add_right_comm timer 1 k]

/-- The timer of an event with another number is its timer with another number. -/
theorem Scheduled.awaiting_shifted {n m k : Nat} {item : Scheduled} (hid : n ≤ item.id)
    (htimer : m ≤ item.timer) :
    (item.shifted n k).awaiting = item.awaiting.shifted m k := by
  have hnot : ¬ item.awaiting.id < m := Nat.not_lt.mpr htimer
  unfold shifted Timer.shifted
  rw [if_neg (Nat.not_lt.mpr hid), if_neg hnot]
  rfl

namespace Scheduler

open Scheduling

/-- The order in which events fire does not depend on their numbers. -/
theorem upcoming_map {f : Scheduled → Scheduled} (hf : ∀ item, (f item).fireTime = item.fireTime)
    (items : List Scheduled) :
    (items.map f).foldr insertByFireTime [] = (items.foldr insertByFireTime []).map f := by
  have hinsert : ∀ item others, insertByFireTime (f item) (others.map f) =
      (insertByFireTime item others).map f := by
    intro item others
    induction others with
    | nil => rfl
    | cons x xs ih =>
        simp only [List.map_cons, insertByFireTime, hf, ih]
        split <;> rfl
  induction items with
  | nil => rfl
  | cons item items ih => rw [List.map_cons, List.foldr_cons, List.foldr_cons, ih, hinsert]

/-- Two schedulers play the same pattern at the same place of the same cycle, and
the same events are pending and the same timers wait, but for numbers that `s` has
not given away: in the second scheduler they are moved on by `k`. -/
structure Renumbered (s : Scheduler) (k : Nat) (once often : Scheduler) : Prop where
  cycle : ∃ run pending, once.run = some run ∧ often.run = some { run with pending := pending }
  rates : often.rate = once.rate ∧ often.pendingRate = once.pendingRate
  boundary : often.boundary = once.boundary ∧ often.generation = once.generation ∧
    often.awaited = once.awaited
  now : often.clock.now = once.clock.now
  pending : often.pendingItems = once.pendingItems.map (·.shifted s.items.length k)
  /-- The pending events in the order in which they fire. -/
  upcoming : often.upcoming = once.upcoming.map (·.shifted s.items.length k)
  live : often.clock.live = once.clock.live.map (·.shifted s.clock.timers.length k)

/-! ## One replacement after another -/

/-- What a scheduler has become in which the pattern was replaced once or more
often at a place of the cycle: the last replacement made some bookings, and the
others had used up `k` numbers. -/
structure Swapped (s : Scheduler) (run : Run) (place : Rat) (node : Pattern)
    (bookings : List Booking) (k : Nat) (t : Scheduler) : Prop where
  cycle : ∃ pending, t.run = some ⟨node, run.cycleStart, run.cycleIndex, pending⟩
  rate : t.rate = s.rate
  pendingRate : t.pendingRate = s.pendingRate
  generation : t.generation = s.generation
  boundary : t.boundary = s.boundary
  awaited : t.awaited = s.awaited
  performance : t.performance = s.performance
  now : t.clock.now = s.clock.now
  items : t.items.length = s.items.length + k + bookings.length
  timers : t.clock.timers.length = s.clock.timers.length + k + bookings.length
  pending : t.pendingItems = (s.pendingItems.filter fun item => !isAhead run place item) ++
    Booking.numbered (s.items.length + k) (s.clock.timers.length + k) bookings
  live : t.clock.live = s.clock.live.filter (·.id ∉ (s.ahead run place).map (·.timer)) ++
    (Booking.numbered (s.items.length + k) (s.clock.timers.length + k) bookings).map
      Scheduled.awaiting

/-- Withdrawing events takes no time. -/
theorem now_withdraw (s : Scheduler) (items : List Scheduled) :
    (s.withdraw items).clock.now = s.clock.now := by
  induction items generalizing s with
  | nil => rfl
  | cons item items ih => exact ih (s.cancelled item)

section Swap

variable {s t : Scheduler} {run : Run} {place : Rat} {node : Pattern} {bookings : List Booking}

/-- After one replacement. -/
theorem swapped_of_alike (h : s.Regular) (h' : t.Regular) (hrun : s.run = some run)
    (ht : Alike t (((s.withdraw (s.ahead run place)).swapped node).bookAll bookings)) :
    Swapped s run place node bookings 0 t := by
  obtain ⟨hitems, hpending, hlive⟩ := pending_of_swap h h' ht
  have hbooked := bookAll_eq ((s.withdraw (s.ahead run place)).swapped node) bookings
  have hcourse := sameCourse_bookAll ((s.withdraw (s.ahead run place)).swapped node) bookings
  have hwithdrawn := s.withdraw_eq (s.ahead run place)
  have hmem : ∀ item ∈ s.ahead run place, item ∈ s.items :=
    fun item hitem => h.mem_items ((s.ahead_sublist run place).subset hitem)
  constructor
  case cycle =>
    obtain ⟨pending, hlater⟩ := run_bookAll (run_swapped hrun (s.ahead run place) node) bookings
    exact ⟨pending, ht.run.trans hlater⟩
  case rate =>
    rw [ht.rate, hcourse.rate, hwithdrawn]
    rfl
  case pendingRate =>
    rw [ht.pendingRate, hcourse.pendingRate, hwithdrawn]
    rfl
  case generation =>
    rw [ht.generation, hcourse.generation, hwithdrawn]
    rfl
  case boundary =>
    rw [ht.boundary, (steady_bookAll _ bookings).boundary, hwithdrawn]
    rfl
  case awaited =>
    rw [awaited_of_timers (congrArg Clock.timers ht.clock), awaited_bookAll]
    exact h.awaited_withdraw hmem
  case performance =>
    rw [ht.performance, hcourse.performance, hwithdrawn]
    rfl
  case now =>
    rw [ht.clock, hbooked]
    exact s.now_withdraw (s.ahead run place)
  case items =>
    rw [hitems, List.length_append, Booking.length_numbered, items_withdraw, List.length_map]
    rfl
  case timers =>
    rw [ht.clock, hbooked]
    change List.length ((s.withdraw (s.ahead run place)).clock.timers ++ _) = _
    rw [List.length_append, length_timers_withdraw, List.length_map, Booking.length_numbered]
    rfl
  case pending => exact hpending
  case live => exact hlive

/-- The place in the cycle is the same. -/
theorem Swapped.elapsed {k : Nat} (h : Swapped s run place node bookings k t) {run' : Run}
    (hrun' : t.run = some run') : t.elapsed run' = s.elapsed run := by
  obtain ⟨pending, hcycle⟩ := h.cycle
  rw [hrun', Option.some_inj] at hcycle
  unfold Scheduler.elapsed
  rw [h.now, h.rate, hcycle]

/-- What a swap is ahead of does not depend on how often there were swaps before. -/
theorem Swapped.isAhead_eq {k : Nat} (h : Swapped s run place node bookings k t) {run' : Run}
    (hrun' : t.run = some run') : isAhead run' place = isAhead run place := by
  obtain ⟨pending, hcycle⟩ := h.cycle
  rw [hrun', Option.some_inj] at hcycle
  rw [hcycle]
  rfl

/-- Whether bookings are for events of the present cycle after a place. -/
def After (run : Run) (place : Rat) (bookings : List Booking) : Prop :=
  ∀ b ∈ bookings, b.cycle = run.cycleIndex ∧ place < b.event.active.start

/-- Bookings after a place make events that are ahead of it. -/
theorem isAhead_numbered (hafter : After run place bookings) (id timer : Nat) :
    ∀ item ∈ Booking.numbered id timer bookings, isAhead run place item = true := by
  intro item hitem
  obtain ⟨hcycle, hplace⟩ := hafter _ (Booking.of_mem_numbered hitem).2.2.2
  have hcycle' : item.cycle = run.cycleIndex := hcycle
  have hplace' : place < item.event.active.start := hplace
  simp [isAhead, hcycle', hplace']

/-- What the last replacement booked is all that is ahead. -/
theorem Swapped.ahead {k : Nat} (h : Swapped s run place node bookings k t) {run' : Run}
    (hrun' : t.run = some run') (hafter : After run place bookings) :
    t.ahead run' place =
      Booking.numbered (s.items.length + k) (s.clock.timers.length + k) bookings := by
  have hold : s.pendingItems.filter (fun item => isAhead run place item && !isAhead run place item)
      = [] := by
    simp
  unfold Scheduler.ahead
  rw [h.pending, h.isAhead_eq hrun', List.filter_append, List.filter_filter, hold, List.nil_append,
    List.filter_eq_self.mpr (isAhead_numbered hafter _ _)]

/-- One more replacement at the same place takes up where the last one left. -/
theorem Swapped.trans {k : Nat} (h : Swapped s run place node bookings k t) (hs : s.Regular)
    {run' : Run} (hrun' : t.run = some run')
    (hafter : After run place bookings) {u : Scheduler} {node' : Pattern} {bookings' : List Booking}
    (h' : Swapped t run' place node' bookings' 0 u) :
    Swapped s run place node' bookings' (k + bookings.length) u := by
  have hahead := h.ahead hrun' hafter
  have hsame := h.isAhead_eq hrun'
  obtain ⟨pending, hcycle⟩ := h.cycle
  rw [hrun', Option.some_inj] at hcycle
  have hitems : t.items.length + 0 = s.items.length + (k + bookings.length) := by
    rw [h.items, Nat.add_zero, Nat.add_assoc]
  have htimers : t.clock.timers.length + 0 =
      s.clock.timers.length + (k + bookings.length) := by
    rw [h.timers, Nat.add_zero, Nat.add_assoc]
  constructor
  case cycle =>
    obtain ⟨pending', hcycle'⟩ := h'.cycle
    rw [hcycle] at hcycle'
    exact ⟨pending', hcycle'⟩
  case rate => exact h'.rate.trans h.rate
  case pendingRate => exact h'.pendingRate.trans h.pendingRate
  case generation => exact h'.generation.trans h.generation
  case boundary => exact h'.boundary.trans h.boundary
  case awaited => exact h'.awaited.trans h.awaited
  case performance => exact h'.performance.trans h.performance
  case now => exact h'.now.trans h.now
  case items => rw [h'.items, hitems]
  case timers => rw [h'.timers, htimers]
  case pending =>
    -- what the last replacement booked is cancelled, and what had stayed stays again
    have hnone : (Booking.numbered (s.items.length + k) (s.clock.timers.length + k)
        bookings).filter (fun item => !isAhead run place item) = [] := by
      refine List.filter_eq_nil_iff.mpr fun item hitem => ?_
      rw [isAhead_numbered hafter _ _ item hitem]
      exact Bool.false_ne_true
    rw [h'.pending, hitems, htimers, h.pending, hsame, List.filter_append, hnone, List.append_nil,
      List.filter_filter]
    simp only [Bool.and_self]
  case live =>
    have hold : ∀ x ∈ s.clock.live.filter (·.id ∉ (s.ahead run place).map (·.timer)),
        decide (x.id ∉ (Booking.numbered (s.items.length + k) (s.clock.timers.length + k)
          bookings).map (·.timer)) = true := by
      intro x hx
      refine decide_eq_true fun hid => ?_
      obtain ⟨item, hitem, htimer⟩ := List.mem_map.mp hid
      have hlt := hs.timer_lt_of_mem (List.mem_of_mem_filter (List.mem_of_mem_filter hx))
      have hle := (Booking.of_mem_numbered hitem).2.2.1
      omega
    have hnone : ((Booking.numbered (s.items.length + k) (s.clock.timers.length + k) bookings).map
        Scheduled.awaiting).filter (·.id ∉ (Booking.numbered (s.items.length + k)
          (s.clock.timers.length + k) bookings).map (·.timer)) = [] := by
      refine List.filter_eq_nil_iff.mpr fun x hx => ?_
      obtain ⟨item, hitem, rfl⟩ := List.mem_map.mp hx
      simpa using ⟨item, hitem, rfl⟩
    rw [h'.live, hitems, htimers, hahead, h.live, List.filter_append, hnone, List.append_nil,
      List.filter_eq_self.mpr hold]

/-- A replacement that nothing ends early. -/
theorem swapped_replace (h : s.Regular) (hrun : s.run = some run) {v : Value}
    (hnode : (coerce v).outcome s = .ok node) (hplace : s.elapsed run = .ok place)
    (hplan : s.performance.plan node run.cycleIndex run.cycleStart s.rate (some place) =
      .ok bookings)
    (hwritable : ∀ item ∈ s.ahead run place, item.event.value.isWritable = true) :
    Swapped s run place node bookings 0 ((replace v).after s) := by
  obtain ⟨heard, hbooks⟩ := h.balanced
  rcases after_replace hbooks hrun hnode hplace with
    ⟨⟨item, hitem, hlong⟩, -⟩ | ⟨-, ⟨cause, hfailed, -⟩ | ⟨bookings', hplan', halike⟩⟩
  · rw [hwritable item hitem] at hlong
    nomatch hlong
  · rw [hplan] at hfailed
    nomatch hfailed
  · rw [hplan] at hplan'
    rw [← Except.ok.inj hplan'] at halike
    exact swapped_of_alike h (regular_next (.replace v) h) hrun halike

/-- What is planned after a place is after it. -/
theorem after_of_plan {perf : Performance} {cycleStart rate : Float}
    (hplan : perf.plan node run.cycleIndex cycleStart rate (some place) = .ok bookings) :
    After run place bookings := by
  intro b hb
  obtain ⟨events, -, hdue⟩ := Performance.due_of_plan hplan
  obtain ⟨e, he, hof⟩ := hdue b hb
  obtain ⟨hevent, hcycle⟩ := Booking.event_of hof
  have hplace := (List.mem_filter.mp he).2
  rw [hevent]
  rw [Bool.and_eq_true] at hplace
  exact ⟨hcycle, of_decide_eq_true hplace.2⟩

/-- What was swapped once and once more often differs in numbers only. -/
theorem renumbered_of_swapped (hs : s.Regular) {k : Nat} {once often : Scheduler}
    (h : Swapped s run place node bookings 0 once)
    (h' : Swapped s run place node bookings k often) :
    Renumbered s k once often := by
  obtain ⟨heard, hbooks⟩ := hs.balanced
  have hitems : often.pendingItems =
      once.pendingItems.map (·.shifted s.items.length k) := by
    have hkept : ∀ item ∈ s.pendingItems.filter (fun item => !isAhead run place item),
        item.shifted s.items.length k = id item := fun item hitem =>
      Scheduled.shifted_of_lt (hbooks.id_lt (hs.mem_items (List.mem_of_mem_filter hitem))) k
    rw [h.pending, h'.pending, List.map_append, List.map_congr_left hkept, List.map_id,
      Nat.add_zero, Nat.add_zero, Booking.numbered_shifted (Nat.le_refl _)]
  constructor
  case cycle =>
    obtain ⟨pending, hcycle⟩ := h.cycle
    obtain ⟨pending', hcycle'⟩ := h'.cycle
    exact ⟨_, pending', hcycle, hcycle'⟩
  case rates => exact ⟨h'.rate.trans h.rate.symm, h'.pendingRate.trans h.pendingRate.symm⟩
  case boundary =>
    exact ⟨h'.boundary.trans h.boundary.symm, h'.generation.trans h.generation.symm,
      h'.awaited.trans h.awaited.symm⟩
  case now => exact h'.now.trans h.now.symm
  case pending => exact hitems
  case upcoming =>
    unfold Scheduler.upcoming
    rw [hitems]
    refine upcoming_map (fun item => ?_) _
    exact congrArg Booking.fireTime (item.booking_shifted s.items.length k)
  case live =>
    have hkept : ∀ x ∈ s.clock.live.filter (·.id ∉ (s.ahead run place).map (·.timer)),
        x.shifted s.clock.timers.length k = id x := fun x hx =>
      Timer.shifted_of_lt
        (hs.timer_lt_of_mem (List.mem_of_mem_filter (List.mem_of_mem_filter hx))) k
    have hfresh : ∀ item ∈ Booking.numbered s.items.length s.clock.timers.length bookings,
        ((·.shifted s.clock.timers.length k) ∘ Scheduled.awaiting) item =
          (Scheduled.awaiting ∘ (·.shifted s.items.length k)) item := by
      intro item hitem
      obtain ⟨-, hid, htimer, -⟩ := Booking.of_mem_numbered hitem
      exact (Scheduled.awaiting_shifted hid htimer).symm
    rw [h.live, h'.live, List.map_append, List.map_congr_left hkept, List.map_id, Nat.add_zero,
      Nat.add_zero, List.map_map, List.map_congr_left hfresh, ← List.map_map,
      Booking.numbered_shifted (Nat.le_refl _)]

/-- Whether the events of bookings can all be written. -/
def Writable (bookings : List Booking) : Prop :=
  ∀ b ∈ bookings, b.event.value.isWritable = true

/-- One more replacement at the same place, of events that can be written. -/
theorem swapped_again {k : Nat} (h : Swapped s run place node bookings k t) (hs : s.Regular)
    (ht : t.Regular) (hplace : s.elapsed run = .ok place) (hafter : After run place bookings)
    (hwritable : Writable bookings) {v : Value} {node' : Pattern} {bookings' : List Booking}
    (hnode : (coerce v).outcome s = .ok node')
    (hplan : s.performance.plan node' run.cycleIndex run.cycleStart s.rate (some place) =
      .ok bookings') :
    Swapped s run place node' bookings' (k + bookings.length) ((replace v).after t) := by
  obtain ⟨pending, hcycle⟩ := h.cycle
  refine h.trans hs hcycle hafter (swapped_replace ht hcycle ?_ ?_ ?_ fun item hitem => ?_)
  · rw [outcome_coerce (congrArg Performance.transforms h.performance)]
    exact hnode
  · rw [h.elapsed hcycle]
    exact hplace
  · rw [h.performance, h.rate]
    exact hplan
  · rw [h.ahead hcycle hafter] at hitem
    exact hwritable item.booking (Booking.of_mem_numbered hitem).2.2.2

/-- Several replacements at the same place, all but the last one of events that
can be written. -/
theorem swapped_afterAll (hs : s.Regular) (hplace : s.elapsed run = .ok place)
    {earlier : List Value}
    (hearlier : ∀ v ∈ earlier, ∃ node bookings, (coerce v).outcome s = .ok node ∧
      s.performance.plan node run.cycleIndex run.cycleStart s.rate (some place) = .ok bookings ∧
      Writable bookings)
    {last : Value} {lastNode : Pattern} {lastBookings : List Booking}
    (hnode : (coerce last).outcome s = .ok lastNode)
    (hplan : s.performance.plan lastNode run.cycleIndex run.cycleStart s.rate (some place) =
      .ok lastBookings)
    {k : Nat} (ht : t.Regular) (h : Swapped s run place node bookings k t)
    (hafter : After run place bookings) (hwritable : Writable bookings) :
    ∃ k', Swapped s run place lastNode lastBookings k'
      (afterAll (earlier.map .replace ++ [.replace last]) t) := by
  induction earlier generalizing t node bookings k with
  | nil => exact ⟨_, swapped_again h hs ht hplace hafter hwritable hnode hplan⟩
  | cons v earlier ih =>
      obtain ⟨node', bookings', hnode', hplan', hwritable'⟩ := hearlier v List.mem_cons_self
      have hnext := swapped_again h hs ht hplace hafter hwritable hnode' hplan'
      exact ih (fun v' hv' => hearlier v' (List.mem_cons_of_mem v hv'))
        (regular_next (.replace v) ht) hnext (after_of_plan hplan') hwritable'

end Swap

/-- Replacements are refused one after another where the place is not known. -/
theorem replaceAll_of_unplaced {s : Scheduler} {run : Run} (hrun : s.run = some run) {cause : Fault}
    (hplace : s.elapsed run = .error cause) (vs : List Value) {t : Scheduler} (ht : Alike t s) :
    Alike (afterAll (vs.map .replace) t) s := by
  induction vs generalizing t with
  | nil => exact ht
  | cons v vs ih =>
      have hplace' : t.elapsed run = .error cause := by
        unfold elapsed at hplace ⊢
        rw [ht.clock, ht.rate]
        exact hplace
      have hnext : Alike ((replace v).after t) t :=
        replace_refused (.inr (.inr ⟨run, cause, ht.run.trans hrun, hplace'⟩))
      exact ih (hnext.trans ht)

/-- **The last swap wins**: in every run, several replacements at one time by
patterns whose present cycle can be found leave the same playing behind as the
last of them alone, but for the numbers that the others used up, if what they are
to cancel can be written: the old events after the place of the cycle, and those
that all but the last one book there.  Where that place is no number, none of
them does anything. -/
theorem last_swap_wins (perf : Performance) (policy : Policy) (sounder : Sounder)
    (listener : Option Listener) (rate now : Float) (os : List Occurrence) {run : Run}
    {earlier : List Value} {last : Value} :
    let s := afterAll os (initial perf policy sounder listener rate now)
    let once := (replace last).after s
    let often := afterAll ((earlier ++ [last]).map .replace) s
    s.run = some run →
    (∀ v ∈ earlier ++ [last], ∃ node events, (coerce v).outcome s = .ok node ∧
      s.performance.query node run.cycleIndex none = .ok events) →
    (∀ place, s.elapsed run = .ok place →
      (∀ item ∈ s.ahead run place, item.event.value.isWritable = true) →
      (∀ v ∈ earlier, ∀ node events, (coerce v).outcome s = .ok node →
        s.performance.query node run.cycleIndex none = .ok events →
        ∀ e ∈ dueEvents events (some place), e.value.isWritable = true) →
      ∃ k, Renumbered s k once often) ∧
    ∀ cause, s.elapsed run = .error cause → Alike once s ∧ Alike often s := by
  intro s once often hrun hfound
  have hs : s.Regular := regular_afterAll perf policy sounder listener rate now os
  refine ⟨fun place hplace hahead hwritable => ?_, fun cause hplace =>
    ⟨replaceAll_of_unplaced hrun hplace [last] (Alike.refl s),
      replaceAll_of_unplaced hrun hplace (earlier ++ [last]) (Alike.refl s)⟩⟩
  have hplanned : ∀ v ∈ earlier ++ [last], ∃ node bookings, (coerce v).outcome s = .ok node ∧
      s.performance.plan node run.cycleIndex run.cycleStart s.rate (some place) = .ok bookings ∧
      (v ∈ earlier → Writable bookings) := by
    intro v hv
    obtain ⟨node, events, hnode, hquery⟩ := hfound v hv
    obtain ⟨bookings, hplan⟩ :=
      s.performance.plan_eq_ok hquery run.cycleStart s.rate (some place)
    refine ⟨node, bookings, hnode, hplan, fun hv b hb => ?_⟩
    obtain ⟨events', hquery', hdue⟩ := Performance.due_of_plan hplan
    obtain ⟨e, he, hof⟩ := hdue b hb
    rw [(Booking.event_of hof).1]
    exact hwritable v hv node events' hnode hquery' e he
  obtain ⟨node, bookings, hnode, hplan, -⟩ := hplanned last (by simp)
  have honce : Swapped s run place node bookings 0 once :=
    swapped_replace hs hrun hnode hplace hplan hahead
  have hoften : ∃ k, Swapped s run place node bookings k often := by
    have hsplit : often = afterAll (earlier.map .replace ++ [.replace last]) s := by
      rw [← List.map_singleton, ← List.map_append]
    rw [hsplit]
    cases earlier with
    | nil => exact ⟨0, honce⟩
    | cons v vs =>
        obtain ⟨first, booked, hfirst, hbooked, hfine⟩ := hplanned v (by simp)
        have hswapped := swapped_replace hs hrun hfirst hplace hbooked hahead
        refine swapped_afterAll (t := (replace v).after s) hs hplace (fun v' hv' => ?_) hnode hplan
          (regular_next (.replace v) hs) hswapped (after_of_plan hbooked)
          (hfine List.mem_cons_self)
        obtain ⟨node', bookings', hnode', hplan', hfine'⟩ := hplanned v' (by simp [hv'])
        exact ⟨node', bookings', hnode', hplan', hfine' (List.mem_cons_of_mem v hv')⟩
  obtain ⟨k, hoften⟩ := hoften
  exact ⟨k, renumbered_of_swapped hs honce hoften⟩

/-- Two notes of which the first was fired are replaced by four others, then by
three, and then by two: that comes to the same as if they had been replaced by the
two, but for the three and two numbers that were used up. -/
theorem last_swap_wins_notes :
    let earlier := [Value.text "c d e f", .text "g h i"]
    let last := Value.text "j k"
    let s := afterAll [.start (.text "a b") none, .ring 0]
      (initial .default Policy.roundRobin ⟨none, fun _ _ => .sounded⟩ none 1.0 0.0)
    let once := (replace last).after s
    let often := afterAll ((earlier ++ [last]).map .replace) s
    (∃ k, Renumbered s k once often) ∧
      (once.pendingItems.map fun item => (item.id, item.event.value.plain)) = [(2, "k")] ∧
      (often.pendingItems.map fun item => (item.id, item.event.value.plain)) = [(7, "k")] := by
  intro earlier last s once often
  have honce : (once.pendingItems.map fun item => (item.id, item.event.value.plain)) =
      [(2, "k")] := by decide +kernel
  have hoften : (often.pendingItems.map fun item => (item.id, item.event.value.plain)) =
      [(7, "k")] := by decide +kernel
  have hfacts : s.run.map (fun run => ((s.elapsed run).toOption.map fun place =>
      ((s.ahead run place).all (·.event.value.isWritable),
        (earlier ++ [last]).all fun v => (((coerce v).outcome s).toOption.map fun node =>
          ((s.performance.query node run.cycleIndex none).toOption.map fun events =>
            (dueEvents events (some place)).all (·.value.isWritable)) == some true) ==
          some true))) = some (some (true, true)) := by
    decide +kernel
  obtain ⟨run, hrun, hfacts⟩ := Option.map_eq_some_iff.mp hfacts
  obtain ⟨place, hplace, hfacts⟩ := ok_of_toOption_map hfacts
  obtain ⟨hahead, hfine⟩ := Prod.mk.inj hfacts
  have hfound : ∀ v ∈ earlier ++ [last], ∃ node events, (coerce v).outcome s = .ok node ∧
      s.performance.query node run.cycleIndex none = .ok events ∧
      ∀ e ∈ dueEvents events (some place), e.value.isWritable = true := by
    intro v hv
    obtain ⟨node, hnode, hrest⟩ :=
      ok_of_toOption_map (beq_iff_eq.mp (List.all_eq_true.mp hfine v hv))
    obtain ⟨events, hquery, hevents⟩ := ok_of_toOption_map (beq_iff_eq.mp hrest)
    exact ⟨node, events, hnode, hquery, List.all_eq_true.mp hevents⟩
  have hplayed : ∀ v ∈ earlier ++ [last], ∃ node events, (coerce v).outcome s = .ok node ∧
      s.performance.query node run.cycleIndex none = .ok events := by
    intro v hv
    obtain ⟨node, events, hnode, hquery, -⟩ := hfound v hv
    exact ⟨node, events, hnode, hquery⟩
  have hwritable : ∀ v ∈ earlier, ∀ node events, (coerce v).outcome s = .ok node →
      s.performance.query node run.cycleIndex none = .ok events →
      ∀ e ∈ dueEvents events (some place), e.value.isWritable = true := by
    intro v hv node events hnode hquery
    obtain ⟨node', events', hnode', hquery', hevents⟩ := hfound v (List.mem_append_left _ hv)
    rw [hnode, Except.ok.injEq] at hnode'
    rw [← hnode', hquery, Except.ok.injEq] at hquery'
    exact hquery' ▸ hevents
  have hwins := (last_swap_wins .default Policy.roundRobin ⟨none, fun _ _ => .sounded⟩ none 1.0 0.0
    [.start (.text "a b") none, .ring 0] hrun hplayed).1 place hplace
    (List.all_eq_true.mp hahead) hwritable
  exact ⟨hwins, honce, hoften⟩

/-- Two notes are replaced by a note and a product that cannot be written, and then
by two other notes.  The second replacement ends with the product, which it is to
cancel, and the pattern stays; alone it would have taken its place. -/
theorem product_outlasts_swap :
    let notes := Pattern.sequence [.leaf (.text "a"), .leaf (.text "b")]
    let product := Pattern.operation (.leaf (.number (.int (10 ^ 2200)))) "*"
      (.number (.ratio (10 ^ 2200)))
    let first := Pattern.sequence [.leaf (.text "c"), product]
    let last := Pattern.sequence [.leaf (.text "d"), .leaf (.text "e")]
    let s := afterAll [.start (.pattern notes) none]
      (initial .default Policy.roundRobin ⟨none, fun _ _ => .sounded⟩ none 1.0 0.0)
    let once := (replace (.pattern last)).after s
    let often := afterAll [.replace (.pattern first), .replace (.pattern last)] s
    (∃ run, s.run = some run ∧ ∀ p ∈ [first, last],
      ∃ events, s.performance.query p run.cycleIndex none = .ok events) ∧
    ∀ k, ¬ Renumbered s k once often := by
  intro notes product first last s once often
  have hfacts : s.run.map (fun run => [first, last].all fun p =>
      (s.performance.query p run.cycleIndex none).toOption.isSome) = some true := by
    decide +kernel
  have hshown : ¬ often.run.map (·.pattern.shown) = once.run.map (·.pattern.shown) := by
    decide +kernel
  obtain ⟨run, hrun, hfound⟩ := Option.map_eq_some_iff.mp hfacts
  refine ⟨⟨run, hrun, fun p hp => ok_of_isSome (List.all_eq_true.mp hfound p hp)⟩,
    fun k h => hshown ?_⟩
  obtain ⟨run', pending, honce, hoften⟩ := h.cycle
  rw [honce, hoften]
  rfl

end Scheduler

end Ostinato
