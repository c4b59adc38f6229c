import Mathlib.Data.List.Nodup
import Ostinato.Proofs.Scheduler.Runs

/-!
# Ostinato.Proofs.Scheduler.Timers

The timers of a scheduler, and the one for the end of its cycle.

1. `Timed` — timers are numbered in the order in which they were made, and no
   boundary timer belongs to a later generation than the present one.  Every
   occurrence keeps this (`timed_next`).
2. `Sole` — no boundary timer waits but the one that the scheduler knows of,
   and none if nothing plays.  Every occurrence keeps this (`sole_next`) but a
   poke that ends the present cycle, after which the timer for it may go off
   again.

Most of what happens does not concern boundary timers at all; that it is
`Steady` in this respect carries both.
-/

namespace Ostinato

/-- Whether a timer is for the end of a cycle. -/
def Timer.isBoundary (t : Timer Task) : Bool :=
  match t.task with
  | .fire _ => false
  | .boundary _ => true

namespace Clock

variable {α : Type}

theorem timers_arm (c : Clock α) (due : Float) (task : α) :
    (c.arm due task).2.timers = c.timers ++ [⟨c.timers.length, due, task, true⟩] := rfl

/-- Settling a timer changes no number. -/
theorem ids_settle (c : Clock α) (id : Nat) :
    (c.settle id).timers.map (·.id) = c.timers.map (·.id) := by
  unfold settle
  rw [List.map_map]
  refine List.map_congr_left fun t _ => ?_
  simp only [Function.comp_apply]
  split <;> rfl

/-- Settling a timer leaves the others as they are. -/
theorem live_settle (c : Clock α) (id : Nat) :
    (c.settle id).live = c.live.filter (·.id != id) := by
  unfold live settle
  induction c.timers with
  | nil => rfl
  | cons t ts ih =>
      rw [List.map_cons]
      by_cases hid : t.id = id
      · rw [if_pos hid, List.filter_cons_of_neg (by simp), ih]
        cases hwaiting : t.waiting with
        | true =>
            rw [List.filter_cons_of_pos hwaiting, List.filter_cons_of_neg (by simp [hid])]
        | false => rw [List.filter_cons_of_neg (by simp [hwaiting])]
      · rw [if_neg hid]
        cases hwaiting : t.waiting with
        | true =>
            rw [List.filter_cons_of_pos hwaiting, List.filter_cons_of_pos hwaiting,
              List.filter_cons_of_pos (by simp [hid]), ih]
        | false =>
            rw [List.filter_cons_of_neg (by simp [hwaiting]),
              List.filter_cons_of_neg (by simp [hwaiting]), ih]

end Clock

namespace Scheduler

open Scheduling

/-- The timers that wait for the end of a cycle. -/
def awaited (s : Scheduler) : List (Timer Task) := s.clock.live.filter (·.isBoundary)

/-- Timers are numbered from zero on, and boundary timers are of this generation
or an earlier one. -/
structure Timed (s : Scheduler) : Prop where
  ids : s.clock.timers.map (·.id) = List.range s.clock.timers.length
  generations : ∀ t ∈ s.clock.timers, ∀ g, t.task = .boundary g → g ≤ s.generation

/-- Nothing waits for the end of a cycle but the timer that is known, and that
only while something plays. -/
structure Sole (s : Scheduler) : Prop where
  known : ∀ t ∈ s.awaited, s.boundary = some t.id
  stopped : s.isRunning = false → s.awaited = []

/-- Timers with the same number are the same. -/
theorem Timed.eq_of_id {s : Scheduler} (h : s.Timed) {t u : Timer Task}
    (ht : t ∈ s.clock.timers) (hu : u ∈ s.clock.timers) (hid : t.id = u.id) : t = u := by
  have hnodup : (s.clock.timers.map (·.id)).Nodup := by
    rw [h.ids]
    exact List.nodup_range
  exact List.inj_on_of_nodup_map hnodup ht hu hid

/-- A timer is found under its number. -/
theorem Timed.timer?_eq {s : Scheduler} (h : s.Timed) {t : Timer Task}
    (ht : t ∈ s.clock.timers) : s.clock.timer? t.id = some t := by
  unfold Clock.timer?
  cases hfind : s.clock.timers.find? (·.id = t.id) with
  | none => simpa using List.find?_eq_none.mp hfind t ht
  | some u =>
      have hid := List.find?_some hfind
      rw [h.eq_of_id (List.mem_of_find?_eq_some hfind) ht (of_decide_eq_true hid)]

/-- An end that is awaited has a timer. -/
theorem mem_timers_of_awaited {s : Scheduler} {t : Timer Task} (h : t ∈ s.awaited) :
    t ∈ s.clock.timers :=
  List.mem_of_mem_filter (List.mem_of_mem_filter h)

/-! ## Steadiness -/

/-- Nothing happened that concerns the end of a cycle. -/
structure Steady (s t : Scheduler) : Prop where
  generation : t.generation = s.generation
  boundary : t.boundary = s.boundary
  running : t.isRunning = s.isRunning
  awaited : ∀ u ∈ t.awaited, u ∈ s.awaited
  timed : s.Timed → t.Timed

/-- What does not concern the end of a cycle twice does not concern it. -/
theorem Steady.trans {s t u : Scheduler} (h : Steady s t) (h' : Steady t u) : Steady s u where
  generation := h'.generation.trans h.generation
  boundary := h'.boundary.trans h.boundary
  running := h'.running.trans h.running
  awaited := fun v hv => h.awaited v (h'.awaited v hv)
  timed := fun hs => h'.timed (h.timed hs)

/-- Where only the clock changes. -/
theorem steady_of_clock {s t : Scheduler} (hgeneration : t.generation = s.generation)
    (hboundary : t.boundary = s.boundary) (hrunning : t.isRunning = s.isRunning)
    (hclock : t.clock.timers = s.clock.timers) : Steady s t where
  generation := hgeneration
  boundary := hboundary
  running := hrunning
  awaited := by
    unfold Scheduler.awaited Clock.live
    rw [hclock]
    exact fun u hu => hu
  timed := fun hs => ⟨by rw [hclock]; exact hs.ids, by
    rw [hclock, hgeneration]
    exact hs.generations⟩

theorem steady_refl (s : Scheduler) : Steady s s := steady_of_clock rfl rfl rfl rfl

/-- Schedulers that play alike have the same end ahead. -/
theorem Alike.steady {s t : Scheduler} (h : Alike s t) : Steady s t :=
  steady_of_clock h.generation.symm h.boundary.symm
    (by unfold isRunning; rw [h.run]) (by rw [h.clock])

/-- What did not wait before does not wait after nothing happened to it. -/
theorem Steady.awaited_eq_nil {s t : Scheduler} (h : Steady s t) (hnone : s.awaited = []) :
    t.awaited = [] := by
  have hsubset : t.awaited ⊆ s.awaited := h.awaited
  rw [hnone] at hsubset
  exact List.eq_nil_of_subset_nil hsubset

/-- Where nothing concerns the end of the cycle, nothing else is awaited either. -/
theorem Steady.sole {s t : Scheduler} (h : Steady s t) (hs : s.Sole) : t.Sole where
  known := by
    intro u hu
    rw [h.boundary]
    exact hs.known u (h.awaited u hu)
  stopped := by
    intro hstopped
    rw [h.running] at hstopped
    exact h.awaited_eq_nil (hs.stopped hstopped)

/-! ## Single changes -/

/-- A timer that stops waiting is awaited no more, and the others still are. -/
theorem awaited_expired (s : Scheduler) (id : Nat) :
    (s.expired id).awaited = s.awaited.filter (·.id != id) := by
  unfold awaited expired
  simp only
  rw [Clock.live_settle, List.filter_filter, List.filter_filter]
  exact List.filter_congr fun t _ => Bool.and_comm _ _

/-- A timer that stops waiting keeps its number and its task. -/
theorem timed_expired {s : Scheduler} (h : s.Timed) (id : Nat) : (s.expired id).Timed where
  ids := by
    have hlength : (s.clock.settle id).timers.length = s.clock.timers.length := by
      unfold Clock.settle
      rw [List.length_map]
    unfold expired
    simp only
    rw [Clock.ids_settle, hlength]
    exact h.ids
  generations := by
    intro t ht g htask
    obtain ⟨u, hu, rfl⟩ := List.mem_map.mp ht
    refine h.generations u hu g ?_
    rw [← htask]
    split <;> rfl

/-- A timer that stops waiting may end no cycle, but makes no other timer. -/
theorem steady_expired (s : Scheduler) (id : Nat) : Steady s (s.expired id) where
  generation := rfl
  boundary := rfl
  running := rfl
  awaited := by
    intro u hu
    rw [awaited_expired] at hu
    exact List.mem_of_mem_filter hu
  timed := fun h => timed_expired h id

/-- A booking makes a timer that does not wait for the end of a cycle. -/
theorem awaited_book (s : Scheduler) (b : Booking) : (s.book b).awaited = s.awaited := by
  unfold awaited book
  simp only
  rw [Clock.live_arm, List.filter_append]
  simp [Timer.isBoundary]

/-- A timer is made with the next number. -/
theorem timed_arm {s : Scheduler} (h : s.Timed) (due : Float) {task : Task}
    (htask : ∀ g, task = .boundary g → g ≤ s.generation) {t : Scheduler}
    (hclock : t.clock = (s.clock.arm due task).2) (hgeneration : t.generation = s.generation) :
    t.Timed where
  ids := by
    rw [hclock, Clock.timers_arm]
    simp [h.ids, List.range_succ]
  generations := by
    rw [hclock, Clock.timers_arm, hgeneration]
    intro u hu g hg
    rw [List.mem_append, List.mem_singleton] at hu
    cases hu with
    | inl hold => exact h.generations u hold g hg
    | inr hnew =>
        rw [hnew] at hg
        exact htask g hg

/-- A booking makes a timer for an event. -/
theorem steady_book (s : Scheduler) (b : Booking) : Steady s (s.book b) where
  generation := rfl
  boundary := rfl
  running := isRunning_book s b
  awaited := by
    rw [awaited_book]
    exact fun u hu => hu
  timed := by
    intro h
    have hfire : ∀ g, Task.fire s.items.length = .boundary g → g ≤ s.generation :=
      fun g hg => nomatch hg
    exact timed_arm h b.fireTime hfire rfl rfl

/-- So do bookings one after another. -/
theorem steady_bookAll (s : Scheduler) (bookings : List Booking) :
    Steady s (s.bookAll bookings) := by
  induction bookings generalizing s with
  | nil => exact steady_refl s
  | cons b bookings ih => exact (steady_book s b).trans (ih (s.book b))

theorem awaited_bookAll (s : Scheduler) (bookings : List Booking) :
    (s.bookAll bookings).awaited = s.awaited := by
  induction bookings generalizing s with
  | nil => rfl
  | cons b bookings ih => exact (ih (s.book b)).trans (awaited_book s b)

/-- The fate of an event does not concern the end of a cycle. -/
theorem steady_settleFate (s : Scheduler) (id : Nat) (fate : Fate) :
    Steady s (s.settle id fate) :=
  steady_of_clock rfl rfl (by unfold isRunning settle; cases s.run <;> rfl) rfl

/-! ## The next boundary -/

theorem armed_of_run {s : Scheduler} {run : Run} (hrun : s.run = some run) :
    s.armed = { s with
      clock := (s.clock.arm (run.cycleStart + 1.0 / s.rate) (.boundary s.generation)).2
      boundary := some s.clock.timers.length } := by
  unfold armed
  rw [hrun]

/-- The timer for the end of a cycle has the next number and the present generation. -/
theorem timed_armed {s : Scheduler} (h : s.Timed) : s.armed.Timed := by
  cases hrun : s.run with
  | none =>
      unfold armed
      rw [hrun]
      exact h
  | some run =>
      rw [armed_of_run hrun]
      refine timed_arm h (run.cycleStart + 1.0 / s.rate) ?_ rfl rfl
      intro g hg
      rw [Task.boundary.inj hg]

/-- The new boundary timer comes after those that waited before. -/
theorem awaited_armed {s : Scheduler} {run : Run} (hrun : s.run = some run) :
    s.armed.awaited = s.awaited ++ [⟨s.clock.timers.length, run.cycleStart + 1.0 / s.rate,
      .boundary s.generation, true⟩] := by
  rw [armed_of_run hrun]
  unfold awaited
  simp only
  rw [Clock.live_arm, List.filter_append]
  rfl

/-- The new boundary timer is the only one if none waited before. -/
theorem sole_armed {s : Scheduler} (hnone : s.awaited = []) : s.armed.Sole := by
  cases hrun : s.run with
  | none =>
      have hsame : s.armed = s := by
        unfold armed
        rw [hrun]
      rw [hsame]
      refine ⟨fun t ht => ?_, fun _ => hnone⟩
      rw [hnone] at ht
      exact absurd ht List.not_mem_nil
  | some run =>
      refine ⟨fun t ht => ?_, fun hstopped => ?_⟩
      · rw [awaited_armed hrun, hnone, List.nil_append, List.mem_singleton] at ht
        rw [ht, armed_of_run hrun]
      · rw [armed_of_run hrun] at hstopped
        unfold isRunning at hstopped
        rw [hrun] at hstopped
        nomatch hstopped

/-! ## Commands -/

/-- None of the changes that commands are made of concerns the end of a cycle. -/
theorem tracks_steady : Tracks Steady where
  trans := Steady.trans
  alike := Alike.steady
  cancelled := by
    intro s item _
    exact (steady_settleFate s item.id .cancelled).trans (steady_expired _ item.timer)
  sounded := by
    intro s id item _ _ _
    exact (steady_settleFate s id .sounded).trans (steady_of_clock rfl rfl rfl rfl)
  givenUp := fun _ _ _ => steady_settleFate _ _ _
  booked := fun b _ => steady_book _ b
  swapped := by
    intro s node
    refine steady_of_clock rfl rfl ?_ rfl
    unfold isRunning
    rw [Option.isSome_map]
  rated := fun s rate pendingRate => steady_of_clock rfl rfl rfl rfl

/-- The next cycle begins with the timers that there are. -/
theorem steady_turned {s : Scheduler} {run : Run} (hrun : s.run = some run) :
    Steady s (s.turned run) :=
  steady_of_clock rfl rfl (by rw [isRunning_of_run hrun]; rfl) rfl

/-- A boundary either concerns nothing or makes one timer more. -/
theorem passBoundary_armed (generation : Nat) (s : Scheduler) :
    Steady s ((passBoundary generation).after s) ∨
      ∃ t, Steady s t ∧ Alike ((passBoundary generation).after s) t.armed := by
  rcases passBoundary_cases generation s with hsame | ⟨run, hrun, -, hturned | ⟨bookings, hbooked⟩⟩
  · rw [hsame]
    exact .inl (steady_refl s)
  · exact .inl (tracks_steady.of_alike (steady_turned hrun) hturned)
  · exact .inr ⟨_, (steady_turned hrun).trans (steady_bookAll _ bookings), hbooked⟩

/-- A boundary numbers the timers of the next cycle. -/
theorem timed_passBoundary {generation : Nat} {s : Scheduler} (h : s.Timed) :
    ((passBoundary generation).after s).Timed := by
  rcases passBoundary_armed generation s with hsteady | ⟨t, hsteady, harmed⟩
  · exact hsteady.timed h
  · exact harmed.symm.steady.timed (timed_armed (hsteady.timed h))

/-- So timers stay numbered through every task. -/
theorem timed_perform {task : Task} {s : Scheduler} (h : s.Timed) :
    ((perform task).after s).Timed := by
  cases task with
  | fire id => exact (tracks_steady.fire id s).timed h
  | boundary generation => exact timed_passBoundary h

/-- A run begins with a new generation, and the timers are of it or an earlier one. -/
theorem timed_begun {s : Scheduler} (h : s.Timed) (node : Pattern) (rate : Option Float) :
    (s.begun node rate).Timed where
  ids := h.ids
  generations := fun t ht g hg => le_trans (h.generations t ht g hg) (Nat.le_succ _)

/-- A start numbers the timers of its first cycle. -/
theorem timed_start {v : Value} {given : Option Value} {s : Scheduler} (h : s.Timed) :
    ((start v given).after s).Timed := by
  rcases start_cases v given s with hsame | ⟨-, node, rate, hbegun | ⟨bookings, hbooked⟩⟩
  · exact hsame.symm.steady.timed h
  · exact hbegun.symm.steady.timed (timed_begun h node rate)
  · exact hbooked.symm.steady.timed
      (timed_armed ((steady_bookAll _ bookings).timed (timed_begun h node rate)))

/-- A stop settles a timer, and begins a new generation. -/
theorem timed_halted {s : Scheduler} (h : s.Timed) : s.halted.Timed := by
  unfold halted
  cases s.boundary with
  | none => exact ⟨h.ids, fun t ht g hg => le_trans (h.generations t ht g hg) (Nat.le_succ _)⟩
  | some timer =>
      have hexpired := timed_expired h timer
      exact ⟨hexpired.ids, fun t ht g hg =>
        le_trans (hexpired.generations t ht g hg) (Nat.le_succ _)⟩

/-- Events that a stop cancels keep their timers under their numbers. -/
theorem timed_stop {s : Scheduler} (h : s.Timed) : (stop.after s).Timed := by
  have hcancelled := (tracks_steady.cancelAll s.pendingItems s.halted).timed (timed_halted h)
  rcases stop_cases s with hsame | hfailed | ⟨count, -, hstopped⟩
  · rw [hsame]
    exact h
  · rw [hfailed]
    exact hcancelled
  · exact hstopped.symm.steady.timed ⟨hcancelled.ids, hcancelled.generations⟩

/-- Every occurrence keeps timers numbered and generations in order. -/
theorem timed_next (o : Occurrence) {s : Scheduler} (h : s.Timed) : (o.next s).Timed := by
  have hnext : s.Timed → (o.next s).Timed :=
    next_related (R := fun s t => s.Timed → t.Timed) tracks_steady Steady.timed
      (fun hst htu hs => htu (hst hs)) (fun _ _ hs => ⟨hs.ids, hs.generations⟩)
      (fun s t _ hs => timed_perform (timed_expired hs t.id)) (fun v given _ => timed_start)
      (fun _ => timed_stop) fun t _ _ => timed_perform
  exact hnext h

/-- In every run timers are numbered and generations in order. -/
theorem timed_afterAll (perf : Performance) (policy : Policy) (sounder : Sounder)
    (listener : Option Listener) (rate now : Float) (os : List Occurrence) :
    (afterAll os (initial perf policy sounder listener rate now)).Timed :=
  afterAll_related (R := fun s t => s.Timed → t.Timed) (fun _ h => h)
    (fun hst htu h => htu (hst h)) (fun o _ _ h => timed_next o h) _
    ⟨rfl, fun _ ht => absurd ht List.not_mem_nil⟩

/-! ## The only boundary -/

/-- Where nothing is awaited, nothing but the known timer is. -/
theorem sole_of_awaited {s : Scheduler} (h : s.awaited = []) : s.Sole where
  known := by
    intro t ht
    rw [h] at ht
    exact absurd ht List.not_mem_nil
  stopped := fun _ => h

/-- Once the only boundary timer went off, none waits. -/
theorem Sole.awaited_expired {s : Scheduler} (h : s.Sole) {t : Timer Task} (ht : t ∈ s.awaited) :
    (s.expired t.id).awaited = [] := by
  rw [Scheduler.awaited_expired, List.filter_eq_nil_iff]
  intro u hu
  have hboundary := h.known t ht
  rw [h.known u hu, Option.some_inj] at hboundary
  simp [hboundary]

/-- A boundary makes one timer for the end of the next cycle, or none. -/
theorem sole_passBoundary {generation : Nat} {s : Scheduler} (hnone : s.awaited = []) :
    ((passBoundary generation).after s).Sole := by
  rcases passBoundary_armed generation s with hsteady | ⟨t, hsteady, harmed⟩
  · exact sole_of_awaited (hsteady.awaited_eq_nil hnone)
  · exact harmed.symm.steady.sole (sole_armed (hsteady.awaited_eq_nil hnone))

/-- A timer that waits goes off. -/
theorem sole_expired {s : Scheduler} (h : s.Sole) {t : Timer Task} (ht : t ∈ s.clock.live) :
    ((perform t.task).after (s.expired t.id)).Sole := by
  cases htask : t.task with
  | fire id =>
      exact (tracks_steady.fire id _).sole ((steady_expired s t.id).sole h)
  | boundary generation =>
      have hboundary : t.isBoundary = true := by
        unfold Timer.isBoundary
        rw [htask]
      exact sole_passBoundary (h.awaited_expired (List.mem_filter.mpr ⟨ht, hboundary⟩))

/-- A start finds nothing awaited, and makes one timer for the end of its first
cycle. -/
theorem sole_start {v : Value} {given : Option Value} {s : Scheduler} (h : s.Sole) :
    ((start v given).after s).Sole := by
  rcases start_cases v given s with hsame | ⟨hstopped, node, rate, hbegun | ⟨bookings, hbooked⟩⟩
  · exact hsame.symm.steady.sole h
  · have hnone : (s.begun node rate).awaited = [] := h.stopped hstopped
    exact hbegun.symm.steady.sole (sole_of_awaited hnone)
  · have hnone : (s.begun node rate).awaited = [] := h.stopped hstopped
    exact hbooked.symm.steady.sole
      (sole_armed ((steady_bookAll _ bookings).awaited_eq_nil hnone))

/-- Stopping settles the only boundary timer. -/
theorem Sole.awaited_halted {s : Scheduler} (h : s.Sole) : s.halted.awaited = [] := by
  cases hboundary : s.boundary with
  | none =>
      have hclock : s.halted.clock = s.clock := by
        unfold halted
        rw [hboundary]
      refine List.eq_nil_iff_forall_not_mem.mpr fun t ht => ?_
      unfold awaited at ht
      rw [hclock] at ht
      have hknown := h.known t ht
      rw [hboundary] at hknown
      nomatch hknown
  | some timer =>
      have hclock : s.halted.clock = (s.expired timer).clock := by
        unfold halted
        rw [hboundary]
        rfl
      have hsame : s.halted.awaited = (s.expired timer).awaited := by
        unfold awaited
        rw [hclock]
      rw [hsame, Scheduler.awaited_expired, List.filter_eq_nil_iff]
      intro t ht
      have hknown := h.known t ht
      rw [hboundary, Option.some_inj] at hknown
      simp [hknown]

/-- A stop leaves nothing awaited. -/
theorem sole_stop {s : Scheduler} (h : s.Sole) : (stop.after s).Sole := by
  have hnone := (tracks_steady.cancelAll s.pendingItems s.halted).awaited_eq_nil h.awaited_halted
  rcases stop_cases s with hsame | hfailed | ⟨count, -, hstopped⟩
  · rw [hsame]
    exact h
  · rw [hfailed]
    exact sole_of_awaited hnone
  · exact hstopped.symm.steady.sole (sole_of_awaited hnone)

end Scheduler

/-- Whether an occurrence ends the present cycle and leaves the timer for it as
it is, so that it may do so again. -/
def Occurrence.EndsAgain (s : Scheduler) : Occurrence → Prop
  | poke timer => ∃ t ∈ s.clock.timers, t.id = timer ∧ t.task = .boundary s.generation
  | _ => False

namespace Scheduler

open Scheduling

/-- A run in which no timer ends a cycle more than once.  Timers that were
cancelled may go off nevertheless, and those for events as often as may be. -/
def Orderly : Scheduler → List Occurrence → Prop
  | _, [] => True
  | s, o :: os => ¬ o.EndsAgain s ∧ Orderly (o.next s) os

/-- A task that does not end the present cycle fires an event or does nothing. -/
theorem perform_of_ne {task : Task} {s : Scheduler} (hother : task ≠ .boundary s.generation) :
    (∃ id, task = .fire id) ∨ (perform task).after s = s := by
  cases task with
  | fire id => exact .inl ⟨id, rfl⟩
  | boundary generation =>
      refine .inr (passBoundary_stale (.inr ?_))
      exact fun heq => hother (congrArg Task.boundary heq)

/-- A timer out of turn makes no boundary timer unless it is for the end of the
present cycle. -/
theorem sole_poked {task : Task} {s : Scheduler} (h : s.Sole)
    (hother : task ≠ .boundary s.generation) : ((perform task).after s).Sole := by
  rcases perform_of_ne hother with ⟨id, rfl⟩ | hsame
  · exact (tracks_steady.fire id s).sole h
  · rw [hsame]
    exact h

/-- Every other occurrence leaves no boundary timer waiting that is not
known. -/
theorem sole_next {o : Occurrence} {s : Scheduler} (ho : ¬ o.EndsAgain s) (h : s.Sole) :
    (o.next s).Sole := by
  have hnext : s.Sole → (o.next s).Sole :=
    next_related (R := fun s t => s.Sole → t.Sole) tracks_steady Steady.sole
      (fun hst htu hs => htu (hst hs)) (fun _ _ hs => ⟨hs.known, hs.stopped⟩)
      (fun s t ht hs => sole_expired hs ht) (fun v given _ => sole_start) (fun _ => sole_stop)
      fun t ht hpoke hs => sole_poked hs fun htask => by
        rw [hpoke] at ho
        exact ho ⟨t, ht, rfl, htask⟩
  exact hnext h

/-- In an orderly run no boundary timer waits but the one that is known. -/
theorem sole_afterAll {os : List Occurrence} {s : Scheduler} (horderly : s.Orderly os)
    (h : s.Sole) : (afterAll os s).Sole := by
  induction os generalizing s with
  | nil => exact h
  | cons o os ih => exact ih horderly.2 (sole_next horderly.1 h)

end Scheduler

end Ostinato
