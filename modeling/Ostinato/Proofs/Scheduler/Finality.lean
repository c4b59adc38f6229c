import Ostinato.Proofs.Scheduler.Playing
import Ostinato.Proofs.Scheduler.Survival

/-!
# Ostinato.Proofs.Scheduler.Finality

Nothing of an earlier run is heard of again.

Timers are never forgotten, and one may go off at any time, also one that was
cancelled.  When the playing has stopped, whatever timers there are have nothing
left to do (`Spent`): the event was fired or cancelled, or the boundary is of an
earlier generation.  What is spent stays spent (`Spent.afterAll`), since fates
are final and generations only grow.  A stop that fails, at an event that cannot be
written, leaves the later events to be heard (`outlives_failed_stop`).
-/

namespace Ostinato

namespace Scheduler

open Scheduling

variable {s t u : Scheduler}

/-! ## Timers of a run -/

/-- Every timer for an event is for one that was scheduled. -/
def Aimed (s : Scheduler) : Prop := ∀ id, Task.fire id ∈ s.tasks → id < s.items.length

/-- All boundaries are of earlier generations. -/
def Retired (s : Scheduler) : Prop := ∀ g, Task.boundary g ∈ s.tasks → g < s.generation

/-- Timers are known, and while nothing plays none is of this generation. -/
structure Filed (s : Scheduler) : Prop where
  timed : s.Timed
  aimed : s.Aimed
  stopped : s.isRunning = false → s.Retired

/-- No boundary timer was made. -/
structure Calm (s t : Scheduler) : Prop where
  tasks : s.tasks <+: t.tasks
  boundaries : ∀ g, Task.boundary g ∈ t.tasks → Task.boundary g ∈ s.tasks
  aimed : s.Aimed → t.Aimed

/-- Twice no boundary timer was made. -/
theorem Calm.trans (h : Calm s t) (h' : Calm t u) : Calm s u where
  tasks := h.tasks.trans h'.tasks
  boundaries := fun g hg => h.boundaries g (h'.boundaries g hg)
  aimed := fun hs => h'.aimed (h.aimed hs)

/-- Where there are the same timers and as many events. -/
theorem calm_of_eq (htasks : t.tasks = s.tasks) (hlength : t.items.length = s.items.length) :
    Calm s t where
  tasks := htasks ▸ List.prefix_rfl
  boundaries := by
    rw [htasks]
    exact fun g hg => hg
  aimed := by
    unfold Aimed
    rw [htasks, hlength]
    exact fun hs => hs

/-- The fate of an event makes no timer. -/
theorem calm_settle (s : Scheduler) (id : Nat) (fate : Fate) : Calm s (s.settle id fate) :=
  calm_of_eq rfl (List.length_map _)

/-- A booking makes a timer for its event, which is the last one scheduled. -/
theorem calm_book (s : Scheduler) (b : Booking) : Calm s (s.book b) := by
  have htasks : (s.book b).tasks = s.tasks ++ [Task.fire s.items.length] := by
    unfold tasks book
    rw [Clock.timers_arm, List.map_append]
    rfl
  have hlength : (s.book b).items.length = s.items.length + 1 := by
    unfold book
    rw [List.length_append]
    rfl
  constructor
  · rw [htasks]
    exact List.prefix_append _ _
  · rw [htasks]
    intro g hg
    simpa using hg
  · intro hs id hid
    rw [htasks, List.mem_append, List.mem_singleton] at hid
    rw [hlength]
    cases hid with
    | inl hold => exact Nat.lt_succ_of_lt (hs id hold)
    | inr hnew => exact Nat.lt_succ_of_le (Nat.le_of_eq (Task.fire.inj hnew))

/-- No single change makes a boundary timer. -/
theorem tracks_calm : Tracks Calm where
  trans := Calm.trans
  alike := fun h => calm_of_eq (by unfold tasks; rw [h.clock]) (by rw [h.items])
  cancelled := by
    intro s item _
    exact (calm_settle s item.id .cancelled).trans (calm_of_eq (tasks_expired _ item.timer) rfl)
  sounded := by
    intro s id item _ _ _
    exact (calm_settle s id .sounded).trans (calm_of_eq rfl rfl)
  givenUp := fun _ _ _ => calm_settle _ _ _
  booked := fun b _ => calm_book _ b
  swapped := fun s node => calm_of_eq rfl rfl
  rated := fun s rate pendingRate => calm_of_eq rfl rfl

/-! ## What happens to them -/

/-- Timers are only added and generations only grow. -/
structure Grows (s t : Scheduler) : Prop where
  tasks : s.tasks <+: t.tasks
  generation : s.generation ≤ t.generation
  filed : s.Filed → t.Filed

/-- What grows twice grows. -/
theorem Grows.trans (h : Grows s t) (h' : Grows t u) : Grows s u where
  tasks := h.tasks.trans h'.tasks
  generation := Nat.le_trans h.generation h'.generation
  filed := fun hs => h'.filed (h.filed hs)

/-- Where no boundary timer was made, none of this generation is to be feared. -/
theorem Calm.retired (h : Calm s t) (hsteady : Steady s t) (hs : s.Retired) : t.Retired := by
  intro g hg
  rw [hsteady.generation]
  exact hs g (h.boundaries g hg)

/-- Where no boundary timer was made, and what plays goes on, no more than timers
for events were added. -/
theorem Calm.grows (h : Calm s t) (hsteady : Steady s t) : Grows s t where
  tasks := h.tasks
  generation := Nat.le_of_eq hsteady.generation.symm
  filed := by
    intro hs
    refine ⟨hsteady.timed hs.timed, h.aimed hs.aimed, fun hstopped => ?_⟩
    exact h.retired hsteady (hs.stopped (hsteady.running.symm.trans hstopped))

/-- Where timers and events are the same, and what plays goes on, nothing was added. -/
theorem grows_of_steady (hsteady : Steady s t) (htasks : t.tasks = s.tasks)
    (hlength : t.items.length = s.items.length) : Grows s t :=
  (calm_of_eq htasks hlength).grows hsteady

theorem tracks_calmly : Tracks fun s t => Calm s t ∧ Steady s t := tracks_calm.and tracks_steady

/-- Schedulers that play alike have the same timers and the same generation. -/
theorem Alike.grows (h : Alike s t) : Grows s t := (tracks_calm.alike h).grows h.steady

/-- A timer that stops waiting is kept. -/
theorem grows_expired (s : Scheduler) (id : Nat) : Grows s (s.expired id) :=
  grows_of_steady (steady_expired s id) (tasks_expired s id) rfl

/-- Bookings add timers while something plays. -/
theorem grows_bookAll {bookings : List Booking} (hrunning : s.isRunning = true) :
    Grows s (s.bookAll bookings) := by
  obtain ⟨hcalm, hsteady⟩ := tracks_calmly.bookAll hrunning bookings
  exact hcalm.grows hsteady

/-- While something plays a boundary timer is made for it. -/
theorem grows_armed {run : Run} (hrun : s.run = some run) : Grows s s.armed where
  tasks := tasks_armed s
  generation := by rw [armed_of_run hrun]
  filed := by
    intro hs
    refine ⟨timed_armed hs.timed, fun id hid => ?_, fun hstopped => ?_⟩
    · rw [armed_of_run hrun] at hid ⊢
      refine hs.aimed id ?_
      unfold tasks at hid ⊢
      rw [Clock.timers_arm, List.map_append] at hid
      simpa using hid
    · unfold isRunning at hstopped
      rw [run_armed, hrun] at hstopped
      nomatch hstopped

/-- Bookings and the timer for the end of the cycle are added while something plays. -/
theorem grows_bookAll_armed {run : Run} (hrun : s.run = some run) (bookings : List Booking) :
    Grows s (s.bookAll bookings).armed := by
  obtain ⟨pending, hpending⟩ := run_bookAll hrun bookings
  exact (grows_bookAll (isRunning_of_run hrun)).trans (grows_armed hpending)

/-- A boundary adds the timers of the next cycle, or none. -/
theorem grows_passBoundary (generation : Nat) (s : Scheduler) :
    Grows s ((passBoundary generation).after s) := by
  rcases passBoundary_cases generation s with hsame | ⟨run, hrun, -, hturned | ⟨bookings, hbooked⟩⟩
  · rw [hsame]
    exact (Alike.refl s).grows
  · exact (grows_of_steady (steady_turned hrun) rfl rfl).trans hturned.symm.grows
  · have hturned : Grows s (s.turned run) := grows_of_steady (steady_turned hrun) rfl rfl
    exact (hturned.trans (grows_bookAll_armed rfl bookings)).trans hbooked.symm.grows

/-- Every task adds timers or none. -/
theorem grows_perform (task : Task) (s : Scheduler) : Grows s ((perform task).after s) := by
  cases task with
  | fire id => exact (tracks_calm.fire id s).grows (tracks_steady.fire id s)
  | boundary generation => exact grows_passBoundary generation s

/-- A run begins with a new generation and no timer of its own. -/
theorem grows_begun (s : Scheduler) (node : Pattern) (rate : Option Float) :
    Grows s (s.begun node rate) where
  tasks := List.prefix_rfl
  generation := Nat.le_succ s.generation
  filed := fun hs => ⟨timed_begun hs.timed node rate, hs.aimed, nofun⟩

/-- A start begins a run and adds the timers of its first cycle, or does nothing. -/
theorem grows_start (v : Value) (given : Option Value) (s : Scheduler) :
    Grows s ((start v given).after s) := by
  rcases start_cases v given s with hsame | ⟨-, node, rate, hbegun | ⟨bookings, hbooked⟩⟩
  · exact hsame.symm.grows
  · exact (grows_begun s node rate).trans hbegun.symm.grows
  · exact ((grows_begun s node rate).trans (grows_bookAll_armed rfl bookings)).trans
      hbooked.symm.grows

/-- Stopping settles a timer and forgets none. -/
theorem tasks_halted (s : Scheduler) : s.halted.tasks = s.tasks := by
  unfold halted
  cases s.boundary with
  | none => rfl
  | some timer => exact tasks_expired s timer

/-- With a new generation all boundary timers are of earlier ones. -/
theorem retired_halted (h : s.Timed) : s.halted.Retired := by
  intro g hg
  rw [tasks_halted] at hg
  obtain ⟨t, ht, htask⟩ := List.mem_map.mp hg
  exact Nat.lt_succ_of_le (h.generations t ht g htask)

/-- A stop begins a new generation, so that all boundaries are of earlier ones. -/
theorem grows_halted (s : Scheduler) : Grows s s.halted where
  tasks := (tasks_halted s).symm ▸ List.prefix_rfl
  generation := Nat.le_succ s.generation
  filed := by
    intro hs
    refine ⟨timed_halted hs.timed, fun id hid => ?_, fun _ => retired_halted hs.timed⟩
    rw [tasks_halted] at hid
    exact hs.aimed id hid

/-- A stop that fails halfway has begun a new generation, too. -/
theorem grows_stop (s : Scheduler) : Grows s (stop.after s) := by
  obtain ⟨hcalm, hsteady⟩ := tracks_calmly.cancelAll s.pendingItems s.halted
  have hcancelled := (grows_halted s).trans (hcalm.grows hsteady)
  rcases stop_cases s with hsame | hfailed | ⟨count, -, hstopped⟩
  · rw [hsame]
    exact (Alike.refl s).grows
  · rw [hfailed]
    exact hcancelled
  · refine Grows.trans (t := { (cancelAll s.pendingItems).after s.halted with
      run := none, pendingRate := none })
      ⟨hcancelled.tasks, hcancelled.generation, fun hs => ?_⟩ hstopped.symm.grows
    have hfiled := hcancelled.filed hs
    exact ⟨⟨hfiled.timed.ids, hfiled.timed.generations⟩, hfiled.aimed,
      fun _ => hcalm.retired hsteady (retired_halted hs.timed)⟩

/-- Whatever happens, timers are only added and generations only grow. -/
theorem grows_next (o : Occurrence) (s : Scheduler) : Grows s (o.next s) :=
  next_related (R := Grows) tracks_calmly (fun h => h.1.grows h.2) Grows.trans
    (fun _ _ => grows_of_steady (steady_of_clock rfl rfl rfl rfl) rfl rfl)
    (fun s t _ => (grows_expired s t.id).trans (grows_perform t.task _))
    (fun v given _ => grows_start v given s) (fun _ => grows_stop s)
    fun t _ _ => grows_perform t.task s

/-- In every run timers are only added and generations only grow. -/
theorem grows_afterAll (os : List Occurrence) (s : Scheduler) : Grows s (afterAll os s) :=
  afterAll_related (fun s => (Alike.refl s).grows) Grows.trans (fun o _ s => grows_next o s) s

/-- In every run timers are known, and while nothing plays none is of this
generation. -/
theorem filed_afterAll (perf : Performance) (policy : Policy) (sounder : Sounder)
    (listener : Option Listener) (rate now : Float) (os : List Occurrence) :
    (afterAll os (initial perf policy sounder listener rate now)).Filed := by
  refine (grows_afterAll os _).filed ⟨?_, ?_, ?_⟩
  · exact timed_afterAll perf policy sounder listener rate now []
  · exact fun id hid => absurd hid List.not_mem_nil
  · exact fun _ g hg => absurd hg List.not_mem_nil

/-! ## Tasks that are spent -/

/-- Nothing is left to be done: the event met its fate, or the boundary is of an
earlier generation. -/
def Spent (s : Scheduler) : Task → Prop
  | .fire id => ∃ item ∈ s.items, item.id = id ∧ item.fate ≠ .pending
  | .boundary generation => generation < s.generation

/-- When nothing plays, every timer is spent. -/
theorem spent_of_stopped {heard : List Nat} (hbooks : s.ledger.Balanced heard) (h : s.Filed)
    (hstopped : s.isRunning = false) {task : Task} (htask : task ∈ s.tasks) : s.Spent task := by
  cases task with
  | boundary generation => exact h.stopped hstopped generation htask
  | fire id =>
      have hid : id ∈ s.ledger.items.map (·.id) := by
        rw [hbooks.ids, List.mem_range]
        exact h.aimed id htask
      obtain ⟨item, hitem, rfl⟩ := List.mem_map.mp hid
      refine ⟨item, hitem, rfl, fun hpending => ?_⟩
      have hlisted := (hbooks.mem_pending hitem).mpr hpending
      unfold isRunning at hstopped
      unfold ledger at hlisted
      rw [Option.not_isSome_iff_eq_none.mp (Bool.eq_false_iff.mp hstopped)] at hlisted
      exact absurd hlisted List.not_mem_nil

/-- What is spent does nothing. -/
theorem Spent.perform {heard : List Nat} (hbooks : s.ledger.Balanced heard) {task : Task}
    (h : s.Spent task) :
    (Scheduler.perform task).outcome s = .ok () ∧ (Scheduler.perform task).after s = s := by
  cases task with
  | fire id =>
      obtain ⟨item, hitem, rfl, hfate⟩ := h
      have hclosed : s.isOpen item.id = false := by
        unfold isOpen
        rw [item?_of_mem hbooks hitem]
        simpa using hfate
      exact ⟨outcome_fire_closed hclosed, fire_closed hclosed⟩
  | boundary generation => exact passBoundary_stale_eq (.inr (Nat.ne_of_lt h))

/-- What is spent stays so. -/
theorem Spent.afterAll {heard : List Nat} (hbooks : s.ledger.Balanced heard) {task : Task}
    (h : s.Spent task) (os : List Occurrence) : (Scheduler.afterAll os s).Spent task := by
  cases task with
  | fire id =>
      obtain ⟨item, hitem, hid, hfate⟩ := h
      exact ⟨item, hbooks.settled (moves_afterAll os s heard hbooks) hitem hfate, hid, hfate⟩
  | boundary generation => exact Nat.lt_of_lt_of_le h (grows_afterAll os s).generation

/-- Having a timer go off of which nothing is left to be done changes nothing. -/
theorem poke_spent {heard : List Nat} (hbooks : s.ledger.Balanced heard) (h : s.Timed) {timer : Nat}
    {task : Task} (htask : s.tasks[timer]? = some task) (hspent : s.Spent task) :
    (poke timer).outcome s = .ok () ∧ (poke timer).after s = s := by
  unfold tasks at htask
  rw [List.getElem?_map, Option.map_eq_some_iff] at htask
  obtain ⟨t, ht, rfl⟩ := htask
  have hlt : timer < s.clock.timers.length := (List.getElem?_eq_some_iff.mp ht).1
  have hid : t.id = timer := by
    have hids := congrArg (·[timer]?) h.ids
    simp only [List.getElem?_map, ht, Option.map_some] at hids
    rw [List.getElem?_range hlt] at hids
    exact Option.some.inj hids
  have hfound : s.clock.timer? timer = some t := hid ▸ h.timer?_eq (List.mem_of_getElem? ht)
  unfold poke
  rw [outcome_get_bind, after_get_bind, hfound]
  exact hspent.perform hbooks

/-- What there was when nothing played has nothing to do ever after. -/
theorem poke_of_stopped {heard : List Nat} (hbooks : s.ledger.Balanced heard) (h : s.Filed)
    (hstopped : s.isRunning = false) (later : List Occurrence) {timer : Nat}
    (hlt : timer < s.tasks.length) :
    (poke timer).outcome (afterAll later s) = .ok () ∧
      (poke timer).after (afterAll later s) = afterAll later s := by
  have hgrows := grows_afterAll later s
  obtain ⟨others, hlater⟩ := hbooks.steps (moves_afterAll later s _ hbooks)
  have hspent : s.Spent s.tasks[timer] :=
    spent_of_stopped hbooks h hstopped (List.getElem_mem hlt)
  have htask : (afterAll later s).tasks[timer]? = some s.tasks[timer] := by
    obtain ⟨rest, hrest⟩ := hgrows.tasks
    rw [← hrest, List.getElem?_append_left hlt, List.getElem?_eq_getElem hlt]
  exact poke_spent hlater (hgrows.filed h).timed htask (hspent.afterAll hbooks later)

/-- Timers that do nothing out of turn do nothing one after another. -/
theorem pokes_spent (timers : List Nat)
    (h : ∀ timer ∈ timers, (poke timer).after s = s) :
    afterAll (timers.map .poke) s = s := by
  induction timers with
  | nil => rfl
  | cons timer timers ih =>
      have hfirst : (Occurrence.poke timer).next s = s := h timer List.mem_cons_self
      change afterAll (timers.map .poke) ((Occurrence.poke timer).next s) = s
      rw [hfirst]
      exact ih fun other hother => h other (List.mem_cons_of_mem timer hother)

/-! ## Stops that fail -/

/-- Every stop of what is being played begins a new generation. -/
theorem generation_stop {heard : List Nat} (hbooks : s.ledger.Balanced heard)
    (hrunning : s.isRunning = true) : (stop.after s).generation = s.generation + 1 := by
  rcases after_stop hbooks hrunning with ⟨-, halike⟩ | ⟨-, first, -, halike⟩
  · rw [halike.generation]
    exact (steady_withdraw s.halted s.pendingItems).generation
  · rw [halike.generation]
    exact (steady_withdraw s.halted first).generation

/-- Where a stop fails the playing goes on with the events after the one at which it
did, and to stop once more is not without effect. -/
theorem outlives_failed_stop {heard : List Nat} (hbooks : s.ledger.Balanced heard)
    (hfailed : stop.outcome s ≠ .ok ()) :
    (stop.after s).isRunning = true ∧ stop.after (stop.after s) ≠ stop.after s ∧
      ∃ before item, s.pendingItems = before ++ item :: (stop.after s).pendingItems ∧
        (∀ x ∈ before, x.event.value.isWritable = true) ∧ item.event.value.isWritable = false := by
  obtain ⟨hrunning, before, item, later, hitems, hbefore, hitem, -, halike⟩ :=
    stop_failed hbooks hfailed
  have hstill : (stop.after s).isRunning = true := by
    rw [← halike.steady.running, (steady_withdraw s.halted _).running]
    exact hrunning
  have hlater : (stop.after s).pendingItems = later := by
    rw [halike.pendingItems]
    refine pendingItems_withdraw_append (s := s.halted) hbooks ?_
    rw [List.append_assoc]
    exact hitems
  obtain ⟨more, hafter⟩ := hbooks.steps (moves_stop s heard hbooks)
  refine ⟨hstill, fun hsame => ?_, before, item, hlater ▸ hitems, hbefore, hitem⟩
  have hnext := generation_stop hafter hstill
  rw [hsame] at hnext
  exact absurd hnext.symm (Nat.succ_ne_self _)

/-- **Stopping is final** once it succeeds, and it does unless an event that is
still to be cancelled cannot be written.  When it did, stopping again changes
nothing, and whatever happens later, also when something else is played, the timers
that there were can go off in any order and as often as may be: they do not fail,
and they change nothing at all.  When it did not, the playing goes on: the pending
events up to the first that cannot be written are cancelled, those after it are
not, and stopping again changes the scheduler. -/
theorem stop_final (perf : Performance) (policy : Policy) (sounder : Sounder)
    (listener : Option Listener) (rate now : Float) (os : List Occurrence) :
    let s := afterAll os (initial perf policy sounder listener rate now)
    let t := stop.after s
    (stop.outcome s = .ok () ↔ s.isRunning = false ∨
      ∀ item ∈ s.pendingItems, item.event.value.isWritable = true) ∧
    (stop.outcome s = .ok () → t.isRunning = false ∧ stop.outcome t = .ok () ∧ stop.after t = t ∧
      ∀ later, let u := afterAll later t
        (∀ timer < t.clock.timers.length, (poke timer).outcome u = .ok ()) ∧
        ∀ timers : List Nat, (∀ timer ∈ timers, timer < t.clock.timers.length) →
          afterAll (timers.map .poke) u = u) ∧
    (stop.outcome s ≠ .ok () → t.isRunning = true ∧ stop.after t ≠ t ∧
      ∃ before item, s.pendingItems = before ++ item :: t.pendingItems ∧
        (∀ x ∈ before, x.event.value.isWritable = true) ∧
        item.event.value.isWritable = false) := by
  intro s t
  obtain ⟨heard, hbooks⟩ := balanced_afterAll perf policy sounder listener rate now os
  refine ⟨outcome_stop_iff hbooks, fun hok => ?_, outlives_failed_stop hbooks⟩
  have hstopped : t.isRunning = false := (stopped_of_ok hok).1
  obtain ⟨more, hstill⟩ := hbooks.steps (moves_stop s heard hbooks)
  have hfiled : t.Filed :=
    (grows_stop s).filed (filed_afterAll perf policy sounder listener rate now os)
  refine ⟨hstopped, (outcome_stop_iff hstill).mpr (.inl hstopped), stop_of_stopped hstopped,
    fun later => ?_⟩
  have hpoke : ∀ timer < t.clock.timers.length, (poke timer).outcome (afterAll later t) = .ok () ∧
      (poke timer).after (afterAll later t) = afterAll later t := fun timer htimer =>
    poke_of_stopped hstill hfiled hstopped later (by unfold tasks; rwa [List.length_map])
  exact ⟨fun timer htimer => (hpoke timer htimer).1, fun timers htimers =>
    pokes_spent timers fun timer htimer => (hpoke timer (htimers timer htimer)).2⟩

/-- Two notes are stopped after the first of them, and something else is played:
all timers of before, for both notes and for the end of their cycle, can go off
twice and nothing is heard of it. -/
theorem stop_final_notes :
    let notes := Pattern.sequence [.leaf (.text "a"), .leaf (.text "b")]
    let s := afterAll [.start (.pattern notes) none, .ring 0]
      (initial .default Policy.roundRobin ⟨none, fun _ _ => .sounded⟩ none 1.0 0.0)
    let t := stop.after s
    let u := afterAll [.start (.text "c d e") none, .ring 4] t
    s.isRunning = true ∧ s.pendingItems.length = 1 ∧ stop.outcome s = .ok () ∧ stop.after t = t ∧
      u.isRunning = true ∧ u.pendingItems.length = 2 ∧
      afterAll ([2, 1, 0, 2, 0, 1].map .poke) u = u := by
  intro notes s t u
  obtain ⟨hiff, hfinal, -⟩ := stop_final .default Policy.roundRobin ⟨none, fun _ _ => .sounded⟩
    none 1.0 0.0 [.start (.pattern notes) none, .ring 0]
  have hwritable : ∀ item ∈ s.pendingItems, item.event.value.isWritable = true := by decide +kernel
  have hok : stop.outcome s = .ok () := hiff.mpr (.inr hwritable)
  obtain ⟨-, -, hagain, hlater⟩ := hfinal hok
  have hpokes := (hlater [.start (.text "c d e") none, .ring 4]).2 [2, 1, 0, 2, 0, 1]
    (by decide +kernel)
  have hrunning : u.isRunning = true := by decide +kernel
  have hpending : u.pendingItems.length = 2 := by decide +kernel
  exact ⟨by decide +kernel, by decide +kernel, hok, hagain, hrunning, hpending, hpokes⟩

/-- A product that cannot be written is stopped between two notes.  The stop ends at
it, nothing was heard so far, and the timer of the last note, when it goes off,
sounds that note. -/
theorem product_outlasts_stop :
    let product := Pattern.operation (.leaf (.number (.int (10 ^ 2200)))) "*"
      (.number (.ratio (10 ^ 2200)))
    let pattern := Pattern.sequence [.leaf (.text "a"), product, .leaf (.text "b")]
    let s := afterAll [.start (.pattern pattern) none]
      (initial .default Policy.roundRobin ⟨none, fun _ _ => .sounded⟩ none 1.0 0.0)
    let t := stop.after s
    stop.outcome s = .error (.fault .unwritable) ∧ t.isRunning = true ∧ stop.after t ≠ t ∧
      t.trace.attempts.isEmpty = true ∧ 2 < t.clock.timers.length ∧
      ((poke 2).after t).trace.attempts.map (·.1.value.written) = [.ok "b"] := by
  intro product pattern s t
  have hfailed : stop.outcome s = .error (.fault .unwritable) := by decide +kernel
  have hgeneration : (stop.after t).generation ≠ t.generation := by decide +kernel
  exact ⟨hfailed, by decide +kernel, fun h => hgeneration (congrArg Scheduler.generation h),
    by decide +kernel, by decide +kernel, by decide +kernel⟩

end Scheduler

end Ostinato
