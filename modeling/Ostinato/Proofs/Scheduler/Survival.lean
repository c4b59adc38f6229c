import Mathlib.Data.List.Induction
import Ostinato.Proofs.Scheduler.Pairing
import Ostinato.Proofs.Scheduler.Tempo

/-!
# Ostinato.Proofs.Scheduler.Survival

Whether cycle follows upon cycle until the playing is stopped.

What keeps a scheduler going is the timer for the end of its cycle, which makes
the next one.  Three kinds of steps leave a scheduler running without it
(`Occurrence.Stalls`): a start whose cycle zero cannot be found, the end of a
cycle after which the next one cannot be found, and a stop that fails at an
event that cannot be written.  No step but a stop that succeeds leads out of
this, and no other step leads there (`adrift_next`), so one boundary timer waits
exactly while no such step happened since the playing began (`loop_survives`).

Moving the clock forward is taken apart into the single steps that it consists
of (`steps`), as a timer may fail in the middle of it.
-/

namespace Ostinato

namespace Scheduler

open Scheduling

/-! ## Single steps -/

/-- The steps by which the clock moves forward: it is set to the time at which
the next timer is due, and that timer goes off.  They end with a timer that
fails. -/
def stepsWithin : Nat → Float → Scheduler → List Occurrence
  | 0, _, _ => []
  | limit + 1, time, s =>
    match s.clock.next? time with
    | none => [.jump (s.clock.moveTo time).now]
    | some t =>
      let rung := (s.atTime (s.clock.moveTo t.due).now).expired t.id
      .jump (s.clock.moveTo t.due).now :: .ring t.id ::
        match (perform t.task).outcome rung with
        | .ok _ => stepsWithin limit time ((perform t.task).after rung)
        | .error _ => []

end Scheduler

/-- The single steps that an occurrence consists of. -/
def Occurrence.steps (o : Occurrence) (s : Scheduler) : List Occurrence :=
  match o with
  | advance time => Scheduler.stepsWithin Scheduler.patience time s
  | o => [o]

namespace Scheduler

open Scheduling

/-- The single steps that a run consists of. -/
def steps : List Occurrence → Scheduler → List Occurrence
  | [], _ => []
  | o :: os, s => o.steps s ++ steps os (o.next s)

/-- A timer that waits goes off. -/
theorem ring_of_live {s : Scheduler} (h : s.Timed) {t : Timer Task} (ht : t ∈ s.clock.live) :
    (ring t.id).after s = (perform t.task).after (s.expired t.id) := by
  obtain ⟨hmem, hwaiting⟩ := List.mem_filter.mp ht
  unfold ring
  rw [after_get_bind, h.timer?_eq hmem]
  simp only [hwaiting, if_true]
  rfl

/-- Moving the clock forward comes to the same as its steps, one after another. -/
theorem afterAll_stepsWithin (limit : Nat) (time : Float) {s : Scheduler} (h : s.Timed) :
    afterAll (stepsWithin limit time s) s = (advanceWithin limit time).after s := by
  induction limit generalizing s with
  | zero => rfl
  | succ limit ih =>
      unfold stepsWithin advanceWithin
      rw [after_get_bind]
      cases hnext : s.clock.next? time with
      | none => rfl
      | some t =>
          simp only
          let moved := s.atTime (s.clock.moveTo t.due).now
          have hmoved : moved.Timed := ⟨h.ids, h.generations⟩
          have hring : (Occurrence.ring t.id).next moved =
              (perform t.task).after (moved.expired t.id) :=
            ring_of_live hmoved (show t ∈ moved.clock.live from live_of_next? hnext)
          have hafter : ((perform t.task).after (moved.expired t.id)).Timed :=
            timed_perform (timed_expired hmoved t.id)
          rw [after_set_bind]
          change afterAll _ ((Occurrence.ring t.id).next moved) =
            (perform t.task >>= fun _ => advanceWithin limit time).after (moved.expired t.id)
          rw [hring]
          cases houtcome : (perform t.task).outcome (moved.expired t.id) with
          | error e =>
              rw [after_bind_error houtcome]
              rfl
          | ok _ =>
              rw [after_bind houtcome]
              exact ih hafter

/-- A run comes to the same as its single steps. -/
theorem afterAll_steps (os : List Occurrence) {s : Scheduler} (h : s.Timed) :
    afterAll (steps os s) s = afterAll os s := by
  induction os generalizing s with
  | nil => rfl
  | cons o os ih =>
      have ho : afterAll (o.steps s) s = o.next s := by
        cases o with
        | advance time => exact afterAll_stepsWithin patience time h
        | _ => rfl
      unfold steps
      rw [afterAll_append, ho]
      exact ih (timed_next o h)

/-- The steps by which the clock moves forward are single ones. -/
theorem isSingle_stepsWithin (limit : Nat) (time : Float) (s : Scheduler) :
    ∀ o ∈ stepsWithin limit time s, o.isSingle = true := by
  induction limit generalizing s with
  | zero => exact fun o ho => absurd ho List.not_mem_nil
  | succ limit ih =>
      unfold stepsWithin
      cases s.clock.next? time with
      | none => simp [Occurrence.isSingle]
      | some t =>
          simp only [List.forall_mem_cons]
          refine ⟨rfl, rfl, ?_⟩
          split
          · exact ih _
          · exact fun o ho => absurd ho List.not_mem_nil

/-- If no timer goes off out of turn, all steps of a run are single ones. -/
theorem isSingle_steps {os : List Occurrence} (hos : ∀ timer, Occurrence.poke timer ∉ os)
    (s : Scheduler) : ∀ o ∈ steps os s, o.isSingle = true := by
  induction os generalizing s with
  | nil => exact fun o ho => absurd ho List.not_mem_nil
  | cons o os ih =>
      intro o' ho'
      rcases List.mem_append.mp ho' with hfirst | hlater
      · cases o with
        | advance time => exact isSingle_stepsWithin patience time s o' hfirst
        | poke timer => exact absurd List.mem_cons_self (hos timer)
        | _ => rw [List.mem_singleton.mp hfirst]; rfl
      · exact ih (fun timer htimer => hos timer (List.mem_cons_of_mem o htimer)) _ o' hlater

end Scheduler

/-! ## Stalling -/

/-- Whether a step leaves a scheduler running without a timer for the end of its
cycle: a start that cannot find cycle zero, a stop that comes upon an event that
cannot be written, or the end of a cycle after which the next cannot be
found. -/
def Occurrence.Stalls (s : Scheduler) : Occurrence → Prop
  | start v given => s.isRunning = false ∧ ∃ node accepted cause,
      (Scheduler.coerce v).outcome s = .ok node ∧
      given.mapM Scheduler.checkRate = .ok accepted ∧
      s.performance.query node 0 none = .error cause
  | stop => s.isRunning = true ∧ ∃ item ∈ s.pendingItems, item.event.value.isWritable = false
  | ring timer => ∃ run cause, s.run = some run ∧ (∃ t ∈ s.awaited, t.id = timer) ∧
      s.performance.query run.pattern (run.cycleIndex + 1) none = .error cause
  | _ => False

namespace Scheduler

open Scheduling

/-- A scheduler that runs, but no timer waits for the end of its cycle. -/
def Adrift (s : Scheduler) : Prop := s.isRunning = true ∧ s.awaited = []

/-- Where boundary timers are the same as before. -/
theorem adrift_of_same {s t : Scheduler} (hrunning : t.isRunning = s.isRunning)
    (hawaited : t.awaited = s.awaited) : t.Adrift ↔ s.Adrift ∧ t.isRunning = true := by
  unfold Adrift
  rw [hrunning, hawaited]
  exact ⟨fun h => ⟨h, h.1⟩, fun h => h.1⟩

/-- Schedulers that play alike are adrift alike. -/
theorem Alike.adrift {s t : Scheduler} (h : Alike t s) : t.Adrift ↔ s.Adrift := by
  unfold Adrift isRunning awaited
  rw [h.run, h.clock]

/-- The ends that are awaited depend on the timers alone. -/
theorem awaited_of_timers {s t : Scheduler} (h : t.clock.timers = s.clock.timers) :
    t.awaited = s.awaited := by
  unfold awaited Clock.live
  rw [h]

/-- A scheduler that was given a boundary timer is not adrift. -/
theorem not_adrift_armed {s : Scheduler} (hrunning : s.isRunning = true) : ¬ s.armed.Adrift := by
  obtain ⟨run, hrun⟩ := Option.isSome_iff_exists.mp hrunning
  unfold Adrift
  rw [awaited_armed hrun]
  simp

theorem isRunning_bookAll (s : Scheduler) (bookings : List Booking) :
    (s.bookAll bookings).isRunning = s.isRunning := (steady_bookAll s bookings).running

/-! ## What a step comes to -/

/-- Cancelling events leaves the boundary timers waiting: they fire no events. -/
theorem awaited_withdraw {s : Scheduler} (h : s.Timed) {items : List Scheduled}
    (howned : ∀ item ∈ items, ∃ t ∈ s.clock.timers, t.id = item.timer ∧ t.task = .fire item.id) :
    (s.withdraw items).awaited = s.awaited := by
  unfold awaited
  rw [live_withdraw, List.filter_filter]
  refine List.filter_congr fun t ht => ?_
  have hkept : t.isBoundary = true → t.id ∉ items.map (·.timer) := by
    intro hboundary hid
    obtain ⟨item, hitem, htimer⟩ := List.mem_map.mp hid
    obtain ⟨u, hu, huid, htask⟩ := howned item hitem
    have hsame := h.eq_of_id hu (List.mem_of_mem_filter ht) (huid.trans htimer)
    simp [Timer.isBoundary, ← hsame, htask] at hboundary
  cases hboundary : t.isBoundary with
  | false => rfl
  | true => simp only [hkept hboundary, not_false_eq_true, decide_true, Bool.and_self]

/-- Withdrawing events does not concern the end of a cycle. -/
theorem steady_withdraw (s : Scheduler) (items : List Scheduled) :
    Steady s (s.withdraw items) := by
  induction items generalizing s with
  | nil => exact steady_refl s
  | cons item items ih =>
      have hcancelled : Steady s (s.cancelled item) :=
        (steady_settleFate s item.id .cancelled).trans (steady_expired _ item.timer)
      exact hcancelled.trans (ih (s.cancelled item))

/-- A replacement neither starts nor stops anything, and the same ends are awaited.
The timers of withdrawn events are not for the end of a cycle, since each is of its
own event. -/
theorem same_replace {s : Scheduler} (h : s.Intact) (v : Value) :
    ((replace v).after s).isRunning = s.isRunning ∧
      ((replace v).after s).awaited = s.awaited := by
  obtain ⟨heard, hbooks⟩ := h.balanced
  refine ⟨(tracks_steady.replace v s).running, ?_⟩
  have halike : ∀ {t u : Scheduler}, Alike t u → t.awaited = u.awaited :=
    fun h => awaited_of_timers (congrArg Clock.timers h.clock)
  by_cases hrefused : s.isRunning = false ∨ (∃ e, (coerce v).outcome s = .error e) ∨
      ∃ run cause, s.run = some run ∧ s.elapsed run = .error cause
  · exact halike (replace_refused hrefused)
  · obtain ⟨run, node, place, hrun, hnode, hplace⟩ := accepted_of_not_refused hrefused
    have hahead := s.ahead_sublist run place
    have hkept : ∀ {items : List Scheduled}, items.Sublist s.pendingItems →
        (s.withdraw items).awaited = s.awaited := fun hitems =>
      awaited_withdraw h.timed fun item hitem =>
        h.paired.timer item (isOpen_of_mem_pendingItems hbooks (hitems.subset hitem)).1
    rcases after_replace hbooks hrun hnode hplace with
      ⟨-, first, hfirst, -, -, hend⟩ | ⟨-, ⟨cause, -, -, hend⟩ | ⟨bookings, -, hend⟩⟩
    · rw [halike hend, hkept (hfirst.sublist.trans hahead)]
    · rw [halike hend]
      exact hkept hahead
    · rw [halike hend, awaited_bookAll]
      exact hkept hahead

/-- A rate moves no timer. -/
theorem clock_setRate (v : Value) (s : Scheduler) : ((setRate v).after s).clock = s.clock := by
  cases hrate : checkRate v with
  | error cause => rw [setRate_error hrate]
  | ok rate =>
      cases hrunning : s.isRunning with
      | true => exact (alike_setRate hrunning hrate).clock
      | false => rw [setRate_of_stopped hrunning hrate]

/-- A start leaves a scheduler adrift if it cannot find cycle zero.  One that is
refused changes nothing that is awaited, and one that books its events makes a timer
for the end of the cycle as well. -/
theorem adrift_start {s : Scheduler} (h : s.Intact) (v : Value) (given : Option Value) :
    ((start v given).after s).Adrift ↔
      (Occurrence.start v given).Stalls s ∨
        s.Adrift ∧ ((start v given).after s).isRunning = true := by
  by_cases hrefused : s.isRunning = true ∨ (∃ e, (coerce v).outcome s = .error e) ∨
      ∃ cause, given.mapM checkRate = .error cause
  · -- a start that is refused leaves what is awaited as it is
    have hsame := start_refused hrefused
    have hstalls : ¬ (Occurrence.start v given).Stalls s := by
      rintro ⟨hstopped, node, accepted, cause, hnode, haccepted, -⟩
      rcases hrefused with hrunning | ⟨e, he⟩ | ⟨cause', hcause⟩
      · rw [hstopped] at hrunning
        nomatch hrunning
      · rw [hnode] at he
        nomatch he
      · rw [haccepted] at hcause
        nomatch hcause
    rw [adrift_of_same hsame.symm.steady.running
      (awaited_of_timers (congrArg Clock.timers hsame.clock))]
    simp [hstalls]
  · obtain ⟨hstopped, node, accepted, hnode, haccepted⟩ := readable_of_not_refused hrefused
    cases hplan : s.performance.plan node 0 s.clock.now (accepted.getD s.rate) none with
    | error cause =>
        -- the run has begun, and no end is awaited: none was while it was stopped
        have hadrift : (s.begun node accepted).Adrift := ⟨rfl, h.sole.stopped hstopped⟩
        have hquery := Performance.plan_eq_error_iff.mp hplan
        rw [(start_error hstopped hnode haccepted hplan).adrift]
        exact iff_of_true hadrift
          (.inl ⟨hstopped, node, accepted, cause, hnode, haccepted, hquery⟩)
    | ok bookings =>
        have hbooked : ((s.begun node accepted).bookAll bookings).isRunning = true :=
          isRunning_bookAll _ bookings
        rw [(start_ok hstopped hnode haccepted hplan).adrift]
        refine iff_of_false (not_adrift_armed hbooked) ?_
        rintro (⟨-, node', accepted', cause, hnode', haccepted', hquery⟩ | ⟨hadrift, -⟩)
        · rw [Except.ok.inj (hnode.symm.trans hnode')] at hplan
          rw [Performance.plan_eq_error_iff.mpr hquery] at hplan
          nomatch hplan
        · rw [hadrift.1] at hstopped
          nomatch hstopped

/-- A stop leaves a scheduler adrift if it comes upon an event that cannot be
written, for then it has put an end to what is awaited but not to the run. -/
theorem adrift_stop {s : Scheduler} (h : s.Intact) :
    (stop.after s).Adrift ↔ Occurrence.stop.Stalls s ∨ s.Adrift ∧ (stop.after s).isRunning = true := by
  obtain ⟨heard, hbooks⟩ := h.balanced
  cases hrunning : s.isRunning with
  | false =>
      have hadrift : ¬ s.Adrift := fun hadrift => by
        rw [hadrift.1] at hrunning
        nomatch hrunning
      rw [stop_of_stopped hrunning]
      simp [Occurrence.Stalls, hrunning, hadrift]
  | true =>
      rcases after_stop hbooks hrunning with ⟨hall, halike⟩ | ⟨hsome, first, hfirst, halike⟩
      · have hstopped : (stop.after s).isRunning = false := by
          unfold isRunning
          rw [halike.run]
          rfl
        refine iff_of_false (fun hadrift => ?_) ?_
        · rw [hadrift.1] at hstopped
          nomatch hstopped
        · rintro (⟨-, item, hitem, hlong⟩ | ⟨-, hstill⟩)
          · rw [hall item hitem] at hlong
            nomatch hlong
          · rw [hstill] at hstopped
            nomatch hstopped
      · have hadrift : (s.halted.withdraw first).Adrift := by
          have hsteady := steady_withdraw s.halted first
          exact ⟨hsteady.running.trans hrunning, hsteady.awaited_eq_nil h.sole.awaited_halted⟩
        rw [halike.adrift]
        exact iff_of_true hadrift (.inl ⟨hrunning, hsome⟩)

/-- Firing an event leaves the clock as it is. -/
theorem clock_fire (id : Nat) (s : Scheduler) : ((fire id).after s).clock = s.clock := by
  cases hopen : s.isOpen id with
  | false => rw [fire_closed hopen]
  | true =>
      obtain ⟨item, hitem, hfate⟩ := isOpen_eq_true.mp hopen
      cases hwritable : item.event.value.isWritable with
      | true => exact (fire_writable hitem hfate hwritable).clock
      | false =>
          rw [fire_unwritable hitem hfate hwritable]
          rfl

/-- Firing an event leaves the ends that are awaited. -/
theorem awaited_fire (id : Nat) (s : Scheduler) : ((fire id).after s).awaited = s.awaited :=
  awaited_of_timers (congrArg Clock.timers (clock_fire id s))

/-- A timer that fires an event goes off: the boundary timer still waits. -/
theorem awaited_fired {s : Scheduler} (h : s.Intact) {t : Timer Task} (ht : t ∈ s.clock.live)
    {id : Nat} (htask : t.task = .fire id) :
    ((fire id).after (s.expired t.id)).awaited = s.awaited ∧ ∀ u ∈ s.awaited, u.id ≠ t.id := by
  have hne : ∀ u ∈ s.awaited, u.id ≠ t.id := by
    intro u hu hid
    have hsame := h.timed.eq_of_id (mem_timers_of_awaited hu) (List.mem_of_mem_filter ht) hid
    have hboundary : t.isBoundary = true := hsame ▸ (List.mem_filter.mp hu).2
    simp [Timer.isBoundary, htask] at hboundary
  refine ⟨?_, hne⟩
  rw [awaited_fire, awaited_expired, List.filter_eq_self]
  exact fun u hu => by simpa using hne u hu

/-- The end of the present cycle. -/
theorem adrift_passBoundary {s : Scheduler} (h : s.Intact) {t : Timer Task} (ht : t ∈ s.awaited) :
    ((passBoundary s.generation).after (s.expired t.id)).Adrift ↔
      (Occurrence.ring t.id).Stalls s := by
  have hrunning : s.isRunning = true := by
    by_contra hstopped
    rw [h.sole.stopped (Bool.eq_false_iff.mpr hstopped)] at ht
    exact absurd ht List.not_mem_nil
  obtain ⟨run, hrun⟩ := Option.isSome_iff_exists.mp hrunning
  have hexpired : (s.expired t.id).run = some run := hrun
  have hnone : (s.expired t.id).awaited = [] := h.sole.awaited_expired ht
  have hturned : ((s.expired t.id).turned run).Adrift := ⟨rfl, hnone⟩
  cases hplan : s.performance.plan run.pattern (run.cycleIndex + 1) (run.cycleStart + 1.0 / s.rate)
      (s.pendingRate.getD s.rate) none with
  | error cause =>
      have hquery := Performance.plan_eq_error_iff.mp hplan
      exact iff_of_true ((passBoundary_error hexpired hplan).adrift.mpr hturned)
        ⟨run, cause, hrun, ⟨t, ht, rfl⟩, hquery⟩
  | ok bookings =>
      have hbooked : (((s.expired t.id).turned run).bookAll bookings).isRunning = true :=
        isRunning_bookAll _ bookings
      refine iff_of_false (fun hadrift => not_adrift_armed hbooked
        ((passBoundary_ok hexpired hplan).adrift.mp hadrift)) ?_
      rintro ⟨run', cause, hrun', -, hquery⟩
      rw [hrun, Option.some_inj] at hrun'
      rw [hrun', Performance.plan_eq_error_iff.mpr hquery] at hplan
      nomatch hplan

/-- A timer that goes off leaves a scheduler adrift if it ends the cycle and the
next one cannot be found.  The timer of an event ends none, and one that does not
wait does nothing. -/
theorem adrift_ring {s : Scheduler} (h : s.Intact) (timer : Nat) :
    ((ring timer).after s).Adrift ↔
      (Occurrence.ring timer).Stalls s ∨ s.Adrift ∧ ((ring timer).after s).isRunning = true := by
  by_cases hlive : ∃ t ∈ s.clock.live, t.id = timer
  · obtain ⟨t, ht, rfl⟩ := hlive
    rw [ring_of_live h.timed ht]
    cases htask : t.task with
    | fire id =>
        obtain ⟨hawaited, hother⟩ := awaited_fired h ht htask
        have hstalls : ¬ (Occurrence.ring t.id).Stalls s := by
          rintro ⟨run, cause, -, ⟨u, hu, hid⟩, -⟩
          exact hother u hu hid
        have hrunning : ((fire id).after (s.expired t.id)).isRunning = s.isRunning :=
          (tracks_steady.fire id (s.expired t.id)).running
        rw [show perform (.fire id) = fire id from rfl, adrift_of_same hrunning hawaited]
        simp [hstalls]
    | boundary generation =>
        -- of an intact scheduler only the end of the present cycle is awaited
        have hawaited : t ∈ s.awaited :=
          List.mem_filter.mpr ⟨ht, by simp [Timer.isBoundary, htask]⟩
        have hgeneration : generation = s.generation :=
          Task.boundary.inj (htask.symm.trans (h.current t hawaited))
        have hadrift : ¬ s.Adrift := fun hadrift => by
          rw [hadrift.2] at hawaited
          exact absurd hawaited List.not_mem_nil
        rw [hgeneration, show perform (.boundary s.generation) = passBoundary s.generation from rfl,
          adrift_passBoundary h hawaited]
        simp [hadrift]
  · have hsame : (ring timer).after s = s := by
      rcases ring_cases timer s with hsame | ⟨t, ht, hid, -⟩
      · exact hsame
      · exact absurd ⟨t, ht, hid⟩ hlive
    have hstalls : ¬ (Occurrence.ring timer).Stalls s := by
      rintro ⟨run, cause, -, ⟨t, ht, hid⟩, -⟩
      exact hlive ⟨t, List.mem_of_mem_filter ht, hid⟩
    rw [hsame, adrift_of_same rfl rfl]
    simp [hstalls]

/-- A step leaves a scheduler adrift if it stalls it, or if the scheduler was
adrift and still runs. -/
theorem adrift_next {o : Occurrence} (ho : o.isSingle = true) {s : Scheduler} (h : s.Intact) :
    (o.next s).Adrift ↔ o.Stalls s ∨ s.Adrift ∧ (o.next s).isRunning = true := by
  -- steps that leave the boundary timers alone
  have hcalm : ¬ o.Stalls s → (o.next s).isRunning = s.isRunning → (o.next s).awaited = s.awaited →
      ((o.next s).Adrift ↔ o.Stalls s ∨ s.Adrift ∧ (o.next s).isRunning = true) := by
    intro hstalls hrunning hawaited
    rw [adrift_of_same hrunning hawaited]
    simp [hstalls]
  cases o with
  | start v given => exact adrift_start h v given
  | stop => exact adrift_stop h
  | ring timer => exact adrift_ring h timer
  | replace v =>
      obtain ⟨hrunning, hawaited⟩ := same_replace h v
      exact hcalm id hrunning hawaited
  | setRate v =>
      refine hcalm id (tracks_steady.setRate v s).running (awaited_of_timers ?_)
      exact congrArg Clock.timers (clock_setRate v s)
  | configureJournal enable level =>
      have halike := alike_configureJournal enable level s
      exact hcalm id halike.symm.steady.running
        (awaited_of_timers (congrArg Clock.timers halike.clock))
  | jump time => exact hcalm id rfl rfl
  | advance time | poke timer => nomatch ho

/-! ## Runs -/

/-- Some step of a run stalls the scheduler, which has been running ever
since. -/
def StalledIn (os : List Occurrence) (s : Scheduler) : Prop :=
  ∃ before o later, os = before ++ o :: later ∧ o.Stalls (afterAll before s) ∧
    ∀ part, part <+: later → (afterAll part (o.next (afterAll before s))).isRunning = true

/-- After a run of single steps a scheduler is adrift if one of them stalled
it. -/
theorem adrift_afterAll {os : List Occurrence} (hos : ∀ o ∈ os, o.isSingle = true) {s : Scheduler}
    (h : s.Intact) (hstopped : s.isRunning = false) :
    (afterAll os s).Adrift ↔ StalledIn os s := by
  induction os using List.reverseRec with
  | nil =>
      refine iff_of_false (fun hadrift => ?_) ?_
      · rw [show s.isRunning = true from hadrift.1] at hstopped
        nomatch hstopped
      · rintro ⟨before, o, later, hnil, -⟩
        simp at hnil
  | append_singleton os o ih =>
      simp only [List.forall_mem_append, List.forall_mem_singleton] at hos
      have hlast := adrift_next hos.2 (intact_afterAll hos.1 h)
      rw [afterAll_append]
      change (o.next (afterAll os s)).Adrift ↔ _
      constructor
      · intro hadrift
        rcases hlast.mp hadrift with hstalls | ⟨hbefore, hrunning⟩
        · refine ⟨os, o, [], rfl, hstalls, fun part hpart => ?_⟩
          rw [List.prefix_nil.mp hpart]
          exact hadrift.1
        · obtain ⟨before, o', later, rfl, hstalls, hrun⟩ := (ih hos.1).mp hbefore
          refine ⟨before, o', later ++ [o], by simp, hstalls, fun part hpart => ?_⟩
          rcases List.prefix_concat_iff.mp hpart with rfl | hpart
          · rw [afterAll_append] at hrunning ⊢
            exact hrunning
          · exact hrun part hpart
      · rintro ⟨before, o', later, hos', hstalls, hrun⟩
        rcases List.eq_nil_or_concat later with rfl | ⟨later, last, rfl⟩
        · obtain ⟨rfl, hsame⟩ := List.append_inj' hos' rfl
          rw [List.singleton_inj.mp hsame] at hlast ⊢
          exact hlast.mpr (.inl hstalls)
        · rw [List.concat_eq_append] at hos' hrun
          have hsplit : os ++ [o] = (before ++ o' :: later) ++ [last] := by
            rw [hos', List.append_assoc, List.cons_append]
          obtain ⟨rfl, hsame⟩ := List.append_inj' hsplit rfl
          obtain rfl := List.singleton_inj.mp hsame
          have hrunning := hrun (later ++ [o]) List.prefix_rfl
          rw [afterAll_append] at hrunning
          refine hlast.mpr (.inr ⟨(ih hos.1).mpr ⟨before, o', later, rfl, hstalls, ?_⟩, ?_⟩)
          · exact fun part hpart => hrun part (hpart.trans (List.prefix_append _ _))
          · rw [afterAll_append]
            exact hrunning

/-- **The loop of cycles**: in a run in which no timer goes off out of turn, no
timer of a stopped scheduler waits.  While a scheduler runs, just one boundary
timer waits, the one that is known and belongs to the present run, unless some
step stalled the scheduler since it was started; then none waits. -/
theorem loop_survives (perf : Performance) (policy : Policy) (sounder : Sounder)
    (listener : Option Listener) (rate now : Float) {os : List Occurrence}
    (hos : ∀ timer, Occurrence.poke timer ∉ os) :
    let before := initial perf policy sounder listener rate now
    let s := afterAll os before
    (s.isRunning = false → s.clock.live = []) ∧
    (s.isRunning = true →
      (¬ StalledIn (steps os before) before ∧ ∃ t, s.awaited = [t] ∧
        t.task = .boundary s.generation ∧ s.boundary = some t.id) ∨
      StalledIn (steps os before) before ∧ s.awaited = []) := by
  intro before s
  have hbefore : before.Intact := intact_initial perf policy sounder listener rate now
  have hsingle := isSingle_steps hos before
  have hs : afterAll (steps os before) before = s := afterAll_steps os hbefore.timed
  have hintact : s.Intact := hs ▸ intact_afterAll hsingle hbefore
  have hadrift : s.Adrift ↔ StalledIn (steps os before) before :=
    hs ▸ adrift_afterAll hsingle hbefore rfl
  refine ⟨hintact.live_of_stopped, fun hrunning => ?_⟩
  rcases hintact.awaited_cases with hnone | ⟨-, t, hone, htask, hknown⟩
  · exact .inr ⟨hadrift.mp ⟨hrunning, hnone⟩, hnone⟩
  · refine .inl ⟨fun hstalled => ?_, t, hone, htask, hknown⟩
    have hnone := (hadrift.mpr hstalled).2
    rw [hone] at hnone
    nomatch hnone

/-- Two notes that are played for a cycle and replaced in the next one: the
boundary timer of the second cycle waits, and when the playing is stopped
nothing waits any more. -/
theorem loop_survives_notes :
    let notes := Pattern.sequence [.leaf (.text "a"), .leaf (.text "b")]
    let before := initial .default Policy.roundRobin ⟨none, fun _ _ => .sounded⟩ none 1.0 0.0
    let os : List Occurrence :=
      [.start (.pattern notes) none, .ring 2, .replace (.text "c d"), .ring 0]
    (afterAll os before).isRunning = true ∧ ¬ StalledIn (steps os before) before ∧
      (∃ t, (afterAll os before).awaited = [t] ∧ t.task = .boundary 1 ∧ t.id = 5) ∧
      (afterAll (os ++ [.stop]) before).clock.live = [] := by
  intro notes before os
  have hos : ∀ timer, Occurrence.poke timer ∉ os := by simp [os]
  have hstops : ∀ timer, Occurrence.poke timer ∉ os ++ [.stop] := by simp [os]
  have hrunning : (afterAll os before).isRunning = true := by decide +kernel
  have hcount : (afterAll os before).awaited.length = 1 := by decide +kernel
  have hgeneration : (afterAll os before).generation = 1 := by decide +kernel
  have hboundary : (afterAll os before).boundary = some 5 := by decide +kernel
  refine ⟨hrunning, ?_⟩
  have hstopped := (loop_survives .default Policy.roundRobin ⟨none, fun _ _ => .sounded⟩ none 1.0
    0.0 hstops).1 (by decide +kernel)
  rcases (loop_survives .default Policy.roundRobin ⟨none, fun _ _ => .sounded⟩ none 1.0 0.0
    hos).2 hrunning with ⟨hnever, t, hone, htask, hknown⟩ | ⟨-, hnone⟩
  · rw [hboundary, Option.some_inj] at hknown
    rw [hgeneration] at htask
    exact ⟨hnever, ⟨t, hone, htask, hknown.symm⟩, hstopped⟩
  · rw [hnone] at hcount
    nomatch hcount

/-- A child that cannot be played is reached only in the second cycle: when the
first cycle ends the scheduler goes on running, and no timer waits for the end of
the second. -/
theorem adrift_stray :
    let broken := Pattern.parallel [.leaf (.text "a"), .stray (.int 5)]
    let s := afterAll [.start (.pattern broken) none, .ring 0, .ring 1]
      (initial .default Policy.roundRobin ⟨none, fun _ _ => .sounded⟩ none 1.0 0.0)
    s.isRunning = true ∧ s.cycle = 1 ∧ s.awaited = [] := by
  intro broken s
  refine ⟨by decide +kernel, by decide +kernel, ?_⟩
  have hcount : s.awaited.length = 0 := by decide +kernel
  exact List.eq_nil_of_length_eq_zero hcount

end Scheduler

end Ostinato
