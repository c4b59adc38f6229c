import Ostinato.Proofs.Scheduler.Finality
import Ostinato.Proofs.Scheduler.Indifference

/-!
# Ostinato.Proofs.Scheduler.Latching

Rates that are set while a cycle is played.

A rate that is set waits for the end of the cycle.  Until then two schedulers of
which one was told of rates and the other was not are the same but for the rate
that waits (`latched_afterAll`); nothing looks at it but the end of the cycle,
which begins the next one at the same time and at the last rate that was set.
-/

namespace Ostinato

namespace Occurrence

/-- Whether an occurrence neither starts nor stops the playing. -/
def goesOn : Occurrence → Bool
  | start _ _ | stop => false
  | _ => true

/-- Whether an occurrence is the setting of a rate. -/
def setsRate : Occurrence → Bool
  | setRate _ => true
  | _ => false

/-- Whether an occurrence ends the present cycle: the timer for it goes off, in
turn or out of turn. -/
def EndsCycle (s : Scheduler) (o : Occurrence) : Prop :=
  ∃ t ∈ s.clock.timers, t.task = .boundary s.generation ∧
    (o = .ring t.id ∧ t.waiting = true ∨ o = .poke t.id)

end Occurrence

namespace Scheduler

open Scheduling

/-! ## Going on -/

/-- Nothing was started or stopped, and cycles only moved on. -/
structure Onward (s t : Scheduler) : Prop where
  running : t.isRunning = s.isRunning
  later : Later s t

/-- Onward twice is onward. -/
theorem Onward.trans {s t u : Scheduler} (h : Onward s t) (h' : Onward t u) : Onward s u :=
  ⟨h'.running.trans h.running, h.later.trans h'.later⟩

theorem onward_refl (s : Scheduler) : Onward s s := ⟨rfl, Int.le_refl _⟩

/-- A task neither starts nor stops anything, and a boundary moves to the next cycle. -/
theorem onward_perform (task : Task) (s : Scheduler) : Onward s ((perform task).after s) := by
  refine ⟨?_, later_perform task s⟩
  cases task with
  | fire id => exact (tracks_steady.fire id s).running
  | boundary generation =>
      rcases passBoundary_armed generation s with hsteady | ⟨t, hsteady, harmed⟩
      · exact hsteady.running
      · refine (harmed.symm.steady.running).trans ?_
        unfold isRunning
        rw [run_armed]
        exact hsteady.running

/-- So does the task of a timer whose waiting ended. -/
theorem onward_expired (s : Scheduler) (t : Timer Task) :
    Onward s ((perform t.task).after (s.expired t.id)) := by
  have hexpired : Onward s (s.expired t.id) := ⟨rfl, Int.le_refl _⟩
  exact hexpired.trans (onward_perform t.task _)

/-- What goes on neither starts nor stops anything. -/
theorem onward_next {o : Occurrence} (ho : o.goesOn = true) (s : Scheduler) :
    Onward s (o.next s) := by
  refine next_related (R := Onward) (tracks_steady.and tracks_sameCycle)
    (fun h => ⟨h.1.running, h.2.later⟩) Onward.trans (fun _ _ => ⟨rfl, Int.le_refl _⟩)
    (fun s t _ => onward_expired s t) ?_ ?_ fun t _ _ => onward_perform t.task s
  · rintro v given rfl
    nomatch ho
  · rintro rfl
    nomatch ho

/-- Nor do such occurrences one after another. -/
theorem onward_afterAll {os : List Occurrence} (hos : ∀ o ∈ os, o.goesOn = true) (s : Scheduler) :
    Onward s (afterAll os s) :=
  afterAll_related onward_refl Onward.trans (fun o ho s => onward_next (hos o ho) s) s

/-- Between two times of the same cycle it is that cycle. -/
theorem cycle_between {s t u : Scheduler} (hst : Onward s t) (htu : Onward t u)
    (hcycle : u.cycle = s.cycle) : t.cycle = s.cycle ∧ u.cycle = t.cycle := by
  have hfirst : s.cycle ≤ t.cycle := hst.later
  have hsecond : t.cycle ≤ u.cycle := htu.later
  omega

/-! ## Without a look at the rate that waits -/

/-- The exchange with others is the same, and these are the rates that wait. -/
structure Waits (rate rate' : Option Float) (x y : Aside) : Prop where
  exchange : x.exchange = y.exchange
  first : x.pendingRate = rate
  second : y.pendingRate = rate'

variable {rate rate' : Option Float} {s t : Scheduler}

/-- The exchange with others stays the same through the same calls. -/
theorem keepsCalls_waits : KeepsCalls (Waits rate rate') := by
  rintro x y attempt ⟨hexchange, hfirst, hsecond⟩
  exact ⟨congrArg (fun z => Exchange.call z attempt) hexchange, hfirst, hsecond⟩

/-- Ending a cycle begins the next one. -/
theorem cycle_passBoundary {run : Run} (hrun : s.run = some run) :
    ((passBoundary s.generation).after s).cycle = s.cycle + 1 := by
  have hcycle : (s.turned run).cycle = s.cycle + 1 := by
    unfold cycle turned
    rw [hrun]
    rfl
  cases hplan : s.performance.plan run.pattern (run.cycleIndex + 1) (run.cycleStart + 1.0 / s.rate)
      (s.pendingRate.getD s.rate) none with
  | error cause =>
      rw [← hcycle]
      unfold cycle
      rw [(passBoundary_error hrun hplan).run]
  | ok bookings =>
      rw [← hcycle]
      unfold cycle
      obtain ⟨pending, hpending⟩ := run_bookAll (s := s.turned run) rfl bookings
      rw [(passBoundary_ok hrun hplan).run, run_armed, hpending]
      rfl

/-- A task that leaves the cycle as it is does not look at the rate that
waits. -/
theorem agree_perform {task : Task} (hcycle : ((perform task).after s).cycle = s.cycle)
    (h : Like (Waits rate rate') s t) :
    Agree (Waits rate rate') (perform task) (perform task) s t := by
  cases task with
  | fire id => exact (blind_fire keepsCalls_waits id).on h
  | boundary generation =>
      change ((passBoundary generation).after s).cycle = _ at hcycle
      change Agree _ (passBoundary generation) (passBoundary generation) s t
      by_cases hstale : s.run = none ∨ generation ≠ s.generation
      · obtain ⟨x, journal, hx, rfl⟩ := h
        have hs := passBoundary_stale_eq hstale
        have ht := passBoundary_stale_eq (s := s.beside x journal) hstale
        exact ⟨hs.1.trans ht.1.symm, x, journal, by rw [hs.2]; exact hx, by rw [ht.2, hs.2]⟩
      · rw [not_or, not_not] at hstale
        obtain ⟨run, hrun⟩ := Option.ne_none_iff_exists'.mp hstale.1
        rw [hstale.2, cycle_passBoundary hrun] at hcycle
        omega

/-- Moving the clock forward moves cycles onward. -/
theorem onward_advanceWithin (limit : Nat) (time : Float) (s : Scheduler) :
    Onward s ((advanceWithin limit time).after s) :=
  advanceWithin_related onward_refl Onward.trans (fun _ _ => ⟨rfl, Int.le_refl _⟩)
    (fun s t _ => onward_expired s t) limit time s

/-- Moving the clock forward within a cycle does not look at the rate that waits.
The induction is on the number of timers; as the cycle at the end is that of the
beginning, none of them passes a boundary. -/
theorem agree_advanceWithin {limit : Nat} {time : Float}
    (hcycle : ((advanceWithin limit time).after s).cycle = s.cycle)
    (h : Like (Waits rate rate') s t) :
    Agree (Waits rate rate') (advanceWithin limit time) (advanceWithin limit time) s t := by
  induction limit generalizing s t with
  | zero => exact (Blind.pure ()).on h
  | succ limit ih =>
      obtain ⟨x, journal, hx, rfl⟩ := h
      have hnext : (s.beside x journal).clock.next? time = s.clock.next? time := rfl
      unfold advanceWithin at hcycle ⊢
      refine Agree.get_bind ?_
      rw [after_get_bind] at hcycle
      rw [hnext]
      cases hdue : s.clock.next? time with
      | none => exact ⟨rfl, x, journal, hx, rfl⟩
      | some timer =>
          simp only [hdue, after_set_bind] at hcycle
          simp only
          refine Agree.set_bind ?_
          -- the timer goes off and the clock moves on, all in the same cycle
          let rung := (s.atTime (s.clock.moveTo timer.due).now).expired timer.id
          change ((perform timer.task >>= fun _ => advanceWithin limit time).after rung).cycle =
            rung.cycle at hcycle
          have hrung : Like (Waits rate rate') rung (rung.beside x journal) := ⟨x, journal, hx, rfl⟩
          change Agree _ (perform timer.task >>= fun _ => advanceWithin limit time)
            (perform timer.task >>= fun _ => advanceWithin limit time) rung (rung.beside x journal)
          have hfirst := onward_perform timer.task rung
          cases houtcome : (perform timer.task).outcome rung with
          | error e =>
              rw [after_bind_error houtcome] at hcycle
              refine (agree_perform hcycle hrung).bind fun a ha => ?_
              rw [houtcome] at ha
              cases ha
          | ok _ =>
              rw [after_bind houtcome] at hcycle
              obtain ⟨hperformed, hlater⟩ :=
                cycle_between hfirst (onward_advanceWithin limit time _) hcycle
              exact (agree_perform hperformed hrung).bind fun _ _ =>
                ih hlater (agree_perform hperformed hrung).after

/-- Nothing that goes on in a cycle looks at the rate that waits. -/
theorem agree_act {o : Occurrence} (hgoes : o.goesOn = true) (hset : o.setsRate = false)
    (hcycle : (o.next s).cycle = s.cycle) (h : Like (Waits rate rate') s t) :
    Agree (Waits rate rate') o.act o.act s t := by
  cases o with
  | start v given => nomatch hgoes
  | replace v => exact (blind_replace v).on h
  | stop => nomatch hgoes
  | setRate v => nomatch hset
  | configureJournal enable level => exact (blind_configureJournal enable level).on h
  | advance time => exact agree_advanceWithin hcycle h
  | jump time => exact (blind_jumpTo time).on h
  | ring timer =>
      change ((ring timer).after s).cycle = s.cycle at hcycle
      change Agree _ (ring timer) (ring timer) s t
      obtain ⟨x, journal, hx, rfl⟩ := h
      have hfound : (s.beside x journal).clock.timer? timer = s.clock.timer? timer := rfl
      unfold ring at hcycle ⊢
      refine Agree.get_bind ?_
      rw [after_get_bind] at hcycle
      rw [hfound]
      cases hsome : s.clock.timer? timer with
      | none => exact (Blind.pure ()).on ⟨x, journal, hx, rfl⟩
      | some u =>
          simp only [hsome] at hcycle ⊢
          cases hwaiting : u.waiting with
          | false => exact (Blind.pure ()).on ⟨x, journal, hx, rfl⟩
          | true =>
              simp only [hwaiting, if_true, after_set_bind] at hcycle
              refine Agree.set_bind (agree_perform (s := s.expired timer) hcycle ?_)
              exact ⟨x, journal, hx, rfl⟩
  | poke timer =>
      change ((poke timer).after s).cycle = s.cycle at hcycle
      change Agree _ (poke timer) (poke timer) s t
      have hclock : t.clock = s.clock := by
        obtain ⟨x, journal, hx, rfl⟩ := h
        rfl
      unfold poke at hcycle ⊢
      refine Agree.get_bind ?_
      rw [after_get_bind] at hcycle
      rw [hclock]
      cases hsome : s.clock.timer? timer with
      | none => exact (Blind.throw _).on h
      | some u =>
          rw [hsome] at hcycle
          exact agree_perform hcycle h

/-- A rate that is set while a pattern plays only waits. -/
theorem like_setRate (hrunning : s.isRunning = true) (v : Value)
    (h : Like (Waits rate rate') s t) :
    Like (Waits ((checkRate v).toOption.or rate) rate') ((setRate v).after s) t := by
  obtain ⟨x, journal, ⟨hexchange, hfirst, hsecond⟩, rfl⟩ := h
  cases hrate : checkRate v with
  | error cause =>
      rw [setRate_error hrate]
      exact ⟨x, journal, ⟨hexchange, hfirst, hsecond⟩, rfl⟩
  | ok accepted =>
      unfold setRate
      rw [hrate, orFault_ok, pure_bind, after_get_bind, if_pos hrunning]
      exact ⟨x, journal, ⟨hexchange, rfl, hsecond⟩, rfl⟩

/-- In a run within a cycle the last rate that was set waits, and all else is as
it would be if none had been set. -/
theorem latched_afterAll {os : List Occurrence} (hos : ∀ o ∈ os, o.goesOn = true)
    (hrunning : s.isRunning = true) (hcycle : (afterAll os s).cycle = s.cycle)
    (h : Like (Waits rate rate') s t) :
    Like (Waits ((os.flatMap Occurrence.rates).getLast?.or rate) rate') (afterAll os s)
      (afterAll (os.filter (!·.setsRate)) t) := by
  induction os generalizing s t rate with
  | nil => exact h
  | cons o os ih =>
      have ho : o.goesOn = true := hos o List.mem_cons_self
      have hlater := fun o' ho' => hos o' (List.mem_cons_of_mem o ho')
      have honward := onward_next ho s
      obtain ⟨hsame, hrest⟩ := cycle_between honward (onward_afterAll hlater (o.next s)) hcycle
      have hstill : (o.next s).isRunning = true := honward.running.trans hrunning
      rw [List.flatMap_cons, List.getLast?_append, Option.or_assoc]
      cases hset : o.setsRate with
      | true =>
          cases o with
          | setRate v =>
              have hlast : (Occurrence.setRate v).rates.getLast? = (checkRate v).toOption := by
                change (checkRate v).toOption.toList.getLast? = _
                cases (checkRate v).toOption <;> rfl
              rw [List.filter_cons_of_neg (by simp [Occurrence.setsRate]), hlast]
              exact ih hlater hstill hrest (like_setRate hrunning v h)
          | _ => nomatch hset
      | false =>
          have hrates : o.rates = [] := by
            cases o with
            | setRate v => nomatch hset
            | _ => rfl
          rw [List.filter_cons_of_pos (by simp [hset]), hrates]
          exact ih hlater hstill hrest (agree_act ho hset hsame h).after

/-! ## The end of the cycle -/

/-- A scheduler at the beginning of the cycle after another, which begins when
that ends and is played at a rate: if its events can be found, they are booked at
this rate, and so is the timer for its end; if not, nothing is put on the
clock. -/
structure Begins (s : Scheduler) (run : Run) (rate : Float) (t : Scheduler) : Prop where
  adopted : t.rate = rate
  spent : t.pendingRate = none
  onTime : ∃ pending, t.run =
    some ⟨run.pattern, run.cycleStart + 1.0 / s.rate, run.cycleIndex + 1, pending⟩
  planned : ∀ events, s.performance.query run.pattern (run.cycleIndex + 1) none = .ok events →
    ∃ bookings items, (dueEvents events none).mapM
        (Booking.of (run.cycleIndex + 1) (run.cycleStart + 1.0 / s.rate) rate) = .ok bookings ∧
      t.items = s.items ++ items ∧ items.map (·.booking) = bookings ∧
      (∀ item ∈ items, item.fate = .pending) ∧
      ∃ timer ∈ t.clock.live, t.boundary = some timer.id ∧ timer.task = .boundary s.generation ∧
        timer.due = run.cycleStart + 1.0 / s.rate + 1.0 / rate
  unplanned : ∀ cause, s.performance.query run.pattern (run.cycleIndex + 1) none = .error cause →
    t.items = s.items ∧ t.tasks = s.tasks

/-- A boundary begins the next cycle at the rate that waits, or at the present one
if none does.  Whether the cycle can be planned decides what is put on the clock. -/
theorem begins_passBoundary {run : Run} (hrun : s.run = some run) :
    Begins s run (s.pendingRate.getD s.rate) ((passBoundary s.generation).after s) := by
  cases hplan : s.performance.plan run.pattern (run.cycleIndex + 1) (run.cycleStart + 1.0 / s.rate)
      (s.pendingRate.getD s.rate) none with
  | error cause =>
      have hafter := passBoundary_error hrun hplan
      refine ⟨hafter.rate, hafter.pendingRate, ⟨run.pending, hafter.run⟩, fun events hevents => ?_,
        fun _ _ => ⟨hafter.items, ?_⟩⟩
      · rw [Performance.plan_eq_error_iff.mp hplan] at hevents
        nomatch hevents
      · unfold tasks
        rw [hafter.clock]
        rfl
  | ok bookings =>
      have hafter := passBoundary_ok hrun hplan
      obtain ⟨pending, hpending⟩ := run_bookAll (s := s.turned run) rfl bookings
      obtain ⟨items, hitems, hbookings, hfates⟩ := items_bookAll (s.turned run) bookings
      have hbooked := sameCourse_bookAll (s.turned run) bookings
      have harmed := sameCourse_armed ((s.turned run).bookAll bookings)
      refine ⟨?_, ?_, ⟨pending, ?_⟩, fun events hevents => ⟨bookings, items, ?_, ?_, hbookings,
        hfates, ⟨((s.turned run).bookAll bookings).clock.timers.length,
          run.cycleStart + 1.0 / s.rate + 1.0 / s.pendingRate.getD s.rate,
          .boundary s.generation, true⟩, ?_, ?_, rfl, rfl⟩, fun cause hcause => ?_⟩
      · rw [hafter.rate, harmed.rate, hbooked.rate]
        rfl
      · rw [hafter.pendingRate, harmed.pendingRate, hbooked.pendingRate]
        rfl
      · rw [hafter.run, run_armed, hpending]
      · obtain ⟨events', hevents', hmapped⟩ := bind_ok hplan
        rw [hevents] at hevents'
        rw [Except.ok.inj hevents']
        exact hmapped
      · rw [hafter.items, items_armed, hitems]
        rfl
      · rw [hafter.clock, armed_of_run hpending, Clock.live_arm, hbooked.rate, hbooked.generation]
        exact List.mem_append_right _ List.mem_cons_self
      · rw [hafter.boundary, armed_of_run hpending]
      · rw [Performance.plan_eq_error_iff.mpr hcause] at hplan
        nomatch hplan

/-- A cycle ends the same way whether the timer for it goes off in turn or out of turn,
but for that timer. -/
theorem next_of_endsCycle {o : Occurrence} (htimed : s.Timed) (ho : o.EndsCycle s) :
    o.next s = (passBoundary s.generation).after s ∨
      ∃ timer, o.next s = (passBoundary s.generation).after (s.expired timer) := by
  obtain ⟨t, ht, htask, ⟨rfl, hwaiting⟩ | rfl⟩ := ho
  · refine .inr ⟨t.id, ?_⟩
    change (ring t.id).after s = _
    rw [ring_of_live htimed (List.mem_filter.mpr ⟨ht, hwaiting⟩), htask]
    rfl
  · left
    change (poke t.id).after s = _
    unfold poke
    rw [after_get_bind, htimed.timer?_eq ht]
    simp only [htask]
    rfl

/-- The end of a cycle is the same but for the timer that went off. -/
theorem begins_next {o : Occurrence} (htimed : s.Timed) (ho : o.EndsCycle s) {run : Run}
    (hrun : s.run = some run) : Begins s run (s.pendingRate.getD s.rate) (o.next s) := by
  rcases next_of_endsCycle htimed ho with hpoke | ⟨timer, hring⟩
  · rw [hpoke]
    exact begins_passBoundary hrun
  · rw [hring]
    obtain ⟨hadopted, hspent, honTime, hplanned, hunplanned⟩ :=
      begins_passBoundary (s := s.expired timer) hrun
    refine ⟨hadopted, hspent, honTime, hplanned, fun cause hcause => ?_⟩
    rw [tasks_expired] at hunplanned
    exact hunplanned cause hcause

/-! ## The end of the playing -/

/-- Where all boundaries are of earlier generations, what goes on ends no
cycle. -/
structure Hushed (s t : Scheduler) : Prop where
  retired : s.Retired → t.Retired
  cycle : s.Retired → t.cycle = s.cycle

/-- What ends no cycle twice ends none. -/
theorem Hushed.trans {u : Scheduler} (h : Hushed s t) (h' : Hushed t u) : Hushed s u where
  retired := fun hs => h'.retired (h.retired hs)
  cycle := fun hs => (h'.cycle (h.retired hs)).trans (h.cycle hs)

/-- A boundary of an earlier generation does nothing, and firing an event ends no
cycle. -/
theorem hushed_perform {task : Task} (htask : task ∈ s.tasks) :
    Hushed s ((perform task).after s) := by
  cases task with
  | fire id =>
      exact ⟨(tracks_calm.fire id s).retired (tracks_steady.fire id s),
        fun _ => (tracks_sameCycle.fire id s).cycle_eq⟩
  | boundary generation =>
      have hsame : s.Retired → (passBoundary generation).after s = s :=
        fun hs => passBoundary_stale (.inr (Nat.ne_of_lt (hs generation htask)))
      refine ⟨fun hs => ?_, fun hs => ?_⟩
      · change ((passBoundary generation).after s).Retired
        rwa [hsame hs]
      · change ((passBoundary generation).after s).cycle = s.cycle
        rw [hsame hs]

/-- So nothing that goes on ends a cycle where all boundaries are of earlier
generations. -/
theorem hushed_next {o : Occurrence} (ho : o.goesOn = true) (s : Scheduler) :
    Hushed s (o.next s) := by
  have hexpired : ∀ (s : Scheduler) id, Hushed s (s.expired id) := by
    refine fun s id => ⟨fun hs g hg => ?_, fun _ => rfl⟩
    rw [tasks_expired] at hg
    exact hs g hg
  refine next_related (R := Hushed) (tracks_calmly.and tracks_sameCycle)
    (fun h => ⟨h.1.1.retired h.1.2, fun _ => h.2.cycle_eq⟩) Hushed.trans
    (fun _ _ => ⟨fun hs => hs, fun _ => rfl⟩) (fun s t ht => ?_) ?_ ?_ fun t ht _ => ?_
  · refine (hexpired s t.id).trans (hushed_perform ?_)
    rw [tasks_expired]
    exact List.mem_map_of_mem (List.mem_of_mem_filter ht)
  · rintro v given rfl
    nomatch ho
  · rintro rfl
    nomatch ho
  · exact hushed_perform (List.mem_map_of_mem ht)

/-- The exchange with others is the same. -/
def SameExchange (x y : Aside) : Prop := x.exchange = y.exchange

theorem keepsRates_sameExchange : KeepsRates SameExchange := fun _ h => h

/-- Where only the rate that waits is another, the exchange is the same. -/
theorem Waits.sameExchange (h : Like (Waits rate rate') s t) : Like SameExchange s t := by
  obtain ⟨x, journal, hx, rfl⟩ := h
  exact ⟨x, journal, hx.exchange, rfl⟩

/-- Where the exchange is the same, no more than the rate that waits is another. -/
theorem waits_of_sameExchange (h : Like SameExchange s t) :
    Like (Waits s.pendingRate t.pendingRate) s t := by
  obtain ⟨x, journal, hx, rfl⟩ := h
  exact ⟨x, journal, ⟨hx, rfl, rfl⟩, rfl⟩

/-- With the same rate waiting, schedulers are the same but for their journals. -/
theorem like_eq (h : Like SameExchange s t) (hrate : s.pendingRate = t.pendingRate) :
    Like Eq s t := by
  obtain ⟨x, journal, hx, rfl⟩ := h
  refine ⟨x, journal, ?_, rfl⟩
  have hexchange : s.exchange = x.exchange := hx
  change s.pendingRate = x.pendingRate at hrate
  unfold aside
  rw [hexchange, hrate]

/-- Schedulers that are the same but for their journals stay so. -/
theorem like_eq_next (o : Occurrence) (h : Like Eq s t) : Like Eq (o.next s) (o.next t) :=
  ((blind_act (fun rate h => by rw [h]) (fun h => by rw [h]) (fun attempt h => by rw [h]) o).on
    h).after

/-- The rates that wait are the same, or neither will ever take effect. -/
structure Forgotten (s t : Scheduler) : Prop where
  same : Like SameExchange s t
  harmless : s.pendingRate = t.pendingRate ∨ s.isRunning = true ∧ s.Retired

/-- After a stop that succeeds no rate waits, so that nothing is left of the
difference. -/
theorem like_eq_stop (hrunning : s.isRunning = true) (hok : stop.outcome s = .ok ())
    (h : Like SameExchange s t) : Like Eq (stop.after s) (stop.after t) := by
  obtain ⟨houtcome, hafter⟩ := (blind_stop (H := SameExchange) keepsRates_sameExchange).on h
  have hrunning' : t.isRunning = true := by
    obtain ⟨x, journal, -, rfl⟩ := h
    exact hrunning
  refine like_eq hafter ?_
  rw [(stopped_of_ok hok).2 hrunning, (stopped_of_ok (houtcome ▸ hok)).2 hrunning']

/-- After any stop the difference is forgotten: no rate waits, or none will ever be
taken up. -/
theorem forgotten_stop (hretired : s.halted.Retired) (hrunning : s.isRunning = true)
    (h : Like SameExchange s t) : Forgotten (stop.after s) (stop.after t) := by
  refine ⟨((blind_stop (H := SameExchange) keepsRates_sameExchange).on h).after, ?_⟩
  cases hok : stop.outcome s with
  | ok _ =>
      obtain ⟨x, journal, hx, ht⟩ := like_eq_stop hrunning hok h
      rw [ht]
      exact .inl (congrArg Aside.pendingRate hx)
  | error e =>
      -- the events were not all cancelled, and no timer of the run can end its cycle
      obtain ⟨hcalm, hsteady⟩ := tracks_calmly.cancelAll s.pendingItems s.halted
      have hleft : stop.after s = (cancelAll s.pendingItems).after s.halted := by
        obtain ⟨hstop, hstopped⟩ := stop_eq hrunning
        rw [hstop] at hok
        rw [hstopped]
        cases hcount : (cancelAll s.pendingItems).outcome s.halted with
        | error e' => exact after_bind_error hcount
        | ok count =>
            unfold endWith at hok
            rw [outcome_bind hcount] at hok
            nomatch hok
      rw [hleft]
      exact .inr ⟨hsteady.running.trans hrunning, hcalm.retired hsteady hretired⟩

/-- Whatever happens to both, it makes no difference later. -/
theorem forgotten_next (o : Occurrence) (h : Forgotten s t) : Forgotten (o.next s) (o.next t) := by
  obtain ⟨hsame, hrate | ⟨hrunning, hretired⟩⟩ := h
  · obtain ⟨x, journal, hx, ht⟩ := like_eq_next o (like_eq hsame hrate)
    refine ⟨⟨x, journal, congrArg Aside.exchange hx, ht⟩, .inl ?_⟩
    rw [ht]
    exact congrArg Aside.pendingRate hx
  · have hgoesOn : o.goesOn = true → Forgotten (o.next s) (o.next t) := by
      intro ho
      obtain ⟨hstill, hcycle⟩ := hushed_next ho s
      refine ⟨?_, .inr ⟨(onward_next ho s).running.trans hrunning, hstill hretired⟩⟩
      cases hset : o.setsRate with
      | false =>
          exact Waits.sameExchange
            (agree_act ho hset (hcycle hretired) (waits_of_sameExchange hsame)).after
      | true =>
          cases o with
          | setRate v =>
              exact ((blind_setRate (H := SameExchange) keepsRates_sameExchange v).on hsame).after
          | _ => nomatch hset
    cases o with
    | start v given =>
        have hrefused : Alike ((start v given).after s) s := start_refused (.inl hrunning)
        have hsteady := hrefused.symm.steady
        exact ⟨((blind_start (H := SameExchange) keepsRates_sameExchange v given).on hsame).after,
          .inr ⟨hsteady.running.trans hrunning,
            (tracks_calm.alike hrefused.symm).retired hsteady hretired⟩⟩
    | stop =>
        refine forgotten_stop (fun g hg => ?_) hrunning hsame
        rw [tasks_halted] at hg
        exact Nat.lt_succ_of_lt (hretired g hg)
    | _ => exact hgoesOn rfl

/-- What is forgotten is forgotten for the rest of the run. -/
theorem forgotten_afterAll (os : List Occurrence) (h : Forgotten s t) :
    Forgotten (afterAll os s) (afterAll os t) := by
  induction os generalizing s t with
  | nil => exact h
  | cons o os ih => exact ih (forgotten_next o h)

/-! ## Latched rates -/

/-- The same scheduler but for the rate that waits for the end of the cycle, and
for what stands in the journal. -/
def SameButWaiting (s t : Scheduler) : Prop :=
  ∃ pendingRate journal, t = { s with pendingRate := pendingRate, journal := journal }

/-- Schedulers with the same exchange differ in the rate that waits and the journal
at most. -/
theorem sameButWaiting_of_like (h : Like SameExchange s t) : SameButWaiting s t := by
  obtain ⟨x, journal, hx, rfl⟩ := h
  refine ⟨x.pendingRate, journal, ?_⟩
  have hexchange : s.exchange = x.exchange := hx
  unfold beside
  rw [← hexchange]
  rfl

/-- Schedulers that have everything aside in common differ in the journal at most. -/
theorem eq_of_like_eq (h : Like Eq s t) : ∃ journal, t = { s with journal := journal } := by
  obtain ⟨x, journal, rfl, rfl⟩ := h
  exact ⟨journal, rfl⟩

/-- Schedulers that are the same but for their journals stay so through any run. -/
theorem like_eq_afterAll (os : List Occurrence) (h : Like Eq s t) :
    Like Eq (afterAll os s) (afterAll os t) := by
  induction os generalizing s t with
  | nil => exact h
  | cons o os ih => exact ih (like_eq_next o h)

/-- Whether a cycle ends, and what begins then, does not depend on the rate that
waits, except for the rate of what begins. -/
theorem endsCycle_like {H : Aside → Aside → Prop} (h : Like H s t) {o : Occurrence}
    (ho : o.EndsCycle s) : o.EndsCycle t := by
  obtain ⟨x, journal, -, rfl⟩ := h
  exact ho

/-- What begins after one of two like schedulers begins after the other. -/
theorem Begins.like {H : Aside → Aside → Prop} (h : Like H s t) {run : Run} {begun : Float}
    {u : Scheduler} (ht : Begins t run begun u) : Begins s run begun u := by
  obtain ⟨x, journal, -, rfl⟩ := h
  exact ⟨ht.adopted, ht.spent, ht.onTime, ht.planned, ht.unplanned⟩

/-- After any part of a run within a cycle it is still that cycle. -/
theorem cycle_take {os : List Occurrence} (hos : ∀ o ∈ os, o.goesOn = true)
    (hcycle : (afterAll os s).cycle = s.cycle) (n : Nat) :
    (afterAll (os.take n) s).cycle = s.cycle := by
  have htake : Onward s (afterAll (os.take n) s) :=
    onward_afterAll (fun o ho => hos o (List.mem_of_mem_take ho)) s
  have hdrop : Onward (afterAll (os.take n) s) (afterAll (os.drop n) (afterAll (os.take n) s)) :=
    onward_afterAll (fun o ho => hos o (List.mem_of_mem_drop ho)) _
  rw [← afterAll_append, List.take_append_drop] at hdrop
  exact (cycle_between htake hdrop hcycle).1

/-- **Rates are latched.**  Within a cycle, what is done besides the setting of
rates comes to the same as if no rate had been set, and leaves the same behind
but for the rate that waits: events, timers, and all that is heard.  The timer
that ends the cycle begins the next one at the same time in either case, at the
last rate that was set.  If the playing is stopped before, the rates are
forgotten: all is the same ever after. -/
theorem rates_latched (perf : Performance) (policy : Policy) (sounder : Sounder)
    (listener : Option Listener) (rate now : Float) (past during : List Occurrence)
    {s told untold : Scheduler} {last : Float}
    (hs : afterAll past (initial perf policy sounder listener rate now) = s)
    (hrunning : s.isRunning = true) (hduring : ∀ o ∈ during, o.goesOn = true)
    (hlast : (during.flatMap Occurrence.rates).getLast? = some last)
    (htold : afterAll during s = told)
    (huntold : afterAll (during.filter (!·.setsRate)) s = untold)
    (hcycle : told.cycle = s.cycle) :
    (∀ n, let others := (during.take n).filter (!·.setsRate)
      SameButWaiting (afterAll (during.take n) s) (afterAll others s) ∧
        ∀ o, during[n]? = some o → o.setsRate = false →
          o.act.outcome (afterAll (during.take n) s) = o.act.outcome (afterAll others s)) ∧
      told.pendingRate = some last ∧ untold.pendingRate = s.pendingRate ∧
      (∀ o : Occurrence, o.EndsCycle told → o.EndsCycle untold ∧ ∃ run, told.run = some run ∧
        Begins told run last (o.next told) ∧
        Begins told run (s.pendingRate.getD told.rate) (o.next untold)) ∧
      stop.outcome told = stop.outcome untold ∧
      ∀ later, SameButWaiting (afterAll (.stop :: later) told) (afterAll (.stop :: later) untold) ∧
        (stop.outcome told = .ok () → ∃ journal, afterAll (.stop :: later) untold =
          { afterAll (.stop :: later) told with journal := journal }) := by
  have hfirst : Like (Waits s.pendingRate s.pendingRate) s s :=
    ⟨s.aside, s.journal, ⟨rfl, rfl, rfl⟩, rfl⟩
  have hlatch := fun n => latched_afterAll (fun o ho => hduring o (List.mem_of_mem_take ho))
    hrunning (cycle_take hduring (htold.symm ▸ hcycle) n) hfirst
  have hwaits : Like (Waits (some last) s.pendingRate) told untold := by
    have hlatched := latched_afterAll hduring hrunning (htold.symm ▸ hcycle) hfirst
    rwa [hlast, htold, huntold] at hlatched
  obtain ⟨hpending, hpending', hrate, hrun⟩ : told.pendingRate = some last ∧
      untold.pendingRate = s.pendingRate ∧ untold.rate = told.rate ∧ untold.run = told.run := by
    obtain ⟨x, journal, hx, rfl⟩ := hwaits
    exact ⟨hx.first, hx.second, rfl, rfl⟩
  have hstill : told.isRunning = true := by
    rw [← htold]
    exact (onward_afterAll hduring s).running.trans hrunning
  have htimed : told.Timed ∧ untold.Timed := by
    rw [← htold, ← huntold, ← hs, ← afterAll_append, ← afterAll_append]
    exact ⟨timed_afterAll .., timed_afterAll ..⟩
  have hsame : Like SameExchange told untold := Waits.sameExchange hwaits
  refine ⟨fun n => ⟨sameButWaiting_of_like (Waits.sameExchange (hlatch n)), fun o ho hset => ?_⟩,
    hpending, hpending', fun o ho => ⟨endsCycle_like hwaits ho, ?_⟩,
    ((blind_stop (H := SameExchange) keepsRates_sameExchange).on hsame).outcome, fun later => ?_⟩
  · -- nor did the next occurrence end the cycle
    have hnext : (o.next (afterAll (during.take n) s)).cycle =
        (afterAll (during.take n) s).cycle := by
      have hcycles := cycle_take hduring (htold.symm ▸ hcycle)
      have htaken : during.take (n + 1) = during.take n ++ [o] := by
        rw [List.take_add_one, ho]
        rfl
      have hthis := hcycles (n + 1)
      rw [htaken, afterAll_append] at hthis
      exact hthis.trans (hcycles n).symm
    exact (agree_act (hduring o (List.mem_of_getElem? ho)) hset hnext (hlatch n)).outcome
  · obtain ⟨run, hplays⟩ := Option.isSome_iff_exists.mp hstill
    have hbegins := begins_next htimed.1 ho hplays
    have hbegins' := begins_next htimed.2 (endsCycle_like hwaits ho) (hrun.trans hplays)
    rw [hpending] at hbegins
    rw [hpending', hrate] at hbegins'
    exact ⟨run, hplays, hbegins, hbegins'.like hwaits⟩
  · refine ⟨sameButWaiting_of_like ?_, fun hok => ?_⟩
    · exact (forgotten_afterAll later
        (forgotten_stop (retired_halted htimed.1) hstill hsame)).same
    · exact eq_of_like_eq (like_eq_afterAll later (like_eq_stop hstill hok hsame))

/-- Two notes at one cycle per second.  While they are played, a rate is set,
the first is sounded, the second is replaced, and another rate is set: the next
cycle begins after one second and takes a quarter of one. -/
theorem rates_latched_notes :
    let notes := Pattern.sequence [.leaf (.text "a"), .leaf (.text "b")]
    let s := afterAll [.start (.pattern notes) none]
      (initial .default Policy.roundRobin ⟨none, fun _ _ => .sounded⟩ none 1.0 0.0)
    let during := [.setRate (.number (.float 2.0)), .ring 0, .replace (.text "c d"),
      .setRate (.number (.float 4.0))]
    let told := afterAll during s
    let untold := afterAll [.ring 0, .replace (.text "c d")] s
    s.isRunning = true ∧ told.cycle = s.cycle ∧ told.trace.attempts.length = 1 ∧
      SameButWaiting told untold ∧ (Occurrence.ring 2).EndsCycle told ∧
      ((Occurrence.ring 2).next told).rate = 4.0 ∧
      ((Occurrence.ring 2).next untold).rate = 1.0 := by
  intro notes s during told untold
  have hrunning : s.isRunning = true := by decide +kernel
  have hcycle : told.cycle = s.cycle := by decide +kernel
  have hduring : ∀ o ∈ during, o.goesOn = true := by decide
  have hlast : (during.flatMap Occurrence.rates).getLast? = some 4.0 := by rfl
  have htold : afterAll during s = told := rfl
  have huntold : afterAll (during.filter (!·.setsRate)) s = untold := rfl
  have hattempts : told.trace.attempts.length = 1 := by decide +kernel
  have hends : (Occurrence.ring 2).EndsCycle told := by
    have htimer : told.clock.timers[2]?.map (fun t => (t.id, t.task, t.waiting)) =
        some (2, .boundary told.generation, true) := by decide +kernel
    obtain ⟨t, ht, hfields⟩ := Option.map_eq_some_iff.mp htimer
    simp only [Prod.mk.injEq] at hfields
    exact ⟨t, List.mem_of_getElem? ht, hfields.2.1, .inl ⟨by rw [hfields.1], hfields.2.2⟩⟩
  obtain ⟨hsame, -, -, hboundary, -, -⟩ := rates_latched .default Policy.roundRobin
    ⟨none, fun _ _ => .sounded⟩ none 1.0 0.0 [.start (.pattern notes) none] during (s := s) rfl
    hrunning hduring hlast htold huntold hcycle
  obtain ⟨-, run, -, hbegins, hbegins'⟩ := hboundary _ hends
  have hkept : s.pendingRate.getD told.rate = 1.0 := by decide +kernel
  exact ⟨hrunning, hcycle, hattempts, (hsame 4).1, hends, hbegins.adopted,
    hbegins'.adopted.trans hkept⟩

end Scheduler

end Ostinato
