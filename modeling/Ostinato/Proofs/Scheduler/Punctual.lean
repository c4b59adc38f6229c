import Ostinato.Proofs.Number.Monotone
import Ostinato.Proofs.Scheduler.Present
import Ostinato.Proofs.Scheduler.Waiting

/-!
# Ostinato.Proofs.Scheduler.Punctual

Cycles that are over when the next one begins.

The events of a cycle are booked for times up to its end, which doubles do not
put in another order (`Double.add_div_le`).  So while the clock only moves
forward, by advancing, no pending event but those of the present cycle is booked
for a time that is still to come (`Punctual`).  As late events are fired before
anything else happens, all that is pending when no timer is due is of the present
cycle (`cycle_of_pending`).
-/

namespace Ostinato

/-! ## Times of a cycle -/

/-- A cycle with its beginning and its rate, at a time. -/
structure Beat where
  now : Float
  cycle : Int
  start : Float
  rate : Float

namespace Beat

/-- The time at which the cycle ends. -/
def stop (beat : Beat) : Float := beat.start + 1.0 / beat.rate

/-- Whether a time is one of the cycle: it begins there at some place from zero to
one. -/
def Within (beat : Beat) (time : Float) : Prop :=
  ∃ x, (Double.unpacked x).isFinite = true ∧ 0.0 ≤ x ∧ x ≤ 1.0 ∧ time = beat.start + x / beat.rate

/-- Whether an event is booked for a time that has come, or for one of the
cycle. -/
def Timely (beat : Beat) (b : Booking) : Prop :=
  b.fireTime ≤ beat.now ∨ b.cycle = beat.cycle ∧ beat.Within b.fireTime

variable {beat : Beat} {b : Booking}

/-- Once a cycle has ended, so have its events come. -/
theorem Timely.over (h : beat.Timely b) (hrate : 0.0 < beat.rate) (hend : beat.stop ≤ beat.now) :
    b.fireTime ≤ beat.now := by
  rcases h with hcome | ⟨-, x, hfinite, hpos, hone, htime⟩
  · exact hcome
  · rw [htime]
    exact Double.add_div_le hfinite hpos hone hrate hend

/-- Later, a booking is still timely. -/
theorem Timely.later (h : beat.Timely b) {time : Float} (hlater : beat.now ≤ time) :
    { beat with now := time }.Timely b :=
  h.imp (fun hcome => Double.le_trans hcome hlater) id

/-- What is planned for a cycle is booked for times of it. -/
theorem timely_of_plan {perf : Performance} {p : Pattern} {after : Option Rat}
    {bookings : List Booking}
    (h : perf.plan p beat.cycle beat.start beat.rate after = .ok bookings) :
    ∀ b ∈ bookings, beat.Timely b := by
  intro b hb
  obtain ⟨events, hevents, hbooked⟩ := Performance.exists_of_plan h
  obtain ⟨e, he, hof⟩ := hbooked b hb
  obtain ⟨hcut, hpos, hle⟩ := perf.laid_query hevents e he
  have hone : e.active.start ≤ 1 := le_trans (le_of_lt hcut.pos) hle
  refine .inr ⟨(Booking.event_of hof).2, ?_⟩
  obtain ⟨start, hstart, hrest⟩ := bind_ok hof
  obtain ⟨length, -, hb⟩ := bind_ok hrest
  unfold Number.toFloat at hstart
  cases hfound : Double.ofRat? e.active.start with
  | none => simp only [hfound] at hstart; nomatch hstart
  | some x =>
      simp only [hfound, Except.ok.injEq] at hstart
      obtain ⟨hfinite, hzero, hunit⟩ := Double.ofRat?_le_one hpos hone hfound
      rw [← Except.ok.inj hb, ← hstart]
      exact ⟨x, hfinite, hzero, hunit, rfl⟩

end Beat

/-! ## The clock -/

namespace Clock

variable {α : Type}

/-- A clock that is moved stays where it is, or goes on to the time. -/
theorem now_moveTo (c : Clock α) (time : Float) :
    (c.moveTo time).now = c.now ∨ c.now ≤ time ∧ (c.moveTo time).now = time := by
  unfold moveTo
  by_cases hlt : c.now < time
  · rw [if_pos hlt]
    exact .inr ⟨Double.le_of_lt hlt, rfl⟩
  · rw [if_neg hlt]
    exact .inl rfl

/-- A clock that is moved to a time has reached it. -/
theorem le_moveTo (c : Clock α) {time : Float} (htime : time ≤ time)
    (h : (c.moveTo time).now ≤ (c.moveTo time).now) : time ≤ (c.moveTo time).now := by
  unfold moveTo at h ⊢
  by_cases hlt : c.now < time
  · rw [if_pos hlt]
    exact htime
  · rw [if_neg hlt] at h ⊢
    exact Double.le_of_not_lt h htime hlt

/-- The next timer is due. -/
theorem due_of_next? {c : Clock α} {limit : Float} {t : Timer α} (h : c.next? limit = some t) :
    t.due ≤ limit := by
  unfold next? at h
  cases hdue : c.live.filter (·.due ≤ limit) with
  | nil => rw [hdue] at h; nomatch h
  | cons u us =>
      rw [hdue] at h
      have hmem : t ∈ c.live.filter (·.due ≤ limit) := by
        rw [hdue, ← Option.some.inj h]
        exact Scheduler.foldl_earlier_mem u us
      exact of_decide_eq_true (List.mem_filter.mp hmem).2

end Clock

/-- Whether an occurrence moves the clock by advancing, if it does. -/
def Occurrence.isForward : Occurrence → Bool
  | jump _ | ring _ | poke _ => false
  | _ => true

namespace Scheduler

open Scheduling

/-! ## The present cycle -/

/-- The cycle that is being played, at the present time. -/
def beat? (s : Scheduler) : Option Beat :=
  s.run.map fun run => ⟨s.clock.now, run.cycleIndex, run.cycleStart, s.rate⟩

/-- While something plays, its cycle is at the present time. -/
theorem beat_of_run {s : Scheduler} {run : Run} (hrun : s.run = some run) :
    s.beat? = some ⟨s.clock.now, run.cycleIndex, run.cycleStart, s.rate⟩ := by
  unfold beat?
  rw [hrun]
  rfl

/-- Schedulers that play alike are at the same place of the same cycle. -/
theorem Alike.beat {s t : Scheduler} (h : Alike t s) : t.beat? = s.beat? := by
  unfold beat?
  rw [h.run, h.clock, h.rate]

/-- The fate of an event does not move the cycle. -/
theorem beat_settle (s : Scheduler) (id : Nat) (fate : Fate) :
    (s.settle id fate).beat? = s.beat? := by
  unfold beat? settle
  rw [Option.map_map]
  rfl

/-- Nor do withdrawn events. -/
theorem beat_withdraw (s : Scheduler) (items : List Scheduled) :
    (s.withdraw items).beat? = s.beat? := by
  induction items generalizing s with
  | nil => rfl
  | cons item items ih => exact (ih (s.cancelled item)).trans (beat_settle s item.id .cancelled)

/-- Nor does another pattern. -/
theorem beat_swapped (s : Scheduler) (node : Pattern) : (s.swapped node).beat? = s.beat? := by
  unfold beat? swapped
  rw [Option.map_map]
  rfl

/-- Nor do bookings. -/
theorem beat_bookAll (s : Scheduler) (bookings : List Booking) :
    (s.bookAll bookings).beat? = s.beat? := by
  induction bookings generalizing s with
  | nil => rfl
  | cons b bookings ih =>
      refine (ih (s.book b)).trans ?_
      unfold beat? book
      rw [Option.map_map]
      rfl

/-- Nor does the timer for its end. -/
theorem beat_armed (s : Scheduler) : s.armed.beat? = s.beat? := by
  unfold armed
  cases hrun : s.run with
  | none => rfl
  | some run =>
      unfold beat?
      simp only [hrun]
      rfl

/-- What is pending is booked for a time that has come, or for one of the present
cycle, and what is awaited is the end of that.  The rates are positive, and the
clock reads a number if it did when the cycle began. -/
structure Punctual (s : Scheduler) : Prop where
  rate : 0.0 < s.rate
  pendingRate : ∀ rate, s.pendingRate = some rate → 0.0 < rate
  started : ∀ beat, s.beat? = some beat → beat.start ≤ beat.start → beat.now ≤ beat.now
  ends : ∀ beat, s.beat? = some beat → ∀ t ∈ s.awaited, t.due = beat.stop
  events : ∀ beat, s.beat? = some beat → PendingIn beat.Timely s.items

/-! ## Single changes -/

/-- Changes that leave the cycle and its end as they are, and make no events. -/
theorem punctual_of_same {s t : Scheduler} (h : s.Punctual) (hbeat : t.beat? = s.beat?)
    (hrate : t.rate = s.rate) (hpendingRate : t.pendingRate = s.pendingRate)
    (hawaited : ∀ u ∈ t.awaited, u ∈ s.awaited)
    (hitems : ∀ P, PendingIn P s.items → PendingIn P t.items) : t.Punctual where
  rate := hrate ▸ h.rate
  pendingRate := hpendingRate ▸ h.pendingRate
  started := hbeat ▸ h.started
  ends := fun beat hsome u hu => h.ends beat (hbeat ▸ hsome) u (hawaited u hu)
  events := fun beat hsome => hitems _ (h.events beat (hbeat ▸ hsome))

/-- Schedulers that play alike are punctual alike. -/
theorem Alike.punctual {s t : Scheduler} (h : Alike t s) (hs : s.Punctual) : t.Punctual := by
  refine punctual_of_same hs h.beat h.rate h.pendingRate ?_ fun P => ?_
  · rw [awaited_of_timers (congrArg Clock.timers h.clock)]
    exact fun _ hu => hu
  · rw [h.items]
    exact id

/-- While nothing plays, only rates matter. -/
theorem punctual_of_stopped {s : Scheduler} (hrun : s.run = none) (hrate : 0.0 < s.rate)
    (hpendingRate : ∀ rate, s.pendingRate = some rate → 0.0 < rate) : s.Punctual := by
  have hnone : s.beat? = none := by
    unfold beat?
    rw [hrun]
    rfl
  refine ⟨hrate, hpendingRate, ?_, ?_, ?_⟩ <;> rw [hnone] <;> exact nofun

/-- A timer that stops waiting is awaited no more. -/
theorem punctual_expired {s : Scheduler} (h : s.Punctual) (id : Nat) : (s.expired id).Punctual :=
  punctual_of_same h rfl rfl rfl (steady_expired s id).awaited fun _ hP => hP

/-- Withdrawing leaves fewer events pending, and nothing else awaited. -/
theorem punctual_withdraw {s : Scheduler} (h : s.Punctual) (items : List Scheduled) :
    (s.withdraw items).Punctual := by
  refine punctual_of_same h (beat_withdraw s items) ?_ ?_ (steady_withdraw s items).awaited
    fun P hP => hP.withdraw items
  · rw [withdraw_eq]
  · rw [withdraw_eq]

/-- Another pattern is played at the same rates in the same cycle. -/
theorem punctual_swapped {s : Scheduler} (h : s.Punctual) (node : Pattern) :
    (s.swapped node).Punctual :=
  punctual_of_same h (beat_swapped s node) rfl rfl (fun _ hu => hu) fun _ => id

/-- A scheduler of a later generation awaits no end. -/
theorem punctual_halted {s : Scheduler} (hsole : s.Sole) (h : s.Punctual) : s.halted.Punctual := by
  have hbeat : s.halted.beat? = s.beat? := by
    unfold halted
    cases s.boundary <;> rfl
  refine punctual_of_same h hbeat rfl rfl ?_ fun _ => id
  rw [hsole.awaited_halted]
  exact fun _ hu => absurd hu List.not_mem_nil

/-- Events of the present cycle are booked. -/
theorem punctual_bookAll {s : Scheduler} (h : s.Punctual) {run : Run} (hrun : s.run = some run)
    {perf : Performance} {p : Pattern} {after : Option Rat} {bookings : List Booking}
    (hplan : perf.plan p run.cycleIndex run.cycleStart s.rate after = .ok bookings) :
    (s.bookAll bookings).Punctual := by
  have hsame := sameCourse_bookAll s bookings
  have hbeat := beat_bookAll s bookings
  exact {
    rate := hsame.rate ▸ h.rate
    pendingRate := hsame.pendingRate ▸ h.pendingRate
    started := hbeat ▸ h.started
    ends := by
      rw [hbeat, awaited_bookAll]
      exact h.ends
    events := by
      intro beat hsome
      rw [hbeat] at hsome
      refine (h.events beat hsome).bookAll ?_
      rw [beat_of_run hrun, Option.some_inj] at hsome
      rw [← hsome]
      exact Beat.timely_of_plan hplan }

/-- The end of the present cycle is awaited, and no other. -/
theorem punctual_armed {s : Scheduler} (h : s.Punctual) (hnone : s.awaited = []) :
    s.armed.Punctual := by
  have hsame := sameCourse_armed s
  have hbeat := beat_armed s
  exact {
    rate := hsame.rate ▸ h.rate
    pendingRate := hsame.pendingRate ▸ h.pendingRate
    started := hbeat ▸ h.started
    ends := by
      intro beat hsome t ht
      rw [hbeat] at hsome
      obtain ⟨run, hrun, rfl⟩ := Option.map_eq_some_iff.mp hsome
      rw [awaited_armed hrun, hnone, List.nil_append, List.mem_singleton] at ht
      rw [ht]
      rfl
    events := by
      rw [hbeat, items_armed]
      exact h.events }

/-- The clock moves on. -/
theorem punctual_atTime {s : Scheduler} (h : s.Punctual) {time : Float}
    (hlater : s.clock.now ≤ time) : (s.atTime time).Punctual := by
  have hbeat : (s.atTime time).beat? = s.beat?.map fun beat => { beat with now := time } := by
    unfold beat?
    rw [Option.map_map]
    rfl
  refine ⟨h.rate, h.pendingRate, ?_, ?_, ?_⟩ <;> intro beat hsome <;> rw [hbeat] at hsome <;>
    obtain ⟨before, hbefore, rfl⟩ := Option.map_eq_some_iff.mp hsome
  · exact fun _ => (Double.le_self_of_le hlater).2
  · exact h.ends before hbefore
  · refine (h.events before hbefore).imp fun b hb => hb.later ?_
    obtain ⟨run, -, rfl⟩ := Option.map_eq_some_iff.mp hbefore
    exact hlater

/-- A clock that is moved goes on, if it moves at all. -/
theorem punctual_moveTo {s : Scheduler} (h : s.Punctual) (time : Float) :
    (s.atTime (s.clock.moveTo time).now).Punctual := by
  rcases s.clock.now_moveTo time with hsame | ⟨hlater, hmoved⟩
  · rw [hsame]
    exact punctual_of_same h rfl rfl rfl (fun _ hu => hu) fun _ => id
  · rw [hmoved]
    exact punctual_atTime h hlater

/-! ## Commands and timers -/

/-- Rates that are accepted are positive. -/
theorem pos_of_checkRate {v : Value} {rate : Float} (h : checkRate v = .ok rate) : 0.0 < rate := by
  obtain ⟨x, -, hrest⟩ := bind_ok h
  by_cases hpos : 0.0 < x
  · rw [if_pos hpos] at hrest
    rwa [← Except.ok.inj hrest]
  · rw [if_neg hpos] at hrest
    nomatch hrest

/-- Whether a rate is given and accepted or not, the one that is played is positive. -/
theorem pos_of_mapM {given : Option Value} {accepted : Option Float}
    (haccepted : given.mapM checkRate = .ok accepted) {rate : Float} (hrate : 0.0 < rate) :
    0.0 < accepted.getD rate := by
  cases given with
  | none =>
      rw [← show none = accepted from Except.ok.inj haccepted]
      exact hrate
  | some v =>
      obtain ⟨x, hx, hsome⟩ := bind_ok haccepted
      rw [← show some x = accepted from Except.ok.inj hsome]
      exact pos_of_checkRate hx

/-- A fired event is pending no more, whether it was sounded or given up. -/
theorem punctual_fire {s : Scheduler} (h : s.Punctual) (id : Nat) :
    ((fire id).after s).Punctual := by
  have hsettled : (s.settle id .sounded).Punctual :=
    punctual_of_same h (beat_settle s id .sounded) rfl rfl (fun _ hu => hu) fun _ hP =>
      hP.fated id nofun
  cases hopen : s.isOpen id with
  | false =>
      rw [fire_closed hopen]
      exact h
  | true =>
      obtain ⟨item, hitem, hfate⟩ := isOpen_eq_true.mp hopen
      cases hwritable : item.event.value.isWritable with
      | true =>
          refine (fire_writable hitem hfate hwritable).punctual ?_
          exact punctual_of_same hsettled rfl rfl rfl (fun _ hu => hu) fun _ hP => hP
      | false =>
          rw [fire_unwritable hitem hfate hwritable]
          exact hsettled

/-- When a cycle has ended, its events have come and the next one begins. -/
theorem punctual_turned {s : Scheduler} (h : s.Punctual) {run : Run} (hrun : s.run = some run)
    (hnone : s.awaited = []) (hend : run.cycleStart + 1.0 / s.rate ≤ s.clock.now) :
    (s.turned run).Punctual := by
  have hbeat : (s.turned run).beat? = some ⟨s.clock.now, run.cycleIndex + 1,
      run.cycleStart + 1.0 / s.rate, s.pendingRate.getD s.rate⟩ := rfl
  refine ⟨?_, nofun, ?_, ?_, ?_⟩
  · change 0.0 < s.pendingRate.getD s.rate
    cases hpending : s.pendingRate with
    | none => exact h.rate
    | some rate => exact h.pendingRate rate hpending
  · rintro beat hsome -
    rw [hbeat, Option.some_inj] at hsome
    rw [← hsome]
    exact (Double.le_self_of_le hend).2
  · intro beat _ t ht
    change t ∈ s.awaited at ht
    rw [hnone] at ht
    exact absurd ht List.not_mem_nil
  · intro beat hsome
    rw [hbeat, Option.some_inj] at hsome
    rw [← hsome]
    refine (h.events _ (beat_of_run hrun)).imp fun b hb => .inl ?_
    exact hb.over h.rate hend

/-- A timer that waits goes off at the time at which it is due. -/
theorem punctual_rung {s : Scheduler} (hintact : s.Intact) (h : s.Punctual) {t : Timer Task}
    (ht : t ∈ s.clock.live) (hnumber : t.due ≤ t.due)
    (hdue : s.clock.now ≤ s.clock.now → t.due ≤ s.clock.now) :
    ((perform t.task).after (s.expired t.id)).Punctual := by
  have hexpired := punctual_expired h t.id
  cases htask : t.task with
  | fire id => exact punctual_fire hexpired id
  | boundary generation =>
      change ((passBoundary generation).after (s.expired t.id)).Punctual
      by_cases hstale : s.run = none ∨ generation ≠ s.generation
      · rw [passBoundary_stale (s := s.expired t.id) hstale]
        exact hexpired
      · rw [not_or, not_not] at hstale
        obtain ⟨run, hrun⟩ := Option.ne_none_iff_exists'.mp hstale.1
        have hawaited : t ∈ s.awaited := List.mem_filter.mpr ⟨ht, by simp [Timer.isBoundary, htask]⟩
        have hnone := hintact.sole.awaited_expired hawaited
        have hend : t.due = run.cycleStart + 1.0 / s.rate :=
          h.ends _ (beat_of_run hrun) t hawaited
        rw [hend] at hnumber hdue
        have hnow := h.started _ (beat_of_run hrun) (Double.le_self_of_add_le hnumber)
        have hturned : ((s.expired t.id).turned run).Punctual :=
          punctual_turned hexpired hrun hnone (hdue hnow)
        rw [hstale.2]
        rcases hplan : s.performance.plan run.pattern (run.cycleIndex + 1)
            (run.cycleStart + 1.0 / s.rate) (s.pendingRate.getD s.rate) none with
          cause | bookings
        · exact (passBoundary_error (s := s.expired t.id) hrun hplan).punctual hturned
        · refine (passBoundary_ok (s := s.expired t.id) hrun hplan).punctual
            (punctual_armed ?_ ?_)
          · exact punctual_bookAll hturned rfl hplan
          · rw [awaited_bookAll]
            exact hnone

/-- A start books the events of a cycle that begins now.  An intact scheduler that
is stopped awaits no end and has nothing pending, so there is nothing of an earlier
run to be in time. -/
theorem punctual_start {s : Scheduler} (hintact : s.Intact) (h : s.Punctual) (v : Value)
    (given : Option Value) : ((start v given).after s).Punctual := by
  by_cases hrefused : s.isRunning = true ∨ (∃ e, (coerce v).outcome s = .error e) ∨
      ∃ cause, given.mapM checkRate = .error cause
  · exact (start_refused hrefused).punctual h
  · obtain ⟨hstopped, node, rate, hnode, hrate⟩ := readable_of_not_refused hrefused
    obtain ⟨heard, hbooks⟩ := hintact.balanced
    have hnone := hintact.sole.stopped hstopped
    have hpos := pos_of_mapM hrate h.rate
    have hbegun : (s.begun node rate).Punctual := by
      have hbeat : (s.begun node rate).beat? =
          some ⟨s.clock.now, 0, s.clock.now, rate.getD s.rate⟩ := rfl
      refine ⟨hpos, nofun, ?_, ?_, ?_⟩
      · intro beat hsome hstart
        rw [hbeat, Option.some_inj] at hsome
        rw [← hsome] at hstart ⊢
        exact hstart
      · intro beat _ t ht
        change t ∈ s.awaited at ht
        rw [hnone] at ht
        exact absurd ht List.not_mem_nil
      · exact fun beat _ => pendingIn_of_stopped hbooks hstopped _
    cases hplan : s.performance.plan node 0 s.clock.now (rate.getD s.rate) none with
    | error cause => exact (start_error hstopped hnode hrate hplan).punctual hbegun
    | ok bookings =>
        refine (start_ok hstopped hnode hrate hplan).punctual (punctual_armed ?_ ?_)
        · exact punctual_bookAll hbegun rfl hplan
        · rw [awaited_bookAll]
          exact hnone

/-- After a stop that succeeds only rates matter; one that fails has withdrawn some
events and awaits no end. -/
theorem punctual_stop {s : Scheduler} (hintact : s.Intact) (h : s.Punctual) :
    (stop.after s).Punctual := by
  obtain ⟨heard, hbooks⟩ := hintact.balanced
  have hhalted := punctual_halted hintact.sole h
  cases hrunning : s.isRunning with
  | false =>
      rw [stop_of_stopped hrunning]
      exact h
  | true =>
      rcases after_stop hbooks hrunning with ⟨-, halike⟩ | ⟨-, first, -, halike⟩
      · refine halike.punctual (punctual_of_stopped rfl ?_ nofun)
        exact (punctual_withdraw hhalted s.pendingItems).rate
      · exact halike.punctual (punctual_withdraw hhalted first)

/-- A replacement books events of the cycle that is being played, after it withdrew
those ahead. -/
theorem punctual_replace {s : Scheduler} (hintact : s.Intact) (h : s.Punctual) (v : Value) :
    ((replace v).after s).Punctual := by
  obtain ⟨heard, hbooks⟩ := hintact.balanced
  by_cases hrefused : s.isRunning = false ∨ (∃ e, (coerce v).outcome s = .error e) ∨
      ∃ run cause, s.run = some run ∧ s.elapsed run = .error cause
  · exact (replace_refused hrefused).punctual h
  · obtain ⟨run, node, place, hrun, hnode, hplace⟩ := accepted_of_not_refused hrefused
    have hwithdrawn := punctual_withdraw h (s.ahead run place)
    have hswapped := punctual_swapped hwithdrawn node
    rcases after_replace hbooks hrun hnode hplace with
      ⟨-, first, -, -, -, halike⟩ | ⟨-, ⟨cause, -, -, halike⟩ | ⟨bookings, hplan, halike⟩⟩
    · exact halike.punctual (punctual_withdraw h first)
    · exact halike.punctual hswapped
    · have hrate : ((s.withdraw (s.ahead run place)).swapped node).rate = s.rate := by
        change (s.withdraw (s.ahead run place)).rate = s.rate
        rw [withdraw_eq]
      rw [← hrate] at hplan
      exact halike.punctual (punctual_bookAll hswapped (run_swapped hrun _ node) hplan)

/-- An accepted rate is positive, and waits while something plays. -/
theorem punctual_setRate {s : Scheduler} (h : s.Punctual) (v : Value) :
    ((setRate v).after s).Punctual := by
  cases hrate : checkRate v with
  | error cause =>
      rw [setRate_error hrate]
      exact h
  | ok rate =>
      have hpos := pos_of_checkRate hrate
      cases hrunning : s.isRunning with
      | true =>
          refine (alike_setRate hrunning hrate).punctual
            ⟨h.rate, fun rate' hsome => ?_, h.started, h.ends, h.events⟩
          rwa [← Option.some.inj hsome]
      | false =>
          rw [setRate_of_stopped hrunning hrate]
          refine punctual_of_stopped ?_ hpos h.pendingRate
          unfold isRunning at hrunning
          rwa [Option.isSome_eq_false_iff, Option.isNone_iff_eq_none] at hrunning

/-! ## Runs -/

/-- A scheduler of which no timer went off but in turn, at the time at which it was
due. -/
structure InTime (s : Scheduler) : Prop where
  intact : s.Intact
  waiting : s.Waiting
  punctual : s.Punctual

/-- Time passes, and a timer that is due goes off. -/
theorem inTime_rung {s : Scheduler} (h : s.InTime) {time : Float} {t : Timer Task}
    (hnext : s.clock.next? time = some t) :
    ((perform t.task).after ((s.atTime (s.clock.moveTo t.due).now).expired t.id)).InTime := by
  let moved := s.atTime (s.clock.moveTo t.due).now
  have ht : t ∈ moved.clock.live := live_of_next? hnext
  have hintact : moved.Intact :=
    intact_next (o := .jump (s.clock.moveTo t.due).now) rfl h.intact
  have hring : (Occurrence.ring t.id).next moved = (perform t.task).after (moved.expired t.id) :=
    ring_of_live hintact.timed ht
  have hnumber := (Double.le_self_of_le (Clock.due_of_next? hnext)).1
  exact {
    intact := hring ▸ intact_next (o := .ring t.id) rfl hintact
    waiting := waiting_rung hintact (waiting_of_eq h.waiting rfl rfl rfl) ht
    punctual := punctual_rung hintact (punctual_moveTo h.punctual t.due) ht hnumber
      (s.clock.le_moveTo hnumber) }

/-- Moving the clock forward keeps everything in time.  The induction is on the
number of timers, each of which goes off at its own time. -/
theorem inTime_advanceWithin (limit : Nat) (time : Float) {s : Scheduler} (h : s.InTime) :
    ((advanceWithin limit time).after s).InTime := by
  induction limit generalizing s with
  | zero => exact h
  | succ limit ih =>
      unfold advanceWithin
      rw [after_get_bind]
      cases hnext : s.clock.next? time with
      | none =>
          exact {
            intact := intact_next (o := .jump (s.clock.moveTo time).now) rfl h.intact
            waiting := waiting_of_eq h.waiting rfl rfl rfl
            punctual := punctual_moveTo h.punctual time }
      | some t =>
          rw [after_set_bind]
          let moved := s.atTime (s.clock.moveTo t.due).now
          have hrung := inTime_rung h hnext
          change ((perform t.task >>= fun _ => advanceWithin limit time).after
            (moved.expired t.id)).InTime
          cases houtcome : (perform t.task).outcome (moved.expired t.id) with
          | error e =>
              rw [after_bind_error houtcome]
              exact hrung
          | ok _ =>
              rw [after_bind houtcome]
              exact ih hrung

/-- So does every occurrence that moves the clock by advancing, if it does. -/
theorem inTime_next {o : Occurrence} (ho : o.isForward = true) {s : Scheduler} (h : s.InTime) :
    (o.next s).InTime := by
  have hsingle : o.isSingle = true → (o.next s).Punctual → (o.next s).InTime :=
    fun hsingle hpunctual =>
      ⟨intact_next hsingle h.intact, waiting_next hsingle h.intact h.waiting, hpunctual⟩
  cases o with
  | start v given => exact hsingle rfl (punctual_start h.intact h.punctual v given)
  | replace v => exact hsingle rfl (punctual_replace h.intact h.punctual v)
  | stop => exact hsingle rfl (punctual_stop h.intact h.punctual)
  | setRate v => exact hsingle rfl (punctual_setRate h.punctual v)
  | configureJournal enable level =>
      exact hsingle rfl ((alike_configureJournal enable level s).punctual h.punctual)
  | advance time => exact inTime_advanceWithin patience time h
  | jump time | ring timer | poke timer => nomatch ho

/-- While the clock moves by advancing, events and cycles are in time. -/
theorem inTime_afterAll (perf : Performance) (policy : Policy) (sounder : Sounder)
    (listener : Option Listener) {rate : Float} (hrate : 0.0 < rate) (now : Float)
    {os : List Occurrence} (hos : ∀ o ∈ os, o.isForward = true) :
    (afterAll os (initial perf policy sounder listener rate now)).InTime :=
  afterAll_related (R := fun s t => s.InTime → t.InTime) (fun _ h => h)
    (fun hst htu h => htu (hst h)) (fun o ho _ h => inTime_next (hos o ho) h) _
    { intact := intact_initial perf policy sounder listener rate now
      waiting := waiting_initial perf policy sounder listener rate now
      punctual := punctual_of_stopped rfl hrate nofun }

/-- Once no timer is due, all that is pending is of the present cycle. -/
theorem cycle_of_pending {s : Scheduler} (h : s.InTime)
    (hdue : ∀ t ∈ s.clock.live, ¬ t.due ≤ s.clock.now) {item : Scheduled} (hitem : item ∈ s.items)
    (hfate : item.fate = .pending) : item.cycle = s.cycle := by
  cases hrun : s.run with
  | none =>
      obtain ⟨heard, hbooks⟩ := h.intact.balanced
      have hstopped : s.isRunning = false := by
        unfold isRunning
        rw [hrun]
        rfl
      exact (pendingIn_of_stopped hbooks hstopped (fun _ => False) item hitem hfate).elim
  | some run =>
      have hcycle : s.cycle = run.cycleIndex := by
        unfold cycle
        rw [hrun]
        rfl
      rw [hcycle]
      rcases h.punctual.events _ (beat_of_run hrun) item hitem hfate with hcome | ⟨hnow, -⟩
      · exact absurd hcome (h.waiting.not_due hdue hitem hfate)
      · exact hnow

end Scheduler

end Ostinato
