import Ostinato.Proofs.Number.Sums
import Ostinato.Proofs.Scheduler.Latching
import Ostinato.Proofs.Scheduler.Punctual
import Ostinato.Proofs.Scheduler.Splitting

/-!
# Ostinato.Proofs.Scheduler.Boundaries

The ends of cycles, one after another.

Whatever happens, no timer for the end of a cycle is due after the end of the
present one (`Foremost`).  So the next end is never before the one that is reached.
It is after it unless the length of a cycle is rounded away.
-/

namespace Ostinato

namespace Scheduler

open Scheduling

variable {s t u : Scheduler}

/-! ## What leaves the ends of cycles as they are -/

/-- The present cycle begins when it did and has the rates that it had, and no timer
for the end of a cycle was made. -/
structure SameEnds (s t : Scheduler) : Prop where
  rate : t.rate = s.rate
  pendingRate : t.pendingRate = s.pendingRate
  generation : t.generation = s.generation
  start : t.run.map (·.cycleStart) = s.run.map (·.cycleStart)
  timers : ∀ v ∈ t.clock.timers, v.isBoundary = true →
    ∃ w ∈ s.clock.timers, w.task = v.task ∧ w.due = v.due

/-- Ends are the same where the timers are, and the rates and the beginning of the
cycle. -/
theorem sameEnds_of_timers (hrate : t.rate = s.rate) (hpendingRate : t.pendingRate = s.pendingRate)
    (hgeneration : t.generation = s.generation)
    (hstart : t.run.map (·.cycleStart) = s.run.map (·.cycleStart))
    (htimers : t.clock.timers = s.clock.timers) : SameEnds s t :=
  ⟨hrate, hpendingRate, hgeneration, hstart, fun v hv _ => ⟨v, htimers ▸ hv, rfl, rfl⟩⟩

/-- Ends that stay the same twice stay the same. -/
theorem SameEnds.trans (h : SameEnds s t) (h' : SameEnds t u) : SameEnds s u where
  rate := h'.rate.trans h.rate
  pendingRate := h'.pendingRate.trans h.pendingRate
  generation := h'.generation.trans h.generation
  start := h'.start.trans h.start
  timers := by
    intro v hv hboundary
    obtain ⟨w, hw, htask, hdue⟩ := h'.timers v hv hboundary
    have hboundary' : w.isBoundary = true := by
      unfold Timer.isBoundary
      rw [htask]
      exact hboundary
    obtain ⟨x, hx, htask', hdue'⟩ := h.timers w hw hboundary'
    exact ⟨x, hx, htask'.trans htask, hdue'.trans hdue⟩

theorem Alike.sameEnds (h : Alike t s) : SameEnds s t :=
  sameEnds_of_timers h.rate h.pendingRate h.generation (by rw [h.run]) (by rw [h.clock])

/-- The fate of an event has nothing to do with the ends of cycles. -/
theorem sameEnds_settle (s : Scheduler) (id : Nat) (fate : Fate) :
    SameEnds s (s.settle id fate) := by
  refine sameEnds_of_timers rfl rfl rfl ?_ rfl
  unfold settle
  rw [Option.map_map]
  rfl

/-- When a timer stops waiting, none is made. -/
theorem sameEnds_expired (s : Scheduler) (timer : Nat) : SameEnds s (s.expired timer) where
  rate := rfl
  pendingRate := rfl
  generation := rfl
  start := rfl
  timers := by
    intro v hv _
    obtain ⟨w, hw, rfl⟩ := List.mem_map.mp hv
    refine ⟨w, hw, ?_⟩
    split <;> exact ⟨rfl, rfl⟩

/-- Withdrawing events ends the waiting of their timers, and makes none. -/
theorem sameEnds_withdraw (s : Scheduler) (items : List Scheduled) :
    SameEnds s (s.withdraw items) := by
  induction items generalizing s with
  | nil => exact (Alike.refl s).sameEnds
  | cons item items ih =>
      have hcancelled : SameEnds s (s.cancelled item) :=
        (sameEnds_settle s item.id .cancelled).trans (sameEnds_expired _ item.timer)
      exact hcancelled.trans (ih (s.cancelled item))

/-- The pattern that is played has nothing to do with the ends of cycles. -/
theorem sameEnds_swapped (s : Scheduler) (node : Pattern) : SameEnds s (s.swapped node) := by
  refine sameEnds_of_timers rfl rfl rfl ?_ rfl
  unfold swapped
  rw [Option.map_map]
  rfl

/-- Bookings make timers for events, not for ends of cycles. -/
theorem sameEnds_bookAll (s : Scheduler) (bookings : List Booking) :
    SameEnds s (s.bookAll bookings) := by
  induction bookings generalizing s with
  | nil => exact (Alike.refl s).sameEnds
  | cons b bookings ih =>
      have hbook : SameEnds s (s.book b) := by
        refine ⟨rfl, rfl, rfl, ?_, fun v hv hboundary => ?_⟩
        · unfold book
          rw [Option.map_map]
          rfl
        · rcases List.mem_append.mp hv with hold | hnew
          · exact ⟨v, hold, rfl, rfl⟩
          · rw [List.mem_singleton.mp hnew] at hboundary
            nomatch hboundary
      exact hbook.trans (ih (s.book b))

/-- Firing an event makes no timer. -/
theorem sameEnds_fire (id : Nat) (s : Scheduler) : SameEnds s ((fire id).after s) := by
  cases hopen : s.isOpen id with
  | false =>
      rw [fire_closed hopen]
      exact (Alike.refl s).sameEnds
  | true =>
      obtain ⟨item, hitem, hfate⟩ := isOpen_eq_true.mp hopen
      have hsettled := sameEnds_settle s id .sounded
      cases hwritable : item.event.value.isWritable with
      | true =>
          have hasked : SameEnds s ((s.settle id .sounded).asked item.attempt) :=
            hsettled.trans (sameEnds_of_timers rfl rfl rfl rfl rfl)
          exact hasked.trans (fire_writable hitem hfate hwritable).sameEnds
      | false =>
          rw [fire_unwritable hitem hfate hwritable]
          exact hsettled

/-- Replacing a pattern withdraws and books events; the cycle and its end stay. -/
theorem sameEnds_replace {heard : List Nat} (hbooks : s.ledger.Balanced heard) (v : Value) :
    SameEnds s ((replace v).after s) := by
  by_cases hrefused : s.isRunning = false ∨ (∃ e, (coerce v).outcome s = .error e) ∨
      ∃ run cause, s.run = some run ∧ s.elapsed run = .error cause
  · exact (replace_refused hrefused).sameEnds
  · obtain ⟨run, node, place, hrun, hnode, hplace⟩ := accepted_of_not_refused hrefused
    have hswapped : SameEnds s ((s.withdraw (s.ahead run place)).swapped node) :=
      (sameEnds_withdraw s _).trans (sameEnds_swapped _ node)
    rcases after_replace hbooks hrun hnode hplace with
      ⟨-, first, -, -, -, halike⟩ | ⟨-, ⟨cause, -, -, halike⟩ | ⟨bookings, -, halike⟩⟩
    · exact (sameEnds_withdraw s first).trans halike.sameEnds
    · exact hswapped.trans halike.sameEnds
    · exact (hswapped.trans (sameEnds_bookAll _ bookings)).trans halike.sameEnds

/-! ## The last end -/

/-- No timer of this run is for the end of a cycle after that of the present one, if
that is at a time at all.  The rates are positive. -/
structure Foremost (s : Scheduler) : Prop where
  rate : 0.0 < s.rate
  pendingRate : ∀ rate, s.pendingRate = some rate → 0.0 < rate
  last : ∀ run, s.run = some run → run.cycleStart + 1.0 / s.rate ≤ run.cycleStart + 1.0 / s.rate →
    ∀ v ∈ s.clock.timers, v.task = .boundary s.generation → v.due ≤ run.cycleStart + 1.0 / s.rate

/-- The rate of the next cycle is positive too. -/
theorem Foremost.next (h : s.Foremost) : 0.0 < s.pendingRate.getD s.rate := by
  cases hpending : s.pendingRate with
  | none => exact h.rate
  | some rate => exact h.pendingRate rate hpending

/-- Where the ends are the same, none lies after that of the present cycle either. -/
theorem SameEnds.foremost (h : SameEnds s t) (hs : s.Foremost) : t.Foremost where
  rate := h.rate ▸ hs.rate
  pendingRate := h.pendingRate ▸ hs.pendingRate
  last := by
    intro run hrun hnumber v hv htask
    have hstart := h.start
    rw [hrun] at hstart
    obtain ⟨before, hbefore, hsame⟩ := Option.map_eq_some_iff.mp hstart.symm
    have hboundary : v.isBoundary = true := by
      unfold Timer.isBoundary
      rw [htask]
    obtain ⟨w, hw, htask', hdue⟩ := h.timers v hv hboundary
    dsimp only at hsame
    rw [h.rate, ← hsame] at hnumber ⊢
    rw [← hdue]
    exact hs.last before hbefore hnumber w hw (by rw [htask', htask, h.generation])

/-- A run that has no timers yet. -/
theorem foremost_of_new (hrate : 0.0 < s.rate)
    (hpendingRate : ∀ rate, s.pendingRate = some rate → 0.0 < rate)
    (hnew : ∀ v ∈ s.clock.timers, v.task ≠ .boundary s.generation) : s.Foremost :=
  ⟨hrate, hpendingRate, fun _ _ _ v hv htask => absurd htask (hnew v hv)⟩

/-- While nothing plays there is no present cycle, and only the rates matter. -/
theorem foremost_of_stopped (hrun : s.run = none) (hrate : 0.0 < s.rate)
    (hpendingRate : ∀ rate, s.pendingRate = some rate → 0.0 < rate) : s.Foremost :=
  ⟨hrate, hpendingRate, fun run hsome => by rw [hrun] at hsome; nomatch hsome⟩

/-- A cycle ends no earlier than the one before. -/
theorem foremost_turned (h : s.Foremost) {run : Run} (hrun : s.run = some run) :
    (s.turned run).Foremost where
  rate := h.next
  pendingRate := nofun
  last := by
    intro next hnext hnumber v hv htask
    obtain rfl := Option.some.inj hnext
    have hlater := Double.le_add (Double.zero_le_inverse h.next) hnumber
    exact Double.le_trans (h.last run hrun (Double.le_self_of_le hlater).1 v hv htask) hlater

/-- The timer for the end of the present cycle is due at that end, not after it. -/
theorem foremost_armed (h : s.Foremost) : s.armed.Foremost := by
  cases hrun : s.run with
  | none =>
      unfold armed
      rw [hrun]
      exact h
  | some run =>
      rw [armed_of_run hrun]
      refine ⟨h.rate, h.pendingRate, fun run' hrun' hnumber v hv htask => ?_⟩
      obtain rfl := Option.some.inj (hrun.symm.trans hrun')
      rcases List.mem_append.mp hv with hold | hnew
      · exact h.last run hrun hnumber v hold htask
      · rw [List.mem_singleton.mp hnew]
        exact hnumber

/-- A timer that goes off leaves the ends of cycles as they are, or it ends a cycle and
makes a timer for the end of the next one. -/
theorem perform_of_ends {P : Scheduler → Prop}
    (hsame : ∀ {s t : Scheduler}, SameEnds s t → P s → P t)
    (hturned : ∀ {s : Scheduler} {run : Run}, s.run = some run → P s → P (s.turned run))
    (harmed : ∀ {s : Scheduler}, P s → P s.armed) (h : P s) (task : Task) :
    P ((perform task).after s) := by
  cases task with
  | fire id => exact hsame (sameEnds_fire id s) h
  | boundary generation =>
      change P ((passBoundary generation).after s)
      rcases passBoundary_cases generation s with
        hstale | ⟨run, hrun, -, halike | ⟨bookings, halike⟩⟩
      · rw [hstale]
        exact h
      · exact hsame halike.sameEnds (hturned hrun h)
      · exact hsame halike.sameEnds (harmed (hsame (sameEnds_bookAll _ bookings) (hturned hrun h)))

/-- Whatever task a timer has, no end lies after that of the present cycle when it
is done. -/
theorem foremost_perform (h : s.Foremost) (task : Task) : ((perform task).after s).Foremost :=
  perform_of_ends (fun hsame h => hsame.foremost h) (fun hrun h => foremost_turned h hrun)
    foremost_armed h task

/-- Timers are of this run or an earlier one. -/
theorem Timed.ne_next (h : s.Timed) :
    ∀ v ∈ s.clock.timers, v.task ≠ .boundary (s.generation + 1) := by
  intro v hv htask
  have hle := h.generations v hv _ htask
  omega

/-- A start is at the beginning of a run of its own, which no timer belongs to yet. -/
theorem foremost_start (htimed : s.Timed) (h : s.Foremost) (v : Value) (given : Option Value) :
    ((start v given).after s).Foremost := by
  by_cases hrefused : s.isRunning = true ∨ (∃ e, (coerce v).outcome s = .error e) ∨
      ∃ cause, given.mapM checkRate = .error cause
  · exact (start_refused hrefused).sameEnds.foremost h
  · obtain ⟨hstopped, node, rate, hnode, hrate⟩ := readable_of_not_refused hrefused
    have hbegun : (s.begun node rate).Foremost :=
      foremost_of_new (pos_of_mapM hrate h.rate) nofun htimed.ne_next
    cases hplan : s.performance.plan node 0 s.clock.now (rate.getD s.rate) none with
    | error cause => exact (start_error hstopped hnode hrate hplan).sameEnds.foremost hbegun
    | ok bookings =>
        exact (start_ok hstopped hnode hrate hplan).sameEnds.foremost
          (foremost_armed ((sameEnds_bookAll _ bookings).foremost hbegun))

/-- A stop is of a later generation, which no timer belongs to. -/
theorem foremost_stop (hregular : s.Regular) (h : s.Foremost) : (stop.after s).Foremost := by
  obtain ⟨heard, hbooks⟩ := hregular.balanced
  have hhalted : s.halted.Foremost := by
    refine foremost_of_new h.rate h.pendingRate ?_
    unfold halted
    cases s.boundary with
    | none => exact hregular.timed.ne_next
    | some timer => exact (timed_expired hregular.timed timer).ne_next
  cases hrunning : s.isRunning with
  | false =>
      rw [stop_of_stopped hrunning]
      exact h
  | true =>
      rcases after_stop hbooks hrunning with ⟨-, halike⟩ | ⟨-, first, -, halike⟩
      · refine halike.sameEnds.foremost (foremost_of_stopped rfl ?_ nofun)
        exact ((sameEnds_withdraw _ _).foremost hhalted).rate
      · exact halike.sameEnds.foremost ((sameEnds_withdraw _ _).foremost hhalted)

/-- A new rate is positive, and waits for the next cycle while something plays. -/
theorem foremost_setRate (h : s.Foremost) (v : Value) : ((setRate v).after s).Foremost := by
  cases hrate : checkRate v with
  | error cause =>
      rw [setRate_error hrate]
      exact h
  | ok rate =>
      have hpos := pos_of_checkRate hrate
      cases hrunning : s.isRunning with
      | true =>
          refine (alike_setRate hrunning hrate).sameEnds.foremost
            ⟨h.rate, fun rate' hsome => ?_, h.last⟩
          rwa [← Option.some.inj hsome]
      | false =>
          rw [setRate_of_stopped hrunning hrate]
          refine foremost_of_stopped ?_ hpos h.pendingRate
          unfold isRunning at hrunning
          rwa [Option.isSome_eq_false_iff, Option.isNone_iff_eq_none] at hrunning

/-- Every occurrence keeps it that no end lies after that of the present cycle.  The
cases follow the occurrences; moving forward is one timer after another. -/
theorem foremost_next (o : Occurrence) (hregular : s.Regular) (h : s.Foremost) :
    (o.next s).Foremost := by
  obtain ⟨heard, hbooks⟩ := hregular.balanced
  have htime : ∀ (s : Scheduler) now, s.Foremost → (s.atTime now).Foremost :=
    fun s now => (sameEnds_of_timers (s := s) (t := s.atTime now) rfl rfl rfl rfl rfl).foremost
  cases o with
  | start v given => exact foremost_start hregular.timed h v given
  | replace v => exact (sameEnds_replace hbooks v).foremost h
  | stop => exact foremost_stop hregular h
  | setRate v => exact foremost_setRate h v
  | configureJournal enable level =>
      exact (alike_configureJournal enable level s).sameEnds.foremost h
  | advance time =>
      exact advanceWithin_related (R := fun s t => s.Foremost → t.Foremost) (fun _ h => h)
        (fun hst htu h => htu (hst h)) htime
        (fun s t _ h => foremost_perform ((sameEnds_expired s t.id).foremost h) t.task)
        patience time s h
  | jump time => exact htime s time h
  | ring timer =>
      change ((ring timer).after s).Foremost
      rcases ring_cases timer s with hsame | ⟨t, -, -, hrung⟩
      · rw [hsame]
        exact h
      · rw [hrung]
        exact foremost_perform ((sameEnds_expired s timer).foremost h) t.task
  | poke timer =>
      change ((poke timer).after s).Foremost
      rcases poke_cases timer s with hsame | ⟨t, -, -, hpoked⟩
      · rw [hsame]
        exact h
      · rw [hpoked]
        exact foremost_perform h t.task

/-- In every run no timer is for the end of a cycle after the present one. -/
theorem foremost_afterAll (perf : Performance) (policy : Policy) (sounder : Sounder)
    (listener : Option Listener) {rate : Float} (hrate : 0.0 < rate) (now : Float)
    (os : List Occurrence) :
    (afterAll os (initial perf policy sounder listener rate now)).Foremost := by
  have hboth : ∀ {s : Scheduler}, s.Regular → s.Foremost → (afterAll os s).Foremost :=
    fun hregular h => (afterAll_related
      (R := fun s t => s.Regular ∧ s.Foremost → t.Regular ∧ t.Foremost) (fun _ h => h)
      (fun hst htu h => htu (hst h))
      (fun o _ _ h => ⟨regular_next o h.1, foremost_next o h.1 h.2⟩) _ ⟨hregular, h⟩).2
  exact hboth (regular_afterAll perf policy sounder listener rate now [])
    (foremost_of_stopped rfl hrate nofun)

end Scheduler

end Ostinato
