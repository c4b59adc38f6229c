import Ostinato.Proofs.Scheduler.Runs

/-!
# Ostinato.Proofs.Scheduler.Indifference

What commands do not look at.

Most commands neither look at nor change what a scheduler has to do with its
sounder and its listener, and the rate that waits for the end of the cycle; in
the journal they only write.  Schedulers are `Like` each other up to a relation
between these if all else is the same.  A command is `Blind` to a relation if it
yields the same for schedulers that are like each other up to it, and leaves
such schedulers behind.

1. What is made of bookings and cancellations alone is blind to every relation.
2. What sets a rate is blind if the relation holds of equal waiting rates, and
   the end of a cycle if it holds of no others.
3. Firing is blind if the relation lasts over calls of the sounder.
-/

namespace Ostinato

/-- What a scheduler exchanges with its sounder and its listener. -/
structure Exchange where
  sounder : Sounder
  listener : Option Listener
  trace : Trace
  attempted : Nat
  told : Nat

/-- The sounder is asked once more; if it fails, an error is kept, and told to
the listener if there is one. -/
def Exchange.call (x : Exchange) (attempt : Attempt) : Exchange :=
  let reply := x.sounder.reply x.attempted attempt
  let errors := (reply.error? attempt).toList
  let reports := if x.listener.isSome then errors else []
  { x with
    trace := ⟨x.trace.attempts ++ [(attempt, reply)], x.trace.errors ++ errors,
      x.trace.reports ++ reports⟩
    attempted := x.attempted + 1
    told := x.told + reports.length }

/-- What most commands leave aside: the exchange with others and the rate that
waits for the end of the cycle. -/
structure Aside where
  exchange : Exchange
  pendingRate : Option Float

namespace Scheduler

open Scheduling

variable {α β : Type}

/-- What the scheduler has exchanged so far, and with whom. -/
def exchange (s : Scheduler) : Exchange :=
  ⟨s.sounder, s.listener, s.trace, s.attempted, s.told⟩

/-- What most commands leave aside in the scheduler. -/
def aside (s : Scheduler) : Aside := ⟨s.exchange, s.pendingRate⟩

/-- The scheduler with other things aside and another journal. -/
def beside (s : Scheduler) (x : Aside) (journal : Journal) : Scheduler := { s with
  sounder := x.exchange.sounder
  listener := x.exchange.listener
  trace := x.exchange.trace
  attempted := x.exchange.attempted
  told := x.exchange.told
  pendingRate := x.pendingRate
  journal := journal }

/-- Schedulers that are the same but for their journals and for what is aside,
which is related. -/
def Like (H : Aside → Aside → Prop) (s t : Scheduler) : Prop :=
  ∃ x journal, H s.aside x ∧ t = s.beside x journal

variable {H : Aside → Aside → Prop}

/-- Two commands that yield the same and leave like schedulers behind. -/
structure Agree (H : Aside → Aside → Prop) (m m' : Scheduling α) (s t : Scheduler) : Prop where
  outcome : m.outcome s = m'.outcome t
  after : Like H (m.after s) (m'.after t)

/-- A command that cannot tell like schedulers from each other. -/
def Blind (H : Aside → Aside → Prop) (m : Scheduling α) : Prop :=
  ∀ s t, Like H s t → Agree H m m s t

namespace Agree

variable {m m' : Scheduling α} {s t u u' : Scheduler}

/-- Commands that look at the scheduler agree if they do for the two that they see. -/
theorem get_bind {f f' : Scheduler → Scheduling β} (h : Agree H (f s) (f' t) s t) :
    Agree H (get >>= f) (get >>= f') s t := ⟨h.outcome, h.after⟩

/-- Commands that go on with other schedulers agree if they do for these. -/
theorem set_bind {f f' : Unit → Scheduling β} (h : Agree H (f ()) (f' ()) u u') :
    Agree H (set u >>= f) (set u' >>= f') s t := ⟨h.outcome, h.after⟩

/-- After two commands that agree, what is done next need agree only if they
succeeded. -/
theorem bind {f f' : α → Scheduling β} (h : Agree H m m' s t)
    (hf : ∀ a, m.outcome s = .ok a → Agree H (f a) (f' a) (m.after s) (m'.after t)) :
    Agree H (m >>= f) (m' >>= f') s t := by
  have houtcome := h.outcome
  cases hok : m.outcome s with
  | error e =>
      rw [hok] at houtcome
      refine ⟨?_, ?_⟩
      · rw [outcome_bind_error hok, outcome_bind_error houtcome.symm]
      · rw [after_bind_error hok, after_bind_error houtcome.symm]
        exact h.after
  | ok a =>
      rw [hok] at houtcome
      refine ⟨?_, ?_⟩
      · rw [outcome_bind hok, outcome_bind houtcome.symm]
        exact (hf a hok).outcome
      · rw [after_bind hok, after_bind houtcome.symm]
        exact (hf a hok).after

end Agree

namespace Blind

/-- A blind command agrees with itself for like schedulers. -/
theorem on {m : Scheduling α} (h : Blind H m) {s t : Scheduler} (hst : Like H s t) :
    Agree H m m s t := h s t hst

theorem pure (a : α) : Blind H (Pure.pure a : Scheduling α) := fun _ _ hst => ⟨rfl, hst⟩

theorem throw (e : SchedulerError) : Blind H (MonadExcept.throw e : Scheduling α) :=
  fun _ _ hst => ⟨rfl, hst⟩

/-- An outcome that is known before is the same for both. -/
theorem orFault (result : Except Fault α) : Blind H (Scheduler.orFault result) := by
  cases result with
  | ok a => exact pure a
  | error cause => exact throw (.fault cause)

/-- Of two blind commands in a row the whole is blind. -/
theorem bind {m : Scheduling α} {f : α → Scheduling β} (hm : Blind H m)
    (hf : ∀ a, Blind H (f a)) : Blind H (m >>= f) :=
  fun _ _ hst => (hm.on hst).bind fun a _ => (hf a).on (hm.on hst).after

/-- Going on with what is the same in like schedulers. -/
theorem get_bind {f : Scheduler → Scheduling β} (hf : ∀ s, Blind H (f s))
    (hsame : ∀ s x journal, f (s.beside x journal) = f s) : Blind H (get >>= f) := by
  intro s t hst
  obtain ⟨x, journal, hx, rfl⟩ := hst
  refine Agree.get_bind ?_
  rw [hsame]
  exact (hf s).on ⟨x, journal, hx, rfl⟩

/-- A change that keeps schedulers like each other. -/
theorem change {g : Scheduler → Scheduler} (hg : ∀ {s t}, Like H s t → Like H (g s) (g t)) :
    Blind H (modify g : Scheduling Unit) := fun _ _ hst => ⟨rfl, hg hst⟩

end Blind

/-! ## Entries -/

/-- An entry in the journal is only written. -/
theorem blind_log (category message : String) (level : Int) :
    Blind H (log category message level) := by
  refine .change fun ⟨x, journal, hx, ht⟩ => ?_
  subst ht
  exact ⟨x, _, hx, rfl⟩

/-- What is read does not depend on the journal. -/
theorem fst_read (j j' : Journal) (transforms : Registry Transform) (source : Journal.Source) :
    (j.read transforms source).1 = (j'.read transforms source).1 := by
  unfold Journal.read
  cases source.tokens with
  | error e => rfl
  | ok tokens =>
      simp only
      cases (parseTokens transforms tokens).1 <;> rfl

/-- What is to be played is read by the transforms that are known; the journal is
only written on the way. -/
theorem blind_coerce (v : Value) : Blind H (coerce v) := by
  cases v with
  | text notated =>
      intro s t ⟨x, journal, hx, ht⟩
      subst ht
      unfold coerce
      refine Agree.get_bind ?_
      have hread := fst_read journal s.journal s.transforms (.text notated)
      change ((s.beside x journal).journal.read (s.beside x journal).transforms
        (.text notated)).1 = _ at hread
      revert hread
      generalize (s.beside x journal).journal.read _ _ = found
      generalize s.journal.read _ _ = found'
      intro hread
      obtain ⟨result, kept⟩ := found
      obtain ⟨result', kept'⟩ := found'
      obtain rfl : result = result' := hread
      refine Agree.set_bind ?_
      cases result with
      | ok p => exact (Blind.pure p).on ⟨x, _, hx, rfl⟩
      | error e => exact (Blind.throw (.malformed e)).on ⟨x, _, hx, rfl⟩
  | pattern p => exact .pure p
  | number n => exact .throw _
  | flag b => exact .throw _
  | _ => exact .throw _

/-- Whether switching succeeds does not depend on the journal. -/
theorem fst_configure (j j' : Journal) (enable : Value) (level : Option Value) :
    (j.configure enable level).1 = (j'.configure enable level).1 := by
  unfold Journal.configure
  cases level with
  | none => rfl
  | some v =>
      simp only
      cases v.toInt <;> rfl

/-- Switching looks at nothing but what it is given. -/
theorem blind_configureJournal (enable : Value) (level : Option Value) :
    Blind H (configureJournal enable level) := by
  intro s t ⟨x, journal, hx, ht⟩
  subst ht
  refine Agree.get_bind ?_
  change Agree H
    (set { s with journal := (s.journal.configure enable level).2 } >>=
      fun _ => orFault (s.journal.configure enable level).1)
    (set { s.beside x journal with journal := (journal.configure enable level).2 } >>=
      fun _ => orFault (journal.configure enable level).1) s _
  rw [fst_configure journal s.journal]
  exact Agree.set_bind ((Blind.orFault _).on ⟨x, _, hx, rfl⟩)

/-! ## Events on the clock -/

/-- A change of the cycle looks at nothing that is aside. -/
theorem blind_modifyRun (change : Run → Run) : Blind H (modifyRun change) := by
  refine .change fun ⟨x, journal, hx, ht⟩ => ?_
  subst ht
  exact ⟨x, journal, hx, rfl⟩

/-- A claim looks at the fate of its event. -/
theorem blind_claim (id : Nat) (fate : Fate) : Blind H (claim id fate) := by
  intro s t ⟨x, journal, hx, ht⟩
  subst ht
  have hopen : (s.beside x journal).isOpen id = s.isOpen id := rfl
  refine ⟨by rw [outcome_claim, outcome_claim, hopen], ?_⟩
  rw [after_claim, after_claim, hopen]
  split
  · exact ⟨x, journal, hx, rfl⟩
  · exact ⟨x, journal, hx, rfl⟩

/-- Cancelling settles an event and its timer, and writes in the journal. -/
theorem blind_cancel (item : Scheduled) : Blind H (cancel item) := by
  refine (blind_claim item.id .cancelled).bind fun claimed => ?_
  cases claimed with
  | false => exact .pure false
  | true =>
      refine Blind.bind (.change fun ⟨x, journal, hx, ht⟩ => ?_) fun _ => ?_
      · subst ht
        exact ⟨x, journal, hx, rfl⟩
      · exact (blind_modifyRun _).bind fun _ => (Blind.orFault _).bind fun _ =>
          (blind_log _ _ _).bind fun _ => .pure true

/-- So does cancelling one event after another. -/
theorem blind_cancelAll (items : List Scheduled) : Blind H (cancelAll items) := by
  induction items with
  | nil => exact .pure 0
  | cons item items ih => exact (blind_cancel item).bind fun _ => ih.bind fun _ => .pure _

/-- Bookings leave aside what they find there. -/
theorem beside_bookAll (s : Scheduler) (x : Aside) (journal : Journal) (bookings : List Booking) :
    (s.beside x journal).bookAll bookings = (s.bookAll bookings).beside x journal := by
  induction bookings generalizing s with
  | nil => rfl
  | cons b bookings ih => exact ih (s.book b)

/-- Bookings change nothing that is aside. -/
theorem aside_bookAll (s : Scheduler) (bookings : List Booking) :
    (s.bookAll bookings).aside = s.aside := by
  induction bookings generalizing s with
  | nil => rfl
  | cons b bookings ih => exact ih (s.book b)

/-- The events of a cycle are found by the performance and the pattern, and booked
at the present rate. -/
theorem blind_scheduleCycle (place : Option Rat) : Blind H (scheduleCycle place) := by
  intro s t ⟨x, journal, hx, ht⟩
  subst ht
  cases hrun : s.run with
  | none =>
      have hrun' : (s.beside x journal).run = none := hrun
      unfold scheduleCycle
      refine Agree.get_bind ?_
      rw [hrun, hrun']
      exact (Blind.pure 0).on ⟨x, journal, hx, rfl⟩
  | some run =>
      have hrun' : (s.beside x journal).run = some run := hrun
      cases hplan : s.performance.plan run.pattern run.cycleIndex run.cycleStart s.rate place with
      | error cause =>
          obtain ⟨hfailed, hleft⟩ := scheduleCycle_error hrun hplan
          obtain ⟨hfailed', hleft'⟩ := scheduleCycle_error hrun' hplan
          refine ⟨by rw [hfailed, hfailed'], ?_⟩
          rw [hleft, hleft']
          exact ⟨x, journal, hx, rfl⟩
      | ok bookings =>
          obtain ⟨hbooked, hleft⟩ := scheduleCycle_ok hrun hplan
          obtain ⟨hbooked', hleft'⟩ := scheduleCycle_ok hrun' hplan
          refine ⟨by rw [hbooked, hbooked'], ?_⟩
          rw [hleft, hleft', beside_bookAll]
          exact ⟨x, journal, by rw [aside_bookAll]; exact hx, rfl⟩

/-- The timer for the end of a cycle looks at the present rate, not at the one that
waits. -/
theorem beside_armed (s : Scheduler) (x : Aside) (journal : Journal) :
    (s.beside x journal).armed = s.armed.beside x journal ∧ s.armed.aside = s.aside := by
  have hrun : (s.beside x journal).run = s.run := rfl
  unfold armed
  rw [hrun]
  cases s.run <;> exact ⟨rfl, rfl⟩

/-- So making it is blind. -/
theorem blind_armBoundary : Blind H armBoundary := by
  intro s t ⟨x, journal, hx, ht⟩
  subst ht
  obtain ⟨hsame, haside⟩ := beside_armed s x journal
  refine ⟨by rw [(armBoundary_eq _).1, (armBoundary_eq _).1], ?_⟩
  rw [(armBoundary_eq _).2, (armBoundary_eq _).2]
  exact ⟨x, journal, by rw [haside]; exact hx, hsame⟩

/-- A replacement looks at the cycle and the clock, and leaves the rest to
cancellations and bookings. -/
theorem blind_replace (v : Value) : Blind H (replace v) := by
  refine (blind_coerce v).bind fun node => Blind.get_bind (fun s => ?_) fun _ _ _ => rfl
  cases s.run with
  | none => exact .throw .notRunning
  | some run =>
      exact (Blind.orFault _).bind fun place => (blind_cancelAll _).bind fun cancelled =>
        (blind_modifyRun _).bind fun _ => (blind_scheduleCycle _).bind fun scheduled =>
          (Blind.orFault _).bind fun shownPlace => (Blind.orFault _).bind fun shown =>
            blind_log _ _ _

/-- A jump looks at nothing. -/
theorem blind_jumpTo (time : Float) : Blind H (jumpTo time) := by
  refine .change fun ⟨x, journal, hx, ht⟩ => ?_
  subst ht
  exact ⟨x, journal, hx, rfl⟩

/-! ## Rates -/

/-- A relation that lasts when the same rate is set to wait. -/
def KeepsRates (H : Aside → Aside → Prop) : Prop :=
  ∀ {x y} rate, H x y → H { x with pendingRate := rate } { y with pendingRate := rate }

/-- A start forgets the rate that waits, for both schedulers alike. -/
theorem blind_start (hrates : KeepsRates H) (v : Value) (given : Option Value) :
    Blind H (start v given) := by
  refine (blind_coerce v).bind fun node => (Blind.orFault _).bind fun rate => ?_
  intro s t ⟨x, journal, hx, ht⟩
  subst ht
  refine Agree.get_bind ?_
  change Agree H (ite (s.isRunning = true) _ _) (ite (s.isRunning = true) _ _) s _
  cases s.isRunning with
  | true => exact (Blind.throw .alreadyRunning).on ⟨x, journal, hx, rfl⟩
  | false =>
      have hbegun : Like H (s.begun node rate) ((s.beside x journal).begun node rate) :=
        ⟨{ x with pendingRate := none }, journal, hrates none hx, rfl⟩
      refine Agree.set_bind (Blind.on ?_ hbegun)
      exact (blind_scheduleCycle none).bind fun count => blind_armBoundary.bind fun _ =>
        Blind.get_bind (fun s => (Blind.orFault _).bind fun shown => blind_log _ _ _)
          fun _ _ _ => rfl

/-- A stop forgets it too. -/
theorem blind_stop (hrates : KeepsRates H) : Blind H stop := by
  intro s t ⟨x, journal, hx, ht⟩
  subst ht
  refine Agree.get_bind ?_
  change Agree H (ite (s.isRunning = true) _ _) (ite (s.isRunning = true) _ _) s _
  cases s.isRunning with
  | false => exact (Blind.pure ()).on ⟨x, journal, hx, rfl⟩
  | true =>
      have hhalted : Like H s.halted (s.beside x journal).halted := ⟨x, journal, hx, rfl⟩
      refine Agree.set_bind (Blind.on ?_ hhalted)
      refine (blind_cancelAll _).bind fun _ => Blind.bind (.change ?_) fun _ => blind_log _ _ _
      rintro u v ⟨y, journal', hy, rfl⟩
      exact ⟨{ y with pendingRate := none }, journal', hrates none hy, rfl⟩

/-- A rate that is set waits for both schedulers alike. -/
theorem blind_setRate (hrates : KeepsRates H) (v : Value) : Blind H (setRate v) := by
  refine (Blind.orFault _).bind fun rate => ?_
  intro s t ⟨x, journal, hx, ht⟩
  subst ht
  refine Agree.get_bind ?_
  change Agree H (ite (s.isRunning = true) _ _) (ite (s.isRunning = true) _ _) s _
  cases s.isRunning with
  | false => exact ⟨rfl, x, journal, hx, rfl⟩
  | true =>
      exact Agree.set_bind ((blind_log _ _ _).on
        ⟨{ x with pendingRate := some rate }, journal, hrates (some rate) hx, rfl⟩)

/-- A relation that holds only where the same rate waits. -/
def SeesRates (H : Aside → Aside → Prop) : Prop := ∀ {x y}, H x y → x.pendingRate = y.pendingRate

/-- Taking up a rate looks at the one that waits, which must be the same. -/
theorem blind_adoptRate (hrates : KeepsRates H) (hsees : SeesRates H) : Blind H adoptRate := by
  intro s t ⟨x, journal, hx, ht⟩
  subst ht
  have hsame : (s.beside x journal).pendingRate = s.pendingRate := (hsees hx).symm
  unfold adoptRate
  refine Agree.get_bind ?_
  rw [hsame]
  cases s.pendingRate with
  | none => exact (Blind.pure ()).on ⟨x, journal, hx, rfl⟩
  | some rate =>
      exact Agree.set_bind ((blind_log _ _ _).on
        ⟨{ x with pendingRate := none }, journal, hrates none hx, rfl⟩)

/-- A boundary takes up the rate that waits before it plans the next cycle. -/
theorem blind_passBoundary (hrates : KeepsRates H) (hsees : SeesRates H) (generation : Nat) :
    Blind H (passBoundary generation) := by
  intro s t ⟨x, journal, hx, ht⟩
  subst ht
  have hrun : (s.beside x journal).run = s.run := rfl
  have hgeneration : (s.beside x journal).generation = s.generation := rfl
  unfold passBoundary
  refine Agree.get_bind ?_
  rw [hrun, hgeneration]
  cases s.run with
  | none => exact (Blind.pure ()).on ⟨x, journal, hx, rfl⟩
  | some run =>
      simp only
      cases generation != s.generation with
      | true => exact (Blind.pure ()).on ⟨x, journal, hx, rfl⟩
      | false =>
          refine Agree.set_bind (((blind_adoptRate hrates hsees).bind fun _ =>
            (blind_scheduleCycle none).bind fun count => blind_armBoundary.bind fun _ =>
              blind_log _ _ _).on ?_)
          exact ⟨x, journal, hx, rfl⟩

/-! ## Sounding -/

/-- A relation that lasts when the sounder is called for the same event. -/
def KeepsCalls (H : Aside → Aside → Prop) : Prop :=
  ∀ {x y} attempt, H x y →
    H { x with exchange := x.exchange.call attempt } { y with exchange := y.exchange.call attempt }

/-- Asking the sounder is one call, whatever it replies and whatever a listener
does, and never fails. -/
theorem sound_eq (attempt : Attempt) (s : Scheduler) :
    (sound attempt).outcome s = .ok () ∧ ∃ journal, (sound attempt).after s =
      s.beside { s.aside with exchange := s.exchange.call attempt } journal := by
  obtain ⟨ts, ps, policy, seed, sounder, listener, rate, pendingRate, run, items, generation,
    boundary, clock, journal, trace, attempted, told⟩ := s
  unfold sound
  rw [outcome_get_bind, after_get_bind]
  simp only [after_set_bind, outcome_set_bind]
  cases herror : (sounder.reply attempted attempt).error? attempt with
  | none => exact ⟨rfl, journal, by simp [beside, aside, exchange, Exchange.call, herror]⟩
  | some error =>
      simp only
      unfold report warn
      rw [after_modify_bind, after_modify_bind, after_get_bind, outcome_modify_bind,
        outcome_modify_bind, outcome_get_bind]
      let warned := journal.warn ("sounder error: " ++ error.message)
      cases listener with
      | none =>
          exact ⟨rfl, warned, by simp [beside, aside, exchange, Exchange.call, herror, warned]⟩
      | some listener =>
          simp only [after_set_bind, outcome_set_bind]
          cases listener told error with
          | none =>
              exact ⟨rfl, warned, by simp [beside, aside, exchange, Exchange.call, herror, warned]⟩
          | some reason =>
              refine ⟨rfl, warned.warn ("on_error callback error: " ++ reason), ?_⟩
              simp [beside, aside, exchange, Exchange.call, herror, warned]

/-- An attempt at sounding is the same call for both schedulers. -/
theorem blind_sound (hcalls : KeepsCalls H) (attempt : Attempt) : Blind H (sound attempt) := by
  intro s t ⟨x, journal, hx, ht⟩
  subst ht
  obtain ⟨houtcome, j, hafter⟩ := sound_eq attempt s
  obtain ⟨houtcome', j', hafter'⟩ := sound_eq attempt (s.beside x journal)
  refine ⟨by rw [houtcome, houtcome'], ?_⟩
  rw [hafter, hafter']
  exact ⟨{ x with exchange := x.exchange.call attempt }, j', hcalls attempt hx, rfl⟩

/-- Firing an event looks at its fate and calls the sounder. -/
theorem blind_fire (hcalls : KeepsCalls H) (id : Nat) : Blind H (fire id) := by
  refine (blind_claim id .sounded).bind fun claimed => ?_
  cases claimed with
  | false => exact .pure ()
  | true =>
      refine (blind_modifyRun _).bind fun _ => Blind.get_bind (fun s => ?_) fun _ _ _ => rfl
      cases s.item? id with
      | none => exact .pure ()
      | some item =>
          exact (Blind.orFault _).bind fun _ => (blind_log _ _ _).bind fun _ =>
            blind_sound hcalls _

/-! ## Whatever happens -/

section

variable (hrates : KeepsRates H) (hsees : SeesRates H) (hcalls : KeepsCalls H)

include hrates hsees hcalls

/-- Every task is blind where rates are seen and calls are kept. -/
theorem blind_perform (task : Task) : Blind H (perform task) := by
  cases task with
  | fire id => exact blind_fire hcalls id
  | boundary generation => exact blind_passBoundary hrates hsees generation

/-- Moving the clock forward is one task after another. -/
theorem blind_advanceWithin (limit : Nat) (time : Float) : Blind H (advanceWithin limit time) := by
  induction limit with
  | zero => exact .pure ()
  | succ limit ih =>
      intro s t ⟨x, journal, hx, ht⟩
      subst ht
      have hnext : (s.beside x journal).clock.next? time = s.clock.next? time := rfl
      unfold advanceWithin
      refine Agree.get_bind ?_
      rw [hnext]
      cases s.clock.next? time with
      | none => exact ⟨rfl, x, journal, hx, rfl⟩
      | some timer =>
          refine Agree.set_bind (((blind_perform hrates hsees hcalls timer.task).bind
            fun _ => ih).on ?_)
          exact ⟨x, journal, hx, rfl⟩

/-- A timer that goes off in turn stops waiting first. -/
theorem blind_ring (timer : Nat) : Blind H (ring timer) := by
  intro s t ⟨x, journal, hx, ht⟩
  subst ht
  have hfound : (s.beside x journal).clock.timer? timer = s.clock.timer? timer := rfl
  unfold ring
  refine Agree.get_bind ?_
  rw [hfound]
  cases s.clock.timer? timer with
  | none => exact (Blind.pure ()).on ⟨x, journal, hx, rfl⟩
  | some t =>
      simp only
      cases t.waiting with
      | false => exact (Blind.pure ()).on ⟨x, journal, hx, rfl⟩
      | true =>
          exact Agree.set_bind
            ((blind_perform hrates hsees hcalls t.task).on ⟨x, journal, hx, rfl⟩)

/-- A timer out of turn does its task. -/
theorem blind_poke (timer : Nat) : Blind H (poke timer) := by
  refine Blind.get_bind (fun s => ?_) fun _ _ _ => rfl
  cases s.clock.timer? timer with
  | none => exact .throw _
  | some t => exact blind_perform hrates hsees hcalls t.task

/-- So every occurrence is blind to such a relation. -/
theorem blind_act (o : Occurrence) : Blind H o.act := by
  cases o with
  | start v given => exact blind_start hrates v given
  | replace v => exact blind_replace v
  | stop => exact blind_stop hrates
  | setRate v => exact blind_setRate hrates v
  | configureJournal enable level => exact blind_configureJournal enable level
  | advance time => exact blind_advanceWithin hrates hsees hcalls patience time
  | jump time => exact blind_jumpTo time
  | ring timer => exact blind_ring hrates hsees hcalls timer
  | poke timer => exact blind_poke hrates hsees hcalls timer

end

/-! ## Alike schedulers -/

/-- What of the things aside has an influence on the playing. -/
structure Heard (x y : Aside) : Prop where
  pendingRate : x.pendingRate = y.pendingRate
  attempted : x.exchange.attempted = y.exchange.attempted
  attempts : x.exchange.trace.attempts.map (·.1) = y.exchange.trace.attempts.map (·.1)

/-- Playing alike is being like each other in all that has an influence on the
playing. -/
theorem alike_iff_like {s t : Scheduler} : Alike s t ↔ Like Heard s t := by
  constructor
  · intro h
    have hattempted : s.attempted = t.attempted := h.field Scheduler.attempted fun _ => rfl
    have hbeside : s.beside t.aside t.journal = t.beside t.aside t.journal :=
      h.field (fun u => u.beside t.aside t.journal) fun _ => rfl
    exact ⟨t.aside, t.journal, ⟨h.pendingRate, hattempted, h.attempts⟩, hbeside.symm⟩
  · rintro ⟨x, journal, ⟨hrate, hattempted, hattempts⟩, rfl⟩
    have hcalls : s.trace.attempts.map (fun call => (call.1, Reply.sounded)) =
        x.exchange.trace.attempts.map (fun call => (call.1, Reply.sounded)) := by
      have hmapped := congrArg (List.map fun attempt => (attempt, Reply.sounded)) hattempts
      rwa [List.map_map, List.map_map] at hmapped
    change s.pendingRate = _ at hrate
    change s.attempted = _ at hattempted
    simp [Alike, silent, beside, hrate, hattempted, hcalls]

theorem keepsRates_heard : KeepsRates Heard := fun _ h => ⟨rfl, h.attempted, h.attempts⟩

theorem seesRates_heard : SeesRates Heard := fun h => h.pendingRate

theorem keepsCalls_heard : KeepsCalls Heard := by
  rintro x y attempt ⟨hrate, hattempted, hattempts⟩
  refine ⟨hrate, congrArg (· + 1) hattempted, ?_⟩
  simp [Exchange.call, hattempts]

namespace Alike

variable {s t : Scheduler}

/-- In alike schedulers a task comes to the same. -/
theorem perform (h : Alike s t) (task : Task) :
    (Scheduler.perform task).outcome s = (Scheduler.perform task).outcome t ∧
      Alike ((Scheduler.perform task).after s) ((Scheduler.perform task).after t) := by
  obtain ⟨houtcome, hafter⟩ :=
    (blind_perform keepsRates_heard seesRates_heard keepsCalls_heard task).on (alike_iff_like.mp h)
  exact ⟨houtcome, alike_iff_like.mpr hafter⟩

/-- In alike schedulers whatever happens comes to the same. -/
theorem next (h : Alike s t) (o : Occurrence) :
    o.act.outcome s = o.act.outcome t ∧ Alike (o.next s) (o.next t) := by
  obtain ⟨houtcome, hafter⟩ :=
    (blind_act keepsRates_heard seesRates_heard keepsCalls_heard o).on (alike_iff_like.mp h)
  exact ⟨houtcome, alike_iff_like.mpr hafter⟩

/-- Alike schedulers are alike after the same run. -/
theorem afterAll (h : Alike s t) (os : List Occurrence) :
    Alike (Scheduler.afterAll os s) (Scheduler.afterAll os t) := by
  induction os generalizing s t with
  | nil => exact h
  | cons o os ih => exact ih (h.next o).2

end Alike

end Scheduler

end Ostinato
