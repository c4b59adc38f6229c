import Ostinato.Scheduler.Command

/-!
# Ostinato.Proofs.Scheduler.Effects

What commands and timers make of a scheduler.

A command yields an outcome and leaves a scheduler behind, also where it fails:
`m.outcome s` and `m.after s`.  For each part of a command there is one lemma
that says what it leaves behind; commands are put together from these.

Much of what a scheduler carries has no influence on what it plays: the journal,
the replies of the sounder, and what was told of errors.  Schedulers that are
the same but for that are `Alike`, and the lemmas about parts that report
something say no more than this.
-/

namespace Ostinato

/-! ## Running commands -/

namespace Scheduling

variable {α β : Type}

/-- What a command yields, or how it fails. -/
def outcome (m : Scheduling α) (s : Scheduler) : Except SchedulerError α := (m.run.run s).1

/-- The scheduler that a command leaves behind. -/
def after (m : Scheduling α) (s : Scheduler) : Scheduler := (m.run.run s).2

@[simp] theorem outcome_pure (a : α) (s : Scheduler) :
    outcome (pure a : Scheduling α) s = .ok a := rfl

@[simp] theorem after_pure (a : α) (s : Scheduler) : after (pure a : Scheduling α) s = s := rfl

@[simp] theorem outcome_throw (e : SchedulerError) (s : Scheduler) :
    outcome (throw e : Scheduling α) s = .error e := rfl

@[simp] theorem after_throw (e : SchedulerError) (s : Scheduler) :
    after (throw e : Scheduling α) s = s := rfl

/-- What goes on after a command that failed is not run. -/
theorem run_bind (m : Scheduling α) (f : α → Scheduling β) (s : Scheduler) :
    (m >>= f).run.run s = match m.run.run s with
      | (.ok a, s') => (f a).run.run s'
      | (.error e, s') => (.error e, s') := by
  change (m.run.run s |> fun p => (ExceptT.bindCont f p.1).run p.2) = _
  cases m.run.run s with
  | mk result s' => cases result <;> rfl

/-- Going on after a command that succeeds. -/
theorem after_bind {m : Scheduling α} {f : α → Scheduling β} {s : Scheduler} {a : α}
    (h : m.outcome s = .ok a) : (m >>= f).after s = (f a).after (m.after s) := by
  unfold outcome at h
  unfold after
  rw [run_bind]
  cases hm : m.run.run s with
  | mk result s' =>
      rw [hm] at h
      simp only at h
      rw [h]

/-- The outcome of what goes on is had from the scheduler left behind. -/
theorem outcome_bind {m : Scheduling α} {f : α → Scheduling β} {s : Scheduler} {a : α}
    (h : m.outcome s = .ok a) : (m >>= f).outcome s = (f a).outcome (m.after s) := by
  unfold outcome at h
  unfold outcome after
  rw [run_bind]
  cases hm : m.run.run s with
  | mk result s' =>
      rw [hm] at h
      simp only at h
      rw [h]

/-- A failure ends a command. -/
theorem after_bind_error {m : Scheduling α} {f : α → Scheduling β} {s : Scheduler}
    {e : SchedulerError} (h : m.outcome s = .error e) : (m >>= f).after s = m.after s := by
  unfold outcome at h
  unfold after
  rw [run_bind]
  cases hm : m.run.run s with
  | mk result s' =>
      rw [hm] at h
      simp only at h
      rw [h]

/-- A command that fails makes the whole fail. -/
theorem outcome_bind_error {m : Scheduling α} {f : α → Scheduling β} {s : Scheduler}
    {e : SchedulerError} (h : m.outcome s = .error e) : (m >>= f).outcome s = .error e := by
  unfold outcome at h
  unfold outcome
  rw [run_bind]
  cases hm : m.run.run s with
  | mk result s' =>
      rw [hm] at h
      simp only at h
      rw [h]

/-- A command in two parts succeeds only if both do. -/
theorem outcome_bind_eq_ok {m : Scheduling α} {f : α → Scheduling β} {s : Scheduler} {b : β}
    (h : (m >>= f).outcome s = .ok b) :
    ∃ a, m.outcome s = .ok a ∧ (f a).outcome (m.after s) = .ok b := by
  cases hm : m.outcome s with
  | ok a =>
      rw [outcome_bind hm] at h
      exact ⟨a, rfl, h⟩
  | error e =>
      rw [outcome_bind_error hm] at h
      nomatch h

@[simp] theorem after_get_bind (f : Scheduler → Scheduling β) (s : Scheduler) :
    after (get >>= f) s = after (f s) s := rfl

@[simp] theorem outcome_get_bind (f : Scheduler → Scheduling β) (s : Scheduler) :
    outcome (get >>= f) s = outcome (f s) s := rfl

@[simp] theorem after_set (t s : Scheduler) : after (set t : Scheduling Unit) s = t := rfl

@[simp] theorem after_set_bind (t : Scheduler) (f : Unit → Scheduling β) (s : Scheduler) :
    after (set t >>= f) s = after (f ()) t := rfl

@[simp] theorem outcome_set_bind (t : Scheduler) (f : Unit → Scheduling β) (s : Scheduler) :
    outcome (set t >>= f) s = outcome (f ()) t := rfl

@[simp] theorem after_modify (g : Scheduler → Scheduler) (s : Scheduler) :
    after (modify g : Scheduling Unit) s = g s := rfl

@[simp] theorem after_modify_bind (g : Scheduler → Scheduler) (f : Unit → Scheduling β)
    (s : Scheduler) : after (modify g >>= f) s = after (f ()) (g s) := rfl

@[simp] theorem outcome_modify_bind (g : Scheduler → Scheduler) (f : Unit → Scheduling β)
    (s : Scheduler) : outcome (modify g >>= f) s = outcome (f ()) (g s) := rfl

end Scheduling

namespace Scheduler

open Scheduling

variable {α β : Type}

@[simp] theorem orFault_ok (a : α) : orFault (.ok a) = pure a := rfl

@[simp] theorem orFault_error (cause : Fault) :
    orFault (.error cause : Except Fault α) = throw (.fault cause) := rfl

/-- Going on with a computation changes nothing by itself. -/
@[simp] theorem after_orFault (result : Except Fault α) (s : Scheduler) :
    (orFault result).after s = s := by
  cases result <;> rfl

/-! ## Alike schedulers -/

/-- A scheduler without its journal and what it heard from and told to others. -/
def silent (s : Scheduler) : Scheduler := { s with
  sounder := ⟨none, fun _ _ => .sounded⟩
  listener := none
  journal := Journal.initial
  trace := ⟨s.trace.attempts.map fun call => (call.1, .sounded), [], []⟩
  told := 0 }

/-- Schedulers that differ in nothing that has an influence on the playing. -/
def Alike (s t : Scheduler) : Prop := s.silent = t.silent

namespace Alike

variable {s t u : Scheduler}

theorem refl (s : Scheduler) : Alike s s := rfl

theorem symm (h : Alike s t) : Alike t s := Eq.symm h

theorem trans (h : Alike s t) (h' : Alike t u) : Alike s u := Eq.trans h h'

/-- Alike schedulers agree in all that can be read off without what is erased. -/
theorem field {γ : Type} (h : Alike s t) (f : Scheduler → γ) (hf : ∀ u, f u.silent = f u) :
    f s = f t := by
  rw [← hf s, ← hf t]
  exact congrArg f h

theorem items (h : Alike s t) : s.items = t.items := h.field Scheduler.items fun _ => rfl

theorem run (h : Alike s t) : s.run = t.run := h.field Scheduler.run fun _ => rfl

theorem rate (h : Alike s t) : s.rate = t.rate := h.field Scheduler.rate fun _ => rfl

theorem pendingRate (h : Alike s t) : s.pendingRate = t.pendingRate :=
  h.field Scheduler.pendingRate fun _ => rfl

theorem generation (h : Alike s t) : s.generation = t.generation :=
  h.field Scheduler.generation fun _ => rfl

theorem boundary (h : Alike s t) : s.boundary = t.boundary :=
  h.field Scheduler.boundary fun _ => rfl

theorem clock (h : Alike s t) : s.clock = t.clock := h.field Scheduler.clock fun _ => rfl

theorem performance (h : Alike s t) : s.performance = t.performance :=
  h.field Scheduler.performance fun _ => rfl

/-- What the sounder was asked for. -/
theorem attempts (h : Alike s t) :
    s.trace.attempts.map (·.1) = t.trace.attempts.map (·.1) :=
  h.field (fun u => u.trace.attempts.map (·.1)) fun u => by simp [silent]

end Alike

/-- An entry in the journal. -/
theorem alike_log (category message : String) (level : Int) (s : Scheduler) :
    Alike ((log category message level).after s) s := rfl

/-- Telling of an error: what the listener does matters only to the journal. -/
theorem alike_report (error : SoundError) (s : Scheduler) :
    Alike ((report error).after s) s := by
  unfold report
  rw [after_modify_bind, after_bind rfl, after_get_bind]
  split
  · rfl
  · rw [after_set_bind]
    split <;> rfl

/-! ## Sounding -/

/-- The scheduler once the sounder was asked for an event. -/
def asked (s : Scheduler) (attempt : Attempt) : Scheduler := { s with
  attempted := s.attempted + 1
  trace := { s.trace with
    attempts := s.trace.attempts ++ [(attempt, s.sounder.reply s.attempted attempt)] } }

/-- Asking the sounder, whatever it replies. -/
theorem alike_sound (attempt : Attempt) (s : Scheduler) :
    Alike ((sound attempt).after s) (s.asked attempt) := by
  unfold sound
  rw [after_get_bind]
  simp only [after_set_bind]
  split
  · exact Alike.refl _
  · exact alike_report _ _

/-- Schedulers that are alike are asked alike. -/
theorem Alike.asked {s t : Scheduler} (h : Alike s t) (attempt : Attempt) :
    Alike (s.asked attempt) (t.asked attempt) := by
  have herased : ∀ u : Scheduler, (u.asked attempt).silent = (u.silent.asked attempt).silent := by
    intro u
    simp [Scheduler.asked, silent]
  unfold Alike
  rw [herased s, herased t]
  exact congrArg (fun u => (u.asked attempt).silent) (show s.silent = t.silent from h)

end Scheduler

namespace Scheduled

/-- A scheduled event after the one with a number met its fate. -/
def fated (id : Nat) (fate : Fate) (item : Scheduled) : Scheduled :=
  if item.id = id then { item with fate := fate } else item

/-- What the sounder is asked for when an event is fired. -/
def attempt (item : Scheduled) : Attempt := ⟨item.event.value, item.fireTime, item.duration⟩

@[simp] theorem id_fated (id : Nat) (fate : Fate) (item : Scheduled) :
    (item.fated id fate).id = item.id := by
  unfold fated
  split <;> rfl

@[simp] theorem attempt_fated (id : Nat) (fate : Fate) (item : Scheduled) :
    (item.fated id fate).attempt = item.attempt := by
  unfold fated
  split <;> rfl

@[simp] theorem event_fated (id : Nat) (fate : Fate) (item : Scheduled) :
    (item.fated id fate).event = item.event := by
  unfold fated
  split <;> rfl

end Scheduled

namespace Scheduler

open Scheduling

/-! ## The fate of an event -/

/-- Whether an event is still to be sounded or cancelled. -/
def isOpen (s : Scheduler) (id : Nat) : Bool := (s.item? id).any (·.fate == .pending)

/-- The scheduler once an event met its fate. -/
def settle (s : Scheduler) (id : Nat) (fate : Fate) : Scheduler := { s with
  items := s.items.map (·.fated id fate)
  run := s.run.map fun run => { run with pending := run.pending.filter (· != id) } }

/-- The event found under a number has that number. -/
theorem id_of_item? {s : Scheduler} {id : Nat} {item : Scheduled} (h : s.item? id = some item) :
    item.id = id := by
  have hfound := List.find?_some h
  simpa using hfound

/-- An event is open if it was scheduled and is pending. -/
theorem isOpen_eq_true {s : Scheduler} {id : Nat} :
    s.isOpen id = true ↔ ∃ item, s.item? id = some item ∧ item.fate = .pending := by
  unfold isOpen
  rw [Option.any_eq_true]
  simp

/-- The first to settle the fate of an event succeeds. -/
theorem outcome_claim (id : Nat) (fate : Fate) (s : Scheduler) :
    (claim id fate).outcome s = .ok (s.isOpen id) := by
  unfold claim isOpen
  rw [outcome_get_bind]
  cases h : s.item? id with
  | none => rfl
  | some item =>
      by_cases hfate : item.fate = .pending
      · simp only [hfate, bne_self_eq_false, Bool.false_eq_true, if_false, outcome_set_bind,
          outcome_pure, Option.any_some, beq_self_eq_true]
      · simp [hfate]

/-- A claim settles the fate of an open event, and leaves any other as it is. -/
theorem after_claim (id : Nat) (fate : Fate) (s : Scheduler) :
    (claim id fate).after s =
      if s.isOpen id then { s with items := s.items.map (·.fated id fate) } else s := by
  unfold claim isOpen
  rw [after_get_bind]
  cases h : s.item? id with
  | none => rfl
  | some item =>
      by_cases hfate : item.fate = .pending
      · simp only [hfate, bne_self_eq_false, Bool.false_eq_true, if_false, after_set_bind,
          after_pure, Option.any_some, beq_self_eq_true, if_true]
        rfl
      · simp [hfate]

/-- An event is looked up by the same number after it met its fate. -/
theorem item?_settle (s : Scheduler) (id : Nat) (fate : Fate) (other : Nat) :
    (s.settle id fate).item? other = (s.item? other).map (·.fated id fate) := by
  unfold item? settle
  rw [List.find?_map]
  have hsame : ((fun item : Scheduled => decide (item.id = other)) ∘ Scheduled.fated id fate) =
      fun item : Scheduled => decide (item.id = other) := by
    funext item
    simp
  exact congrArg (fun test => (s.items.find? test).map (Scheduled.fated id fate)) hsame

/-! ## Cancelling -/

/-- The scheduler once an event was cancelled with its timer. -/
def cancelled (s : Scheduler) (item : Scheduled) : Scheduler :=
  { s.settle item.id .cancelled with clock := s.clock.settle item.timer }

/-- Cancelling an event that met its fate already does nothing. -/
theorem cancel_closed {s : Scheduler} {item : Scheduled} (h : s.isOpen item.id = false) :
    (cancel item).outcome s = .ok false ∧ (cancel item).after s = s := by
  have hclaim := outcome_claim item.id .cancelled s
  have hafter := after_claim item.id .cancelled s
  rw [h] at hclaim hafter
  unfold cancel
  rw [outcome_bind hclaim, after_bind hclaim, hafter]
  exact ⟨rfl, rfl⟩

/-- An open event is cancelled, also where no entry can be made for it. -/
theorem cancel_open {s : Scheduler} {item : Scheduled} (h : s.isOpen item.id = true) :
    Alike ((cancel item).after s) (s.cancelled item) ∧
      (item.event.value.isWritable = true → (cancel item).outcome s = .ok true) := by
  have hclaim := outcome_claim item.id .cancelled s
  have hafter := after_claim item.id .cancelled s
  rw [h] at hclaim hafter
  unfold cancel
  rw [outcome_bind hclaim, after_bind hclaim, hafter]
  simp only [if_true, after_modify_bind, outcome_modify_bind]
  unfold removePending modifyRun
  simp only [after_modify_bind, outcome_modify_bind]
  unfold Value.written
  cases item.event.value.isWritable with
  | true => exact ⟨Alike.refl _, fun _ => rfl⟩
  | false => exact ⟨Alike.refl _, fun hw => nomatch hw⟩

/-! ## Firing -/

/-- Firing an event that met its fate already does nothing. -/
theorem fire_closed {s : Scheduler} {id : Nat} (h : s.isOpen id = false) :
    (fire id).after s = s := by
  have hclaim := outcome_claim id .sounded s
  have hafter := after_claim id .sounded s
  rw [h] at hclaim hafter
  unfold fire
  rw [after_bind hclaim, hafter]
  rfl

/-- Firing a settled event does nothing. -/
theorem outcome_fire_closed {s : Scheduler} {id : Nat} (h : s.isOpen id = false) :
    (fire id).outcome s = .ok () := by
  have hclaim := outcome_claim id .sounded s
  rw [h] at hclaim
  unfold fire
  rw [outcome_bind hclaim]
  rfl

/-- Firing an open event settles its fate before anything is written. -/
theorem after_fire {s : Scheduler} {id : Nat} {item : Scheduled} (hitem : s.item? id = some item)
    (hfate : item.fate = .pending) :
    (fire id).after s = after (do
      let _ ← orFault item.event.value.written
      log "fire" (item.event.value.shown ++ " at=" ++ Double.fixedText item.fireTime ++
        " dur=" ++ Double.fixedText item.duration) 2
      sound item.attempt) (s.settle id .sounded) := by
  have hopen : s.isOpen id = true := isOpen_eq_true.mpr ⟨item, hitem, hfate⟩
  have hclaim := outcome_claim id .sounded s
  have hafter := after_claim id .sounded s
  rw [hopen] at hclaim hafter
  have hid := id_of_item? hitem
  have hfound : (s.settle id .sounded).item? id = some { item with fate := .sounded } := by
    rw [item?_settle, hitem, Option.map_some]
    unfold Scheduled.fated
    rw [if_pos hid]
  unfold fire
  rw [after_bind hclaim, hafter]
  simp only [if_true]
  unfold removePending modifyRun
  rw [after_modify_bind]
  change after (get >>= _) (s.settle id .sounded) = _
  rw [after_get_bind, hfound]
  rfl

/-- An open event is sounded if it can be written. -/
theorem fire_writable {s : Scheduler} {id : Nat} {item : Scheduled}
    (hitem : s.item? id = some item) (hfate : item.fate = .pending)
    (hwritable : item.event.value.isWritable = true) :
    Alike ((fire id).after s) ((s.settle id .sounded).asked item.attempt) := by
  rw [after_fire hitem hfate]
  unfold Value.written
  rw [if_pos hwritable, orFault_ok, pure_bind, after_bind rfl]
  exact (alike_sound _ _).trans ((alike_log _ _ _ _).asked _)

/-- An open event that cannot be written is given up. -/
theorem fire_unwritable {s : Scheduler} {id : Nat} {item : Scheduled}
    (hitem : s.item? id = some item) (hfate : item.fate = .pending)
    (hwritable : item.event.value.isWritable = false) :
    (fire id).after s = s.settle id .sounded := by
  rw [after_fire hitem hfate]
  unfold Value.written
  rw [if_neg (by rw [hwritable]; exact Bool.false_ne_true), orFault_error]
  rfl

/-! ## Patterns and rates -/

/-- Reading a pattern leaves traces only in the journal. -/
theorem alike_coerce (v : Value) (s : Scheduler) : Alike ((coerce v).after s) s := by
  cases v with
  | text notated =>
      unfold coerce
      simp only [after_get_bind]
      cases s.journal.read s.transforms (.text notated) with
      | mk result journal => cases result <;> rfl
  | _ => rfl

/-- A rate that is set while a pattern plays waits for the end of the cycle. -/
theorem alike_setRate {s : Scheduler} (hrun : s.isRunning = true) {v : Value} {rate : Float}
    (hrate : checkRate v = .ok rate) :
    Alike ((setRate v).after s) { s with pendingRate := some rate } := by
  unfold setRate
  rw [hrate, orFault_ok, pure_bind, after_get_bind, if_pos hrun]
  rfl

/-- A rate that is set while nothing plays takes effect at once. -/
theorem setRate_of_stopped {s : Scheduler} (hrun : s.isRunning = false) {v : Value} {rate : Float}
    (hrate : checkRate v = .ok rate) : (setRate v).after s = { s with rate := rate } := by
  unfold setRate
  rw [hrate, orFault_ok, pure_bind, after_get_bind,
    if_neg (by rw [hrun]; exact Bool.false_ne_true)]
  rfl

/-- A rate that is not accepted changes nothing. -/
theorem setRate_error {v : Value} {cause : Fault} (hrate : checkRate v = .error cause)
    (s : Scheduler) : (setRate v).after s = s := by
  unfold setRate
  rw [hrate, orFault_error, after_bind_error rfl]
  rfl

/-- Switching the journal has no influence on the playing. -/
theorem alike_configureJournal (enable : Value) (level : Option Value) (s : Scheduler) :
    Alike ((configureJournal enable level).after s) s := by
  unfold configureJournal
  simp only [after_get_bind, after_set_bind, after_orFault]
  rfl

/-- The scheduler with the rate that was waiting for the end of the cycle. -/
def rated (s : Scheduler) : Scheduler :=
  { s with rate := s.pendingRate.getD s.rate, pendingRate := none }

/-- Taking up a rate does not fail, and the rate that was waiting is the rate from
then on. -/
theorem alike_adoptRate (s : Scheduler) :
    Alike (adoptRate.after s) s.rated ∧ adoptRate.outcome s = .ok () := by
  obtain ⟨ts, ps, policy, seed, sounder, listener, rate, pendingRate, run, items, generation,
    boundary, clock, journal, trace, attempted, told⟩ := s
  cases pendingRate <;> exact ⟨rfl, rfl⟩

/-! ## Stopping -/

/-- The scheduler of a later generation, with no boundary ahead. -/
def halted (s : Scheduler) : Scheduler := { s with
  generation := s.generation + 1
  boundary := none
  clock := match s.boundary with
    | some timer => s.clock.settle timer
    | none => s.clock }

/-- What stopping can come to: nothing plays, it fails at an event that cannot
be written, or everything is cancelled. -/
theorem stop_cases (s : Scheduler) :
    stop.after s = s ∨ stop.after s = (cancelAll s.pendingItems).after s.halted ∨
      ∃ count, (cancelAll s.pendingItems).outcome s.halted = .ok count ∧
        Alike (stop.after s)
          { (cancelAll s.pendingItems).after s.halted with run := none, pendingRate := none } := by
  unfold stop
  rw [after_get_bind]
  cases s.isRunning with
  | false => exact .inl rfl
  | true =>
      simp only [if_true, after_set_bind]
      change after _ s.halted = s ∨ after _ s.halted = _ ∨ ∃ count, _ ∧ Alike (after _ s.halted) _
      cases hok : (cancelAll s.pendingItems).outcome s.halted with
      | error e => exact .inr (.inl (after_bind_error hok))
      | ok count =>
          refine .inr (.inr ⟨count, rfl, ?_⟩)
          rw [after_bind hok, after_modify_bind]
          exact alike_log _ _ _ _

end Scheduler

end Ostinato
