import Ostinato.Proofs.Scheduler.Bookings

/-!
# Ostinato.Proofs.Scheduler.Changes

Relations between a scheduler and what becomes of it.

A command is made of few changes: an event is booked, cancelled or fired, the
pattern or the rate is another, and something is told.  A relation that is kept
by each of them (`Tracks`) holds across every command that is made of nothing
else, also where it fails halfway.
-/

namespace Ostinato

namespace Scheduler

open Scheduling

/-- A relation that single changes of a scheduler keep. -/
structure Tracks (R : Scheduler → Scheduler → Prop) : Prop where
  trans : ∀ {s t u}, R s t → R t u → R s u
  alike : ∀ {s t}, Alike s t → R s t
  cancelled : ∀ {s item}, s.isOpen item.id = true → R s (s.cancelled item)
  sounded : ∀ {s id item}, s.item? id = some item → item.fate = .pending →
    item.event.value.isWritable = true → R s ((s.settle id .sounded).asked item.attempt)
  givenUp : ∀ {s id item}, s.item? id = some item → item.fate = .pending →
    item.event.value.isWritable = false → R s (s.settle id .sounded)
  booked : ∀ {s} b, s.isRunning = true → R s (s.book b)
  swapped : ∀ s node, R s { s with run := s.run.map fun run => { run with pattern := node } }
  rated : ∀ s rate pendingRate, R s { s with rate := rate, pendingRate := pendingRate }

namespace Tracks

/-- Two relations that single changes keep, taken together. -/
theorem and {R S : Scheduler → Scheduler → Prop} (h : Tracks R) (h' : Tracks S) :
    Tracks fun s t => R s t ∧ S s t where
  trans := fun hst htu => ⟨h.trans hst.1 htu.1, h'.trans hst.2 htu.2⟩
  alike := fun halike => ⟨h.alike halike, h'.alike halike⟩
  cancelled := fun hopen => ⟨h.cancelled hopen, h'.cancelled hopen⟩
  sounded := fun hitem hfate hwritable =>
    ⟨h.sounded hitem hfate hwritable, h'.sounded hitem hfate hwritable⟩
  givenUp := fun hitem hfate hwritable =>
    ⟨h.givenUp hitem hfate hwritable, h'.givenUp hitem hfate hwritable⟩
  booked := fun b hrunning => ⟨h.booked b hrunning, h'.booked b hrunning⟩
  swapped := fun s node => ⟨h.swapped s node, h'.swapped s node⟩
  rated := fun s rate pendingRate => ⟨h.rated s rate pendingRate, h'.rated s rate pendingRate⟩

variable {R : Scheduler → Scheduler → Prop} (h : Tracks R)

include h

theorem refl (s : Scheduler) : R s s := h.alike (Alike.refl s)

/-- Up to what is told. -/
theorem of_alike {s t u : Scheduler} (hst : R s t) (halike : Alike u t) : R s u :=
  h.trans hst (h.alike halike.symm)

/-- One command after another. -/
theorem bind {α β : Type} {m : Scheduling α} {f : α → Scheduling β} {s : Scheduler}
    (hm : R s (m.after s)) (hf : ∀ a, m.outcome s = .ok a → R (m.after s) ((f a).after (m.after s))) :
    R s ((m >>= f).after s) := by
  cases houtcome : m.outcome s with
  | ok a =>
      rw [after_bind houtcome]
      exact h.trans hm (hf a houtcome)
  | error e =>
      rw [after_bind_error houtcome]
      exact hm

/-- Going on with a computation, whatever comes of it. -/
theorem orFault_bind {α β : Type} (result : Except Fault α) {f : α → Scheduling β}
    {s : Scheduler} (hf : ∀ a, R s ((f a).after s)) : R s ((orFault result >>= f).after s) := by
  cases result with
  | error cause => exact h.refl s
  | ok a => exact hf a

/-- Cancelling an event settles its fate with its timer, or changes nothing. -/
theorem cancel (item : Scheduled) (s : Scheduler) : R s ((cancel item).after s) := by
  cases hopen : s.isOpen item.id with
  | false =>
      rw [(cancel_closed hopen).2]
      exact h.refl s
  | true => exact h.of_alike (h.cancelled hopen) (cancel_open hopen).1

/-- Events are cancelled one after another, up to the first that fails. -/
theorem cancelAll (items : List Scheduled) (s : Scheduler) : R s ((cancelAll items).after s) := by
  induction items generalizing s with
  | nil => exact h.refl s
  | cons item items ih =>
      unfold Scheduler.cancelAll
      refine h.bind (h.cancel item s) fun done _ => ?_
      exact h.bind (ih _) fun _ _ => h.refl _

/-- Firing an event sounds it, gives it up, or finds it settled. -/
theorem fire (id : Nat) (s : Scheduler) : R s ((fire id).after s) := by
  cases hopen : s.isOpen id with
  | false =>
      rw [fire_closed hopen]
      exact h.refl s
  | true =>
      obtain ⟨item, hitem, hfate⟩ := isOpen_eq_true.mp hopen
      cases hwritable : item.event.value.isWritable with
      | true =>
          exact h.of_alike (h.sounded hitem hfate hwritable) (fire_writable hitem hfate hwritable)
      | false =>
          rw [fire_unwritable hitem hfate hwritable]
          exact h.givenUp hitem hfate hwritable

/-- Events are booked one after another. -/
theorem bookAll {s : Scheduler} (hrunning : s.isRunning = true) (bookings : List Booking) :
    R s (s.bookAll bookings) := by
  induction bookings generalizing s with
  | nil => exact h.refl s
  | cons b bookings ih =>
      have hbook : (s.book b).isRunning = true := by
        rw [isRunning_book]
        exact hrunning
      exact h.trans (h.booked b hrunning) (ih hbook)

/-- The events of a cycle are all booked, or none of them is. -/
theorem scheduleCycle (place : Option Rat) (s : Scheduler) :
    R s ((scheduleCycle place).after s) := by
  cases hrun : s.run with
  | none =>
      unfold Scheduler.scheduleCycle
      rw [after_get_bind, hrun]
      exact h.refl s
  | some run =>
      cases hplan : s.performance.plan run.pattern run.cycleIndex run.cycleStart s.rate place with
      | error cause =>
          rw [(scheduleCycle_error hrun hplan).2]
          exact h.refl s
      | ok bookings =>
          rw [(scheduleCycle_ok hrun hplan).2]
          exact h.bookAll (isRunning_of_run hrun) bookings

/-- A replacement cancels, takes up the pattern, and books; it may fail in between. -/
theorem replace (v : Value) (s : Scheduler) : R s ((replace v).after s) := by
  unfold Scheduler.replace
  refine h.bind (h.alike (alike_coerce v s).symm) fun node _ => ?_
  rw [after_get_bind]
  cases hrun : ((coerce v).after s).run with
  | none => exact h.refl _
  | some run =>
      refine h.orFault_bind _ fun place => ?_
      refine h.bind (h.cancelAll _ _) fun cancelled _ => ?_
      refine h.bind (h.swapped _ node) fun _ _ => ?_
      refine h.bind (h.scheduleCycle _ _) fun scheduled _ => ?_
      refine h.orFault_bind _ fun shownPlace => ?_
      refine h.orFault_bind _ fun shown => ?_
      exact h.alike (alike_log _ _ _ _).symm

/-- A new rate is taken up or waits. -/
theorem setRate (v : Value) (s : Scheduler) : R s ((setRate v).after s) := by
  cases hrate : checkRate v with
  | error cause =>
      rw [setRate_error hrate]
      exact h.refl s
  | ok rate =>
      cases hrunning : s.isRunning with
      | true =>
          exact h.of_alike (h.rated s s.rate (some rate)) (alike_setRate hrunning hrate)
      | false =>
          rw [setRate_of_stopped hrunning hrate]
          exact h.rated s rate s.pendingRate

/-- The journal has no part in the playing. -/
theorem configureJournal (enable : Value) (level : Option Value) (s : Scheduler) :
    R s ((configureJournal enable level).after s) :=
  h.alike (alike_configureJournal enable level s).symm

end Tracks

end Scheduler

end Ostinato
