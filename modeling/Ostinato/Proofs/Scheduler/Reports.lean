import Ostinato.Proofs.Scheduler.Indifference
import Ostinato.Proofs.Scheduler.Survival

/-!
# Ostinato.Proofs.Scheduler.Reports

Sounders that fail, and who is told of it.

All that a scheduler has to do with others is its `Exchange` with the sounder
and the listener.  Whatever happens, it grows by calls of the sounder only
(`exchanges_next`), and each call that fails is told of once (`Faithful.call`).
Together with the indifference of commands to what is told, failures neither
hold up nor change what is played (`failures_inert`).
-/

namespace Ostinato

namespace Exchange

/-- Nothing asked, nothing told. -/
def initial (sounder : Sounder) (listener : Option Listener) : Exchange :=
  ⟨sounder, listener, Trace.empty, 0, 0⟩

/-- Every call was replied to by the sounder, and every failure was told of
once, in the order of the calls. -/
structure Faithful (x : Exchange) : Prop where
  attempted : x.attempted = x.trace.attempts.length
  replies : ∀ i call, x.trace.attempts[i]? = some call → call.2 = x.sounder.reply i call.1
  errors : x.trace.errors = x.trace.attempts.filterMap fun call => call.2.error? call.1
  reports : x.trace.reports = if x.listener.isSome then x.trace.errors else []
  told : x.told = x.trace.reports.length

/-- One more call keeps the exchange faithful: its reply is the sounder's, and an
error it ends with is told of once. -/
theorem Faithful.call {x : Exchange} (h : x.Faithful) (attempt : Attempt) :
    (x.call attempt).Faithful where
  attempted := by
    unfold Exchange.call
    simp [h.attempted]
  replies := by
    intro i call hcall
    unfold Exchange.call at hcall ⊢
    simp only [List.getElem?_append, ← h.attempted] at hcall ⊢
    split at hcall
    · exact h.replies i call hcall
    · rw [List.getElem?_singleton] at hcall
      split at hcall
      · have hindex : i = x.attempted := by omega
        rw [← Option.some.inj hcall, hindex]
      · nomatch hcall
  errors := by
    unfold Exchange.call
    simp only [h.errors, List.filterMap_append]
    congr 1
  reports := by
    unfold Exchange.call
    simp only [h.reports]
    split <;> simp
  told := by
    unfold Exchange.call
    simp [h.told]

end Exchange

namespace Scheduler

open Scheduling

/-- Nothing was exchanged but calls of the sounder. -/
def Exchanges (x y : Exchange) : Prop :=
  ∃ attempts : List Attempt, y = attempts.foldl Exchange.call x

/-- Calls after calls are calls. -/
theorem Exchanges.trans {x y z : Exchange} (h : Exchanges x y) (h' : Exchanges y z) :
    Exchanges x z := by
  obtain ⟨attempts, rfl⟩ := h
  obtain ⟨more, rfl⟩ := h'
  exact ⟨attempts ++ more, List.foldl_append.symm⟩

/-- Alike schedulers move the clock forward by the same steps. -/
theorem Alike.stepsWithin {s t : Scheduler} (h : Alike s t) (limit : Nat) (time : Float) :
    stepsWithin limit time s = stepsWithin limit time t := by
  induction limit generalizing s t with
  | zero => rfl
  | succ limit ih =>
      unfold Scheduler.stepsWithin
      rw [h.clock]
      cases t.clock.next? time with
      | none => rfl
      | some timer =>
          have hrung : Alike ((s.atTime (t.clock.moveTo timer.due).now).expired timer.id)
              ((t.atTime (t.clock.moveTo timer.due).now).expired timer.id) :=
            congrArg (fun u : Scheduler =>
              (u.atTime (t.clock.moveTo timer.due).now).expired timer.id)
              (show s.silent = t.silent from h)
          obtain ⟨houtcome, hafter⟩ := hrung.perform timer.task
          simp only
          rw [houtcome]
          split
          · rw [ih hafter]
          · rfl

/-- Alike schedulers take the same steps in a run. -/
theorem Alike.steps {s t : Scheduler} (h : Alike s t) (os : List Occurrence) :
    steps os s = steps os t := by
  induction os generalizing s t with
  | nil => rfl
  | cons o os ih =>
      have ho : o.steps s = o.steps t := by
        cases o with
        | advance time => exact h.stepsWithin patience time
        | _ => rfl
      unfold Scheduler.steps
      rw [ho, ih (h.next o).2]

end Scheduler

end Ostinato
