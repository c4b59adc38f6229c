import Ostinato.Proofs.Scheduler.Timers

/-!
# Ostinato.Proofs.Scheduler.Tempo

When cycles begin and how fast they are played.

A tempo says when cycle zero begins, at which rate, and which rates are set
during each cycle; a rate that is set takes effect in the next cycle, the last
one if there are several.  `ratesSet` reads the rates off a run in which a
pattern is left to play.
-/

namespace Ostinato

/-- The beginning and the rate of cycle zero, and the rates set during each
cycle. -/
structure Tempo where
  begin : Float
  first : Float
  set : Nat → List Float

namespace Tempo

/-- The rate at which a cycle is played: the last one set during the cycle
before, or else the same as there. -/
def rate (t : Tempo) : Nat → Float
  | 0 => t.first
  | k + 1 => (t.set k).getLast?.getD (t.rate k)

/-- The time at which a cycle begins. -/
def start (t : Tempo) : Nat → Float
  | 0 => t.begin
  | k + 1 => t.start k + 1.0 / t.rate k

/-- The tempo with more rates set during a cycle. -/
def more (t : Tempo) (cycle : Nat) (rates : List Float) : Tempo :=
  { t with set := fun k => t.set k ++ if k = cycle then rates else [] }

theorem more_nil (t : Tempo) (cycle : Nat) : t.more cycle [] = t := by
  unfold more
  simp

/-- The rates set in the cycle come after those set before. -/
theorem set_more (t : Tempo) (cycle : Nat) (rates : List Float) :
    (t.more cycle rates).set cycle = t.set cycle ++ rates := by
  unfold more
  simp

/-- Other cycles have no more rates set. -/
theorem set_more_of_ne (t : Tempo) {cycle k : Nat} (h : k ≠ cycle) (rates : List Float) :
    (t.more cycle rates).set k = t.set k := by
  unfold more
  simp [h]

/-- Rates set during a cycle change neither its own rate nor earlier ones. -/
theorem rate_more (t : Tempo) {cycle k : Nat} (h : k ≤ cycle) (rates : List Float) :
    (t.more cycle rates).rate k = t.rate k := by
  induction k with
  | zero => rfl
  | succ k ih =>
      have hne : k ≠ cycle := by omega
      unfold rate
      rw [set_more_of_ne t hne, ih (by omega)]

/-- Rates set in a cycle move no beginning up to its own. -/
theorem start_more (t : Tempo) {cycle k : Nat} (h : k ≤ cycle) (rates : List Float) :
    (t.more cycle rates).start k = t.start k := by
  induction k with
  | zero => rfl
  | succ k ih =>
      unfold start
      rw [ih (by omega), rate_more t (by omega)]

end Tempo

namespace Occurrence

/-- Whether an occurrence leaves what plays to play on.  Of the timers that may
go off after they were cancelled, or again, these are the first `n`, which are
from before. -/
def letsPlay (n : Nat) : Occurrence → Bool
  | setRate _ | configureJournal _ _ | advance _ | jump _ | ring _ => true
  | poke timer => timer < n
  | start _ _ | replace _ | stop => false

/-- The rates that an occurrence sets: at most one, if it is accepted. -/
def rates : Occurrence → List Float
  | setRate v => (Scheduler.checkRate v).toOption.toList
  | _ => []

end Occurrence

namespace Scheduler

/-- The number of the cycle that is being played. -/
def cycle (s : Scheduler) : Int := (s.run.map (·.cycleIndex)).getD 0

/-- The rates set during a cycle of a run. -/
def ratesSet (k : Int) : Scheduler → List Occurrence → List Float
  | _, [] => []
  | s, o :: os => (if s.cycle = k then o.rates else []) ++ ratesSet k (o.next s) os

/-- The last occurrence of a run comes after those before. -/
theorem ratesSet_concat (k : Int) (s : Scheduler) (os : List Occurrence) (o : Occurrence) :
    ratesSet k s (os ++ [o]) =
      ratesSet k s os ++ if (afterAll os s).cycle = k then o.rates else [] := by
  induction os generalizing s with
  | nil =>
      change (if s.cycle = k then o.rates else []) ++ [] = [] ++ _
      rw [List.append_nil, List.nil_append]
      rfl
  | cons first os ih =>
      rw [List.cons_append, ratesSet, ratesSet, ih, List.append_assoc]
      rfl

/-! ## Cycles that pass -/

/-- The same cycle is played, if any. -/
def SameCycle (s t : Scheduler) : Prop := t.run.map (·.cycleIndex) = s.run.map (·.cycleIndex)

theorem SameCycle.cycle_eq {s t : Scheduler} (h : SameCycle s t) : t.cycle = s.cycle := by
  unfold cycle
  rw [show t.run.map (·.cycleIndex) = s.run.map (·.cycleIndex) from h]

/-- None of the changes that commands are made of ends a cycle. -/
theorem tracks_sameCycle : Tracks SameCycle where
  trans := fun hst htu => Eq.trans htu hst
  alike := fun h => by unfold SameCycle; rw [h.run]
  cancelled := by
    intro s item _
    unfold SameCycle cancelled settle
    rw [Option.map_map]
    rfl
  sounded := by
    intro s id item _ _ _
    unfold SameCycle asked settle
    rw [Option.map_map]
    rfl
  givenUp := by
    intro s id item _ _ _
    unfold SameCycle settle
    rw [Option.map_map]
    rfl
  booked := by
    intro s b _
    unfold SameCycle book
    rw [Option.map_map]
    rfl
  swapped := by
    intro s node
    unfold SameCycle
    rw [Option.map_map]
    rfl
  rated := fun s rate pendingRate => rfl

/-- No cycle is played before one that was played already. -/
def Later (s t : Scheduler) : Prop := s.cycle ≤ t.cycle

theorem SameCycle.later {s t : Scheduler} (h : SameCycle s t) : Later s t :=
  Int.le_of_eq h.cycle_eq.symm

theorem Later.trans {s t u : Scheduler} (h : Later s t) (h' : Later t u) : Later s u :=
  Int.le_trans h h'

/-- The next cycle is later. -/
theorem later_turned {s : Scheduler} {run : Run} (hrun : s.run = some run) :
    Later s (s.turned run) := by
  unfold Later cycle turned
  rw [hrun]
  simp only [Option.map_some, Option.getD_some]
  omega

theorem run_armed (s : Scheduler) : s.armed.run = s.run := by
  unfold armed
  cases hrun : s.run with
  | none => exact hrun
  | some run => rfl

/-- A task begins the next cycle or stays in this one. -/
theorem later_perform (task : Task) (s : Scheduler) : Later s ((perform task).after s) := by
  cases task with
  | fire id => exact (tracks_sameCycle.fire id s).later
  | boundary generation =>
      change Later s ((passBoundary generation).after s)
      rcases passBoundary_cases generation s with hsame | ⟨run, hrun, -, hturned | ⟨bs, hbooked⟩⟩
      · rw [hsame]
        exact (tracks_sameCycle.refl s).later
      · exact (later_turned hrun).trans (tracks_sameCycle.alike hturned.symm).later
      · have harmed : SameCycle (s.turned run) ((s.turned run).bookAll bs).armed := by
          unfold SameCycle
          rw [run_armed]
          exact tracks_sameCycle.bookAll rfl bs
        exact (later_turned hrun).trans (tracks_sameCycle.of_alike harmed hbooked).later

/-- While a pattern is left to play, its cycles only move on. -/
theorem later_next {o : Occurrence} {n : Nat} (ho : o.letsPlay n = true) (s : Scheduler) :
    Later s (o.next s) := by
  refine next_related (R := Later) tracks_sameCycle SameCycle.later Later.trans
    (fun _ _ => Int.le_refl _) (fun s t _ => later_perform t.task (s.expired t.id)) ?_ ?_
    fun t _ _ => later_perform t.task s
  · rintro v given rfl
    nomatch ho
  · rintro rfl
    nomatch ho

end Scheduler

end Ostinato
