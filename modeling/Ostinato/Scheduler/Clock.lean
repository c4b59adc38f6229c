/-!
# Ostinato.Scheduler.Clock

A clock that is moved by hand, with timers on it.

Timers are numbered as they are made.  A timer waits until it is taken or
cancelled; taking always yields the earliest one that is due, of several with
equal times the one made first.
-/

namespace Ostinato

/-- A task and the time at which it is due. -/
structure Timer (α : Type) where
  id : Nat
  due : Float
  task : α
  waiting : Bool

/-- A time and all timers ever made, the first one first. -/
structure Clock (α : Type) where
  now : Float
  timers : List (Timer α)

namespace Clock

variable {α : Type}

/-- Makes a timer; yields its number. -/
def arm (c : Clock α) (due : Float) (task : α) : Nat × Clock α :=
  let id := c.timers.length
  (id, { c with timers := c.timers ++ [⟨id, due, task, true⟩] })

/-- Ends the waiting of a timer. -/
def settle (c : Clock α) (id : Nat) : Clock α :=
  { c with timers := c.timers.map fun t => if t.id = id then { t with waiting := false } else t }

/-- The timer with a number. -/
def timer? (c : Clock α) (id : Nat) : Option (Timer α) := c.timers.find? (·.id = id)

/-- The timers that wait, in the order in which they were made. -/
def live (c : Clock α) : List (Timer α) := c.timers.filter (·.waiting)

/-- The earlier of two timers, the first one if they are due together. -/
def earlier (s t : Timer α) : Timer α := if t.due < s.due then t else s

/-- The earliest of some timers. -/
def earliest? : List (Timer α) → Option (Timer α)
  | [] => none
  | t :: ts => some (ts.foldl earlier t)

/-- The earliest waiting timer that is due by a time. -/
def next? (c : Clock α) (limit : Float) : Option (Timer α) :=
  earliest? (c.live.filter (·.due ≤ limit))

/-- The clock at the later of its own time and another. -/
def moveTo (c : Clock α) (time : Float) : Clock α :=
  { c with now := if c.now < time then time else c.now }

/-- A timer that is made waits. -/
theorem live_arm (c : Clock α) (due : Float) (task : α) :
    (c.arm due task).2.live = c.live ++ [⟨c.timers.length, due, task, true⟩] := by
  simp [arm, live, List.filter_append]

end Clock

end Ostinato
