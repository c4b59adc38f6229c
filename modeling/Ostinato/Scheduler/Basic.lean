import Ostinato.Journal
import Ostinato.Query
import Ostinato.Scheduler.Clock
import Ostinato.Scheduler.Sounder

/-!
# Ostinato.Scheduler.Basic

The state of a scheduler that plays a pattern cycle after cycle.

Events of the current cycle are bound to clock times and wait on timers of
their own; one more timer waits for the end of the cycle.  Each scheduled
event has a fate that is settled once: it is sounded or cancelled.  Timers of
earlier runs are told apart by the generation they belong to.
-/

namespace Ostinato

/-- What has become of a scheduled event. -/
inductive Fate where
  | pending
  | sounded
  | cancelled
deriving DecidableEq, Repr

/-- An event bound to a clock time. -/
structure Scheduled where
  id : Nat
  event : Event
  cycle : Int
  fireTime : Float
  duration : Float
  /-- The timer that fires it. -/
  timer : Nat
  fate : Fate

/-- The text of a scheduled event. -/
def Scheduled.text (item : Scheduled) : String :=
  "<ScheduledEvent #" ++ toString item.id ++ " " ++ item.event.value.shown ++
    " cycle=" ++ toString item.cycle ++ " at=" ++ Double.fixedText item.fireTime ++ ">"

/-- What a timer is for. -/
inductive Task where
  | fire (item : Nat)
  | boundary (generation : Nat)
deriving DecidableEq, Repr

/-- The cycle that is being played. -/
structure Run where
  pattern : Pattern
  cycleStart : Float
  cycleIndex : Int
  /-- The numbers of the events still to be sounded, in order. -/
  pending : List Nat

/-- What the outside has been asked and told. -/
structure Trace where
  attempts : List (Attempt × Reply)
  errors : List SoundError
  reports : List SoundError

/-- Nothing asked, nothing told. -/
def Trace.empty : Trace := ⟨[], [], []⟩

/-- A scheduler with its clock, its outside, and a record of its doings. -/
structure Scheduler where
  transforms : Registry Transform
  policies : Registry Policy
  policy : Policy
  seed : Value
  sounder : Sounder
  listener : Option Listener
  rate : Float
  /-- A rate that takes effect at the next cycle boundary. -/
  pendingRate : Option Float
  run : Option Run
  /-- All events ever scheduled, by number. -/
  items : List Scheduled
  generation : Nat
  /-- The timer for the end of the cycle. -/
  boundary : Option Nat
  clock : Clock Task
  journal : Journal
  trace : Trace
  /-- Attempts to sound an event so far. -/
  attempted : Nat
  /-- Errors told so far. -/
  told : Nat

/-- Why a command is refused or fails. -/
inductive SchedulerError where
  | malformed (error : NotationError)
  | fault (cause : Fault)
  | alreadyRunning
  | notRunning
deriving DecidableEq, Repr

/-- The wording of a refusal. -/
def SchedulerError.message : SchedulerError → String
  | malformed e => e.message
  | fault cause => cause.message
  | alreadyRunning => "scheduler is already running"
  | notRunning => "replace() needs a running scheduler"

/-- Commands and timers: they change the scheduler, also where they fail. -/
abbrev Scheduling (α : Type) := ExceptT SchedulerError (StateM Scheduler) α

namespace Scheduler

/-! ## Rates -/

/-- The rate of a scheduler that is given none. -/
def defaultRate : Value := .number (.float 0.5)

/-- A value as a rate in cycles per second, which must be positive. -/
def checkRate (v : Value) : Except Fault Float := do
  let rate ← v.toFloat
  if 0.0 < rate then .ok rate else .error (.rateNotPositive (Double.text rate))

/-- A stopped scheduler. -/
def new (rate : Value) (perf : Performance) (sounder : Sounder) (listener : Option Listener)
    (now : Float) : Except Fault Scheduler := do
  let rate ← checkRate rate
  let policy ← perf.choice.resolve perf.policies
  return {
    transforms := perf.transforms
    policies := perf.policies
    policy := policy
    seed := perf.seed
    sounder := sounder
    listener := listener
    rate := rate
    pendingRate := none
    run := none
    items := []
    generation := 0
    boundary := none
    clock := ⟨now, []⟩
    journal := Journal.initial
    trace := Trace.empty
    attempted := 0
    told := 0 }

/-! ## Views -/

/-- The performance whose queries are played. -/
def performance (s : Scheduler) : Performance :=
  ⟨s.transforms, s.policies, .custom s.policy, s.seed⟩

/-- Whether a pattern is being played. -/
def isRunning (s : Scheduler) : Bool := s.run.isSome

/-- The scheduled event with a number. -/
def item? (s : Scheduler) (id : Nat) : Option Scheduled := s.items.find? (·.id = id)

/-- The events still to be sounded in the current cycle, in the order in which
they were scheduled. -/
def pendingItems (s : Scheduler) : List Scheduled :=
  match s.run with
  | none => []
  | some run => run.pending.filterMap s.item?

/-- Inserts an event before the first that fires later. -/
def insertByFireTime (item : Scheduled) : List Scheduled → List Scheduled
  | [] => [item]
  | x :: xs =>
    if x.fireTime < item.fireTime then x :: insertByFireTime item xs else item :: x :: xs

/-- The events still to be sounded, by fire time. -/
def upcoming (s : Scheduler) : List Scheduled := s.pendingItems.foldr insertByFireTime []

/-- The word for running or not. -/
def stateText (s : Scheduler) : String := if s.isRunning then "running" else "stopped"

/-- The word for what the scheduler waits for. -/
def phaseText (s : Scheduler) : String :=
  match s.run with
  | none => "stopped"
  | some run => if run.pending.isEmpty then "idle" else "scheduling"

/-- The text of a scheduler. -/
def text (s : Scheduler) : String :=
  "<Scheduler " ++ s.stateText ++ " cps=" ++ Double.text s.rate ++ ">"

end Scheduler

end Ostinato
