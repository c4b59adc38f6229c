import Ostinato.Scheduler.Basic

/-!
# Ostinato.Scheduler.Command

What a scheduler can be told, and what its timers do.

1. `start` plays a pattern from cycle zero at the present time.
2. `replace` swaps the pattern at the present time: old events that are still
   ahead in the cycle are cancelled, and the new pattern's events that are
   still ahead are scheduled.
3. `stop` cancels everything.
4. `setRate` changes the rate, while a pattern plays at the end of its cycle.
5. A timer sounds an event, or ends a cycle and schedules the next.

An event is sounded or cancelled once, whichever comes first.  A sounder that
fails is reported and does not stop the playing.
-/

namespace Ostinato

namespace Scheduler

/-! ## Entries and faults -/

/-- Makes an entry in the journal. -/
def log (category message : String) (level : Int) : Scheduling Unit :=
  modify fun s => { s with journal := s.journal.log category message level }

/-- Prints a warning. -/
def warn (message : String) : Scheduling Unit :=
  modify fun s => { s with journal := s.journal.warn message }

/-- Goes on with the outcome of a computation. -/
def orFault {α : Type} (outcome : Except Fault α) : Scheduling α :=
  match outcome with
  | .ok a => pure a
  | .error cause => throw (.fault cause)

/-- The pattern that is to be played: notation is read, a pattern is taken as
it is, and nothing else will do. -/
def coerce (v : Value) : Scheduling Pattern :=
  match v with
  | .text notated => do
    let s ← get
    let (result, journal) := s.journal.read s.transforms (.text notated)
    set { s with journal := journal }
    match result with
    | .ok p => return p
    | .error e => throw (.malformed e)
  | .pattern p => pure p
  | v => throw (.fault (.notPlayable v.kind))

/-- Changes the cycle that is being played. -/
def modifyRun (change : Run → Run) : Scheduling Unit :=
  modify fun s => { s with run := s.run.map change }

/-! ## Events on the clock -/

/-- Settles the fate of an event.  Only the first one to do so succeeds. -/
def claim (id : Nat) (fate : Fate) : Scheduling Bool := do
  let s ← get
  match s.item? id with
  | none => return false
  | some item =>
    if item.fate != .pending then return false
    let settle (x : Scheduled) : Scheduled := if x.id = id then { x with fate := fate } else x
    set { s with items := s.items.map settle }
    return true

/-- Takes an event from those still to be sounded. -/
def removePending (id : Nat) : Scheduling Unit :=
  modifyRun fun run => { run with pending := run.pending.filter (· != id) }

/-- Puts an event of the current cycle on the clock. -/
def schedule (run : Run) (event : Event) : Scheduling Unit := do
  let s ← get
  let start ← orFault (Number.ratio event.active.start).toFloat
  let length ← orFault (Number.ratio event.duration).toFloat
  let fireTime := run.cycleStart + start / s.rate
  let id := s.items.length
  let (timer, clock) := s.clock.arm fireTime (.fire id)
  let item : Scheduled :=
    ⟨id, event, run.cycleIndex, fireTime, length / s.rate, timer, .pending⟩
  set { s with items := s.items ++ [item], clock := clock }
  modifyRun fun run => { run with pending := run.pending ++ [id] }

/-- The events of the current cycle that begin in it, after a time if one is
given. -/
def dueEvents (events : List Event) (after : Option Rat) : List Event :=
  events.filter fun e => e.hasOnset && after.all (· < e.active.start)

/-- Schedules the events of the current cycle, those after a time if one is
given; yields their number. -/
def scheduleCycle (after : Option Rat) : Scheduling Nat := do
  let s ← get
  match s.run with
  | none => return 0
  | some run =>
    let events ← orFault (s.performance.query run.pattern run.cycleIndex none)
    let ahead := dueEvents events after
    ahead.forM (schedule run)
    return ahead.length

/-- Cancels an event that is still to be sounded; tells whether it was.  No
entry can be made for an event whose value is too long to be written, which is
cancelled nevertheless. -/
def cancel (item : Scheduled) : Scheduling Bool := do
  if ← claim item.id .cancelled then
    modify fun s => { s with clock := s.clock.settle item.timer }
    removePending item.id
    let _ ← orFault item.event.value.written
    log "cancel" item.text 2
    return true
  else return false

/-- Cancels events; yields how many there were. -/
def cancelAll : List Scheduled → Scheduling Nat
  | [] => return 0
  | item :: items => do
    let done ← cancel item
    let others ← cancelAll items
    return (if done then 1 else 0) + others

/-- Puts the end of the current cycle on the clock. -/
def armBoundary : Scheduling Unit := do
  let s ← get
  match s.run with
  | none => return
  | some run =>
    let (timer, clock) := s.clock.arm (run.cycleStart + 1.0 / s.rate) (.boundary s.generation)
    set { s with clock := clock, boundary := some timer }

/-- The place in the current cycle, from zero to one.  Beyond its end the
boundary is late and the cycle is over. -/
def elapsed (s : Scheduler) (run : Run) : Except Fault Rat :=
  let position := (s.clock.now - run.cycleStart) * s.rate
  (Number.float (if position < 0.0 then 0.0 else if 1.0 < position then 1.0 else position)).toTime

/-! ## Commands -/

/-- Plays a pattern from cycle zero.  It plays also if no entry can be made
because the pattern is too long to be written. -/
def start (pattern : Value) (rate : Option Value) : Scheduling Unit := do
  let node ← coerce pattern
  let rate ← orFault (rate.mapM checkRate)
  let s ← get
  if s.isRunning then throw .alreadyRunning
  set { s with
    rate := rate.getD s.rate
    pendingRate := none
    generation := s.generation + 1
    run := some ⟨node, s.clock.now, 0, []⟩ }
  let count ← scheduleCycle none
  armBoundary
  let s ← get
  let shown ← orFault (Value.pattern node).written
  log "scheduler" ("start cps=" ++ Double.text s.rate ++ " events=" ++ toString count ++
    " pattern=" ++ shown) 1

/-- Whether a replacement at a place of the current cycle cancels an event. -/
def isAhead (run : Run) (place : Rat) (item : Scheduled) : Bool :=
  run.cycleIndex < item.cycle ||
    item.cycle == run.cycleIndex && decide (place < item.event.active.start)

/-- Swaps the pattern that is being played. -/
def replace (pattern : Value) : Scheduling Unit := do
  let node ← coerce pattern
  let s ← get
  match s.run with
  | none => throw .notRunning
  | some run =>
    let place ← orFault (s.elapsed run)
    let cancelled ← cancelAll (s.pendingItems.filter (isAhead run place))
    modifyRun fun run => { run with pattern := node }
    let scheduled ← scheduleCycle (some place)
    let shownPlace ← orFault (Number.ratio place).toFloat
    let shown ← orFault (Value.pattern node).written
    log "scheduler" ("replace at " ++ Double.fixedText shownPlace ++
      ": cancelled=" ++ toString cancelled ++ " scheduled=" ++ toString scheduled ++
      " pattern=" ++ shown) 1

/-- Cancels everything.  A stopped scheduler stays as it is. -/
def stop : Scheduling Unit := do
  let s ← get
  if s.isRunning then
    set { s with
      generation := s.generation + 1
      boundary := none
      clock := match s.boundary with
        | some timer => s.clock.settle timer
        | none => s.clock }
    let _ ← cancelAll s.pendingItems
    modify fun s => { s with run := none, pendingRate := none }
    log "scheduler" "stop" 1

/-- Changes the rate. -/
def setRate (rate : Value) : Scheduling Unit := do
  let rate ← orFault (checkRate rate)
  let s ← get
  if s.isRunning then
    set { s with pendingRate := some rate }
    log "scheduler" ("rate " ++ Double.text rate ++ " pending until next cycle") 1
  else set { s with rate := rate }

/-- Switches the journal. -/
def configureJournal (enable : Value) (level : Option Value) : Scheduling Unit := do
  let s ← get
  let (result, journal) := s.journal.configure enable level
  set { s with journal := journal }
  orFault result

/-! ## Timers -/

/-- Takes up a rate that was waiting for the cycle boundary. -/
def adoptRate : Scheduling Unit := do
  let s ← get
  match s.pendingRate with
  | none => return
  | some rate =>
    set { s with rate := rate, pendingRate := none }
    log "scheduler" ("rate now " ++ Double.text rate) 1

/-- Ends a cycle and schedules the next, if the run it belongs to still plays. -/
def passBoundary (generation : Nat) : Scheduling Unit := do
  let s ← get
  match s.run with
  | none => return
  | some run =>
    if generation != s.generation then return
    let next := { run with
      cycleStart := run.cycleStart + 1.0 / s.rate
      cycleIndex := run.cycleIndex + 1 }
    set { s with run := some next }
    adoptRate
    let count ← scheduleCycle none
    armBoundary
    log "cycle" ("cycle=" ++ toString next.cycleIndex ++ " events=" ++ toString count) 1

/-- Tells of an error: it is kept, printed, and passed to the listener, whose
own failure is printed too. -/
def report (error : SoundError) : Scheduling Unit := do
  modify fun s => { s with trace := { s.trace with errors := s.trace.errors ++ [error] } }
  warn ("sounder error: " ++ error.message)
  let s ← get
  match s.listener with
  | none => return
  | some listener =>
    set { s with
      trace := { s.trace with reports := s.trace.reports ++ [error] }
      told := s.told + 1 }
    match listener s.told error with
    | none => return
    | some reason => warn ("on_error callback error: " ++ reason)

/-- Asks the sounder for an event. -/
def sound (attempt : Attempt) : Scheduling Unit := do
  let s ← get
  let reply := s.sounder.reply s.attempted attempt
  set { s with
    attempted := s.attempted + 1
    trace := { s.trace with attempts := s.trace.attempts ++ [(attempt, reply)] } }
  match reply.error? attempt with
  | none => return
  | some error => report error

/-- Sounds an event that is still to be sounded.  One whose value is too long
to be written is given up, as no entry can be made for it. -/
def fire (id : Nat) : Scheduling Unit := do
  if ← claim id .sounded then
    removePending id
    match (← get).item? id with
    | none => return
    | some item =>
      let _ ← orFault item.event.value.written
      log "fire" (item.event.value.shown ++ " at=" ++ Double.fixedText item.fireTime ++
        " dur=" ++ Double.fixedText item.duration) 2
      sound ⟨item.event.value, item.fireTime, item.duration⟩

/-- Does what a timer is for. -/
def perform : Task → Scheduling Unit
  | .fire item => fire item
  | .boundary generation => passBoundary generation

/-! ## The clock -/

/-- Moves the clock forward, performing the tasks that come due on the way, at
most `limit` of them. -/
def advanceWithin : Nat → Float → Scheduling Unit
  | 0, _ => return
  | limit + 1, time => do
    let s ← get
    match s.clock.next? time with
    | none => set { s with clock := s.clock.moveTo time }
    | some timer =>
      set { s with clock := (s.clock.settle timer.id).moveTo timer.due }
      perform timer.task
      advanceWithin limit time

/-- More tasks than any advance performs whose cycles move on. -/
def patience : Nat := 1000000

/-- Moves the clock forward. -/
def advanceTo (time : Float) : Scheduling Unit := advanceWithin patience time

/-- Moves the clock forward by an amount. -/
def advanceBy (amount : Float) : Scheduling Unit := do
  advanceTo ((← get).clock.now + amount)

/-- Sets the clock, forwards or backwards, performing nothing. -/
def jumpTo (time : Float) : Scheduling Unit :=
  modify fun s => { s with clock := { s.clock with now := time } }

/-- Does what a timer is for out of turn, whether it waits or not. -/
def poke (timer : Nat) : Scheduling Unit := do
  match (← get).clock.timer? timer with
  | none => throw (.fault .outOfRange)
  | some t => perform t.task

end Scheduler

end Ostinato
