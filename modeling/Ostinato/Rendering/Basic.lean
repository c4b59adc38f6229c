import Ostinato.Event
import Ostinato.Rhythm

/-!
# Ostinato.Rendering.Basic

Ways of laying out events.

A rendering fills a span with the events of one cycle.  It may draw random
numbers, which are threaded through in the order of drawing, and it may fail.
Each construct of a pattern is a function on renderings: it decides which
cycle its subject plays in which span, and what becomes of the events.
-/

namespace Ostinato

/-- Computations that draw from a source of type `σ` and may fail. -/
abbrev Drawing (σ : Type) := StateT σ (Except Fault)

/-- The events of a cycle, laid out in a span. -/
abbrev Rendering (σ : Type) := Int → Span → Drawing σ (List Event)

namespace Rendering

variable {σ : Type}

/-- The events for each item in turn, one list after another. -/
def gather {α : Type} (f : α → Drawing σ (List Event)) : List α → Drawing σ (List Event)
  | [] => pure []
  | a :: as => do
    let events ← f a
    let rest ← gather f as
    pure (events ++ rest)

/-- A rendering that fails. -/
def failed (fault : Fault) : Rendering σ := fun _ _ => throw fault

/-! ## Groups -/

/-- One event that fills the span. -/
def leaf (value : Value) : Rendering σ := fun _ span =>
  pure [⟨value, span, none, none⟩]

/-- Renderings in slots of one width, the first of them `count` slots after
the start. -/
def slots (cycle : Int) (start width : Rat) : Nat → List (Rendering σ) → Drawing σ (List Event)
  | _, [] => pure []
  | count, r :: rs => do
    let events ← r cycle (Span.step start width count)
    let rest ← slots cycle start width (count + 1) rs
    pure (events ++ rest)

/-- Renderings share the span evenly, in order. -/
def sequence (rs : List (Rendering σ)) : Rendering σ := fun cycle span =>
  slots cycle span.start (span.length / rs.length) 0 rs

/-- One rendering is picked and fills the span.  It plays its next cycle only
when it is picked again by turns, so it sees the number of rounds. -/
def parallel (choose : Int → Int → Except Fault Int) (rs : List (Rendering σ)) : Rendering σ :=
  fun cycle span =>
    if rs.isEmpty then pure [] else do
    let pick ← choose cycle rs.length
    let r := rs.getD (pick.emod rs.length).toNat (fun _ _ => pure [])
    r (cycle.fdiv rs.length) span

/-- A span divided by an integer. -/
def divide (length : Rat) (parts : Int) : Except Fault Rat :=
  if parts = 0 then .error (.quotientByZero length.num.sign) else .ok (length / parts)

/-- A span can be divided into any number of parts but zero. -/
theorem divide_eq_ok {parts : Int} (h : parts ≠ 0) (length : Rat) :
    divide length parts = .ok (length / parts) := if_neg h

/-- The subject on each onset of a rhythm. -/
def euclidean (steps pulses rotation : Int) (subject : Rendering σ) : Rendering σ :=
  fun cycle span => do
    let width ← divide span.length steps
    let mask ← Rhythm.euclidean steps pulses rotation
    slots cycle span.start width 0
      (mask.map fun hit => if hit then subject else fun _ _ => pure [])

/-! ## Repetition -/

/-- The events for `count` integers in turn, from `first` on. -/
def gatherFrom (f : Int → Drawing σ (List Event)) : Nat → Int → Drawing σ (List Event)
  | 0, _ => pure []
  | count + 1, first => do
    let events ← f first
    let rest ← gatherFrom f count (first + 1)
    pure (events ++ rest)

/-- Squeezes `factor` cycles of the subject into one.  Each cycle of the
subject that overlaps the span is rendered in a slot of its own and clipped to
the span, so a factor below one shows the slice that belongs to this cycle. -/
def repeated (factor : Rat) (subject : Rendering σ) : Rendering σ := fun cycle span =>
  if factor = 0 then pure [] else
  let width := span.length / factor
  let origin := (cycle : Rat) * factor
  let first := origin.floor
  let last := (((cycle + 1 : Int) : Rat) * factor).ceil
  gatherFrom (fun (c : Int) => do
      let start := span.start + ((c : Rat) - origin) * width
      let events ← subject c ⟨start, start + width⟩
      pure (Event.clip span events))
    (last - first).toNat first

/-! ## Order -/

/-- The subject backwards. -/
def reversed (subject : Rendering σ) : Rendering σ := fun cycle span => do
  let events ← subject cycle span
  pure (Event.reflected span events)

/-- The subject in the first half, and backwards in the second. -/
def palindrome (subject : Rendering σ) : Rendering σ := fun cycle span => do
  let middle := (span.start + span.stop) / 2
  let forward ← subject cycle ⟨span.start, middle⟩
  let backward ← subject cycle ⟨middle, span.stop⟩
  pure (forward ++ Event.reflected ⟨middle, span.stop⟩ backward)

/-! ## Single events -/

/-- Pieces of an event's logical span, as far as they lie in its active span. -/
def pieces (parts : Int) (e : Event) : Except Fault (List Event) := do
  let width ← divide e.logical.length parts
  pure (Event.clip e.active ((List.range parts.toNat).map fun (i : Nat) =>
    ⟨e.value, Span.step e.logical.start width i, some (i : Int), none⟩))

/-- Each event of the subject cut into pieces. -/
def chopped (parts : Int) (subject : Rendering σ) : Rendering σ := fun cycle span => do
  let events ← subject cycle span
  gather (fun e => liftM (pieces parts e)) events

/-- Keeps the events whose draw reaches the probability.  There is one draw
for each event, so later draws do not depend on earlier outcomes. -/
def thin (draw : σ → Rat × σ) (probability : Float) : List Event → Drawing σ (List Event)
  | [] => pure []
  | e :: es => do
    let x ← fun s => pure (draw s)
    let rest ← thin draw probability es
    pure (if (Number.float probability).lessOrSame (.ratio x) then e :: rest else rest)

/-- The subject with events dropped at random. -/
def degraded (draw : σ → Rat × σ) (probability : Float) (subject : Rendering σ) : Rendering σ :=
  fun cycle span => do
    let events ← subject cycle span
    thin draw probability events

/-- An operator applied to the value of each event that is a number. -/
def computed (op : Operator) (operand : Value) (e : Event) : Except Fault Event :=
  match e.value with
  | .number x => do return { e with value := ← Value.combine op x operand }
  | _ => .ok e

/-- The subject with its numbers changed. -/
def calculated (op : Operator) (operand : Value) (subject : Rendering σ) : Rendering σ :=
  fun cycle span => do
    let events ← subject cycle span
    events.mapM fun e => liftM (computed op operand e)

/-! ## Modulation -/

/-- A full turn, the double nearest to twice pi. -/
def turn : Float := 6.283185307179586

/-- The sine of a double. -/
def sine (x : Float) : Except Fault Float :=
  if Double.isFinite x || Double.isNaN x then .ok x.sin else .error .sineOfInfinity

/-- The wave at a place of a cycle, `rate` turns per cycle. -/
def wave (rate : Value) (cycle : Int) (place : Rat) : Except Fault Float := do
  let pace ← Value.scaleBy turn rate
  let place ← (Number.ratio place).toFloat
  let cycle ← (Number.int cycle).toFloat
  sine (pace * (cycle + place))

/-- The nearer bound for a time outside the bounds; the lower one counts first. -/
def clampTime (x low high : Rat) : Rat := if x < low then low else if high < x then high else x

/-- An event moved by the wave, but not out of the span. -/
def slid (amount rate : Value) (cycle : Int) (span : Span) (e : Event) : Except Fault Event := do
  let height ← wave rate cycle e.active.start
  let share ← (Number.float (← amount.scaledBy height)).toTime
  let moved := clampTime (e.active.start + share * span.length) span.start (span.stop - e.duration)
  pure (e.shift (moved - e.active.start))

/-- The subject with its events slid along a wave. -/
def modulated (amount rate : Value) (subject : Rendering σ) : Rendering σ :=
  fun cycle span => do
    let events ← subject cycle span
    events.mapM fun e => liftM (slid amount rate cycle span e)

end Rendering

end Ostinato
