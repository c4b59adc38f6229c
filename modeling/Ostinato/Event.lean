import Ostinato.Pattern.Basic

/-!
# Ostinato.Event

Events in cycle time.

1. An event is active over a span.  When it was cut, by a span boundary or
   with others, it remembers the logical span it had before the first cut.
2. `clip` keeps the part of each event inside a span and drops events with no
   part in it.
3. `reflected` turns events and their order around inside a span.
-/

namespace Ostinato

/-- A stretch of cycle time from `start` up to `stop`. -/
structure Span where
  start : Rat
  stop : Rat
deriving DecidableEq

namespace Span

/-- The length of a span. -/
def length (s : Span) : Rat := s.stop - s.start

/-- A whole cycle. -/
def cycle : Span := ⟨0, 1⟩

/-- The span of the given width whose start lies `count` widths after `start`. -/
def step (start width count : Rat) : Span :=
  ⟨start + width * count, start + width * (count + 1)⟩

/-- The later of two times. -/
def later (x y : Rat) : Rat := if x < y then y else x

/-- The earlier of two times. -/
def earlier (x y : Rat) : Rat := if y < x then y else x

/-- What two spans have in common; backwards if they do not meet. -/
def meet (s t : Span) : Span := ⟨later s.start t.start, earlier s.stop t.stop⟩

/-- The span shifted in time. -/
def shift (s : Span) (delta : Rat) : Span := ⟨s.start + delta, s.stop + delta⟩

/-- The span reflected about half of `pivot`. -/
def reflect (s : Span) (pivot : Rat) : Span := ⟨pivot - s.stop, pivot - s.start⟩

/-- Reflecting twice changes nothing. -/
theorem reflect_reflect (s : Span) (pivot : Rat) : (s.reflect pivot).reflect pivot = s := by
  obtain ⟨a, b⟩ := s
  simp only [reflect, mk.injEq]
  constructor <;> grind

end Span

/-- A value that sounds over part of a cycle. -/
structure Event where
  value : Value
  active : Span
  /-- The place among the pieces of a chopped event. -/
  part : Option Int
  /-- The logical span of an event that was cut. -/
  whole : Option Span

namespace Event

/-- The span before any cut. -/
def logical (e : Event) : Span := e.whole.getD e.active

/-- The length of the active span. -/
def duration (e : Event) : Rat := e.active.length

/-- Whether the event begins in its active span.  A cut-off tail does not, and
must not sound again. -/
def hasOnset (e : Event) : Bool :=
  match e.whole with
  | none => true
  | some w => w.start == e.active.start

/-- The event over part of its active span. -/
def trim (e : Event) (span : Span) : Event :=
  if span = e.active then e else { e with active := span, whole := some e.logical }

/-- The part of the event inside a span, if it has one. -/
def clip? (e : Event) (span : Span) : Option Event :=
  let rest := e.active.meet span
  if rest.start < rest.stop then some (e.trim rest) else none

/-- The event shifted in time with its logical span. -/
def shift (e : Event) (delta : Rat) : Event :=
  { e with active := e.active.shift delta, whole := e.whole.map (·.shift delta) }

/-- The event reflected about half of `pivot`. -/
def reflect (e : Event) (pivot : Rat) : Event :=
  { e with active := e.active.reflect pivot, whole := e.whole.map (·.reflect pivot) }

/-- The parts of events inside a span. -/
def clip (span : Span) (events : List Event) : List Event := events.filterMap (·.clip? span)

/-- Events reflected inside a span, last to first. -/
def reflected (span : Span) (events : List Event) : List Event :=
  events.reverse.map (·.reflect (span.start + span.stop))

/-- An event that was never cut begins where it is active. -/
theorem hasOnset_of_whole_eq_none {e : Event} (h : e.whole = none) : e.hasOnset = true := by
  simp [hasOnset, h]

/-- Reflection keeps the number of events. -/
theorem length_reflected (span : Span) (events : List Event) :
    (reflected span events).length = events.length := by
  simp [reflected]

end Event

end Ostinato
