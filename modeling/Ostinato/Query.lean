import Ostinato.Choice
import Ostinato.Rendering.Setting

/-!
# Ostinato.Query

The events of a cycle.

1. The whole cycle is rendered before any event is left out, so that a query
   for part of a cycle finds the same events as one for all of it.
2. The events come ordered by onset; events with equal onsets stay in the
   order in which the pattern gives them.
3. Each query draws from a stream of its own, seeded by the seed and the cycle.
-/

namespace Ostinato

namespace Event

/-- Inserts an event before the first that does not begin earlier. -/
def insertByStart (e : Event) : List Event → List Event
  | [] => [e]
  | x :: xs => if e.active.start ≤ x.active.start then e :: x :: xs else x :: insertByStart e xs

/-- Events ordered by their starts, those with equal starts as they came. -/
def sortByStart (events : List Event) : List Event := events.foldr insertByStart []

/-- Whether an event is active at some time between two. -/
def overlaps (e : Event) (low high : Rat) : Bool := e.active.start < high && low < e.active.stop

/-- Whether an event is active at a time. -/
def isActiveAt (e : Event) (t : Rat) : Bool := e.active.start ≤ t && t < e.active.stop

/-- A list whose events already begin one after another is not changed. -/
theorem sortByStart_of_pairwise {events : List Event}
    (h : events.Pairwise fun a b => a.active.start ≤ b.active.start) :
    sortByStart events = events := by
  induction events with
  | nil => rfl
  | cons e es ih =>
    rw [List.pairwise_cons] at h
    have hes : sortByStart es = es := ih h.2
    simp only [sortByStart, List.foldr_cons] at hes ⊢
    rw [hes]
    cases es with
    | nil => rfl
    | cons x xs => simp [insertByStart, h.1 x (by simp)]

end Event

/-- The two ends of a part of a cycle, still to be read as times. -/
abbrev Arc := Value × Value

/-- The events of a cycle in a setting, from a given state of its draws. -/
def Pattern.eventsIn {σ : Type} (s : Setting σ) (state : σ) (p : Pattern) (cycle : Int)
    (arc : Option Arc) : Except Fault (List Event) := do
  let events ← (p.render s cycle Span.cycle).run' state
  match arc with
  | none => pure (Event.sortByStart events)
  | some (low, high) => do
    let low ← low.toTime
    let high ← high.toTime
    pure (Event.sortByStart (events.filter (·.overlaps low high)))

/-- Everything besides the pattern and the cycle that an answer depends on. -/
structure Performance where
  transforms : Registry Transform
  policies : Registry Policy
  choice : Choice
  seed : Value

namespace Performance

/-- The built-in transforms and policies, turns in parallel groups, and seed
zero. -/
def default : Performance :=
  ⟨Transform.builtin, Policy.builtin, .unspecified, .int 0⟩

/-- The setting of a performance once its policy is known. -/
def setting (perf : Performance) (policy : Policy) : Setting Twister where
  draw := Twister.draw
  choose cycle count := policy cycle count perf.seed
  transforms := perf.transforms

/-- The stream of draws for a cycle. -/
def stream (perf : Performance) (cycle : Int) : Except Fault Twister :=
  Twister.ofText <$> seedText perf.seed cycle

/-- The events of one cycle of a pattern, or of a part of it. -/
def query (perf : Performance) (p : Pattern) (cycle : Int) (arc : Option Arc) :
    Except Fault (List Event) := do
  let policy ← perf.choice.resolve perf.policies
  p.eventsIn (perf.setting policy) (← perf.stream cycle) cycle arc

/-- The events that are active at a time, counted in cycles. -/
def queryAt (perf : Performance) (p : Pattern) (time : Value) : Except Fault (List Event) := do
  let t ← time.toTime
  let events ← perf.query p t.floor none
  pure (events.filter (·.isActiveAt (t - t.floor)))

end Performance

end Ostinato
