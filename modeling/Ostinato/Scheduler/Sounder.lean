import Ostinato.Pattern.Printer

/-!
# Ostinato.Scheduler.Sounder

The outside that makes events audible, and may fail to.

A sounder is asked once for each event.  It may refuse with an error of its
own or break down for some reason; a breakdown is turned into an error about
the event.  Whoever asked to be told of errors may fail as well.
-/

namespace Ostinato

/-- An event that could not be sounded. -/
structure SoundError where
  message : String
  value : Value
  onset : Float
  /-- What broke down, unless the sounder refused in its own words. -/
  cause : Option String

/-- What becomes of one attempt to sound an event. -/
inductive Reply where
  | sounded
  | refused (error : SoundError)
  | broke (reason : String)

/-- One event to be sounded: its value, clock time and duration. -/
structure Attempt where
  value : Value
  onset : Float
  duration : Float

/-- A sounder: how it replies to its attempts, the first of which is number
zero, and the name under which it is shown if it is a plain function. -/
structure Sounder where
  name : Option String
  reply : Nat → Attempt → Reply

/-- The text of a sounder that is a plain function. -/
def Sounder.text? (s : Sounder) : Option String :=
  s.name.map fun name => "<CallbackSounder " ++ name ++ ">"

/-- A listener for errors: why it fails on an error, if it does, by the number
of errors before. -/
abbrev Listener := Nat → SoundError → Option String

/-- The error that a reply amounts to. -/
def Reply.error? (attempt : Attempt) : Reply → Option SoundError
  | sounded => none
  | refused e => some e
  | broke reason =>
    some ⟨"cannot sound " ++ attempt.value.shown ++ ": " ++ reason, attempt.value, attempt.onset,
      some reason⟩

end Ostinato
