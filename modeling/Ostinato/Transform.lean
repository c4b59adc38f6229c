import Ostinato.Pattern.Printer
import Ostinato.Registry

/-!
# Ostinato.Transform

Transforms by name.  A transform is an action on the rendering of a pattern,
with bounds on the number of its operands, a note whether a call of another
transform ends them, and a check that the operands have to pass when they are
read.
-/

namespace Ostinato

/-- What a transform does. -/
inductive Action where
  /-- Plays the cycle backwards. -/
  | rev
  /-- Plays the cycle forwards, then backwards, each in half the time. -/
  | palindrome
  /-- Plays several cycles in the time of one. -/
  | fast
  /-- Spreads a cycle over several. -/
  | slow
  /-- Drops events at random. -/
  | degrade
  /-- Cuts each event into equal pieces. -/
  | chop
  /-- Applies a transform in one cycle of a period. -/
  | every
  /-- Applies a transform from some cycle of a period on. -/
  | when
  /-- Applies a transform at random. -/
  | sometimes
deriving DecidableEq, Repr

/-- What operands must satisfy. -/
inductive OperandCheck where
  /-- The first operand is not negative. -/
  | factor
  /-- The first operand that is not a call lies between zero and one. -/
  | probability
  /-- The first operand is a whole number of at least one. -/
  | count (what : String)
deriving DecidableEq, Repr

/-- Whether a value is a call. -/
def Value.isCall : Value → Bool
  | .call .. => true
  | _ => false

namespace OperandCheck

/-- The first operand of a check. -/
def subject : List Value → Except Fault Value
  | [] => .error .outOfRange
  | v :: _ => .ok v

/-- Checks the operands. -/
def run (check : OperandCheck) (operands : List Value) : Except Fault Unit :=
  match check with
  | factor => do
    let v ← subject operands
    if ← v.isNegative then .error (.negativeFactor v.plain) else .ok ()
  | probability =>
    match operands.filter fun v => !v.isCall with
    | [] => .ok ()
    | v :: _ => do if ← v.isProbability then .ok () else .error (.notAProbability v.plain)
  | count what => do
    let v ← subject operands
    let n ← v.wholeNumber what
    if n < 1 then .error (.belowOne what) else .ok ()

end OperandCheck

/-- A transform that can be called by name. -/
structure Transform where
  action : Action
  fewest : Int
  most : Int
  nested : Bool
  check : Option OperandCheck

namespace Transform

/-- The transforms that are known from the start. -/
def builtin : Registry Transform :=
  ⟨"transforms", [
    ("rev", ⟨.rev, 0, 0, false, none⟩),
    ("palindrome", ⟨.palindrome, 0, 0, false, none⟩),
    ("fast", ⟨.fast, 1, 1, false, some .factor⟩),
    ("slow", ⟨.slow, 1, 1, false, some .factor⟩),
    ("degrade", ⟨.degrade, 0, 1, false, some .probability⟩),
    ("chop", ⟨.chop, 1, 1, false, some (.count "chop count")⟩),
    ("every", ⟨.every, 1, 1, true, some (.count "every period")⟩),
    ("when", ⟨.when, 2, 2, true, some (.count "when period")⟩),
    ("sometimes", ⟨.sometimes, 0, 1, true, some .probability⟩)]⟩

end Transform

end Ostinato
