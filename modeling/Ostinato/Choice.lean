import Ostinato.Pattern.Printer
import Ostinato.Random.Twister
import Ostinato.Registry

/-!
# Ostinato.Choice

Choice policies say which child of a parallel group plays.  A policy sees the
cycle, the number of children and the seed; the group takes its answer modulo
the number of children.
-/

namespace Ostinato

/-- A rule that picks by cycle, number of children and seed. -/
abbrev Policy := Int → Int → Value → Except Fault Int

/-- The text that seeds the draws of a cycle. -/
def seedText (seed : Value) (cycle : Int) : Except Fault String := do
  return (← seed.written) ++ ":" ++ (← (Number.int cycle).written)

namespace Policy

/-- The children take turns. -/
def roundRobin : Policy := fun cycle count _ =>
  if count = 0 then .error .moduloByZero else .ok (cycle.fmod count)

/-- A random child, the same for the same seed and cycle. -/
def random : Policy := fun cycle count seed => do
  let text ← seedText seed cycle
  if count ≤ 0 then .error .emptyRange
  else .ok (Twister.below count.toNat (Twister.ofText (text ++ ":choice")))

/-- The policies that can be chosen by name. -/
def builtin : Registry Policy :=
  ⟨"policies", [("round_robin", roundRobin), ("random", random)]⟩

end Policy

/-- How a policy is asked for. -/
inductive Choice where
  | unspecified
  | named (name : String)
  | custom (policy : Policy)

/-- The policy that is meant, with `known` as the place of names. -/
def Choice.resolve (known : Registry Policy) : Choice → Except Fault Policy
  | unspecified => .ok Policy.roundRobin
  | named name =>
    match known.get? name with
    | some policy => .ok policy
    | none => .error (.unknownPolicy name known.names)
  | custom policy => .ok policy

end Ostinato
