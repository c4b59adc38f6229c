import Ostinato.Number.Copies

/-!
# Ostinato.Rhythm

Evenly spread rhythms.  A bucket takes `pulses` drops per step and gives an
onset whenever it holds `steps` of them, which it then loses.  It is filled
beforehand so that the first step is an onset.  The rhythm is then turned to
the left by the rotation.
-/

namespace Ostinato.Rhythm

/-- The steps that follow with the bucket filled to a given level. -/
def pour (steps pulses : Nat) : Nat → Nat → List Bool
  | 0, _ => []
  | left + 1, level =>
    let filled := level + pulses
    if steps ≤ filled then true :: pour steps pulses left (filled - steps)
    else false :: pour steps pulses left filled

/-- A rhythm before its rotation. -/
def spread (steps pulses : Nat) : List Bool :=
  if pulses = 0 then List.replicate steps false else pour steps pulses steps (steps - pulses)

/-- A list turned to the left. -/
def turn (mask : List Bool) (shift : Nat) : List Bool := mask.drop shift ++ mask.take shift

/-- The onsets of `pulses` spread over `steps`, turned by `rotation`.  The
pulses are limited to what the steps can hold.  A rhythm without pulses is
made of copies of one rest, so the steps must be countable. -/
def euclidean (steps pulses rotation : Int) : Except Fault (List Bool) :=
  if steps < 1 then .error (.tooFewSteps steps) else do
  let size ← if pulses < 1 then Copies.held steps 1 else .ok steps.toNat
  return turn (spread size (Nat.min pulses.toNat size)) (rotation.emod steps).toNat

/-- Pouring gives one step each. -/
theorem length_pour (steps pulses left level : Nat) :
    (pour steps pulses left level).length = left := by
  induction left generalizing level with
  | zero => rfl
  | succ left ih => simp only [pour]; split <;> simp [ih]

/-- A rhythm has the number of steps asked for. -/
theorem length_spread (steps pulses : Nat) : (spread steps pulses).length = steps := by
  simp only [spread]
  split
  · simp
  · exact length_pour ..

/-- Turning keeps the number of steps. -/
theorem length_turn (mask : List Bool) (shift : Nat) : (turn mask shift).length = mask.length := by
  simp only [turn, List.length_append, List.length_drop, List.length_take]
  omega

end Ostinato.Rhythm
