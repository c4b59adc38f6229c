import Mathlib.Algebra.Order.Field.Rat
import Mathlib.Algebra.Order.Floor.Ring
import Mathlib.Data.List.Rotate
import Mathlib.Data.Rat.Floor
import Mathlib.Tactic.Linarith
import Mathlib.Tactic.Ring
import Ostinato.Rhythm

/-!
# Ostinato.Proofs.Rhythm.Evenness

Rhythms are as even as they can be.

1. A rhythm that goes on for ever has an onset where the drops poured so far
   leave a remainder below `pulses` (`Rhythm.onset`).  Their quotient counts the
   onsets (`Rhythm.before_succ`), so a window of any place and length holds a
   difference of two quotients, which is less than one away from its share of
   the pulses (`Rhythm.near_onsetsWithin`).
2. The bucket keeps the remainder (`Rhythm.pour_succ`), so a rhythm is one turn
   of that which goes on for ever (`Rhythm.euclidean_eq_ok`), and its windows may
   go round (`Rhythm.even_onsetsWithin`).
-/

namespace Ostinato

/-- A count of single items beyond memory is refused. -/
theorem Copies.held_one_of_lt {n : Int} (h : (capacity : Int) < n) :
    held n 1 = .error (if (largest : Int) < n then .countTooLarge else .outOfMemory) := by
  have hc : capacity = 68719476736 := rfl
  have hl : largest = 9223372036854775807 := rfl
  have hlow : ¬n < -(largest : Int) - 1 := by omega
  have hhigh : capacity < n.toNat * 1 := by omega
  by_cases hlarge : (largest : Int) < n
  · simp [held, fitting, hlow, hlarge, bind, Except.bind]
  · simp only [held, fitting, hlow, hlarge, hhigh, decide_false, Bool.or_false, Bool.false_eq_true,
      if_true, if_false, bind, Except.bind]

namespace Rhythm

/-! ## The closed form -/

/-- Whether a rhythm that goes on in both directions has an onset at a place. -/
def onset (steps pulses place : Int) : Bool := decide (place * pulses % steps < pulses)

/-- The onsets from place one up to a place, negative if it lies before. -/
def before (steps pulses place : Int) : Int := (place - 1) * pulses / steps

/-- The onsets in a window. -/
def onsetsWithin (steps pulses first : Int) (length : Nat) : List Bool :=
  (List.range length).map fun (i : Nat) => onset steps pulses (first + i)

/-- The rhythm repeats after its steps. -/
theorem onset_emod (steps pulses place : Int) :
    onset steps pulses (place % steps) = onset steps pulses place := by
  simp [onset, Int.mul_emod]

/-- Where a window begins matters only up to whole turns. -/
theorem onsetsWithin_emod (steps pulses first : Int) (length : Nat) :
    onsetsWithin steps pulses (first % steps) length = onsetsWithin steps pulses first length := by
  refine List.map_congr_left fun i _ => ?_
  rw [← onset_emod, Int.emod_add_emod, onset_emod]

@[simp] theorem length_onsetsWithin (steps pulses first : Int) (length : Nat) :
    (onsetsWithin steps pulses first length).length = length := by
  simp [onsetsWithin]

variable {steps pulses : Int}

/-- What pouring one more step's drops does to the quotient. -/
theorem before_succ (hsteps : 0 < steps) (hlow : 0 ≤ pulses) (hhigh : pulses ≤ steps)
    (place : Int) :
    before steps pulses (place + 1) =
      before steps pulses place + (if onset steps pulses place then 1 else 0) := by
  have hdiv := Int.mul_ediv_add_emod (place * pulses) steps
  have hnonneg := Int.emod_nonneg (place * pulses) hsteps.ne'
  have hlt := Int.emod_lt_of_pos (place * pulses) hsteps
  have hback : (place - 1) * pulses = place * pulses - pulses := by ring
  simp only [before, onset, add_sub_cancel_right, hback, decide_eq_true_eq]
  generalize place * pulses = poured at *
  split
  · have hbefore : (poured - pulses) / steps = poured / steps - 1 := by
      rw [Int.ediv_eq_iff_of_pos hsteps]
      constructor <;> nlinarith
    omega
  · have hbefore : (poured - pulses) / steps = poured / steps := by
      rw [Int.ediv_eq_iff_of_pos hsteps]
      constructor <;> nlinarith
    omega

/-- The onsets in a window are those before its end without those before its
start. -/
theorem count_onsetsWithin (hsteps : 0 < steps) (hlow : 0 ≤ pulses) (hhigh : pulses ≤ steps)
    (first : Int) (length : Nat) :
    ((onsetsWithin steps pulses first length).count true : Int) =
      before steps pulses (first + length) - before steps pulses first := by
  induction length with
  | zero => simp [onsetsWithin]
  | succ length ih =>
    have hlast := before_succ hsteps hlow hhigh (first + length)
    simp only [onsetsWithin, List.range_succ, List.map_append, List.count_append,
      List.map_singleton, List.count_singleton, Nat.cast_add, Nat.cast_one] at ih ⊢
    rw [ih, ← add_assoc, hlast]
    cases onset steps pulses (first + length) <;> simp [sub_add_eq_add_sub]

/-- A window holds its share of the pulses, but for less than one. -/
theorem near_onsetsWithin (hsteps : 0 < steps) (hlow : 0 ≤ pulses) (hhigh : pulses ≤ steps)
    (first : Int) (length : Nat) :
    let hits : Int := (onsetsWithin steps pulses first length).count true
    length * pulses - steps < hits * steps ∧ hits * steps < length * pulses + steps := by
  intro hits
  have hhits : hits = _ := count_onsetsWithin hsteps hlow hhigh first length
  have hpoured : (first + length - 1) * pulses = (first - 1) * pulses + length * pulses := by ring
  simp only [before, hpoured] at hhits
  have hstart := Int.mul_ediv_add_emod ((first - 1) * pulses) steps
  have hstop := Int.mul_ediv_add_emod ((first - 1) * pulses + length * pulses) steps
  have := Int.emod_nonneg ((first - 1) * pulses) hsteps.ne'
  have := Int.emod_lt_of_pos ((first - 1) * pulses) hsteps
  have := Int.emod_nonneg ((first - 1) * pulses + length * pulses) hsteps.ne'
  have := Int.emod_lt_of_pos ((first - 1) * pulses + length * pulses) hsteps
  have hproduct : hits * steps =
      steps * (((first - 1) * pulses + length * pulses) / steps) -
        steps * ((first - 1) * pulses / steps) := by
    rw [hhits]
    ring
  constructor <;> omega

/-- An integer less than one away from a quotient is its floor or its ceiling. -/
theorem floor_or_ceil_of_near {hits amount : Int} (hsteps : 0 < steps)
    (hlow : amount - steps < hits * steps) (hhigh : hits * steps < amount + steps) :
    hits = ⌊(amount / steps : Rat)⌋ ∨ hits = ⌈(amount / steps : Rat)⌉ := by
  have hpos : (0 : Rat) < steps := by exact_mod_cast hsteps
  have hlow' : (amount - steps : Rat) < hits * steps := by exact_mod_cast hlow
  have hhigh' : (hits * steps : Rat) < amount + steps := by exact_mod_cast hhigh
  by_cases hle : hits * steps ≤ amount
  · have hle' : (hits * steps : Rat) ≤ amount := by exact_mod_cast hle
    refine .inl (Int.floor_eq_iff.mpr ⟨(le_div_iff₀ hpos).mpr hle', ?_⟩).symm
    rw [div_lt_iff₀ hpos]
    linarith
  · have hle' : (amount : Rat) ≤ hits * steps := by exact_mod_cast (not_le.mp hle).le
    refine .inr (Int.ceil_eq_iff.mpr ⟨?_, (div_le_iff₀ hpos).mpr hle'⟩).symm
    rw [lt_div_iff₀ hpos]
    linarith

/-! ## The bucket -/

section

variable {steps pulses : Nat} (hpulses : pulses ≤ steps) (hsteps : 0 < steps)

include hpulses hsteps

/-- What the bucket holds is what was poured, without whole buckets. -/
theorem pour_succ (left level : Nat) :
    pour steps pulses (left + 1) (level % steps) =
      decide ((level + pulses) % steps < pulses) ::
        pour steps pulses left ((level + pulses) % steps) := by
  have hlevel := Nat.mod_lt level hsteps
  rw [← Nat.mod_add_mod]
  generalize level % steps = held at *
  simp only [pour]
  split
  · next hfull =>
      rw [Nat.mod_eq_sub_mod hfull, Nat.mod_eq_of_lt (by omega), decide_eq_true (by omega)]
  · next hfree => rw [Nat.mod_eq_of_lt (by omega), decide_eq_false (by omega)]

/-- Where the bucket overflows is told by its level before each pulse is poured in,
without pouring them one after another. -/
theorem pour_eq_map (left level : Nat) : pour steps pulses left (level % steps) =
    (List.range left).map fun i => decide ((level + (i + 1) * pulses) % steps < pulses) := by
  induction left generalizing level with
  | zero => rfl
  | succ left ih =>
    have hshift : ∀ i, level + pulses + (i + 1) * pulses = level + (i + 1 + 1) * pulses :=
      fun i => by ring
    rw [pour_succ hpulses hsteps, ih, List.range_succ_eq_map, List.map_cons, List.map_map]
    simp only [Function.comp_def, hshift, zero_add, one_mul]

end

/-- The bucket is primed so that a rhythm starts on an onset of the closed form. -/
theorem spread_eq_map {steps pulses : Nat} (hpulses : pulses ≤ steps) :
    spread steps pulses = onsetsWithin steps pulses 0 steps := by
  unfold spread onsetsWithin
  split
  · next hzero =>
      have hrest : ∀ place, onset steps pulses place = false := fun place => by simp [onset, hzero]
      simp only [hrest, List.map_const', List.length_range]
  · next hzero =>
      have hprimed : ∀ i, (steps - pulses + (i + 1) * pulses) % steps = i * pulses % steps := by
        intro i
        have hfull : steps - pulses + (i + 1) * pulses = i * pulses + steps := by
          rw [add_mul]
          omega
        rw [hfull, Nat.add_mod_right]
      rw [← Nat.mod_eq_of_lt (show steps - pulses < steps by omega),
        pour_eq_map hpulses (by omega)]
      refine List.map_congr_left fun i _ => decide_eq_decide.mpr ?_
      rw [hprimed, zero_add]
      exact_mod_cast Iff.rfl

/-! ## Turning -/

/-- Turning a mask rotates the list. -/
theorem turn_eq_rotate {mask : List Bool} {shift : Nat} (h : shift ≤ mask.length) :
    turn mask shift = mask.rotate shift :=
  (List.rotate_eq_drop_append_take h).symm

/-- A window in a whole turn of a rhythm is a window of the rhythm, also where it
goes round. -/
theorem take_rotate_onsetsWithin {steps length : Nat} (hlength : length ≤ steps)
    (pulses first : Int) (start : Nat) :
    ((onsetsWithin steps pulses first steps).rotate start).take length =
      onsetsWithin steps pulses (first + start) length := by
  refine List.ext_getElem (by simp [onsetsWithin, hlength]) fun i hi hi' => ?_
  simp only [onsetsWithin, List.getElem_take, List.getElem_rotate, List.getElem_map,
    List.getElem_range, List.length_map, List.length_range, Int.natCast_mod, Nat.cast_add]
  rw [← onset_emod, Int.add_emod_emod, onset_emod, add_assoc, add_comm (i : Int)]

/-- A turned rhythm starts at its rotation. -/
theorem turn_spread {steps pulses : Nat} (hpulses : pulses ≤ steps) (hsteps : 0 < steps)
    (rotation : Int) : turn (spread steps pulses) (rotation.emod steps).toNat =
      onsetsWithin steps pulses rotation steps := by
  obtain ⟨shift, hshift⟩ := Int.eq_ofNat_of_zero_le
    (Int.emod_nonneg rotation (show (steps : Int) ≠ 0 by omega))
  have hlt := Int.emod_lt_of_pos rotation (show (0 : Int) < steps by omega)
  have hturn := take_rotate_onsetsWithin (le_refl steps) pulses 0 shift
  rw [List.take_of_length_le (by simp), zero_add] at hturn
  rw [spread_eq_map hpulses, show rotation.emod steps = (shift : Int) from hshift,
    Int.toNat_natCast, turn_eq_rotate (by simp; omega), hturn, ← hshift, onsetsWithin_emod]

/-- The onsets of a rhythm whose list can be had. -/
theorem euclidean_eq_ok {steps : Int} (hsteps : 1 ≤ steps) (pulses rotation : Int)
    (hheld : 1 ≤ pulses ∨ steps ≤ Copies.capacity) : euclidean steps pulses rotation =
      .ok (onsetsWithin steps (max 0 (min pulses steps)) rotation steps.toNat) := by
  obtain ⟨n, rfl⟩ := Int.eq_ofNat_of_zero_le (show 0 ≤ steps by omega)
  have hlimited : ((pulses.toNat.min n : Nat) : Int) = max 0 (min pulses n) := by
    change ((min pulses.toNat n : Nat) : Int) = _
    omega
  have hturn := turn_spread (Nat.min_le_right pulses.toNat n) (by omega) rotation
  rw [hlimited] at hturn
  unfold euclidean
  rw [if_neg (by omega)]
  split
  · rw [Copies.held_one (by omega)]
    exact congrArg _ hturn
  · exact congrArg _ hturn

/-- A rhythm without pulses needs a list of rests, which may be too long. -/
theorem euclidean_eq_error {steps pulses : Int} (hpulses : pulses < 1)
    (hsteps : (Copies.capacity : Int) < steps) (rotation : Int) : euclidean steps pulses rotation =
      .error (if (Copies.largest : Int) < steps then .countTooLarge else .outOfMemory) := by
  have hcapacity : Copies.capacity = 68719476736 := rfl
  unfold euclidean
  rw [if_neg (by omega), if_pos hpulses, Copies.held_one_of_lt hsteps]
  rfl

/-! ## Evenness -/

/-- A list of `steps` with `pulses` onsets as even as can be, turned by
`rotation`. -/
structure Even (steps pulses rotation : Int) (mask : List Bool) : Prop where
  /-- There are as many steps as asked for. -/
  length : (mask.length : Int) = steps
  /-- A step is an onset just if the closed form says so. -/
  onset_iff (i : Nat) (h : i < mask.length) :
    mask[i] = true ↔ (i + rotation) * pulses % steps < pulses
  /-- A window that may go round holds its share of the pulses, rounded. -/
  window (start : Nat) {length : Nat} (h : length ≤ mask.length) :
    let hits : Int := ((mask.rotate start).take length).count true
    hits = ⌊(length * pulses / steps : Rat)⌋ ∨ hits = ⌈(length * pulses / steps : Rat)⌉
  /-- All pulses are there. -/
  total : (mask.count true : Int) = pulses

/-- A window of as many places as there are steps holds all pulses, spread evenly. -/
theorem even_onsetsWithin {steps : Nat} {pulses : Int} (hsteps : 0 < steps) (hlow : 0 ≤ pulses)
    (hhigh : pulses ≤ steps) (rotation : Int) :
    Even steps pulses rotation (onsetsWithin steps pulses rotation steps) where
  length := by simp
  onset_iff i h := by simp [onsetsWithin, onset, add_comm rotation]
  window start length h := by
    rw [length_onsetsWithin] at h
    obtain ⟨hmore, hless⟩ := near_onsetsWithin (by omega) hlow hhigh (rotation + start) length
    have hround := floor_or_ceil_of_near (by omega) hmore hless
    rw [take_rotate_onsetsWithin h]
    simpa using hround
  total := by
    have hcount := count_onsetsWithin (by omega) hlow hhigh rotation steps
    have hturn : (rotation + steps - 1) * pulses = (rotation - 1) * pulses + steps * pulses := by
      ring
    rw [hcount]
    simp only [before, hturn]
    rw [Int.add_mul_ediv_left _ _ (by omega)]
    omega

end Rhythm

end Ostinato
