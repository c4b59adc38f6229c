import Ostinato.Proofs.Rendering.Fixed
import Ostinato.Proofs.Rhythm.Evenness

/-!
# Ostinato.Proofs.Rendering.Rhythms

Rhythms as groups.

A rhythm plays what the group plays that has the subject on its onsets and an
empty group on its rests (`Pattern.render_euclidean`), however the subject draws
and fails.  Together with `Rhythm.Even` that says all of what a rhythm plays
(`Pattern.euclidean_evenly`).
-/

namespace Ostinato

variable {σ : Type} {steps pulses rotation : Int}

namespace Rendering

/-- A rhythm whose steps are known is a group of them. -/
theorem euclidean_eq_sequence {mask : List Bool}
    (hmask : Rhythm.euclidean steps pulses rotation = .ok mask) (subject : Rendering σ) :
    euclidean steps pulses rotation subject =
      sequence (mask.map fun hit => if hit then subject else fun _ _ => pure []) := by
  obtain ⟨hsteps, hlength⟩ := length_of_euclidean hmask
  funext cycle span
  have hwidth : divide span.length steps = .ok (span.length / mask.length) := by
    rw [divide_eq_ok (by omega), hlength, Int.cast_natCast]
  simp only [euclidean, sequence, hwidth, hmask, List.length_map]
  rfl

/-- A rhythm without its steps fails before anything is drawn. -/
theorem euclidean_eq_failed (hsteps : 1 ≤ steps) {fault : Fault}
    (hmask : Rhythm.euclidean steps pulses rotation = .error fault) (subject : Rendering σ) :
    euclidean steps pulses rotation subject = failed fault := by
  funext cycle span
  simp only [euclidean, divide_eq_ok (show steps ≠ 0 by omega), hmask]
  rfl

/-- A group of empty groups plays nothing. -/
theorem slots_silent (cycle : Int) (start width : Rat) (size count : Nat) :
    slots cycle start width count
      (List.replicate size (fun _ _ => pure [] : Rendering σ)) = pure [] := by
  induction size generalizing count with
  | zero => rfl
  | succ size ih => simp [List.replicate_succ, slots, ih]

end Rendering

namespace Pattern

/-- A rhythm is rendered as the group of its subject and of rests. -/
theorem render_euclidean {mask : List Bool}
    (hmask : Rhythm.euclidean steps pulses rotation = .ok mask) (s : Setting σ)
    (child : Pattern) : (euclidean steps pulses rotation child).render s =
      (sequence (mask.map fun hit => if hit then child else sequence [])).render s := by
  have hslots : ∀ hit : Bool, (if hit then child else sequence []).render s =
      if hit then child.render s else fun _ _ => pure [] := fun hit => by cases hit <;> rfl
  simp only [render, Rendering.euclidean_eq_sequence hmask, renderAll_eq_map, List.map_map,
    Function.comp_def, hslots]

/-- A group of rests plays nothing. -/
theorem render_rests (s : Setting σ) (size : Nat) :
    (sequence (List.replicate size (sequence []))).render s = fun _ _ => pure [] := by
  funext cycle span
  simp only [render, renderAll_eq_map, List.map_replicate]
  exact Rendering.slots_silent cycle _ _ size 0

/-- **Even rhythms**: a rhythm has its pulses spread as evenly as can be, and it
plays its subject on them and nothing in between.  A rhythm without pulses needs
a list of as many rests as it has steps; if that list is too long, there is no
rhythm, and rendering it fails. -/
theorem euclidean_evenly (hsteps : 1 ≤ steps) (pulses rotation : Int) :
    let within := max 0 (min pulses steps)
    (0 < within ∨ steps ≤ Copies.capacity → ∃ mask,
      Rhythm.euclidean steps pulses rotation = .ok mask ∧
      Rhythm.Even steps within rotation mask ∧
      ∀ {σ : Type} (s : Setting σ) (child : Pattern),
        (euclidean steps pulses rotation child).render s =
          (sequence (mask.map fun hit => if hit then child else sequence [])).render s) ∧
    (within = 0 → Copies.capacity < steps →
      let fault : Fault := if Copies.largest < steps then .countTooLarge else .outOfMemory
      Rhythm.euclidean steps pulses rotation = .error fault ∧
      ∀ {σ : Type} (s : Setting σ) (child : Pattern),
        (euclidean steps pulses rotation child).render s = Rendering.failed fault) := by
  intro within
  constructor
  · intro hheld
    have hmask := Rhythm.euclidean_eq_ok hsteps pulses rotation (by omega)
    have heven : Rhythm.Even steps.toNat within rotation _ :=
      Rhythm.even_onsetsWithin (by omega) (by omega) (by omega) rotation
    rw [Int.toNat_of_nonneg (by omega)] at heven
    exact ⟨_, hmask, heven, fun s child => render_euclidean hmask s child⟩
  · intro hrests hlong fault
    have hmask := Rhythm.euclidean_eq_error (show pulses < 1 by omega) hlong rotation
    exact ⟨hmask, fun s child => Rendering.euclidean_eq_failed hsteps hmask _⟩

/-- Three in eight turned to the right by five, and more rests than there is
memory for. -/
theorem euclidean_evenly_turned :
    let mask := [true, false, false, true, false, true, false, false]
    Rhythm.euclidean 8 3 (-5) = .ok mask ∧ Rhythm.Even 8 3 (-5) mask ∧
    (∀ child, (euclidean 8 3 (-5) child).render (Performance.default.setting Policy.roundRobin) =
      (sequence (mask.map fun hit => if hit then child else sequence [])).render
        (Performance.default.setting Policy.roundRobin)) ∧
    Rhythm.euclidean (Copies.capacity + 1) (-2) 3 = .error .outOfMemory := by
  intro mask
  have hmask : Rhythm.euclidean 8 3 (-5) = .ok mask := by decide
  obtain ⟨mask', hmask', heven, hrender⟩ :=
    (euclidean_evenly (show (1 : Int) ≤ 8 by decide) 3 (-5)).1 (.inl (by decide))
  obtain rfl : mask' = mask := Except.ok.inj (hmask'.symm.trans hmask)
  exact ⟨hmask, heven, fun child => hrender _ child,
    ((euclidean_evenly (show (1 : Int) ≤ Copies.capacity + 1 by decide) (-2) 3).2 (by decide)
      (by decide)).1⟩

end Pattern

namespace Performance

variable {perf : Performance} {policy : Policy} {p : Pattern} {cycle : Int} {stream : Twister}

/-- A pattern that fails to render fails to be found. -/
theorem query_of_failed (hpolicy : perf.choice.resolve perf.policies = .ok policy)
    (hstream : perf.stream cycle = .ok stream) {fault : Fault}
    (h : p.render (perf.setting policy) = Rendering.failed fault) (arc : Option Arc) :
    perf.query p cycle arc = .error fault := by
  unfold query
  rw [hpolicy, hstream]
  change (Prod.fst <$> p.render (perf.setting policy) cycle Span.cycle stream) >>= _ = _
  rw [h]
  rfl

/-- A rhythm without pulses may have more steps than a list has room for.  Then
there is no rhythm and a query for it fails, though the group of as many rests
plays nothing. -/
theorem euclidean_of_rests :
    let steps : Nat := 9223372036854775808
    Rhythm.euclidean steps 0 0 = .error .countTooLarge ∧
    (∀ child, default.query (.euclidean steps 0 0 child) 0 none = .error .countTooLarge) ∧
    default.query (.sequence (List.replicate steps (.sequence []))) 0 none = .ok [] := by
  intro steps
  have hmask : Rhythm.euclidean steps 0 0 = .error .countTooLarge :=
    Rhythm.euclidean_eq_error (by decide) (by decide) 0
  obtain ⟨policy, hpolicy⟩ : ∃ policy, default.choice.resolve default.policies = .ok policy :=
    ⟨_, rfl⟩
  obtain ⟨stream, hstream⟩ :=
    ok_of_isSome (show (default.stream 0).toOption.isSome by decide +kernel)
  refine ⟨hmask, fun child => ?_, ?_⟩
  · exact query_of_failed (p := .euclidean steps 0 0 child) hpolicy hstream
      (Rendering.euclidean_eq_failed (by decide) hmask _) none
  · exact query_of_render hpolicy hstream (congrFun (congrFun (Pattern.render_rests _ steps) 0) _)

end Performance

end Ostinato
