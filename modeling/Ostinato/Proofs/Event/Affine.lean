import Mathlib.Algebra.Order.Field.Rat
import Mathlib.Data.List.Basic
import Mathlib.Tactic.FieldSimp
import Mathlib.Tactic.Ring
import Ostinato.Proofs.Event.Cut

/-!
# Ostinato.Proofs.Event.Affine

Events under a change of scale and origin.

`affine scale offset` takes each time `t` to `scale * t + offset`.  With a
positive scale the map keeps the order of times, and it commutes with
everything that is done to events: trimming, clipping and reflecting.
-/

namespace Ostinato

namespace Span

/-- The span under the map that takes `t` to `scale * t + offset`. -/
def affine (s : Span) (scale offset : Rat) : Span :=
  ⟨scale * s.start + offset, scale * s.stop + offset⟩

/-- A scaled span is as many times as long. -/
theorem length_affine (s : Span) (scale offset : Rat) :
    (s.affine scale offset).length = scale * s.length := by
  unfold length affine
  ring

/-- Steps of a scaled span are scaled steps. -/
theorem affine_step (start width count scale offset : Rat) :
    (step start width count).affine scale offset =
      step (scale * start + offset) (scale * width) count := by
  unfold step affine
  rw [mk.injEq]
  constructor <;> ring

/-- Reflecting a scaled span reflects it at the scaled pivot. -/
theorem affine_reflect (s : Span) (pivot scale offset : Rat) :
    (s.reflect pivot).affine scale offset =
      (s.affine scale offset).reflect (scale * pivot + 2 * offset) := by
  unfold reflect affine
  rw [mk.injEq]
  constructor <;> ring

/-- With a positive scale no two spans are taken to the same. -/
theorem affine_inj {s t : Span} {scale offset : Rat} (h : 0 < scale) :
    s.affine scale offset = t.affine scale offset ↔ s = t := by
  constructor
  · intro heq
    unfold affine at heq
    rw [mk.injEq] at heq
    exact eq_of_ends (mul_left_cancel₀ (ne_of_gt h) (add_right_cancel heq.1))
      (mul_left_cancel₀ (ne_of_gt h) (add_right_cancel heq.2))
  · intro heq
    rw [heq]

/-- One affine map takes the ends of a span that runs forwards to the ends of
another. -/
theorem exists_affine {here there : Span} (hhere : here.start < here.stop)
    (hthere : there.start < there.stop) :
    ∃ scale offset : Rat, 0 < scale ∧ here.affine scale offset = there := by
  have hlength : 0 < here.stop - here.start := sub_pos.mpr hhere
  have hscale : 0 < (there.stop - there.start) / (here.stop - here.start) :=
    div_pos (sub_pos.mpr hthere) hlength
  refine ⟨_, there.start - (there.stop - there.start) / (here.stop - here.start) * here.start,
    hscale, eq_of_ends ?_ ?_⟩
  · unfold affine
    ring
  · unfold affine
    field_simp
    ring

/-- Scaling upwards keeps which of two places is later. -/
theorem max_affine {scale : Rat} (h : 0 < scale) (offset x y : Rat) :
    max (scale * x + offset) (scale * y + offset) = scale * max x y + offset := by
  cases le_total x y with
  | inl hxy => rw [max_eq_right hxy, max_eq_right (by nlinarith)]
  | inr hyx => rw [max_eq_left hyx, max_eq_left (by nlinarith)]

/-- Scaling upwards keeps which of two places is earlier. -/
theorem min_affine {scale : Rat} (h : 0 < scale) (offset x y : Rat) :
    min (scale * x + offset) (scale * y + offset) = scale * min x y + offset := by
  cases le_total x y with
  | inl hxy => rw [min_eq_left hxy, min_eq_left (by nlinarith)]
  | inr hyx => rw [min_eq_right hyx, min_eq_right (by nlinarith)]

/-- What scaled spans have in common is scaled. -/
theorem affine_meet {scale : Rat} (h : 0 < scale) (offset : Rat) (s t : Span) :
    (s.meet t).affine scale offset = (s.affine scale offset).meet (t.affine scale offset) := by
  refine eq_of_ends ?_ ?_
  · rw [start_meet]
    unfold affine
    rw [max_affine h, start_meet]
  · rw [stop_meet]
    unfold affine
    rw [min_affine h, stop_meet]

/-- A scaled span is empty if and only if the span is. -/
theorem affine_lt_iff {scale : Rat} (h : 0 < scale) (offset : Rat) (s : Span) :
    (s.affine scale offset).start < (s.affine scale offset).stop ↔ s.start < s.stop := by
  unfold affine
  simp only
  rw [add_lt_add_iff_right, mul_lt_mul_iff_right₀ h]

end Span

namespace Event

variable {scale : Rat} {offset : Rat}

/-- The event under the map that takes `t` to `scale * t + offset`. -/
def affine (scale offset : Rat) (e : Event) : Event :=
  { e with active := e.active.affine scale offset, whole := e.whole.map (·.affine scale offset) }

/-- The logical span of a scaled event is scaled. -/
theorem logical_affine (scale offset : Rat) (e : Event) :
    (e.affine scale offset).logical = e.logical.affine scale offset := by
  unfold logical affine
  cases e.whole <;> rfl

/-- Trimming a scaled event to a scaled span scales the trimmed event. -/
theorem trim_affine (h : 0 < scale) (e : Event) (span : Span) :
    (e.affine scale offset).trim (span.affine scale offset) =
      (e.trim span).affine scale offset := by
  unfold trim
  have hactive : (e.affine scale offset).active = e.active.affine scale offset := rfl
  by_cases heq : span = e.active
  · rw [if_pos heq, if_pos (by rw [hactive, heq])]
  · rw [if_neg heq, if_neg (by rw [hactive, Span.affine_inj h]; exact heq), logical_affine]
    rfl

/-- A scaled event is left by a scaled span just where the event is by the span. -/
theorem clip?_affine (h : 0 < scale) (e : Event) (span : Span) :
    (e.affine scale offset).clip? (span.affine scale offset) =
      (e.clip? span).map (affine scale offset) := by
  unfold clip?
  have hmeet : (e.affine scale offset).active.meet (span.affine scale offset) =
      (e.active.meet span).affine scale offset := (Span.affine_meet h offset e.active span).symm
  simp only [hmeet, Span.affine_lt_iff h, trim_affine h]
  split <;> rfl

/-- Clipping goes through scaling. -/
theorem clip_affine (h : 0 < scale) (span : Span) (events : List Event) :
    clip (span.affine scale offset) (events.map (affine scale offset)) =
      (clip span events).map (affine scale offset) := by
  unfold clip
  rw [List.filterMap_map, List.map_filterMap]
  exact List.filterMap_congr fun e _ => clip?_affine h e span

/-- Reflecting an event goes through scaling. -/
theorem reflect_affine (e : Event) (pivot : Rat) :
    (e.affine scale offset).reflect (scale * pivot + 2 * offset) =
      (e.reflect pivot).affine scale offset := by
  obtain ⟨value, active, part, whole⟩ := e
  unfold reflect affine
  rw [mk.injEq]
  refine ⟨rfl, (Span.affine_reflect active pivot scale offset).symm, rfl, ?_⟩
  cases whole with
  | none => rfl
  | some w => exact congrArg some (Span.affine_reflect w pivot scale offset).symm

/-- So does reflecting all events of a span. -/
theorem reflected_affine (span : Span) (events : List Event) :
    reflected (span.affine scale offset) (events.map (affine scale offset)) =
      (reflected span events).map (affine scale offset) := by
  unfold reflected
  rw [← List.map_reverse, List.map_map, List.map_map]
  refine List.map_congr_left fun e _ => ?_
  have hpivot : (span.affine scale offset).start + (span.affine scale offset).stop =
      scale * (span.start + span.stop) + 2 * offset := by
    unfold Span.affine
    ring
  rw [Function.comp_apply, Function.comp_apply, hpivot, reflect_affine]

/-- The place of the onset and whether there is one do not depend on scale and
origin. -/
theorem hasOnset_affine (h : 0 < scale) (e : Event) :
    (e.affine scale offset).hasOnset = e.hasOnset := by
  rw [Bool.eq_iff_iff, hasOnset_iff, hasOnset_iff, logical_affine]
  have hactive : (e.affine scale offset).active = e.active.affine scale offset := rfl
  rw [hactive]
  unfold Span.affine
  simp only
  rw [add_left_inj, mul_right_inj' (ne_of_gt h)]

/-- Scaling and moving keep an event well cut. -/
theorem WellCut.affine {e : Event} (hcut : e.WellCut) (h : 0 < scale) (offset : Rat) :
    (e.affine scale offset).WellCut := by
  refine ⟨(Span.affine_lt_iff h offset e.active).mpr hcut.pos, fun w hw => ?_⟩
  simp only [Event.affine, Option.map_eq_some_iff] at hw
  obtain ⟨v, hv, rfl⟩ := hw
  obtain ⟨hstart, hstop, hne⟩ := hcut.within v hv
  have hscaled : ∀ {x y : Rat}, x ≤ y → scale * x + offset ≤ scale * y + offset := by
    intro x y hxy
    rw [add_le_add_iff_right, mul_le_mul_iff_right₀ h]
    exact hxy
  exact ⟨hscaled hstart, hscaled hstop, fun heq => hne ((Span.affine_inj h).mp heq)⟩

end Event

end Ostinato
