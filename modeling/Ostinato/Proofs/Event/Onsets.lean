import Mathlib.Algebra.BigOperators.Group.Finset.Piecewise
import Mathlib.Algebra.Order.Floor.Ring
import Mathlib.Data.Int.ConditionallyCompleteOrder
import Mathlib.Data.Int.Interval
import Mathlib.Data.Rat.Floor
import Ostinato.Proofs.Event.Affine
import Ostinato.Proofs.Event.Sorting

/-!
# Ostinato.Proofs.Event.Onsets

What is heard of events: the multiset of their onsets.

An event that lost its head when it was cut sounds in an earlier slot already,
so only events with an onset count.  `Event.onsets` collects them at places on
a common time line:

* `onsets_clip` — clipping keeps the onsets inside the span, and no others;
* `onsets_affine` — scaling and moving events moves their onsets;
* `sum_filter_unit` — onsets are told apart by the unit interval they are in.
-/

namespace Ostinato

/-- What begins at a time: a value, as which piece of an event. -/
structure Onset where
  value : Value
  part : Option Int
  time : Rat

namespace Event

/-- The onsets of events, with `place` giving the time for a place in the
cycle. -/
def onsets (place : Rat → Rat) (events : List Event) : Multiset Onset :=
  ↑((events.filter (·.hasOnset)).map fun e => (⟨e.value, e.part, place e.active.start⟩ : Onset))

theorem onsets_nil (place : Rat → Rat) : onsets place [] = 0 := rfl

/-- Onsets of events add up. -/
theorem onsets_append (place : Rat → Rat) (es fs : List Event) :
    onsets place (es ++ fs) = onsets place es + onsets place fs := by
  unfold onsets
  rw [List.filter_append, List.map_append, Multiset.coe_add]

/-- The onsets of an event and of others. -/
theorem onsets_cons (place : Rat → Rat) (e : Event) (es : List Event) :
    onsets place (e :: es) = onsets place [e] + onsets place es :=
  onsets_append place [e] es

/-- An onset counts once. -/
theorem onsets_of_hasOnset (place : Rat → Rat) {e : Event} (h : e.hasOnset = true) :
    onsets place [e] = {⟨e.value, e.part, place e.active.start⟩} := by
  unfold onsets
  rw [List.filter_cons_of_pos h]
  rfl

/-- A tail does not count. -/
theorem onsets_of_not_hasOnset (place : Rat → Rat) {e : Event} (h : ¬ e.hasOnset = true) :
    onsets place [e] = 0 := by
  unfold onsets
  rw [List.filter_cons_of_neg h]
  rfl

/-! ## Sorting -/

/-- Onsets do not depend on the order of events. -/
theorem onsets_sortByStart (place : Rat → Rat) (events : List Event) :
    onsets place (sortByStart events) = onsets place events := by
  unfold onsets
  exact Multiset.coe_eq_coe.mpr (((sortByStart_perm events).filter _).map _)

/-! ## Cutting and moving -/

/-- Clipping keeps an onset exactly if it lies in the span. -/
theorem onsets_clip (place : Rat → Rat) (span : Span) {events : List Event}
    (h : ∀ e ∈ events, e.WellCut) :
    onsets place (clip span events) = onsets place
      (events.filter fun e => span.start ≤ e.active.start ∧ e.active.start < span.stop) := by
  induction events with
  | nil => rfl
  | cons e es ih =>
      have hcut := h e List.mem_cons_self
      have hes := ih fun e' he' => h e' (List.mem_cons_of_mem e he')
      rw [clip_cons, onsets_append, hes]
      by_cases hin : span.start ≤ e.active.start ∧ e.active.start < span.stop
      · -- the head of the event is kept
        rw [List.filter_cons_of_pos (by simpa using hin), onsets_cons]
        congr 1
        have hlt : max e.active.start span.start < min e.active.stop span.stop := by
          rw [max_eq_left hin.1]
          exact lt_min hcut.pos hin.2
        have hsome : e.clip? span = some (e.trim (e.active.meet span)) := by
          unfold clip?
          simp only
          rw [Span.start_meet, Span.stop_meet, if_pos hlt]
        have honset := hasOnset_clip? hcut.logical_start_le hsome
        rw [hsome]
        change onsets place [e.trim (e.active.meet span)] = onsets place [e]
        by_cases he : e.hasOnset = true
        · rw [onsets_of_hasOnset place he, onsets_of_hasOnset place (honset.mpr ⟨he, hin.1⟩),
            value_trim, part_trim, active_trim, Span.start_meet, max_eq_left hin.1]
        · rw [onsets_of_not_hasOnset place he,
            onsets_of_not_hasOnset place fun ho => he (honset.mp ho).1]
      · -- what is left of it, if anything, is a tail
        rw [List.filter_cons_of_neg (by simpa using hin)]
        have htail : onsets place (e.clip? span).toList = 0 := by
          cases hc : e.clip? span with
          | none => rfl
          | some e' =>
              refine onsets_of_not_hasOnset place fun ho => hin ⟨?_, ?_⟩
              · exact ((hasOnset_clip? hcut.logical_start_le hc).mp ho).2
              · obtain ⟨hlt, -⟩ := clip?_eq_some hc
                exact lt_of_le_of_lt (le_max_left _ _) (lt_of_lt_of_le hlt (min_le_right _ _))
        rw [htail, zero_add]

/-- Scaling and moving events moves their onsets. -/
theorem onsets_affine (place : Rat → Rat) {scale : Rat} (h : 0 < scale) (offset : Rat)
    (events : List Event) :
    onsets place (events.map (affine scale offset)) =
      onsets (fun t => place (scale * t + offset)) events := by
  unfold onsets
  rw [List.filter_map, List.map_map]
  have hkeep : (Event.hasOnset ∘ affine scale offset) = Event.hasOnset := by
    funext e
    exact hasOnset_affine h e
  rw [hkeep]
  rfl

/-- Picking events by their starts is picking onsets by their times. -/
theorem onsets_filter (place : Rat → Rat) (starts times : Rat → Prop) [DecidablePred starts]
    [DecidablePred times] (h : ∀ t, starts t ↔ times (place t)) (events : List Event) :
    onsets place (events.filter fun e => starts e.active.start) =
      (onsets place events).filter fun o => times o.time := by
  unfold onsets
  rw [Multiset.filter_coe, List.filter_map, List.filter_filter, List.filter_filter]
  congr 2
  refine List.filter_congr fun e _ => ?_
  simp only [Function.comp_apply, h]
  exact Bool.and_comm _ _

/-! ## The time line -/

/-- Picking among the onsets of several cycles. -/
theorem filter_sum_onsets (times : Rat → Prop) [DecidablePred times] (cycles : Finset Int)
    (onsets : Int → Multiset Onset) :
    (∑ c ∈ cycles, onsets c).filter (fun o => times o.time) =
      ∑ c ∈ cycles, (onsets c).filter fun o => times o.time :=
  map_sum (⟨⟨Multiset.filter _, Multiset.filter_zero _⟩, Multiset.filter_add _⟩ :
    Multiset Onset →+ Multiset Onset) onsets cycles

/-- The onsets in a stretch of whole units are those in each of the units. -/
theorem sum_filter_unit (onsets : Multiset Onset) (a b : Int) :
    ∑ n ∈ Finset.Ico a b, onsets.filter (fun o => (n : Rat) ≤ o.time ∧ o.time < (n : Rat) + 1) =
      onsets.filter fun o => (a : Rat) ≤ o.time ∧ o.time < (b : Rat) := by
  induction onsets using Multiset.induction_on with
  | empty => simp
  | cons o os ih =>
      have hunit : ∀ n : Int, ((n : Rat) ≤ o.time ∧ o.time < (n : Rat) + 1) ↔ ⌊o.time⌋ = n := fun n =>
        Int.floor_eq_iff.symm
      have hstretch : ((a : Rat) ≤ o.time ∧ o.time < (b : Rat)) ↔ ⌊o.time⌋ ∈ Finset.Ico a b := by
        rw [Finset.mem_Ico, Int.le_floor, Int.floor_lt]
      simp only [Multiset.filter_cons, Finset.sum_add_distrib, ih, hunit, hstretch]
      rw [Finset.sum_ite_eq]

end Event

end Ostinato
