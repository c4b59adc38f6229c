import Mathlib.Algebra.Order.Ring.Rat
import Mathlib.Data.List.Sort
import Ostinato.Query

/-!
# Ostinato.Proofs.Event.Sorting

Events in the order of their starts.

The order in which a query gives events is that of the library's insertion sort
(`sortByStart_eq`), which is stable: what is left of sorted events is what is left,
sorted (`sortByStart_sublist`, `sortByStart_filter`).  Events that begin after others
stay after them (`sortByStart_append`).
-/

namespace Ostinato.Event

/-- Whether an event begins no later than another. -/
def StartsBy (e e' : Event) : Prop := e.active.start ≤ e'.active.start

instance : DecidableRel StartsBy := fun e e' =>
  inferInstanceAs (Decidable (e.active.start ≤ e'.active.start))

instance : Std.Total StartsBy := ⟨fun _ _ => le_total _ _⟩

instance : IsTrans Event StartsBy := ⟨fun _ _ _ => le_trans⟩

/-- Insertion by start is the insertion of the library. -/
theorem insertByStart_eq (e : Event) (events : List Event) :
    insertByStart e events = events.orderedInsert StartsBy e := by
  induction events with
  | nil => rfl
  | cons x xs ih =>
    rw [insertByStart, List.orderedInsert_cons, ih]
    rfl

/-- Sorting by start is the insertion sort of the library. -/
theorem sortByStart_eq (events : List Event) :
    sortByStart events = events.insertionSort StartsBy := by
  induction events with
  | nil => rfl
  | cons e es ih =>
    rw [List.insertionSort_cons, ← ih, ← insertByStart_eq]
    rfl

variable {events fewer later : List Event}

/-- Sorting only puts events in another order. -/
theorem sortByStart_perm (events : List Event) : (sortByStart events).Perm events := by
  rw [sortByStart_eq]
  exact List.perm_insertionSort StartsBy events

/-- Sorting keeps exactly the events there are. -/
theorem mem_sortByStart {e : Event} : e ∈ sortByStart events ↔ e ∈ events :=
  (sortByStart_perm events).mem_iff

/-- Fewer events are sorted to fewer events of the same order. -/
theorem sortByStart_sublist (h : fewer.Sublist events) :
    (sortByStart fewer).Sublist (sortByStart events) := by
  simp only [sortByStart_eq]
  induction h with
  | slnil => exact .refl _
  | cons e _ ih => exact ih.trans (List.sublist_orderedInsert e _)
  | cons_cons e _ ih =>
    exact ih.orderedInsert_sublist e (List.pairwise_insertionSort StartsBy _)

/-- What is kept of sorted events is what is kept of the events, sorted. -/
theorem sortByStart_filter (keep : Event → Bool) (events : List Event) :
    sortByStart (events.filter keep) = (sortByStart events).filter keep := by
  have hsub := (sortByStart_sublist (List.filter_sublist (p := keep) (l := events))).filter keep
  have hkept : (sortByStart (events.filter keep)).filter keep = sortByStart (events.filter keep) :=
    List.filter_eq_self.mpr fun e he => (List.mem_filter.mp (mem_sortByStart.mp he)).2
  rw [hkept] at hsub
  refine hsub.eq_of_length ?_
  rw [(sortByStart_perm _).length_eq, ((sortByStart_perm events).filter keep).length_eq]

/-- A map that keeps the starts goes inside. -/
theorem sortByStart_map {f : Event → Event} (hf : ∀ e, (f e).active.start = e.active.start)
    (events : List Event) : sortByStart (events.map f) = (sortByStart events).map f := by
  rw [sortByStart_eq, sortByStart_eq, List.map_insertionSort StartsBy StartsBy]
  intro e _ e' _
  unfold StartsBy
  rw [hf, hf]

/-- An event that begins no later than any of a list is inserted in front of it. -/
theorem orderedInsert_append {e : Event} (h : ∀ e' ∈ later, e.StartsBy e') (events : List Event) :
    (events ++ later).orderedInsert StartsBy e = events.orderedInsert StartsBy e ++ later := by
  induction events with
  | nil =>
    cases later with
    | nil => rfl
    | cons x xs => exact List.orderedInsert_cons_of_le StartsBy xs (h x List.mem_cons_self)
  | cons x xs ih =>
    rw [List.cons_append, List.orderedInsert_cons, List.orderedInsert_cons, ih]
    split <;> rfl

/-- Where all of the one start no later than all of the other, each part is sorted
for itself. -/
theorem sortByStart_append (h : ∀ e ∈ events, ∀ e' ∈ later, e.active.start ≤ e'.active.start) :
    sortByStart (events ++ later) = sortByStart events ++ sortByStart later := by
  simp only [sortByStart_eq]
  induction events with
  | nil => rfl
  | cons e es ih =>
    rw [List.forall_mem_cons] at h
    rw [List.cons_append, List.insertionSort_cons, List.insertionSort_cons, ih h.2]
    exact orderedInsert_append (fun e' he' => h.1 e' ((List.mem_insertionSort _).mp he')) _

end Ostinato.Event
