import Mathlib.Data.List.Nodup
import Mathlib.Logic.Relation
import Ostinato.Proofs.Scheduler.Changes

/-!
# Ostinato.Proofs.Scheduler.Ledger

The books that a scheduler keeps of its events.

Whatever happens to a scheduler, its books change in four ways only: an event
is booked, cancelled, sounded, or given up because it cannot be written
(`Ledger.Step`).  Books that balance (`Ledger.Balanced`) tell of each event
whether it is still pending, and of each call of the sounder which event it was
for; every step keeps them balanced (`Balanced.step`) and leaves settled fates
alone (`Balanced.settled_step`).
-/

namespace Ostinato

/-- All events ever scheduled, the numbers of those still to be sounded, and
what the sounder was asked for. -/
structure Ledger where
  items : List Scheduled
  pending : List Nat
  attempts : List Attempt

namespace Ledger

/-- The books once an event met its fate. -/
def settle (l : Ledger) (id : Nat) (fate : Fate) : Ledger := { l with
  items := l.items.map (·.fated id fate)
  pending := l.pending.filter (· != id) }

/-- What can happen to the books. -/
inductive Step : Ledger → Ledger → Prop where
  | book (l : Ledger) (item : Scheduled) (hid : item.id = l.items.length)
      (hfate : item.fate = .pending) :
      Step l { l with items := l.items ++ [item], pending := l.pending ++ [item.id] }
  | cancel (l : Ledger) (item : Scheduled) (hmem : item ∈ l.items) (hfate : item.fate = .pending) :
      Step l (l.settle item.id .cancelled)
  | sound (l : Ledger) (item : Scheduled) (hmem : item ∈ l.items) (hfate : item.fate = .pending)
      (hwritable : item.event.value.isWritable = true) :
      Step l { l.settle item.id .sounded with attempts := l.attempts ++ [item.attempt] }
  | giveUp (l : Ledger) (item : Scheduled) (hmem : item ∈ l.items) (hfate : item.fate = .pending)
      (hwritable : item.event.value.isWritable = false) :
      Step l (l.settle item.id .sounded)

/-- Any number of steps. -/
abbrev Steps : Ledger → Ledger → Prop := Relation.ReflTransGen Step

/-- Books that agree with each other, if the calls of the sounder were for the
events with the numbers in `heard`, in this order. -/
structure Balanced (l : Ledger) (heard : List Nat) : Prop where
  ids : l.items.map (·.id) = List.range l.items.length
  pending : l.pending = (l.items.filter (·.fate == .pending)).map (·.id)
  nodup : heard.Nodup
  calls : List.Forall₂ (fun attempt id => ∃ item ∈ l.items, item.id = id ∧ attempt = item.attempt)
    l.attempts heard
  mem_heard : ∀ item ∈ l.items,
    item.id ∈ heard ↔ item.fate = .sounded ∧ item.event.value.isWritable = true

variable {l l' : Ledger} {heard : List Nat}

namespace Balanced

/-- No two events have the same number. -/
theorem nodup_ids (h : l.Balanced heard) : (l.items.map (·.id)).Nodup := by
  rw [h.ids]
  exact List.nodup_range

/-- Events with the same number are the same. -/
theorem eq_of_id (h : l.Balanced heard) {x y : Scheduled} (hx : x ∈ l.items) (hy : y ∈ l.items)
    (hid : x.id = y.id) : x = y :=
  List.inj_on_of_nodup_map h.nodup_ids hx hy hid

/-- Events are numbered below their count. -/
theorem id_lt (h : l.Balanced heard) {item : Scheduled} (hmem : item ∈ l.items) :
    item.id < l.items.length := by
  have hid : item.id ∈ l.items.map (·.id) := List.mem_map_of_mem hmem
  rw [h.ids, List.mem_range] at hid
  exact hid

/-- The pending events are those without a fate. -/
theorem mem_pending (h : l.Balanced heard) {item : Scheduled} (hmem : item ∈ l.items) :
    item.id ∈ l.pending ↔ item.fate = .pending := by
  rw [h.pending, List.mem_map]
  constructor
  · rintro ⟨other, hother, hid⟩
    rw [List.mem_filter, beq_iff_eq] at hother
    rw [← h.eq_of_id hother.1 hmem hid]
    exact hother.2
  · intro hfate
    exact ⟨item, List.mem_filter.mpr ⟨hmem, by simp [hfate]⟩, rfl⟩

/-- Every event the sounder was asked for is in the books. -/
theorem exists_of_mem_heard (h : l.Balanced heard) {id : Nat} (hid : id ∈ heard) :
    ∃ item ∈ l.items, item.id = id := by
  obtain ⟨n, hn, hget⟩ := List.mem_iff_getElem.mp hid
  have hlength := h.calls.length_eq
  obtain ⟨item, hmem, hitem, -⟩ := h.calls.get (i := n) (by omega) hn
  exact ⟨item, hmem, hitem.trans hget⟩

end Balanced

/-! ## Settling a fate -/

/-- The event with the number met its fate. -/
theorem fate_fated {id : Nat} {fate : Fate} {item : Scheduled} (h : item.id = id) :
    (item.fated id fate).fate = fate := by
  unfold Scheduled.fated
  rw [if_pos h]

/-- Other events are as they were. -/
theorem fated_of_ne {id : Nat} {fate : Fate} {item : Scheduled} (h : item.id ≠ id) :
    item.fated id fate = item := by
  unfold Scheduled.fated
  rw [if_neg h]

/-- Settling a fate takes the event from the pending ones and keeps the order
of the others. -/
theorem pending_settle (h : l.Balanced heard) (id : Nat) {fate : Fate} (hfate : fate ≠ .pending) :
    (l.settle id fate).pending =
      ((l.settle id fate).items.filter (·.fate == .pending)).map (·.id) := by
  unfold settle
  simp only
  rw [h.pending, List.filter_map, List.filter_map, List.filter_filter, List.map_map]
  have hid : ((fun x : Scheduled => x.id) ∘ fun x : Scheduled => x.fated id fate) =
      fun x : Scheduled => x.id := by
    funext item
    simp
  rw [hid]
  congr 1
  refine List.filter_congr fun item _ => ?_
  simp only [Function.comp_apply]
  by_cases hsame : item.id = id
  · rw [fate_fated hsame]
    simp [hsame, hfate]
  · rw [fated_of_ne hsame]
    simp [hsame]

/-- The calls of the sounder are for the same events afterwards. -/
theorem calls_settle {attempts : List Attempt} (id : Nat) (fate : Fate)
    (h : List.Forall₂ (fun attempt id => ∃ item ∈ l.items, item.id = id ∧ attempt = item.attempt)
      attempts heard) :
    List.Forall₂ (fun attempt other => ∃ item ∈ (l.settle id fate).items,
      item.id = other ∧ attempt = item.attempt) attempts heard := by
  refine h.imp fun attempt other => ?_
  rintro ⟨item, hmem, hid, hattempt⟩
  exact ⟨item.fated id fate, List.mem_map_of_mem hmem, by simp [hid], by simp [hattempt]⟩

/-- Books still balance after an event met a fate that makes no sound. -/
theorem balanced_settle (h : l.Balanced heard) {item : Scheduled} (hmem : item ∈ l.items)
    (hfate : item.fate = .pending) {fate : Fate} (hsettled : fate ≠ .pending)
    (hsilent : ¬ (fate = .sounded ∧ item.event.value.isWritable = true)) :
    (l.settle item.id fate).Balanced heard where
  ids := by
    unfold settle
    simp [Function.comp_def, h.ids]
  pending := pending_settle h item.id hsettled
  nodup := h.nodup
  calls := calls_settle item.id fate h.calls
  mem_heard := by
    intro other hother
    obtain ⟨x, hx, rfl⟩ := List.mem_map.mp hother
    rw [Scheduled.id_fated, Scheduled.event_fated, h.mem_heard x hx]
    by_cases hsame : x.id = item.id
    · have hx' : x = item := h.eq_of_id hx hmem hsame
      rw [fate_fated hsame, hx', hfate]
      constructor
      · rintro ⟨hsounded, -⟩
        nomatch hsounded
      · intro hheard
        exact absurd hheard hsilent
    · rw [fated_of_ne hsame]

/-- After an event was sounded, the last call of the sounder was for it. -/
theorem balanced_sound (h : l.Balanced heard) {item : Scheduled} (hmem : item ∈ l.items)
    (hfate : item.fate = .pending) (hwritable : item.event.value.isWritable = true) :
    Balanced { l.settle item.id .sounded with attempts := l.attempts ++ [item.attempt] }
      (heard ++ [item.id]) where
  ids := by
    unfold settle
    simp [Function.comp_def, h.ids]
  pending := pending_settle h item.id (by decide)
  nodup := by
    have hnew : item.id ∉ heard := by
      rw [h.mem_heard item hmem, hfate]
      simp
    rw [List.nodup_append_comm]
    exact List.nodup_cons.mpr ⟨hnew, h.nodup⟩
  calls := by
    refine List.rel_append (calls_settle item.id .sounded h.calls) ?_
    refine List.Forall₂.cons ⟨item.fated item.id .sounded, ?_, ?_, ?_⟩ List.Forall₂.nil
    · exact List.mem_map_of_mem hmem
    · simp
    · simp
  mem_heard := by
    intro other hother
    obtain ⟨x, hx, rfl⟩ := List.mem_map.mp hother
    rw [Scheduled.id_fated, Scheduled.event_fated, List.mem_append, h.mem_heard x hx]
    by_cases hsame : x.id = item.id
    · rw [fate_fated hsame, h.eq_of_id hx hmem hsame, hwritable]
      simp
    · rw [fated_of_ne hsame]
      simp [hsame]

/-- Books still balance after an event was booked. -/
theorem balanced_book (h : l.Balanced heard) {item : Scheduled} (hid : item.id = l.items.length)
    (hfate : item.fate = .pending) :
    Balanced { l with items := l.items ++ [item], pending := l.pending ++ [item.id] } heard where
  ids := by
    simp [h.ids, hid, List.range_succ]
  pending := by
    simp [h.pending, hfate]
  nodup := h.nodup
  calls := by
    refine h.calls.imp fun attempt id => ?_
    rintro ⟨x, hx, hrest⟩
    exact ⟨x, List.mem_append_left _ hx, hrest⟩
  mem_heard := by
    intro x hx
    rw [List.mem_append, List.mem_singleton] at hx
    cases hx with
    | inl hold => exact h.mem_heard x hold
    | inr hnew =>
        rw [hnew, hfate]
        constructor
        · intro hheard
          obtain ⟨y, hy, hyid⟩ := h.exists_of_mem_heard hheard
          have hlt := h.id_lt hy
          omega
        · rintro ⟨hsounded, -⟩
          nomatch hsounded

/-! ## Steps -/

/-- Every step keeps the books balanced and makes at most one more call. -/
theorem Balanced.step (h : l.Balanced heard) (hstep : Step l l') :
    ∃ more, l'.Balanced (heard ++ more) := by
  cases hstep with
  | book item hid hfate => exact ⟨[], by rw [List.append_nil]; exact balanced_book h hid hfate⟩
  | cancel item hmem hfate =>
      have hbalanced := balanced_settle h hmem hfate (show Fate.cancelled ≠ .pending by decide) (by simp)
      exact ⟨[], by rw [List.append_nil]; exact hbalanced⟩
  | sound item hmem hfate hwritable => exact ⟨[item.id], balanced_sound h hmem hfate hwritable⟩
  | giveUp item hmem hfate hwritable =>
      have hbalanced := balanced_settle h hmem hfate (show Fate.sounded ≠ .pending by decide)
        (by simp [hwritable])
      exact ⟨[], by rw [List.append_nil]; exact hbalanced⟩

/-- Any number of steps keeps the books balanced. -/
theorem Balanced.steps (h : l.Balanced heard) (hsteps : Steps l l') :
    ∃ more, l'.Balanced (heard ++ more) := by
  induction hsteps with
  | refl => exact ⟨[], by rw [List.append_nil]; exact h⟩
  | tail _ hstep ih =>
      obtain ⟨more, hmore⟩ := ih
      obtain ⟨last, hlast⟩ := hmore.step hstep
      exact ⟨more ++ last, by rw [← List.append_assoc]; exact hlast⟩

/-- A fate that is settled stays as it is. -/
theorem Balanced.settled_step (h : l.Balanced heard) (hstep : Step l l') {item : Scheduled}
    (hmem : item ∈ l.items) (hfate : item.fate ≠ .pending) : item ∈ l'.items := by
  have hkept : ∀ other ∈ l.items, other.fate = .pending → ∀ fate,
      item ∈ l.items.map (·.fated other.id fate) := by
    intro other hother hpending fate
    have hne : item.id ≠ other.id := by
      intro hid
      rw [h.eq_of_id hmem hother hid] at hfate
      exact hfate hpending
    exact List.mem_map.mpr ⟨item, hmem, fated_of_ne hne⟩
  cases hstep with
  | book other _ _ => exact List.mem_append_left _ hmem
  | cancel other hother hpending => exact hkept other hother hpending _
  | sound other hother hpending _ => exact hkept other hother hpending _
  | giveUp other hother hpending _ => exact hkept other hother hpending _

/-- Settled fates stay as they are over any number of steps. -/
theorem Balanced.settled (h : l.Balanced heard) (hsteps : Steps l l') {item : Scheduled}
    (hmem : item ∈ l.items) (hfate : item.fate ≠ .pending) : item ∈ l'.items := by
  induction hsteps with
  | refl => exact hmem
  | tail hbefore hstep ih =>
      obtain ⟨more, hmore⟩ := h.steps hbefore
      exact hmore.settled_step hstep ih hfate

end Ledger

end Ostinato
