import Ostinato.Proofs.Scheduler.Ledger
import Ostinato.Proofs.Scheduler.Runs

/-!
# Ostinato.Proofs.Scheduler.Books

The books of a scheduler are a ledger.

`Scheduler.Moves` says that the books change by steps of the ledger only.
Every occurrence moves (`moves_next`), hence every run does (`moves_afterAll`);
as the books of a new scheduler balance, they always do (`balanced_afterAll`).

Only stopping needs that the books balance before: it empties the list of
pending events, which is right if each of them was cancelled, and that is known
from the books alone.
-/

namespace Ostinato

namespace Scheduler

open Scheduling

/-- The books of a scheduler. -/
def ledger (s : Scheduler) : Ledger :=
  ⟨s.items, (s.run.map (·.pending)).getD [], s.trace.attempts.map (·.1)⟩

/-- From books that balance, steps of the ledger lead to those of another
scheduler. -/
def Moves (s t : Scheduler) : Prop :=
  ∀ heard, s.ledger.Balanced heard → Ledger.Steps s.ledger t.ledger

/-- Schedulers that play alike have the same books. -/
theorem Alike.ledger {s t : Scheduler} (h : Alike s t) : s.ledger = t.ledger := by
  unfold Scheduler.ledger
  rw [h.items, h.run, h.attempts]

/-- What leaves the books as they are moves them by no step. -/
theorem moves_of_ledger_eq {s t : Scheduler} (h : t.ledger = s.ledger) : Moves s t := by
  intro heard _
  rw [h]

/-- Steps after steps are steps, since the books still balance between them. -/
theorem Moves.trans {s t u : Scheduler} (h : Moves s t) (h' : Moves t u) : Moves s u := by
  intro heard hbalanced
  have hsteps := h heard hbalanced
  obtain ⟨more, hmore⟩ := hbalanced.steps hsteps
  exact hsteps.trans (h' _ hmore)

theorem moves_refl (s : Scheduler) : Moves s s := moves_of_ledger_eq rfl

/-! ## Single changes -/

/-- An event that is found is among the events. -/
theorem mem_of_item? {s : Scheduler} {id : Nat} {item : Scheduled}
    (h : s.item? id = some item) : item ∈ s.items := List.mem_of_find?_eq_some h

/-- The fate of an event is settled in the books as well. -/
theorem ledger_settle (s : Scheduler) (id : Nat) (fate : Fate) :
    (s.settle id fate).ledger = s.ledger.settle id fate := by
  unfold ledger settle Ledger.settle
  cases s.run <;> rfl

/-- An attempt at sounding is entered in the books. -/
theorem ledger_asked (s : Scheduler) (attempt : Attempt) :
    (s.asked attempt).ledger = { s.ledger with attempts := s.ledger.attempts ++ [attempt] } := by
  unfold asked ledger
  simp

/-- A booking while something plays enters a pending event in the books. -/
theorem ledger_book {s : Scheduler} (hrunning : s.isRunning = true) (b : Booking) :
    (s.book b).ledger = { s.ledger with
      items := s.ledger.items ++ [⟨s.items.length, b.event, b.cycle, b.fireTime, b.duration,
        s.clock.timers.length, .pending⟩]
      pending := s.ledger.pending ++ [s.items.length] } := by
  unfold isRunning at hrunning
  unfold book ledger
  cases hrun : s.run with
  | none => rw [hrun] at hrunning; nomatch hrunning
  | some run => rfl

/-- The end of a cycle is not in the books. -/
theorem ledger_armed (s : Scheduler) : s.armed.ledger = s.ledger := by
  unfold armed
  cases hrun : s.run with
  | none => rfl
  | some run =>
      unfold ledger
      simp only [hrun]

/-- The next cycle takes over the pending events. -/
theorem ledger_turned {s : Scheduler} {run : Run} (hrun : s.run = some run) :
    (s.turned run).ledger = s.ledger := by
  unfold ledger turned
  rw [hrun]
  rfl

/-- A run begins with nothing pending, as nothing was while nothing played. -/
theorem ledger_begun {s : Scheduler} (hstopped : s.isRunning = false) (node : Pattern)
    (rate : Option Float) : (s.begun node rate).ledger = s.ledger := by
  unfold isRunning at hstopped
  unfold ledger begun
  rw [Option.not_isSome_iff_eq_none.mp (Bool.eq_false_iff.mp hstopped)]
  rfl

/-- Each change is a step of the ledger or does not concern it. -/
theorem tracks_moves : Tracks Moves where
  trans := Moves.trans
  alike := fun h => moves_of_ledger_eq h.symm.ledger
  cancelled := by
    intro s item hopen heard _
    obtain ⟨x, hx, hfate⟩ := isOpen_eq_true.mp hopen
    have hledger : (s.cancelled item).ledger = s.ledger.settle x.id .cancelled := by
      rw [id_of_item? hx]
      exact ledger_settle s item.id .cancelled
    rw [hledger]
    exact Relation.ReflTransGen.single (.cancel _ x (mem_of_item? hx) hfate)
  sounded := by
    intro s id item hitem hfate hwritable heard _
    rw [ledger_asked, ledger_settle, ← id_of_item? hitem]
    exact Relation.ReflTransGen.single (.sound _ item (mem_of_item? hitem) hfate hwritable)
  givenUp := by
    intro s id item hitem hfate hwritable heard _
    rw [ledger_settle, ← id_of_item? hitem]
    exact Relation.ReflTransGen.single (.giveUp _ item (mem_of_item? hitem) hfate hwritable)
  booked := by
    intro s b hrunning heard _
    rw [ledger_book hrunning]
    exact Relation.ReflTransGen.single (.book s.ledger
      ⟨s.items.length, b.event, b.cycle, b.fireTime, b.duration, s.clock.timers.length, .pending⟩
      rfl rfl)
  swapped := by
    intro s node
    refine moves_of_ledger_eq ?_
    unfold ledger
    rw [Option.map_map]
    rfl
  rated := fun s rate pendingRate => moves_of_ledger_eq rfl

/-! ## Stopping -/

/-- In books that balance every event is found under its number. -/
theorem item?_of_mem {s : Scheduler} {heard : List Nat} (h : s.ledger.Balanced heard)
    {item : Scheduled} (hmem : item ∈ s.items) : s.item? item.id = some item := by
  cases hfind : s.item? item.id with
  | none =>
      have hall := List.find?_eq_none.mp hfind item hmem
      simp at hall
  | some other =>
      rw [h.eq_of_id (mem_of_item? hfind) hmem (id_of_item? hfind)]

/-- A pending event is still to be sounded or cancelled. -/
theorem isOpen_of_mem_pending {s : Scheduler} {heard : List Nat} (h : s.ledger.Balanced heard)
    {id : Nat} (hid : id ∈ s.ledger.pending) : s.isOpen id = true := by
  rw [h.pending, List.mem_map] at hid
  obtain ⟨item, hitem, rfl⟩ := hid
  rw [List.mem_filter, beq_iff_eq] at hitem
  exact isOpen_eq_true.mpr ⟨item, item?_of_mem h hitem.1, hitem.2⟩

/-- A cancelled event is no longer pending. -/
theorem pending_cancel {s : Scheduler} {heard : List Nat} (h : s.ledger.Balanced heard)
    {item : Scheduled} {id : Nat} (hid : id ∈ ((cancel item).after s).ledger.pending) :
    id ∈ s.ledger.pending ∧ id ≠ item.id := by
  cases hopen : s.isOpen item.id with
  | false =>
      rw [(cancel_closed hopen).2] at hid
      refine ⟨hid, fun heq => ?_⟩
      rw [heq] at hid
      rw [isOpen_of_mem_pending h hid] at hopen
      nomatch hopen
  | true =>
      rw [(cancel_open hopen).1.ledger] at hid
      change id ∈ (s.settle item.id .cancelled).ledger.pending at hid
      rw [ledger_settle] at hid
      have hfilter := List.mem_filter.mp hid
      exact ⟨hfilter.1, by simpa using hfilter.2⟩

/-- None of the events that were cancelled is still pending. -/
theorem pending_cancelAll {items : List Scheduled} {s : Scheduler} {heard : List Nat}
    (h : s.ledger.Balanced heard) {count : Nat} (hok : (cancelAll items).outcome s = .ok count)
    {id : Nat} (hid : id ∈ ((cancelAll items).after s).ledger.pending) :
    id ∈ s.ledger.pending ∧ id ∉ items.map (·.id) := by
  induction items generalizing s heard count with
  | nil => exact ⟨hid, List.not_mem_nil⟩
  | cons item items ih =>
      unfold cancelAll at hok hid
      obtain ⟨done, hdone, hrest⟩ := outcome_bind_eq_ok hok
      obtain ⟨others, hothers, -⟩ := outcome_bind_eq_ok hrest
      rw [after_bind hdone, after_bind hothers, after_pure] at hid
      obtain ⟨more, hmore⟩ := h.steps (tracks_moves.cancel item s _ h)
      obtain ⟨hpending, hlater⟩ := ih hmore hothers hid
      obtain ⟨hbefore, hne⟩ := pending_cancel h hpending
      refine ⟨hbefore, ?_⟩
      rw [List.map_cons, List.mem_cons, not_or]
      exact ⟨hne, hlater⟩

/-- Every pending number is that of a pending event. -/
theorem mem_pendingItems {s : Scheduler} {heard : List Nat} (h : s.ledger.Balanced heard) {id : Nat}
    (hid : id ∈ s.ledger.pending) : id ∈ s.pendingItems.map (·.id) := by
  obtain ⟨item, hitem, -⟩ := isOpen_eq_true.mp (isOpen_of_mem_pending h hid)
  unfold ledger at hid
  unfold pendingItems
  cases hrun : s.run with
  | none =>
      rw [hrun] at hid
      exact absurd hid List.not_mem_nil
  | some run =>
      rw [hrun] at hid
      exact List.mem_map.mpr ⟨item, List.mem_filterMap.mpr ⟨id, hid, hitem⟩, id_of_item? hitem⟩

/-- A stop cancels events and then empties the list of pending ones.  If no
cancelling fails, each of them was cancelled before, so that emptying the list is no
step of its own. -/
theorem moves_stop (s : Scheduler) : Moves s (stop.after s) := by
  intro heard h
  rcases stop_cases s with hsame | hfailed | ⟨count, hok, hstopped⟩
  · rw [hsame]
  · rw [hfailed]
    exact tracks_moves.cancelAll s.pendingItems s.halted heard h
  · have hnone : ((cancelAll s.pendingItems).after s.halted).ledger.pending = [] := by
      refine List.eq_nil_iff_forall_not_mem.mpr fun id hid => ?_
      obtain ⟨hpending, hother⟩ := pending_cancelAll (s := s.halted) h hok hid
      exact hother (mem_pendingItems h hpending)
    have hledger : (stop.after s).ledger =
        ((cancelAll s.pendingItems).after s.halted).ledger := by
      rw [hstopped.ledger]
      unfold ledger at hnone ⊢
      simp only [Option.map_none, Option.getD_none] at hnone ⊢
      rw [hnone]
    rw [hledger]
    exact tracks_moves.cancelAll s.pendingItems s.halted heard h

/-! ## Runs -/

/-- A start books the events of the first cycle, or changes nothing in the books. -/
theorem moves_start (v : Value) (given : Option Value) (s : Scheduler) :
    Moves s ((start v given).after s) := by
  rcases start_cases v given s with hsame | ⟨hstopped, node, rate, hbegun | ⟨bookings, hbooked⟩⟩
  · exact tracks_moves.alike hsame.symm
  · exact tracks_moves.of_alike (moves_of_ledger_eq (ledger_begun hstopped node rate)) hbegun
  · refine tracks_moves.of_alike ?_ hbooked
    have hbegun : Moves s (s.begun node rate) :=
      moves_of_ledger_eq (ledger_begun hstopped node rate)
    exact (hbegun.trans (tracks_moves.bookAll rfl bookings)).trans
      (moves_of_ledger_eq (ledger_armed _))

/-- A boundary books the events of the next cycle, or changes nothing in the books. -/
theorem moves_passBoundary (generation : Nat) (s : Scheduler) :
    Moves s ((passBoundary generation).after s) := by
  rcases passBoundary_cases generation s with hsame | ⟨run, hrun, -, hturned | ⟨bookings, hbooked⟩⟩
  · rw [hsame]
    exact moves_refl s
  · exact tracks_moves.of_alike (moves_of_ledger_eq (ledger_turned hrun)) hturned
  · refine tracks_moves.of_alike ?_ hbooked
    have hturned : Moves s (s.turned run) := moves_of_ledger_eq (ledger_turned hrun)
    exact (hturned.trans (tracks_moves.bookAll rfl bookings)).trans
      (moves_of_ledger_eq (ledger_armed _))

/-- Every task moves the books by steps. -/
theorem moves_perform (task : Task) (s : Scheduler) : Moves s ((perform task).after s) := by
  cases task with
  | fire id => exact tracks_moves.fire id s
  | boundary generation => exact moves_passBoundary generation s

/-- So does every task of a timer whose waiting ended. -/
theorem moves_expired (s : Scheduler) (t : Timer Task) :
    Moves s ((perform t.task).after (s.expired t.id)) := by
  have hexpired : Moves s (s.expired t.id) := moves_of_ledger_eq rfl
  exact hexpired.trans (moves_perform t.task _)

/-- Every occurrence changes the books by steps of the ledger. -/
theorem moves_next (o : Occurrence) (s : Scheduler) : Moves s (o.next s) :=
  next_related tracks_moves id Moves.trans (fun _ _ => moves_of_ledger_eq rfl)
    (fun s t _ => moves_expired s t) (fun v given _ => moves_start v given s)
    (fun _ => moves_stop s) fun t _ _ => moves_perform t.task s

/-- Every run changes the books by steps of the ledger. -/
theorem moves_afterAll (os : List Occurrence) (s : Scheduler) : Moves s (afterAll os s) :=
  afterAll_related moves_refl Moves.trans (fun o _ s => moves_next o s) s

/-- In every run the books balance. -/
theorem balanced_afterAll (perf : Performance) (policy : Policy) (sounder : Sounder)
    (listener : Option Listener) (rate now : Float) (os : List Occurrence) :
    ∃ heard, (afterAll os (initial perf policy sounder listener rate now)).ledger.Balanced heard := by
  have hempty : (initial perf policy sounder listener rate now).ledger.Balanced [] :=
    ⟨rfl, rfl, List.nodup_nil, List.Forall₂.nil, fun _ hmem => absurd hmem List.not_mem_nil⟩
  obtain ⟨heard, hheard⟩ := hempty.steps (moves_afterAll os _ [] hempty)
  exact ⟨heard, hheard⟩

end Scheduler

end Ostinato
