import Ostinato.Proofs.Scheduler.Books
import Ostinato.Proofs.Scheduler.Timers

/-!
# Ostinato.Proofs.Scheduler.Withdrawals

Cancelling events one after another, and the commands that do so.

Open events are all cancelled (`cancelAll_ok`), unless one of them cannot be
written: it is cancelled too, but those after it are left (`cancelAll_error`).
What is cancelled is taken from the pending events, and its timers no longer
wait (`pendingItems_withdraw`, `live_withdraw`).  With this, stopping and
replacing a pattern come down to equations.
-/

namespace Ostinato

/-- A run in which some events are no longer pending. -/
def Run.without (run : Run) (ids : List Nat) : Run :=
  { run with pending := run.pending.filter (· ∉ ids) }

namespace Scheduler

open Scheduling

/-! ## Several cancellations -/

/-- The scheduler once some events were cancelled with their timers. -/
def withdraw (s : Scheduler) (items : List Scheduled) : Scheduler := items.foldl cancelled s

theorem Alike.isOpen {s t : Scheduler} (h : Alike s t) (id : Nat) : s.isOpen id = t.isOpen id := by
  unfold Scheduler.isOpen item?
  rw [h.items]

theorem Alike.pendingItems {s t : Scheduler} (h : Alike s t) : s.pendingItems = t.pendingItems :=
  h.field Scheduler.pendingItems fun _ => rfl

/-- Schedulers that play alike do so after the same events were withdrawn. -/
theorem Alike.withdraw {s t : Scheduler} (h : Alike s t) (items : List Scheduled) :
    Alike (s.withdraw items) (t.withdraw items) := by
  induction items generalizing s t with
  | nil => exact h
  | cons item items ih =>
      have hcancelled : Alike (s.cancelled item) (t.cancelled item) :=
        congrArg (fun u : Scheduler => u.cancelled item) (show s.silent = t.silent from h)
      exact ih hcancelled

/-- Cancelling an event leaves the others open. -/
theorem isOpen_cancelled {s : Scheduler} {item : Scheduled} {id : Nat} (h : id ≠ item.id) :
    (s.cancelled item).isOpen id = s.isOpen id := by
  change ((s.settle item.id .cancelled).item? id).any (·.fate == .pending) = _
  rw [item?_settle]
  unfold isOpen
  cases hfind : s.item? id with
  | none => rfl
  | some x =>
      rw [Option.map_some, Ledger.fated_of_ne (by rw [id_of_item? hfind]; exact h)]

/-- An open event that cannot be written is cancelled, and then no entry can be
made for it. -/
theorem cancel_unwritable {s : Scheduler} {item : Scheduled} (h : s.isOpen item.id = true)
    (hwritable : item.event.value.isWritable = false) :
    (cancel item).outcome s = .error (.fault .unwritable) := by
  have hclaim := outcome_claim item.id .cancelled s
  rw [h] at hclaim
  unfold cancel
  rw [outcome_bind hclaim]
  simp only [if_true, outcome_modify_bind]
  unfold removePending modifyRun
  simp only [outcome_modify_bind]
  unfold Value.written
  rw [hwritable]
  rfl

/-- After an open event was cancelled, those that are open but for it are still
open. -/
theorem isOpen_after_cancel {s : Scheduler} {item : Scheduled} {items : List Scheduled}
    (hopen : ∀ x ∈ item :: items, s.isOpen x.id = true)
    (hnodup : ((item :: items).map (·.id)).Nodup) :
    ∀ x ∈ items, ((cancel item).after s).isOpen x.id = true := by
  rw [List.map_cons, List.nodup_cons] at hnodup
  intro x hx
  have hne : x.id ≠ item.id := fun heq => hnodup.1 (heq ▸ List.mem_map_of_mem hx)
  rw [(cancel_open (hopen item List.mem_cons_self)).1.isOpen, isOpen_cancelled hne]
  exact hopen x (List.mem_cons_of_mem item hx)

/-- Open events that can be written are all cancelled. -/
theorem cancelAll_ok {items : List Scheduled} {s : Scheduler}
    (hopen : ∀ item ∈ items, s.isOpen item.id = true) (hnodup : (items.map (·.id)).Nodup)
    (hwritable : ∀ item ∈ items, item.event.value.isWritable = true) :
    (cancelAll items).outcome s = .ok items.length ∧
      Alike ((cancelAll items).after s) (s.withdraw items) := by
  induction items generalizing s with
  | nil => exact ⟨rfl, Alike.refl s⟩
  | cons item items ih =>
      obtain ⟨halike, hdone⟩ := cancel_open (hopen item List.mem_cons_self)
      have hfirst := hdone (hwritable item List.mem_cons_self)
      obtain ⟨hothers, hlater⟩ := ih (isOpen_after_cancel hopen hnodup)
        (List.nodup_cons.mp hnodup).2 fun x hx => hwritable x (List.mem_cons_of_mem item hx)
      unfold cancelAll
      rw [outcome_bind hfirst, after_bind hfirst, outcome_bind hothers, after_bind hothers]
      refine ⟨?_, hlater.trans (halike.withdraw items)⟩
      rw [outcome_pure, List.length_cons]
      exact congrArg Except.ok (Nat.add_comm 1 items.length)

/-- The first event that cannot be written ends the cancelling. -/
theorem cancelAll_error {items later : List Scheduled} {item : Scheduled} {s : Scheduler}
    (hopen : ∀ x ∈ items ++ item :: later, s.isOpen x.id = true)
    (hnodup : ((items ++ item :: later).map (·.id)).Nodup)
    (hwritable : ∀ x ∈ items, x.event.value.isWritable = true)
    (hlast : item.event.value.isWritable = false) :
    (cancelAll (items ++ item :: later)).outcome s = .error (.fault .unwritable) ∧
      Alike ((cancelAll (items ++ item :: later)).after s) (s.withdraw (items ++ [item])) := by
  induction items generalizing s with
  | nil =>
      have hitem := hopen item List.mem_cons_self
      have hfailed := cancel_unwritable hitem hlast
      unfold cancelAll
      rw [List.nil_append, outcome_bind_error hfailed, after_bind_error hfailed]
      exact ⟨rfl, (cancel_open hitem).1⟩
  | cons x items ih =>
      obtain ⟨halike, hdone⟩ := cancel_open (hopen x List.mem_cons_self)
      have hfirst := hdone (hwritable x List.mem_cons_self)
      obtain ⟨hfailed, hlater⟩ := ih (isOpen_after_cancel hopen hnodup)
        (List.nodup_cons.mp hnodup).2 fun y hy => hwritable y (List.mem_cons_of_mem x hy)
      unfold cancelAll
      rw [List.cons_append, outcome_bind hfirst, after_bind hfirst, outcome_bind_error hfailed,
        after_bind_error hfailed]
      exact ⟨rfl, hlater.trans (halike.withdraw _)⟩

/-- Events that can all be written, or the first that cannot. -/
theorem writable_cases (items : List Scheduled) :
    (∀ item ∈ items, item.event.value.isWritable = true) ∨
      ∃ before item later, items = before ++ item :: later ∧
        (∀ x ∈ before, x.event.value.isWritable = true) ∧ item.event.value.isWritable = false := by
  cases hfind : items.find? (!·.event.value.isWritable) with
  | none =>
      refine .inl fun item hitem => ?_
      simpa using List.find?_eq_none.mp hfind item hitem
  | some item =>
      obtain ⟨hitem, before, later, hitems, hbefore⟩ := List.find?_eq_some_iff_append.mp hfind
      exact .inr ⟨before, item, later, hitems, by simpa using hbefore, by simpa using hitem⟩

/-! ## What is withdrawn -/

/-- Leaving out one number and then some others. -/
theorem filter_filter_ne {α : Type} (f : α → Nat) (as : List α) (n : Nat) (ns : List Nat) :
    (as.filter (f · != n)).filter (f · ∉ ns) = as.filter (f · ∉ n :: ns) := by
  rw [List.filter_filter]
  refine List.filter_congr fun a _ => ?_
  by_cases h : f a = n <;> simp [h]

/-- Nothing but events, timers and what is pending is concerned. -/
theorem withdraw_eq (s : Scheduler) (items : List Scheduled) :
    s.withdraw items = { s with
      items := (s.withdraw items).items
      clock := (s.withdraw items).clock
      run := s.run.map (·.without (items.map (·.id))) } := by
  induction items generalizing s with
  | nil =>
      have hrun : s.run.map (·.without []) = s.run := by
        cases s.run <;> simp [Run.without]
      exact (congrArg (fun run => { s with run := run }) hrun).symm
  | cons item items ih =>
      have hrun : (s.cancelled item).run.map (·.without (items.map (·.id))) =
          s.run.map (·.without ((item :: items).map (·.id))) := by
        unfold cancelled settle
        rw [Option.map_map]
        congr 1
        funext run
        exact congrArg (fun pending => { run with pending := pending })
          (filter_filter_ne id run.pending item.id (items.map (·.id)))
      change (s.cancelled item).withdraw items = _
      rw [ih, hrun]
      rfl

/-- A cancelled event is no longer pending, and the others are as they were. -/
theorem pendingItems_cancelled (s : Scheduler) (item : Scheduled) :
    (s.cancelled item).pendingItems = s.pendingItems.filter (·.id != item.id) := by
  cases hrun : s.run with
  | none => simp [pendingItems, cancelled, settle, hrun]
  | some run =>
      simp only [pendingItems, cancelled, settle, hrun, Option.map_some]
      change (run.pending.filter (· != item.id)).filterMap (s.settle item.id .cancelled).item? = _
      induction run.pending with
      | nil => rfl
      | cons id ids ih =>
          rw [List.filterMap_cons]
          by_cases hid : id = item.id
          · rw [List.filter_cons_of_neg (by simp [hid]), ih]
            cases hfind : s.item? id with
            | none => rfl
            | some x =>
                simp only
                rw [List.filter_cons_of_neg (by simp [id_of_item? hfind, hid])]
          · rw [List.filter_cons_of_pos (by simp [hid]), List.filterMap_cons, item?_settle]
            cases hfind : s.item? id with
            | none => exact ih
            | some x =>
                have hx : x.id ≠ item.id := by rwa [id_of_item? hfind]
                simp only [Option.map_some, Ledger.fated_of_ne hx]
                rw [List.filter_cons_of_pos (by simp [hx]), ih]

/-- The withdrawn events are no longer pending, and the others are as they
were. -/
theorem pendingItems_withdraw (s : Scheduler) (items : List Scheduled) :
    (s.withdraw items).pendingItems = s.pendingItems.filter (·.id ∉ items.map (·.id)) := by
  induction items generalizing s with
  | nil => simp [withdraw]
  | cons item items ih =>
      change ((s.cancelled item).withdraw items).pendingItems = _
      rw [ih, pendingItems_cancelled]
      exact filter_filter_ne Scheduled.id _ _ _

/-- The timers of the withdrawn events no longer wait, and the others do. -/
theorem live_withdraw (s : Scheduler) (items : List Scheduled) :
    (s.withdraw items).clock.live = s.clock.live.filter (·.id ∉ items.map (·.timer)) := by
  induction items generalizing s with
  | nil => simp [withdraw]
  | cons item items ih =>
      change ((s.cancelled item).withdraw items).clock.live = _
      rw [ih, show (s.cancelled item).clock.live = _ from Clock.live_settle s.clock item.timer]
      exact filter_filter_ne Timer.id _ _ _

/-! ## Pending events -/

/-- In books that balance the pending events are those with the pending
numbers. -/
theorem map_id_pendingItems {s : Scheduler} {heard : List Nat} (h : s.ledger.Balanced heard) :
    s.pendingItems.map (·.id) = s.ledger.pending := by
  have hopen : ∀ id ∈ s.ledger.pending, s.isOpen id = true :=
    fun _ hid => isOpen_of_mem_pending h hid
  unfold pendingItems
  unfold ledger at hopen ⊢
  cases hrun : s.run with
  | none => rfl
  | some run =>
      simp only [hrun, Option.map_some, Option.getD_some] at hopen ⊢
      generalize run.pending = ids at hopen
      induction ids with
      | nil => rfl
      | cons id ids ih =>
          obtain ⟨item, hitem, -⟩ := isOpen_eq_true.mp (hopen id List.mem_cons_self)
          rw [List.filterMap_cons, hitem]
          simp only [List.map_cons]
          rw [ih fun other hother => hopen other (List.mem_cons_of_mem id hother),
            id_of_item? hitem]

/-- In books that balance every pending event is one of the events, and is
open. -/
theorem isOpen_of_mem_pendingItems {s : Scheduler} {heard : List Nat} (h : s.ledger.Balanced heard)
    {item : Scheduled} (hitem : item ∈ s.pendingItems) :
    item ∈ s.items ∧ s.isOpen item.id = true := by
  have hid : item.id ∈ s.ledger.pending := by
    rw [← map_id_pendingItems h]
    exact List.mem_map_of_mem hitem
  refine ⟨?_, isOpen_of_mem_pending h hid⟩
  unfold pendingItems at hitem
  cases hrun : s.run with
  | none =>
      rw [hrun] at hitem
      exact absurd hitem List.not_mem_nil
  | some run =>
      rw [hrun] at hitem
      obtain ⟨id, -, hfound⟩ := List.mem_filterMap.mp hitem
      exact mem_of_item? hfound

/-- In books that balance the pending events are those without a fate. -/
theorem mem_pendingItems_iff {s : Scheduler} {heard : List Nat} (h : s.ledger.Balanced heard)
    {item : Scheduled} (hitem : item ∈ s.items) : item ∈ s.pendingItems ↔ item.fate = .pending := by
  rw [← h.mem_pending hitem, ← map_id_pendingItems h]
  refine ⟨List.mem_map_of_mem, fun hid => ?_⟩
  obtain ⟨other, hother, hsame⟩ := List.mem_map.mp hid
  exact h.eq_of_id (isOpen_of_mem_pendingItems h hother).1 hitem hsame ▸ hother

/-- In books that balance no pending event is listed twice. -/
theorem nodup_pendingItems {s : Scheduler} {heard : List Nat} (h : s.ledger.Balanced heard) :
    (s.pendingItems.map (·.id)).Nodup := by
  rw [map_id_pendingItems h, h.pending]
  exact (List.filter_sublist.map _).nodup h.nodup_ids

/-- Once the first of the pending events are withdrawn the later ones are left. -/
theorem pendingItems_withdraw_append {s : Scheduler} {heard : List Nat}
    (h : s.ledger.Balanced heard) {first later : List Scheduled}
    (hitems : s.pendingItems = first ++ later) : (s.withdraw first).pendingItems = later := by
  have hnodup := nodup_pendingItems h
  rw [hitems, List.map_append, List.nodup_append] at hnodup
  rw [pendingItems_withdraw, hitems, List.filter_append, List.filter_eq_nil_iff.mpr,
    List.filter_eq_self.mpr, List.nil_append]
  · intro x hx
    have hfresh : x.id ∉ first.map (·.id) :=
      fun hmem => hnodup.2.2 _ hmem _ (List.mem_map_of_mem hx) rfl
    exact decide_eq_true hfresh
  · intro x hx
    simpa using ⟨x, hx, rfl⟩

/-- Cancelling some of the pending events: all of them, or those up to the first
that cannot be written. -/
theorem cancelAll_pendingItems {s : Scheduler} {heard : List Nat} (h : s.ledger.Balanced heard)
    {items : List Scheduled} (hitems : items.Sublist s.pendingItems) :
    (∀ item ∈ items, item.event.value.isWritable = true) ∧
        (cancelAll items).outcome s = .ok items.length ∧
        Alike ((cancelAll items).after s) (s.withdraw items) ∨
      (∃ item ∈ items, item.event.value.isWritable = false) ∧
        ∃ first, first <+: items ∧ first ≠ [] ∧
          (cancelAll items).outcome s = .error (.fault .unwritable) ∧
          Alike ((cancelAll items).after s) (s.withdraw first) := by
  have hopen : ∀ item ∈ items, s.isOpen item.id = true :=
    fun item hitem => (isOpen_of_mem_pendingItems h (hitems.subset hitem)).2
  have hnodup : (items.map (·.id)).Nodup := (hitems.map _).nodup (nodup_pendingItems h)
  rcases writable_cases items with hall | ⟨before, item, later, rfl, hbefore, hitem⟩
  · exact .inl ⟨hall, cancelAll_ok hopen hnodup hall⟩
  · obtain ⟨hfailed, halike⟩ := cancelAll_error hopen hnodup hbefore hitem
    refine .inr ⟨⟨item, by simp, hitem⟩, before ++ [item], ⟨later, by simp⟩, by simp, hfailed, halike⟩

/-! ## Stopping -/

/-- A stopped scheduler stays as it is. -/
theorem stop_of_stopped {s : Scheduler} (hstopped : s.isRunning = false) : stop.after s = s := by
  unfold stop
  rw [after_get_bind, hstopped]
  rfl

/-- What stopping does once no boundary is ahead. -/
def endWith (items : List Scheduled) : Scheduling Unit := do
  let _ ← cancelAll items
  modify fun s => { s with run := none, pendingRate := none }
  log "scheduler" "stop" 1

/-- A stop begins a new generation, then cancels what is pending and ends the run. -/
theorem stop_eq {s : Scheduler} (hrunning : s.isRunning = true) :
    stop.outcome s = (endWith s.pendingItems).outcome s.halted ∧
      stop.after s = (endWith s.pendingItems).after s.halted := by
  unfold stop
  rw [outcome_get_bind, after_get_bind, if_pos hrunning]
  exact ⟨rfl, rfl⟩

/-- Stopping cancels everything and ends the run, or ends with an event that
cannot be written. -/
theorem after_stop {s : Scheduler} {heard : List Nat} (h : s.ledger.Balanced heard)
    (hrunning : s.isRunning = true) :
    (∀ item ∈ s.pendingItems, item.event.value.isWritable = true) ∧
        Alike (stop.after s)
          { s.halted.withdraw s.pendingItems with run := none, pendingRate := none } ∨
      (∃ item ∈ s.pendingItems, item.event.value.isWritable = false) ∧
        ∃ first, first <+: s.pendingItems ∧ Alike (stop.after s) (s.halted.withdraw first) := by
  have hpending : s.pendingItems.Sublist s.halted.pendingItems := List.Sublist.refl _
  rw [(stop_eq hrunning).2]
  unfold endWith
  rcases cancelAll_pendingItems (s := s.halted) h hpending with
    ⟨hall, hdone, halike⟩ | ⟨hsome, first, hfirst, -, hfailed, halike⟩
  · refine .inl ⟨hall, ?_⟩
    rw [after_bind hdone, after_modify_bind]
    exact congrArg (fun u : Scheduler => { u with run := none, pendingRate := none })
      (show Scheduler.silent _ = Scheduler.silent _ from halike)
  · refine .inr ⟨hsome, first, hfirst, ?_⟩
    rw [after_bind_error hfailed]
    exact halike

/-- Stopping fails only at a pending event that cannot be written. -/
theorem outcome_stop_iff {s : Scheduler} {heard : List Nat} (h : s.ledger.Balanced heard) :
    stop.outcome s = .ok () ↔ s.isRunning = false ∨
      ∀ item ∈ s.pendingItems, item.event.value.isWritable = true := by
  cases hrunning : s.isRunning with
  | false =>
      have hdone : stop.outcome s = .ok () := by
        unfold stop
        rw [outcome_get_bind, hrunning]
        rfl
      exact iff_of_true hdone (.inl rfl)
  | true =>
      have hpending : s.pendingItems.Sublist s.halted.pendingItems := List.Sublist.refl _
      rw [(stop_eq hrunning).1]
      unfold endWith
      rcases cancelAll_pendingItems (s := s.halted) h hpending with
        ⟨hall, hdone, -⟩ | ⟨⟨item, hitem, hlong⟩, first, -, -, hfailed, -⟩
      · rw [outcome_bind hdone]
        exact iff_of_true rfl (.inr hall)
      · rw [outcome_bind_error hfailed]
        refine iff_of_false nofun ?_
        rintro (hstopped | hall)
        · nomatch hstopped
        · rw [hall item hitem] at hlong
          nomatch hlong

/-- A stop that fails does so at the first pending event that cannot be written,
once that one is cancelled like those before it. -/
theorem stop_failed {s : Scheduler} {heard : List Nat} (h : s.ledger.Balanced heard)
    (hfailed : stop.outcome s ≠ .ok ()) :
    s.isRunning = true ∧ ∃ before item later, s.pendingItems = before ++ item :: later ∧
      (∀ x ∈ before, x.event.value.isWritable = true) ∧ item.event.value.isWritable = false ∧
      stop.outcome s = .error (.fault .unwritable) ∧
      Alike (stop.after s) (s.halted.withdraw (before ++ [item])) := by
  rw [Ne, outcome_stop_iff h, not_or, Bool.not_eq_false] at hfailed
  obtain ⟨hrunning, hsome⟩ := hfailed
  refine ⟨hrunning, ?_⟩
  rcases writable_cases s.pendingItems with hall | ⟨before, item, later, hitems, hbefore, hitem⟩
  · exact absurd hall hsome
  · have hopen : ∀ x ∈ before ++ item :: later, s.halted.isOpen x.id = true :=
      fun x hx => (isOpen_of_mem_pendingItems h (hitems ▸ hx)).2
    obtain ⟨herror, halike⟩ := cancelAll_error hopen (hitems ▸ nodup_pendingItems h) hbefore hitem
    obtain ⟨houtcome, hafter⟩ := stop_eq hrunning
    refine ⟨before, item, later, hitems, hbefore, hitem, ?_, ?_⟩
    · rw [houtcome, hitems]
      unfold endWith
      rw [outcome_bind_error herror]
    · rw [hafter, hitems]
      unfold endWith
      rw [after_bind_error herror]
      exact halike

/-- Once stopping succeeds nothing plays, and no rate waits. -/
theorem stopped_of_ok {s : Scheduler} (hok : stop.outcome s = .ok ()) :
    (stop.after s).isRunning = false ∧
      (s.isRunning = true → (stop.after s).pendingRate = none) := by
  cases hrunning : s.isRunning with
  | false =>
      rw [stop_of_stopped hrunning]
      exact ⟨hrunning, nofun⟩
  | true =>
      obtain ⟨houtcome, hafter⟩ := stop_eq hrunning
      rw [houtcome] at hok
      obtain ⟨count, hcount, -⟩ := outcome_bind_eq_ok hok
      rw [hafter]
      unfold endWith
      rw [after_bind hcount]
      exact ⟨rfl, fun _ => rfl⟩

/-! ## Replacing -/

/-- The scheduler with another pattern in the place of the one that is being
played. -/
def swapped (s : Scheduler) (node : Pattern) : Scheduler :=
  { s with run := s.run.map fun run => { run with pattern := node } }

/-- The pending events that a replacement cancels at a place of the cycle. -/
def ahead (s : Scheduler) (run : Run) (place : Rat) : List Scheduled :=
  s.pendingItems.filter (isAhead run place)

/-- A replacement cancels pending events only. -/
theorem ahead_sublist (s : Scheduler) (run : Run) (place : Rat) :
    (s.ahead run place).Sublist s.pendingItems := List.filter_sublist

theorem after_swap_bind {β : Type} (node : Pattern) (f : Unit → Scheduling β) (s : Scheduler) :
    (modifyRun (fun run => { run with pattern := node }) >>= f).after s =
      (f ()).after (s.swapped node) := rfl

theorem outcome_swap_bind {β : Type} (node : Pattern) (f : Unit → Scheduling β) (s : Scheduler) :
    (modifyRun (fun run => { run with pattern := node }) >>= f).outcome s =
      (f ()).outcome (s.swapped node) := rfl

/-- What a replacement does once it knows its place in the cycle and what to
cancel. -/
def swapAt (place : Rat) (items : List Scheduled) (node : Pattern) : Scheduling Unit := do
  let cancelled ← cancelAll items
  modifyRun fun run => { run with pattern := node }
  let scheduled ← scheduleCycle (some place)
  let shownPlace ← orFault (Number.ratio place).toFloat
  let shown ← orFault (Value.pattern node).written
  log "scheduler" ("replace at " ++ Double.fixedText shownPlace ++
    ": cancelled=" ++ toString cancelled ++ " scheduled=" ++ toString scheduled ++
    " pattern=" ++ shown) 1

/-- Up to the cancelling of what is ahead. -/
theorem replace_eq {s : Scheduler} {run : Run} (hrun : s.run = some run) {v : Value}
    {node : Pattern} (hnode : (coerce v).outcome s = .ok node) {place : Rat}
    (hplace : s.elapsed run = .ok place) :
    ∃ t, Alike t s ∧ (replace v).outcome s = (swapAt place (s.ahead run place) node).outcome t ∧
      (replace v).after s = (swapAt place (s.ahead run place) node).after t := by
  have hread := alike_coerce v s
  have hplace' : ((coerce v).after s).elapsed run = .ok place := by
    unfold elapsed at hplace ⊢
    rw [hread.clock, hread.rate]
    exact hplace
  refine ⟨(coerce v).after s, hread, ?_, ?_⟩
  · unfold replace ahead
    rw [outcome_bind hnode, outcome_get_bind, hread.run, hrun]
    simp only [hplace', orFault_ok, pure_bind, hread.pendingItems]
    rfl
  · unfold replace ahead
    rw [after_bind hnode, after_get_bind, hread.run, hrun]
    simp only [hplace', orFault_ok, pure_bind, hread.pendingItems]
    rfl

/-- A replacement that is refused leaves the scheduler as it is. -/
theorem replace_refused {s : Scheduler} {v : Value}
    (h : s.isRunning = false ∨ (∃ e, (coerce v).outcome s = .error e) ∨
      ∃ run cause, s.run = some run ∧ s.elapsed run = .error cause) :
    Alike ((replace v).after s) s := by
  have hread := alike_coerce v s
  unfold replace
  cases hnode : (coerce v).outcome s with
  | error e =>
      rw [after_bind_error hnode]
      exact hread
  | ok node =>
      rw [after_bind hnode, after_get_bind, hread.run]
      cases hrun : s.run with
      | none => exact hread
      | some run =>
          have hplace : ∃ cause, ((coerce v).after s).elapsed run = .error cause := by
            unfold elapsed
            rw [hread.clock, hread.rate]
            rcases h with hstopped | ⟨e, he⟩ | ⟨run', cause, hrun', hcause⟩
            · rw [isRunning_of_run hrun] at hstopped
              nomatch hstopped
            · rw [hnode] at he
              nomatch he
            · rw [hrun, Option.some_inj] at hrun'
              exact ⟨cause, hrun' ▸ hcause⟩
          obtain ⟨cause, hcause⟩ := hplace
          simp only [hcause, orFault_error]
          exact hread

/-- A replacement that is not refused has a place and a pattern. -/
theorem accepted_of_not_refused {s : Scheduler} {v : Value}
    (h : ¬ (s.isRunning = false ∨ (∃ e, (coerce v).outcome s = .error e) ∨
      ∃ run cause, s.run = some run ∧ s.elapsed run = .error cause)) :
    ∃ run node place, s.run = some run ∧ (coerce v).outcome s = .ok node ∧
      s.elapsed run = .ok place := by
  rw [not_or, not_or] at h
  obtain ⟨hrunning, hread, hplaced⟩ := h
  obtain ⟨run, hrun⟩ : ∃ run, s.run = some run := by
    unfold isRunning at hrunning
    rwa [Bool.not_eq_false, Option.isSome_iff_exists] at hrunning
  cases hnode : (coerce v).outcome s with
  | error e => exact absurd ⟨e, hnode⟩ hread
  | ok node =>
      cases hplace : s.elapsed run with
      | error cause => exact absurd ⟨run, cause, hrun, hplace⟩ hplaced
      | ok place => exact ⟨run, node, place, hrun, rfl, hplace⟩

/-- What cancelling and swapping leave of the playing. -/
theorem run_swapped {s : Scheduler} {run : Run} (hrun : s.run = some run)
    (items : List Scheduled) (node : Pattern) :
    ((s.withdraw items).swapped node).run =
      some { run.without (items.map (·.id)) with pattern := node } := by
  rw [withdraw_eq]
  unfold swapped
  simp only [hrun, Option.map_some]

/-- Schedulers that play alike do so with another pattern. -/
theorem Alike.swapped {s t : Scheduler} (h : Alike s t) (node : Pattern) :
    Alike (s.swapped node) (t.swapped node) :=
  congrArg (fun u : Scheduler => u.swapped node) (show s.silent = t.silent from h)

/-- What a replacement can come to once it is accepted: an event that cannot be
written ends it, or all that is ahead is cancelled and the pattern is swapped,
and the rest of the cycle is planned if that is possible. -/
theorem after_replace {s : Scheduler} {heard : List Nat} (h : s.ledger.Balanced heard) {run : Run}
    (hrun : s.run = some run) {v : Value} {node : Pattern}
    (hnode : (coerce v).outcome s = .ok node) {place : Rat} (hplace : s.elapsed run = .ok place) :
    (∃ item ∈ s.ahead run place, item.event.value.isWritable = false) ∧
        (∃ first, first <+: s.ahead run place ∧ first ≠ [] ∧
          (replace v).outcome s = .error (.fault .unwritable) ∧
          Alike ((replace v).after s) (s.withdraw first)) ∨
      (∀ item ∈ s.ahead run place, item.event.value.isWritable = true) ∧
        ((∃ cause, s.performance.plan node run.cycleIndex run.cycleStart s.rate (some place) =
            .error cause ∧ (replace v).outcome s = .error (.fault cause) ∧
            Alike ((replace v).after s) ((s.withdraw (s.ahead run place)).swapped node)) ∨
          ∃ bookings, s.performance.plan node run.cycleIndex run.cycleStart s.rate (some place) =
            .ok bookings ∧
            Alike ((replace v).after s)
              (((s.withdraw (s.ahead run place)).swapped node).bookAll bookings)) := by
  obtain ⟨t, ht, houtcome, hafter⟩ := replace_eq hrun hnode hplace
  have hbalanced : t.ledger.Balanced heard := by
    rw [ht.ledger]
    exact h
  have hahead : (s.ahead run place).Sublist t.pendingItems := by
    rw [ht.pendingItems]
    exact s.ahead_sublist run place
  rw [houtcome, hafter]
  unfold swapAt
  rcases cancelAll_pendingItems hbalanced hahead with
    ⟨hall, hdone, halike⟩ | ⟨hsome, first, hfirst, hne, hfailed, halike⟩
  · refine .inr ⟨hall, ?_⟩
    have hu : Alike (((cancelAll (s.ahead run place)).after t).swapped node)
        ((s.withdraw (s.ahead run place)).swapped node) :=
      (halike.trans (ht.withdraw _)).swapped node
    rw [outcome_bind hdone, after_bind hdone, outcome_swap_bind, after_swap_bind]
    generalize ((cancelAll (s.ahead run place)).after t).swapped node = u at hu
    have hurun := hu.run.trans (run_swapped hrun (s.ahead run place) node)
    have hplan : u.performance.plan node run.cycleIndex run.cycleStart u.rate (some place) =
        s.performance.plan node run.cycleIndex run.cycleStart s.rate (some place) := by
      rw [hu.performance, hu.rate, withdraw_eq]
      rfl
    cases hfound : s.performance.plan node run.cycleIndex run.cycleStart s.rate (some place) with
    | error cause =>
        obtain ⟨hfailed, hleft⟩ := scheduleCycle_error hurun (hplan.trans hfound)
        refine .inl ⟨cause, rfl, outcome_bind_error hfailed, ?_⟩
        rw [after_bind_error hfailed, hleft]
        exact hu
    | ok bookings =>
        obtain ⟨hbooked, hleft⟩ := scheduleCycle_ok hurun (hplan.trans hfound)
        refine .inr ⟨bookings, rfl, ?_⟩
        rw [after_bind hbooked, hleft]
        refine Alike.trans ?_ (hu.bookAll bookings)
        cases (Number.ratio place).toFloat with
        | error cause => exact Alike.refl _
        | ok shownPlace =>
            cases (Value.pattern node).written with
            | error cause => exact Alike.refl _
            | ok shown => exact alike_log _ _ _ _
  · refine .inl ⟨hsome, first, hfirst, hne, ?_, ?_⟩
    · rw [outcome_bind_error hfailed]
    · rw [after_bind_error hfailed]
      exact halike.trans (ht.withdraw first)

end Scheduler

end Ostinato
