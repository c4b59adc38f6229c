import Ostinato.Proofs.Scheduler.Latching
import Ostinato.Proofs.Scheduler.Punctual
import Ostinato.Proofs.Scheduler.Tally

/-!
# Ostinato.Proofs.Scheduler.Renewals

A pattern that is replaced by itself.

Each replacement cancels what is pending ahead of its place in the cycle and
books what the pattern has there, which is the same again.  So what is played of
a cycle is its plan, at the tempo that was set, unless a replacement came upon an
event ahead of its place that was fired already: that event is repeated, and the
cycle is never the same again (`renewed_as_planned`).  The place is rounded, so
an event can be ahead of it when its time has come (`repeated_onset`).
-/

namespace Ostinato

/-- Whether an occurrence replaces the pattern in a cycle, and of the events
after the first `n` one was fired already that is ahead of its place. -/
def Occurrence.Repeats (n : Nat) (k : Int) (s : Scheduler) : Occurrence → Prop
  | replace _ => ∃ run place, s.run = some run ∧ run.cycleIndex = k ∧
      s.elapsed run = .ok place ∧
      ∃ item ∈ s.items.drop n, item.cycle = k ∧ item.fate = .sounded ∧
        place < item.event.active.start
  | _ => False

namespace Scheduler

open Scheduling

/-- Whether an event of a cycle is repeated in a run. -/
def RepeatedIn (n : Nat) (k : Int) : Scheduler → List Occurrence → Prop
  | _, [] => False
  | s, o :: os => o.Repeats n k s ∨ RepeatedIn n k (o.next s) os

/-- An event is repeated in a run if it was in the part before its last step, or is
in that step. -/
theorem repeatedIn_concat (n : Nat) (k : Int) (s : Scheduler) (os : List Occurrence)
    (o : Occurrence) : RepeatedIn n k s (os ++ [o]) ↔
      RepeatedIn n k s os ∨ o.Repeats n k (afterAll os s) := by
  induction os generalizing s with
  | nil =>
      change o.Repeats n k s ∨ False ↔ False ∨ o.Repeats n k s
      rw [or_false, false_or]
  | cons first os ih =>
      change first.Repeats n k s ∨ RepeatedIn n k (first.next s) (os ++ [o]) ↔
        (first.Repeats n k s ∨ RepeatedIn n k (first.next s) os) ∨ _
      rw [ih, or_assoc]
      rfl

/-- A replacement repeats the events of its cycle that were fired and are ahead of
its place. -/
theorem repeats_iff {n : Nat} {k : Int} {s : Scheduler} {run : Run} (hrun : s.run = some run)
    {place : Rat} (hplace : s.elapsed run = .ok place) (v : Value) :
    (Occurrence.replace v).Repeats n k s ↔ k = run.cycleIndex ∧
      ∃ item ∈ s.kept n run.cycleIndex, item.fate = .sounded ∧
        place < item.event.active.start := by
  constructor
  · rintro ⟨run', place', hrun', rfl, hplace', item, hitem, hcycle, hfate, hafter⟩
    rw [hrun, Option.some_inj] at hrun'
    rw [← hrun', hplace] at hplace'
    rw [← hrun'] at hcycle ⊢
    rw [Except.ok.inj hplace']
    exact ⟨rfl, item, mem_kept.mpr ⟨hitem, hcycle, by rw [hfate]; nofun⟩, hfate, hafter⟩
  · rintro ⟨rfl, item, hitem, hfate, hafter⟩
    obtain ⟨hdrop, hcycle, -⟩ := mem_kept.mp hitem
    exact ⟨run, place, hrun, rfl, hplace, item, hdrop, hcycle, hfate, hafter⟩

/-- Reading depends on the transforms alone. -/
theorem outcome_coerce {s t : Scheduler} (h : s.transforms = t.transforms) (v : Value) :
    (coerce v).outcome s = (coerce v).outcome t := by
  cases v with
  | text notated =>
      have hread := fst_read s.journal t.journal s.transforms (.text notated)
      unfold coerce
      rw [outcome_get_bind, outcome_get_bind, ← h]
      simp only [outcome_set_bind]
      rw [hread]
      cases (t.journal.read s.transforms (.text notated)).1 <;> rfl
  | _ => rfl

/-! ## A pattern that is renewed -/

/-- A scheduler that plays cycle `origin + j` of a pattern at a tempo.  Cycles
from `low` on were planned, and what was kept of each tallies with its plan if
all of that can be written. -/
structure Renewing (perf : Performance) (p : Pattern) (origin low : Int) (n : Nat) (tempo : Tempo)
    (repeated : Int → Prop) (j : Nat) (s : Scheduler) : Prop where
  run : ∃ pending, s.run = some ⟨p, tempo.start j, origin + j, pending⟩
  rate : s.rate = tempo.rate j
  /-- The last rate set in this cycle waits for its end. -/
  pendingRate : s.pendingRate = (tempo.set j).getLast?
  ahead : ∀ i, j < i → tempo.set i = []
  performance : s.performance = perf
  bounds : Bounds n low (origin + j) s.items
  unrepeated : ∀ k, origin + j < k → ¬ repeated k
  tallies : ∀ i : Nat, low ≤ origin + i → i ≤ j → ∀ planned,
    perf.plan p (origin + i) (tempo.start i) (tempo.rate i) none = .ok planned →
    (∀ b ∈ planned, b.event.value.isWritable = true) →
    Tally planned (repeated (origin + i)) (s.kept n (origin + i))

namespace Renewing

variable {perf : Performance} {p : Pattern} {origin low : Int} {n : Nat} {tempo : Tempo}
  {repeated : Int → Prop} {j : Nat} {s t : Scheduler}

/-- The cycle that is being played is the one so many after the first. -/
theorem cycle (h : Renewing perf p origin low n tempo repeated j s) : s.cycle = origin + j := by
  obtain ⟨pending, hrun⟩ := h.run
  unfold Scheduler.cycle
  rw [hrun]
  rfl

/-- What else there is to a scheduler does not matter. -/
theorem same (h : Renewing perf p origin low n tempo repeated j s) (hrun : t.run = s.run)
    (hrate : t.rate = s.rate) (hpendingRate : t.pendingRate = s.pendingRate)
    (hperformance : t.performance = s.performance) (hitems : t.items = s.items) :
    Renewing perf p origin low n tempo repeated j t where
  run := by rw [hrun]; exact h.run
  rate := by rw [hrate]; exact h.rate
  pendingRate := by rw [hpendingRate]; exact h.pendingRate
  ahead := h.ahead
  performance := by rw [hperformance]; exact h.performance
  bounds := by rw [hitems]; exact h.bounds
  unrepeated := h.unrepeated
  tallies := by
    unfold kept
    rw [hitems]
    exact h.tallies

/-- Schedulers that play alike renew the same pattern alike. -/
theorem alike (h : Renewing perf p origin low n tempo repeated j s) (halike : Alike t s) :
    Renewing perf p origin low n tempo repeated j t :=
  h.same halike.run halike.rate halike.pendingRate halike.performance halike.items

/-- Setting a rate, accepted or not. -/
theorem setRate (h : Renewing perf p origin low n tempo repeated j s) (v : Value) :
    Renewing perf p origin low n (tempo.more j (Occurrence.setRate v).rates) repeated j
      ((setRate v).after s) := by
  have hrates : (Occurrence.setRate v).rates = (checkRate v).toOption.toList := rfl
  rw [hrates]
  cases hrate : checkRate v with
  | error cause =>
      have hnone : (Except.error cause : Except Fault Float).toOption.toList = [] := rfl
      rw [setRate_error hrate, hnone, tempo.more_nil]
      exact h
  | ok rate =>
      have hone : (Except.ok rate : Except Fault Float).toOption.toList = [rate] := rfl
      obtain ⟨pending, hrun⟩ := h.run
      rw [hone]
      refine Renewing.alike (s := { s with pendingRate := some rate }) ?_
        (alike_setRate (isRunning_of_run hrun) hrate)
      exact {
        run := by rw [tempo.start_more (le_refl j)]; exact h.run
        rate := by rw [tempo.rate_more (le_refl j)]; exact h.rate
        pendingRate := by rw [tempo.set_more, List.getLast?_concat]
        ahead := by
          intro i hi
          rw [tempo.set_more_of_ne (by omega)]
          exact h.ahead i hi
        performance := h.performance
        bounds := h.bounds
        unrepeated := h.unrepeated
        tallies := by
          intro i hlow hi
          rw [tempo.start_more hi, tempo.rate_more hi]
          exact h.tallies i hlow hi }

/-- Firing an event, whatever comes of it. -/
theorem fire {heard : List Nat} (hbooks : s.ledger.Balanced heard)
    (h : Renewing perf p origin low n tempo repeated j s) (id : Nat) :
    Renewing perf p origin low n tempo repeated j ((Scheduler.fire id).after s) := by
  cases hopen : s.isOpen id with
  | false =>
      rw [fire_closed hopen]
      exact h
  | true =>
      have hfired : Renewing perf p origin low n tempo repeated j (s.settle id .sounded) := {
        h with
        run := by
          obtain ⟨pending, hrun⟩ := h.run
          refine ⟨pending.filter (· != id), ?_⟩
          unfold settle
          rw [hrun]
          rfl
        bounds := h.bounds.fated id nofun
        tallies := by
          intro i hlow hi planned hplanned hwritable
          rw [kept_fired hbooks hopen]
          exact (h.tallies i hlow hi planned hplanned hwritable).fired id }
      obtain ⟨item, hitem, hfate⟩ := isOpen_eq_true.mp hopen
      cases hwritable : item.event.value.isWritable with
      | true =>
          have halike := fire_writable hitem hfate hwritable
          exact hfired.same halike.run halike.rate halike.pendingRate halike.performance
            halike.items
      | false =>
          rw [fire_unwritable hitem hfate hwritable]
          exact hfired

/-- The end of a cycle begins the next one. -/
theorem boundary (h : Renewing perf p origin low n tempo repeated j s)
    (hquery : ∃ events, perf.query p (origin + j + 1) none = .ok events) :
    Renewing perf p origin low n tempo repeated (j + 1) ((passBoundary s.generation).after s) := by
  obtain ⟨pending, hrun⟩ := h.run
  obtain ⟨events, hevents⟩ := hquery
  have hnext : origin + ((j + 1 : Nat) : Int) = origin + j + 1 := by omega
  have hstart : tempo.start j + 1.0 / s.rate = tempo.start (j + 1) := by
    rw [h.rate]
    rfl
  have hrate : s.pendingRate.getD s.rate = tempo.rate (j + 1) := by
    rw [h.pendingRate, h.rate]
    rfl
  obtain ⟨bookings, hplan⟩ :=
    perf.plan_eq_ok hevents (tempo.start (j + 1)) (tempo.rate (j + 1)) none
  have hcycle := Performance.cycle_of_plan hplan
  have hbooked : s.performance.plan p (origin + j + 1) (tempo.start j + 1.0 / s.rate)
      (s.pendingRate.getD s.rate) none = .ok bookings := by
    rw [h.performance, hstart, hrate]
    exact hplan
  refine Renewing.alike ?_ (passBoundary_ok hrun hbooked)
  let turned := s.turned ⟨p, tempo.start j, origin + j, pending⟩
  have hsame := sameCourse_bookAll turned bookings
  have harmed := sameCourse_armed (turned.bookAll bookings)
  have hbounds : Bounds n low (origin + j + 1) s.items := h.bounds.mono (by omega)
  obtain ⟨⟨booked, hbookings, hkept⟩, hothers⟩ := kept_bookAll (s := turned) h.bounds.size hcycle
  change Renewing perf p origin low n tempo repeated (j + 1) (turned.bookAll bookings).armed
  exact {
    run := by
      obtain ⟨more, hmore⟩ := run_bookAll (s := turned) rfl bookings
      refine ⟨more, ?_⟩
      rw [run_armed, hmore, hnext, ← hstart]
    rate := by
      rw [harmed.rate, hsame.rate]
      exact hrate
    pendingRate := by
      rw [harmed.pendingRate, hsame.pendingRate, h.ahead (j + 1) (Nat.lt_succ_self j)]
      rfl
    ahead := fun i hi => h.ahead i (by omega)
    performance := by
      rw [harmed.performance, hsame.performance]
      exact h.performance
    bounds := by
      rw [items_armed, hnext]
      exact Bounds.bookAll (s := turned) hbounds fun b hb => le_of_eq (hcycle b hb)
    unrepeated := fun k hk => h.unrepeated k (by omega)
    tallies := by
      intro i hlow hi planned hplanned hwritable
      change Tally planned (repeated (origin + i))
        (((turned.bookAll bookings).armed.items.drop n).filter (·.isKept (origin + i)))
      rw [items_armed]
      change Tally planned _ ((turned.bookAll bookings).kept n (origin + i))
      rcases Nat.lt_or_eq_of_le hi with hlt | rfl
      · rw [hothers _ (by omega)]
        exact h.tallies i hlow (Nat.le_of_lt_succ hlt) planned hplanned hwritable
      · have hnone : turned.kept n (origin + j + 1) = [] := by
          refine List.eq_nil_iff_forall_not_mem.mpr fun item hitem => ?_
          obtain ⟨hdrop, hitemCycle, -⟩ := mem_kept.mp hitem
          have hle := h.bounds.recent item hdrop
          omega
        rw [hnext] at hplanned ⊢
        rw [hplan] at hplanned
        rw [hkept, hnone, List.nil_append]
        refine Tally.of_perm ?_ (h.unrepeated _ (by omega))
        rw [hbookings, Except.ok.inj hplanned] }

/-- A timer goes off, in turn or out of turn. -/
theorem perform {heard : List Nat} (hbooks : s.ledger.Balanced heard)
    (h : Renewing perf p origin low n tempo repeated j s) (task : Task) {limit : Int}
    (hquery : ∀ k, origin ≤ k → k ≤ limit → ∃ events, perf.query p k none = .ok events)
    (hlimit : ((Scheduler.perform task).after s).cycle ≤ limit) :
    ∃ j', Renewing perf p origin low n tempo repeated j' ((Scheduler.perform task).after s) := by
  cases task with
  | fire id => exact ⟨j, h.fire hbooks id⟩
  | boundary generation =>
      change ((passBoundary generation).after s).cycle ≤ limit at hlimit
      change ∃ j', Renewing perf p origin low n tempo repeated j'
        ((passBoundary generation).after s)
      by_cases hcurrent : generation = s.generation
      · obtain ⟨pending, hrun⟩ := h.run
        rw [hcurrent, cycle_passBoundary hrun, h.cycle] at hlimit
        rw [hcurrent]
        exact ⟨j + 1, h.boundary (hquery _ (by omega) hlimit)⟩
      · rw [passBoundary_stale (.inr hcurrent)]
        exact ⟨j, h⟩

/-- Whether an event was repeated may be told by other words. -/
theorem of_iff (h : Renewing perf p origin low n tempo repeated j s) {repeated' : Int → Prop}
    (hiff : ∀ k, repeated' k ↔ repeated k) :
    Renewing perf p origin low n tempo repeated' j s := by
  have hsame : repeated' = repeated := funext fun k => propext (hiff k)
  rwa [hsame]

section Replace

variable {heard : List Nat} {run : Run} {place : Rat}

/-- Withdrawing what is ahead leaves the cycles before as they are. -/
theorem kept_earlier (hbooks : s.ledger.Balanced heard) (hindex : run.cycleIndex = origin + j)
    {items : List Scheduled} (hitems : items ⊆ s.ahead run place) {i : Nat} (hi : i < j) :
    (s.withdraw items).kept n (origin + i) = s.kept n (origin + i) := by
  refine kept_withdraw_of_ne hbooks fun item hitem => ?_
  have hahead := hitems hitem
  have hle := le_of_ahead hahead
  exact ⟨(isOpen_of_mem_pendingItems hbooks (List.mem_of_mem_filter hahead)).1, by omega⟩

/-- An event of the present cycle that is ahead is planned. -/
theorem planned_of_ahead (hbooks : s.ledger.Balanced heard)
    (h : Renewing perf p origin low n tempo repeated j s) (hindex : run.cycleIndex = origin + j)
    (hlow : low ≤ origin + j) {planned : List Booking}
    (htally : Tally planned (repeated (origin + j)) (s.kept n (origin + j))) {item : Scheduled}
    (hitem : item ∈ s.ahead run place) : item.booking ∈ planned := by
  have hpending := List.mem_of_mem_filter hitem
  have hmem := (isOpen_of_mem_pendingItems hbooks hpending).1
  have hfate := (mem_pendingItems_iff hbooks hmem).mp hpending
  have hle := le_of_ahead hitem
  rw [← List.take_append_drop n s.items, List.mem_append] at hmem
  cases hmem with
  | inl hold =>
      have hlt : item.cycle < low := h.bounds.old item hold hfate
      omega
  | inr hrecent =>
      have hge := h.bounds.recent item hrecent
      refine htally.among item (mem_kept.mpr ⟨hrecent, by omega, ?_⟩)
      rw [hfate]
      nofun

/-- A replacement that ends at an event that cannot be written. -/
theorem cut (hbooks : s.ledger.Balanced heard)
    (h : Renewing perf p origin low n tempo repeated j s) (hindex : run.cycleIndex = origin + j)
    {item : Scheduled} (hitem : item ∈ s.ahead run place)
    (hlong : item.event.value.isWritable = false) {first : List Scheduled}
    (hfirst : first ⊆ s.ahead run place) {repeated' : Int → Prop}
    (hiff : ∀ k ≠ origin + j, repeated' k ↔ repeated k) :
    Renewing perf p origin low n tempo repeated' j (s.withdraw first) where
  run := by
    obtain ⟨pending, hrun⟩ := h.run
    rw [withdraw_eq, hrun]
    exact ⟨_, rfl⟩
  rate := by
    rw [withdraw_eq]
    exact h.rate
  pendingRate := by
    rw [withdraw_eq]
    exact h.pendingRate
  ahead := h.ahead
  performance := by
    rw [withdraw_eq]
    exact h.performance
  bounds := h.bounds.withdraw first
  unrepeated := fun k hk => mt (hiff k (by omega)).mp (h.unrepeated k hk)
  tallies := by
    intro i hlow hi planned hplanned hwritable
    rcases Nat.lt_or_eq_of_le hi with hlt | rfl
    · rw [kept_earlier hbooks hindex hfirst hlt, propext (hiff (origin + i) (by omega))]
      exact h.tallies i hlow hi planned hplanned hwritable
    · have htally := h.tallies i hlow hi planned hplanned hwritable
      have hwritten := hwritable _ (h.planned_of_ahead hbooks hindex hlow htally hitem)
      change item.event.value.isWritable = true at hwritten
      rw [hlong] at hwritten
      nomatch hwritten

/-- A replacement that is done. -/
theorem swap (hbooks : s.ledger.Balanced heard)
    (h : Renewing perf p origin low n tempo repeated j s) (hrun : s.run = some run)
    {bookings : List Booking}
    (hplan : s.performance.plan p run.cycleIndex run.cycleStart s.rate (some place) =
      .ok bookings) :
    Renewing perf p origin low n tempo (fun k => repeated k ∨ k = run.cycleIndex ∧
        ∃ item ∈ s.kept n run.cycleIndex, item.fate = .sounded ∧ place < item.event.active.start) j
      (((s.withdraw (s.ahead run place)).swapped p).bookAll bookings) := by
  obtain ⟨pending, hrun'⟩ := h.run
  have hnow : run = ⟨p, tempo.start j, origin + j, pending⟩ :=
    Option.some.inj (hrun.symm.trans hrun')
  have hindex : run.cycleIndex = origin + j := by rw [hnow]
  have hcycle := Performance.cycle_of_plan hplan
  have hswapped : ∃ pending, ((s.withdraw (s.ahead run place)).swapped p).run =
      some ⟨p, tempo.start j, origin + j, pending⟩ := by
    rw [run_swapped hrun, hnow]
    exact ⟨_, rfl⟩
  have hsame := sameCourse_bookAll ((s.withdraw (s.ahead run place)).swapped p) bookings
  have hbounds := h.bounds.withdraw (s.ahead run place)
  obtain ⟨⟨booked, hbookings, hkept⟩, hothers⟩ :=
    kept_bookAll (s := (s.withdraw (s.ahead run place)).swapped p) hbounds.size hcycle
  exact {
    run := by
      obtain ⟨before, hbefore⟩ := hswapped
      obtain ⟨more, hmore⟩ := run_bookAll hbefore bookings
      exact ⟨more, hmore⟩
    rate := by
      rw [hsame.rate]
      change (s.withdraw (s.ahead run place)).rate = _
      rw [withdraw_eq]
      exact h.rate
    pendingRate := by
      rw [hsame.pendingRate]
      change (s.withdraw (s.ahead run place)).pendingRate = _
      rw [withdraw_eq]
      exact h.pendingRate
    ahead := h.ahead
    performance := by
      rw [hsame.performance]
      change (s.withdraw (s.ahead run place)).performance = _
      rw [withdraw_eq]
      exact h.performance
    bounds := by
      refine Bounds.bookAll (s := (s.withdraw (s.ahead run place)).swapped p) hbounds fun b hb => ?_
      rw [hcycle b hb, hindex]
    unrepeated := by
      intro k hk
      rw [not_or]
      exact ⟨h.unrepeated k hk, fun hnow => by omega⟩
    tallies := by
      intro i hlow hi planned hplanned hwritable
      have htally := h.tallies i hlow hi planned hplanned hwritable
      rcases Nat.lt_or_eq_of_le hi with hlt | rfl
      · rw [hothers _ (by omega)]
        change Tally planned _ ((s.withdraw (s.ahead run place)).kept n (origin + i))
        rw [kept_earlier hbooks hindex (fun _ hitem => hitem) hlt,
          or_iff_left (fun hnow => by omega)]
        exact htally
      · rw [← hindex] at hplanned htally ⊢
        rw [hkept]
        change Tally planned _ ((s.withdraw (s.ahead run place)).kept n run.cycleIndex ++ booked)
        rw [kept_withdraw_ahead hbooks, and_iff_right rfl]
        refine htally.swapped (hbookings.trans ?_) fun item hitem => fate_of_kept hitem
        rw [h.performance, h.rate, show run.cycleStart = tempo.start i by rw [hnow],
          Performance.plan_after hplanned] at hplan
        exact (Except.ok.inj hplan).symm }

/-- A replacement of the pattern by itself, whatever comes of it. -/
theorem replace (hbooks : s.ledger.Balanced heard)
    (h : Renewing perf p origin low n tempo repeated j s) {v : Value}
    (hread : (coerce v).outcome s = .ok p)
    (hquery : ∃ events, perf.query p (origin + j) none = .ok events) :
    Renewing perf p origin low n tempo
      (fun k => repeated k ∨ (Occurrence.replace v).Repeats n k s) j
      ((Scheduler.replace v).after s) := by
  obtain ⟨pending, hrun⟩ := h.run
  obtain ⟨events, hevents⟩ := hquery
  generalize hnow : (⟨p, tempo.start j, origin + j, pending⟩ : Run) = run at hrun
  have hindex : run.cycleIndex = origin + j := by rw [← hnow]
  cases hplace : s.elapsed run with
  | error cause =>
      refine (h.of_iff fun k => ?_).alike (replace_refused (.inr (.inr ⟨run, cause, hrun, hplace⟩)))
      refine or_iff_left ?_
      rintro ⟨run', place, hrun', -, hplace', -⟩
      rw [hrun, Option.some_inj] at hrun'
      rw [← hrun', hplace] at hplace'
      nomatch hplace'
  | ok place =>
      rcases after_replace hbooks hrun hread hplace with
        ⟨⟨item, hitem, hlong⟩, first, hfirst, -, -, halike⟩ |
        ⟨-, ⟨cause, hplan, -, -⟩ | ⟨bookings, hplan, halike⟩⟩
      · refine (h.cut hbooks hindex hitem hlong hfirst.subset fun k hk => ?_).alike halike
        rw [repeats_iff hrun hplace, hindex]
        exact or_iff_left fun hsame => hk hsame.1
      · rw [Performance.plan_eq_error_iff, h.performance, hindex, hevents] at hplan
        nomatch hplan
      · refine ((h.swap hbooks hrun hplan).of_iff fun k => ?_).alike halike
        rw [repeats_iff hrun hplace]

end Replace

/-- Moving the clock forward. -/
theorem advance {heard : List Nat} (hbooks : s.ledger.Balanced heard)
    (h : Renewing perf p origin low n tempo repeated j s) (time : Float) {limit : Int}
    (hquery : ∀ k, origin ≤ k → k ≤ limit → ∃ events, perf.query p k none = .ok events)
    (hlimit : ((advanceWithin patience time).after s).cycle ≤ limit) :
    ∃ j', Renewing perf p origin low n tempo repeated j'
      ((advanceWithin patience time).after s) := by
  let R (s t : Scheduler) : Prop := Moves s t ∧ Later s t ∧
    ∀ heard, s.ledger.Balanced heard → t.cycle ≤ limit →
      (∃ j, Renewing perf p origin low n tempo repeated j s) →
        ∃ j, Renewing perf p origin low n tempo repeated j t
  have hrefl : ∀ s, R s s := fun s => ⟨moves_refl s, Int.le_refl _, fun _ _ _ hs => hs⟩
  have htrans : ∀ {s t u}, R s t → R t u → R s u := by
    rintro s t u ⟨hmoves, hlater, hst⟩ ⟨hmoves', hlater', htu⟩
    refine ⟨hmoves.trans hmoves', hlater.trans hlater', fun heard hbooks hle hs => ?_⟩
    obtain ⟨more, hmore⟩ := hbooks.steps (hmoves heard hbooks)
    exact htu _ hmore hle (hst heard hbooks (Int.le_trans hlater' hle) hs)
  have hclock : ∀ (s : Scheduler) now, R s (s.atTime now) := fun s now =>
    ⟨moves_of_ledger_eq rfl, Int.le_refl _, fun _ _ _ ⟨j, hs⟩ => ⟨j, hs.same rfl rfl rfl rfl rfl⟩⟩
  have htimer : ∀ (s : Scheduler), ∀ t ∈ s.clock.live,
      R s ((Scheduler.perform t.task).after (s.expired t.id)) := fun s t _ =>
    ⟨moves_expired s t, (onward_expired s t).later, fun heard hbooks hle ⟨j, hs⟩ =>
      (hs.same (t := s.expired t.id) rfl rfl rfl rfl rfl).perform (s := s.expired t.id) hbooks
        t.task hquery hle⟩
  exact (advanceWithin_related hrefl htrans hclock htimer patience time s).2.2 heard hbooks hlimit
    ⟨j, h⟩

/-- Whatever happens to a pattern that is at most replaced by itself, it plays
on. -/
theorem next {heard : List Nat} (hbooks : s.ledger.Balanced heard)
    (h : Renewing perf p origin low n tempo repeated j s) {o : Occurrence} (ho : o.goesOn = true)
    (hread : ∀ v, o = .replace v → (coerce v).outcome s = .ok p) {limit : Int}
    (hquery : ∀ k, origin ≤ k → k ≤ limit → ∃ events, perf.query p k none = .ok events)
    (hlimit : (o.next s).cycle ≤ limit) :
    ∃ j', Renewing perf p origin low n (tempo.more j o.rates)
      (fun k => repeated k ∨ o.Repeats n k s) j' (o.next s) := by
  have hquiet : o.rates = [] → (∀ k, ¬ o.Repeats n k s) →
      (∃ j', Renewing perf p origin low n tempo repeated j' (o.next s)) →
      ∃ j', Renewing perf p origin low n (tempo.more j o.rates)
        (fun k => repeated k ∨ o.Repeats n k s) j' (o.next s) := by
    rintro hrates hrepeats ⟨j', hj'⟩
    rw [hrates, tempo.more_nil]
    exact ⟨j', hj'.of_iff fun k => or_iff_left (hrepeats k)⟩
  cases o with
  | start v given => nomatch ho
  | stop => nomatch ho
  | replace v =>
      refine ⟨j, ?_⟩
      change Renewing perf p origin low n (tempo.more j []) _ j _
      have hcycle : ((Scheduler.replace v).after s).cycle = s.cycle :=
        (tracks_sameCycle.replace v s).cycle_eq
      change ((Scheduler.replace v).after s).cycle ≤ limit at hlimit
      rw [hcycle, h.cycle] at hlimit
      rw [tempo.more_nil]
      exact h.replace hbooks (hread v rfl) (hquery _ (by omega) hlimit)
  | setRate v => exact ⟨j, (h.setRate v).of_iff fun k => or_iff_left id⟩
  | configureJournal enable level =>
      exact hquiet rfl (fun _ => id) ⟨j, h.alike (alike_configureJournal enable level s)⟩
  | advance time => exact hquiet rfl (fun _ => id) (h.advance hbooks time hquery hlimit)
  | jump time => exact hquiet rfl (fun _ => id) ⟨j, h.same rfl rfl rfl rfl rfl⟩
  | ring timer =>
      refine hquiet rfl (fun _ => id) ?_
      change ((ring timer).after s).cycle ≤ limit at hlimit
      change ∃ j', Renewing perf p origin low n tempo repeated j' ((ring timer).after s)
      rcases ring_cases timer s with hsame | ⟨t, -, -, hrung⟩
      · rw [hsame]
        exact ⟨j, h⟩
      · rw [hrung] at hlimit ⊢
        exact (h.same (t := s.expired timer) rfl rfl rfl rfl rfl).perform (s := s.expired timer)
          hbooks t.task hquery hlimit
  | poke timer =>
      refine hquiet rfl (fun _ => id) ?_
      change ((poke timer).after s).cycle ≤ limit at hlimit
      change ∃ j', Renewing perf p origin low n tempo repeated j' ((poke timer).after s)
      rcases poke_cases timer s with hsame | ⟨t, -, -, hpoked⟩
      · rw [hsame]
        exact ⟨j, h⟩
      · rw [hpoked] at hlimit ⊢
        exact h.perform hbooks t.task hquery hlimit

end Renewing

/-! ## Runs -/

/-- The tempo from the present cycle of a run on, with the rates that are set
later. -/
def tempoFrom (s : Scheduler) (run : Run) (later : List Occurrence) : Tempo where
  begin := run.cycleStart
  first := s.rate
  set := fun j => (if j = 0 then s.pendingRate.toList else []) ++
    ratesSet (run.cycleIndex + j) s later

theorem tempoFrom_start_zero (s : Scheduler) (run : Run) (later : List Occurrence) :
    (s.tempoFrom run later).start 0 = run.cycleStart := rfl

theorem tempoFrom_rate_zero (s : Scheduler) (run : Run) (later : List Occurrence) :
    (s.tempoFrom run later).rate 0 = s.rate := rfl

/-- The present cycle is as it was planned, if it began after the first `n`
events were booked. -/
structure Whole (s : Scheduler) (n : Nat) (k : Int) (planned : List Booking) : Prop where
  kept : ((s.kept n k).map (·.booking)).Perm planned
  pending : PendingBefore k (s.items.take n)

/-- A pattern that was just started is as it was planned. -/
theorem whole_of_start {before : Scheduler} {heard : List Nat}
    (hbooks : before.ledger.Balanced heard) (hstopped : before.isRunning = false) {v : Value}
    {p : Pattern} (hread : (coerce v).outcome before = .ok p) {given : Option Value}
    {accepted : Option Float} (haccepted : given.mapM checkRate = .ok accepted)
    {planned : List Booking} (hplanned : before.performance.plan p 0 before.clock.now
      (accepted.getD before.rate) none = .ok planned) :
    ((start v given).after before).Whole before.items.length 0 planned := by
  have hitems : ((start v given).after before).items =
      ((before.begun p accepted).bookAll planned).items := by
    rw [(start_ok hstopped hread haccepted hplanned).items, items_armed]
  obtain ⟨booked, hbooked, -, -⟩ := items_bookAll (before.begun p accepted) planned
  refine ⟨?_, ?_⟩
  · obtain ⟨⟨booked, hbookings, hkept⟩, -⟩ := kept_bookAll (s := before.begun p accepted)
      (n := before.items.length) (le_refl _) (Performance.cycle_of_plan hplanned)
    unfold kept at hkept ⊢
    have hnone : (before.begun p accepted).items.drop before.items.length = [] :=
      List.drop_length
    rw [hitems, hkept, hnone, List.filter_nil, List.nil_append, hbookings]
  · -- nothing is pending when nothing is played
    rw [hitems, hbooked]
    change PendingBefore 0 ((before.items ++ booked).take before.items.length)
    rw [List.take_left]
    exact pendingIn_of_stopped hbooks hstopped _

/-- A pattern that is at most replaced by itself plays on over any run. -/
theorem renewing_afterAll {first : Scheduler} {run : Run} (hrun : first.run = some run)
    {heard : List Nat} (hbooks : first.ledger.Balanced heard) {low : Int} {n : Nat}
    (hbounds : Bounds n low run.cycleIndex first.items)
    (hwhole : low ≤ run.cycleIndex → ∀ planned, first.performance.plan run.pattern run.cycleIndex
      run.cycleStart first.rate none = .ok planned →
        ((first.kept n run.cycleIndex).map (·.booking)).Perm planned)
    {later : List Occurrence} (hlater : ∀ o ∈ later, o.goesOn = true)
    (hsame : ∀ v, .replace v ∈ later → (coerce v).outcome first = .ok run.pattern) {limit : Int}
    (hquery : ∀ k, run.cycleIndex ≤ k → k ≤ limit →
      ∃ events, first.performance.query run.pattern k none = .ok events)
    (hlimit : (afterAll later first).cycle ≤ limit) :
    ∃ j, Renewing first.performance run.pattern run.cycleIndex low n (first.tempoFrom run later)
      (fun k => RepeatedIn n k first later) j (afterAll later first) := by
  induction later using List.reverseRec with
  | nil =>
      refine ⟨0, ?_⟩
      exact {
        run := by
          refine ⟨run.pending, hrun.trans ?_⟩
          rw [Nat.cast_zero, Int.add_zero]
          rfl
        rate := rfl
        pendingRate := by
          change first.pendingRate =
            ((if 0 = 0 then first.pendingRate.toList else []) ++ []).getLast?
          cases first.pendingRate <;> rfl
        ahead := by
          intro i hi
          change (if i = 0 then first.pendingRate.toList else []) ++ [] = []
          rw [if_neg (Nat.ne_of_gt hi)]
          rfl
        performance := rfl
        bounds := hbounds.mono (by omega)
        unrepeated := fun _ _ => id
        tallies := by
          intro i hlow hi planned hplanned _
          obtain rfl : i = 0 := Nat.le_zero.mp hi
          have hzero : run.cycleIndex + ((0 : Nat) : Int) = run.cycleIndex := Int.add_zero _
          rw [hzero] at hlow hplanned ⊢
          exact Tally.of_perm (hwhole hlow planned hplanned) id }
  | append_singleton later o ih =>
      have ho := hlater o (List.mem_append_right _ List.mem_cons_self)
      rw [afterAll_append] at hlimit ⊢
      change (o.next (afterAll later first)).cycle ≤ limit at hlimit
      change ∃ j, Renewing _ _ _ _ _ _ _ j (o.next (afterAll later first))
      have hbefore : (afterAll later first).cycle ≤ limit :=
        Int.le_trans (onward_next ho _).later hlimit
      obtain ⟨j, hj⟩ := ih (fun o' ho' => hlater o' (List.mem_append_left _ ho'))
        (fun v hv => hsame v (List.mem_append_left _ hv)) hbefore
      obtain ⟨more, hmore⟩ := hbooks.steps (moves_afterAll later first heard hbooks)
      have hread : ∀ v, o = .replace v →
          (coerce v).outcome (afterAll later first) = .ok run.pattern := by
        rintro v rfl
        rw [← hsame v (List.mem_append_right _ List.mem_cons_self)]
        exact outcome_coerce (congrArg Performance.transforms hj.performance) v
      obtain ⟨j', hj'⟩ := hj.next hmore ho hread hquery hlimit
      have htempo : (first.tempoFrom run later).more j o.rates =
          first.tempoFrom run (later ++ [o]) := by
        unfold tempoFrom Tempo.more
        simp only [Tempo.mk.injEq, true_and]
        funext i
        rw [ratesSet_concat, hj.cycle, List.append_assoc]
        simp only [Int.add_right_inj, Nat.cast_inj, eq_comm]
      rw [htempo] at hj'
      exact ⟨j', hj'.of_iff fun k => repeatedIn_concat n k first later o⟩

/-- What was kept of a cycle tallies with its plan, if the cycle began later or is
as planned at first. -/
theorem tally_afterAll {first : Scheduler} {run : Run} (hrun : first.run = some run)
    {heard : List Nat} (hbooks : first.ledger.Balanced heard) (hpresent : first.Present) {n : Nat}
    (hn : n ≤ first.items.length)
    (hrecent : ∀ item ∈ first.items.drop n, item.cycle ≤ run.cycleIndex)
    {later : List Occurrence} (hlater : ∀ o ∈ later, o.goesOn = true)
    (hsame : ∀ v, .replace v ∈ later → (coerce v).outcome first = .ok run.pattern)
    (hquery : ∀ k, run.cycleIndex ≤ k → k ≤ (afterAll later first).cycle →
      ∃ events, first.performance.query run.pattern k none = .ok events)
    {j : Nat} (hj : run.cycleIndex + j ≤ (afterAll later first).cycle) {planned : List Booking}
    (hplanned : first.performance.plan run.pattern (run.cycleIndex + j)
      ((first.tempoFrom run later).start j) ((first.tempoFrom run later).rate j) none =
        .ok planned)
    (hcounts : 0 < j ∨ first.Whole n (run.cycleIndex + j) planned)
    (hwritable : ∀ b ∈ planned, b.event.value.isWritable = true) :
    Tally planned (RepeatedIn n (run.cycleIndex + j) first later)
      ((afterAll later first).kept n (run.cycleIndex + j)) := by
  have htally : ∀ low, low ≤ run.cycleIndex + j → PendingBefore low (first.items.take n) →
      (low ≤ run.cycleIndex → ∀ planned, first.performance.plan run.pattern run.cycleIndex
        run.cycleStart first.rate none = .ok planned →
          ((first.kept n run.cycleIndex).map (·.booking)).Perm planned) →
      Tally planned (RepeatedIn n (run.cycleIndex + j) first later)
        ((afterAll later first).kept n (run.cycleIndex + j)) := by
    intro low hlow hold hwhole
    obtain ⟨i, hi⟩ := renewing_afterAll hrun hbooks ⟨hn, hold, hrecent⟩ hwhole hlater hsame hquery
      (le_refl _)
    have hcycle := hi.cycle
    exact hi.tallies j hlow (by omega) planned hplanned hwritable
  by_cases hpos : 0 < j
  · refine htally (run.cycleIndex + 1) (by omega) (fun item hitem => ?_) (fun hle => by omega)
    exact hpresent run hrun item (List.mem_of_mem_take hitem)
  · -- the cycle in progress
    obtain rfl : j = 0 := Nat.eq_zero_of_not_pos hpos
    obtain ⟨hkept, hpending⟩ := hcounts.resolve_left hpos
    rw [Nat.cast_zero, Int.add_zero] at *
    refine htally run.cycleIndex (le_refl _) hpending fun _ planned' hplanned' => ?_
    have heq : planned' = planned := Except.ok.inj (hplanned'.symm.trans hplanned)
    rw [heq]
    exact hkept

/-- **Renewing**: while a pattern plays and is at most replaced by itself, with
rates set and timers going off in any order, its cycles are played as they were
planned, at the tempo that was set, as if nothing had been replaced: if all of a
cycle can be written, the events of it that were sounded or are still pending are
all of its plan, and each is there once if and only if no replacement in this
cycle came upon an event ahead of its place that was fired already.  So once none
of a cycle is pending, just its plan was sounded if and only if all of it could
be written and nothing of it was repeated.  While the clock moves by advancing
only, none is pending of any cycle that is over when no timer is due.

The cycle in progress counts if it is as planned at first. -/
theorem renewed_as_planned (perf : Performance) (policy : Policy) (sounder : Sounder)
    (listener : Option Listener) (rate now : Float) (past later : List Occurrence)
    {first s : Scheduler} {run : Run} {n : Nat}
    (hfirst : afterAll past (initial perf policy sounder listener rate now) = first)
    (hrun : first.run = some run) (hn : n ≤ first.items.length)
    (hrecent : ∀ item ∈ first.items.drop n, item.cycle ≤ run.cycleIndex)
    (hlater : ∀ o ∈ later, o.goesOn = true)
    (hsame : ∀ v, .replace v ∈ later → (coerce v).outcome first = .ok run.pattern)
    (hs : afterAll later first = s)
    (hquery : ∀ k, run.cycleIndex ≤ k → k ≤ s.cycle →
      ∃ events, first.performance.query run.pattern k none = .ok events) :
    let tempo := first.tempoFrom run later
    ∃ heard, s.ledger.Balanced heard ∧ ∀ j : Nat, run.cycleIndex + j ≤ s.cycle →
      let k := run.cycleIndex + j
      ∃ events planned, first.performance.query run.pattern k none = .ok events ∧
        (events.filter (·.hasOnset)).mapM (Booking.of k (tempo.start j) (tempo.rate j)) =
          .ok planned ∧
        (k < s.cycle → 0.0 < rate → (∀ o ∈ past ++ later, o.isForward = true) →
          (∀ t ∈ s.clock.live, ¬ t.due ≤ s.clock.now) →
          ∀ item ∈ s.items, item.cycle = k → item.fate ≠ .pending) ∧
        (0 < j ∨ first.Whole n k planned →
          ((∀ b ∈ planned, b.event.value.isWritable = true) →
            (∀ b ∈ s.played n heard k, b ∈ planned) ∧ planned.Subperm (s.played n heard k) ∧
            ((s.played n heard k).Perm planned ↔ ¬ RepeatedIn n k first later)) ∧
          ((∀ item ∈ s.items.drop n, item.cycle = k → item.fate ≠ .pending) →
            ((s.played n heard k).Perm planned ↔
              (∀ b ∈ planned, b.event.value.isWritable = true) ∧
                ¬ RepeatedIn n k first later))) := by
  intro tempo
  obtain ⟨before, hbefore⟩ := balanced_afterAll perf policy sounder listener rate now past
  have hpresent := present_afterAll perf policy sounder listener rate now past
  rw [hfirst] at hbefore hpresent
  obtain ⟨more, hmore⟩ := hbefore.steps (moves_afterAll later first before hbefore)
  rw [hs] at hmore
  refine ⟨before ++ more, hmore, fun j hj => ?_⟩
  obtain ⟨events, hevents⟩ := hquery _ (by omega) hj
  obtain ⟨planned, hplanned⟩ :=
    first.performance.plan_eq_ok hevents (tempo.start j) (tempo.rate j) none
  obtain ⟨events', hevents', hmapped⟩ := Performance.plan_eq hplanned
  rw [hevents, Except.ok.injEq] at hevents'
  refine ⟨events, planned, hevents, hevents' ▸ hmapped, fun hover hrate hforward hdue => ?_,
    fun hcounts => ?_⟩
  · intro item hitem hcycle hfate
    have htime := inTime_afterAll perf policy sounder listener hrate now hforward
    rw [afterAll_append, hfirst, hs] at htime
    have hnow := cycle_of_pending htime hdue hitem hfate
    omega
  have hplayed := fun hwritable : ∀ b ∈ planned, b.event.value.isWritable = true => by
    have htally := tally_afterAll hrun hbefore hpresent hn hrecent hlater hsame (hs ▸ hquery)
      (hs ▸ hj) hplanned hcounts hwritable
    rw [hs] at htally
    exact played_of_tally hmore htally hwritable
  refine ⟨hplayed, fun hdone => ⟨fun hperm => ?_, fun ⟨hwritable, honce⟩ => ?_⟩⟩
  · have hwritable : ∀ b ∈ planned, b.event.value.isWritable = true := fun b hb =>
      writable_of_played hmore hdone b (hperm.symm.subset hb)
    exact ⟨hwritable, (hplayed hwritable).2.2.mp hperm⟩
  · exact (hplayed hwritable).2.2.mpr honce

/-- Two notes, of which the first is sounded before they are replaced by
themselves: their cycle is played as it was planned. -/
theorem renewed_as_planned_notes :
    let notes := Pattern.sequence [.leaf (.text "a"), .leaf (.text "b")]
    let before := initial .default Policy.roundRobin ⟨none, fun _ _ => .sounded⟩ none 1.0 0.0
    let first := afterAll [.start (.pattern notes) none] before
    let later := [.advance 0.25, .replace (.pattern notes), .advance 1.0]
    let s := afterAll later first
    s.cycle = 1 ∧ ∃ heard planned, s.ledger.Balanced heard ∧
      before.performance.plan notes 0 0.0 1.0 none = .ok planned ∧ planned.length = 2 ∧
      first.Whole 0 0 planned ∧ ¬ RepeatedIn 0 0 first later ∧
      (∀ item ∈ s.items, item.cycle = 0 → item.fate ≠ .pending) ∧
      (s.played 0 heard 0).Perm planned := by
  intro notes before first later s
  have hcycle : s.cycle = 1 := by decide +kernel
  have hfirst : afterAll [.start (.pattern notes) none] before = first := rfl
  have hfound : ∀ k < 2, (before.performance.query notes (k : Nat) none).toOption.isSome := by
    decide +kernel
  obtain ⟨events, hevents⟩ : ∃ events, before.performance.query notes 0 none = .ok events :=
    ok_of_isSome (hfound 0 (by decide))
  obtain ⟨planned, hplanned⟩ := before.performance.plan_eq_ok hevents 0.0 1.0 none
  have halike : Alike first ((before.begun notes none).bookAll planned).armed :=
    start_ok rfl rfl rfl hplanned
  obtain ⟨pending, hpending⟩ := run_bookAll (s := before.begun notes none) rfl planned
  have hrun : first.run = some ⟨notes, 0.0, 0, pending⟩ := by
    rw [halike.run, run_armed, hpending]
    rfl
  have hperf : first.performance = before.performance := by
    rw [halike.performance, (sameCourse_armed _).performance, (sameCourse_bookAll _ _).performance]
    rfl
  have hrecent : ∀ item ∈ first.items.drop 0, item.cycle ≤ 0 := by decide +kernel
  have hquery : ∀ k, 0 ≤ k → k ≤ s.cycle →
      ∃ events, first.performance.query notes k none = .ok events := by
    intro k hlow hhigh
    rw [hcycle] at hhigh
    obtain ⟨j, rfl⟩ := Int.eq_ofNat_of_zero_le hlow
    rw [hperf]
    exact ok_of_isSome (hfound j (by omega))
  have hwhole : first.Whole 0 0 planned := by
    obtain ⟨heard, hbooks⟩ := balanced_afterAll .default Policy.roundRobin
      ⟨none, fun _ _ => .sounded⟩ none 1.0 0.0 []
    change ((start (.pattern notes) none).after before).Whole before.items.length 0 planned
    have haccepted : (none : Option Value).mapM checkRate = .ok none := rfl
    exact whole_of_start (v := .pattern notes) hbooks rfl rfl haccepted hplanned
  have hlength : planned.length = 2 := by
    have hplan : (before.performance.plan notes 0 0.0 1.0 none).toOption.map (·.length) =
        some 2 := by decide +kernel
    rw [hplanned] at hplan
    exact Option.some_inj.mp hplan
  have honce : ¬ RepeatedIn 0 0 first later := by
    let met := (Occurrence.advance 0.25).next first
    have hplace : met.run.map (fun run => (met.elapsed run).toOption) = some (some (1 / 4)) := by
      decide +kernel
    have hfired : ∀ item ∈ met.items, item.fate = .sounded → item.event.active.start ≤ 1 / 4 := by
      decide +kernel
    rintro (hno | ⟨run, place, hmet, -, helapsed, item, hitem, -, hfate, hafter⟩ | hno | hno)
    · exact hno
    · change met.run = some run at hmet
      change met.elapsed run = .ok place at helapsed
      rw [hmet, Option.map_some, helapsed] at hplace
      have hquarter : place = 1 / 4 := Option.some_inj.mp (Option.some_inj.mp hplace)
      rw [hquarter] at hafter
      exact absurd (hfired item hitem hfate) (not_le.mpr hafter)
    · exact hno
    · exact hno
  have hpassed : 0 + ((0 : Nat) : Int) < s.cycle := by
    rw [hcycle]
    decide
  have hsame : ∀ v, Occurrence.replace v ∈ later → (coerce v).outcome first = .ok notes := by
    intro v hv
    have hrenewed : v = .pattern notes := by simpa [later] using hv
    rw [hrenewed]
    rfl
  obtain ⟨heard, hheard, hplayed⟩ := renewed_as_planned .default Policy.roundRobin
    ⟨none, fun _ _ => .sounded⟩ none 1.0 0.0 [.start (.pattern notes) none] later (s := s) (n := 0)
    hfirst hrun (Nat.zero_le _) hrecent (by decide) hsame rfl hquery
  obtain ⟨events', planned', hevents', hplanned', hover, hboth⟩ :=
    hplayed 0 (Int.le_of_lt hpassed)
  have heq : planned' = planned := by
    obtain ⟨events'', hevents'', hmapped⟩ := Performance.plan_eq hplanned
    have hrate : first.rate = 1.0 := by decide +kernel
    simp only [tempoFrom_start_zero, tempoFrom_rate_zero, hrate, Nat.cast_zero, Int.add_zero]
      at hevents' hplanned'
    rw [hperf, hevents'', Except.ok.injEq] at hevents'
    rw [← hevents', hmapped] at hplanned'
    exact (Except.ok.inj hplanned').symm
  rw [heq] at hboth
  have hwritable : ∀ b ∈ planned, b.event.value.isWritable = true := by
    have hitems : ∀ item ∈ first.items, item.event.value.isWritable = true := by decide +kernel
    intro b hb
    obtain ⟨item, hitem, rfl⟩ := List.mem_map.mp (hwhole.kept.symm.subset hb)
    exact hitems item (mem_items_of_kept hitem)
  have hdue : ∀ t ∈ s.clock.live, ¬ t.due ≤ s.clock.now := by decide +kernel
  have hdone : ∀ item ∈ s.items, item.cycle = 0 → item.fate ≠ .pending :=
    hover hpassed (by decide +kernel) (by decide) hdue
  have hclosed : ∀ item ∈ s.items.drop 0, item.cycle = 0 → item.fate ≠ .pending := hdone
  exact ⟨hcycle, heard, planned, hheard, hplanned, hlength, hwhole, honce, hdone,
    ((hboth (.inr hwhole)).2 hclosed).mpr ⟨hwritable, honce⟩⟩

/-- A note that is begun again shortly before the cycle ends.  When that is
played, and the pattern is replaced by itself at that time, its place is rounded
to one before the note, which is sounded once more: three notes where the plan
has two, although nothing is left to be done. -/
theorem repeated_onset :
    let quick := Pattern.transform (.leaf (.text "a")) "fast"
      [.number (.ratio (mkRat 1000001 1000000))]
    let before := initial .default Policy.roundRobin ⟨none, fun _ _ => .sounded⟩ none 1.0 0.0
    let s := afterAll [.start (.pattern quick) none, .advance 0.999999000001,
      .replace (.pattern quick), .advance 1.0] before
    let untouched := afterAll [.start (.pattern quick) none, .advance 0.999999000001,
      .advance 1.0] before
    s.cycle = 1 ∧ (∀ t ∈ s.clock.live, ¬ t.due ≤ s.clock.now) ∧
      (∀ k : Nat, (k : Int) ≤ s.cycle →
        ∃ events, before.performance.query quick k none = .ok events) ∧
      untouched.trace.attempts.length = 2 ∧ s.trace.attempts.length = 3 ∧
      (∀ item ∈ s.items, item.cycle = 0 → item.fate ≠ .pending) ∧
      ∃ planned, before.performance.plan quick 0 0.0 1.0 none = .ok planned ∧
        ∀ heard, s.ledger.Balanced heard → ¬ (s.played 0 heard 0).Perm planned := by
  intro quick before s untouched
  have hcycle : s.cycle = 1 := by decide +kernel
  have hdue : ∀ t ∈ s.clock.live, ¬ t.due ≤ s.clock.now := by decide +kernel
  have huntouched : untouched.trace.attempts.length = 2 := by decide +kernel
  have hattempts : s.trace.attempts.length = 3 := by decide +kernel
  have hdone : ∀ item ∈ s.items, item.cycle = 0 → item.fate ≠ .pending := by decide +kernel
  have hkept : (s.kept 0 0).length = 3 := by decide +kernel
  have hwritable : ∀ item ∈ s.kept 0 0, item.event.value.isWritable = true := by decide +kernel
  have hfound : ∀ k < 2, (before.performance.query quick (k : Nat) none).toOption.isSome := by
    decide +kernel
  have hplan : (before.performance.plan quick 0 0.0 1.0 none).toOption.map (·.length) =
      some 2 := by decide +kernel
  obtain ⟨planned, hplanned, hlength⟩ := ok_of_toOption_map hplan
  clear_value s
  refine ⟨hcycle, hdue, fun k hk => ok_of_isSome (hfound k (by omega)), huntouched, hattempts,
    hdone, planned, hplanned, fun heard hheard hperm => ?_⟩
  have hall : s.played 0 heard 0 = (s.kept 0 0).map (·.booking) := by
    rw [played_eq hheard, List.filter_eq_self.mpr fun item hitem => ?_]
    rw [hwritable item hitem, Bool.or_true]
  have hcount := hperm.length_eq
  rw [hall, List.length_map, hkept, hlength] at hcount
  nomatch hcount

end Scheduler

end Ostinato
