import Ostinato.Proofs.Scheduler.Withdrawals

/-!
# Ostinato.Proofs.Scheduler.Unfinished

Starts and replacements that find no events.

Both commands change the scheduler before they ask the new pattern for its
events, and if it has none to give because it fails, they leave those changes
behind.  A start leaves a scheduler that runs, without a timer for the end of
its cycle; a replacement leaves the new pattern in place, and the old events
that were still ahead in the cycle cancelled.
-/

namespace Ostinato

namespace Scheduler

open Scheduling

/-- Nothing that a scheduler plays or waits for is other than before. -/
structure Untouched (s t : Scheduler) : Prop where
  run : t.run = s.run
  rate : t.rate = s.rate
  pendingRate : t.pendingRate = s.pendingRate
  pending : t.pendingItems = s.pendingItems
  live : t.clock.live = s.clock.live

/-- A start that cannot plan cycle zero fails as the planning does. -/
theorem outcome_start {s : Scheduler} (hstopped : s.isRunning = false) {v : Value} {node : Pattern}
    (hnode : (coerce v).outcome s = .ok node) {given : Option Value} {rate : Option Float}
    (hrate : given.mapM checkRate = .ok rate) {cause : Fault}
    (h : s.performance.plan node 0 s.clock.now (rate.getD s.rate) none = .error cause) :
    (start v given).outcome s = .error (.fault cause) := by
  have hread := alike_coerce v s
  have hstill : ((coerce v).after s).isRunning = false := by
    unfold isRunning
    rw [hread.run]
    exact hstopped
  have hbegun : Alike (((coerce v).after s).begun node rate) (s.begun node rate) :=
    congrArg (fun u : Scheduler => u.begun node rate)
      (show ((coerce v).after s).silent = s.silent from hread)
  have hplan := (congrArg₂ (fun perf rate => Performance.plan perf node 0 s.clock.now rate none)
    hbegun.performance hbegun.rate).trans h
  unfold start
  rw [outcome_bind hnode, hrate, orFault_ok, pure_bind, outcome_get_bind]
  simp only [hstill, Bool.false_eq_true, if_false, outcome_set_bind]
  exact outcome_bind_error (scheduleCycle_error hbegun.run hplan).1

/-! ## What a replacement leaves behind -/

/-- Another pattern leaves the pending events as they are. -/
theorem pendingItems_swapped (s : Scheduler) (node : Pattern) :
    (s.swapped node).pendingItems = s.pendingItems := by
  unfold pendingItems swapped
  cases s.run <;> rfl

/-- Withdrawing a pending event changes what is pending. -/
theorem pendingItems_withdraw_ne {s : Scheduler} {items : List Scheduled}
    (hitems : items.Sublist s.pendingItems) (hne : items ≠ []) :
    (s.withdraw items).pendingItems ≠ s.pendingItems := by
  obtain ⟨item, hitem⟩ := List.exists_mem_of_ne_nil items hne
  intro heq
  have hkept := hitems.subset hitem
  rw [← heq, pendingItems_withdraw, List.mem_filter] at hkept
  exact of_decide_eq_true hkept.2 (List.mem_map_of_mem hitem)

/-- Of the pending events those stay that are not ahead. -/
theorem pendingItems_withdraw_ahead {s : Scheduler} {heard : List Nat}
    (h : s.ledger.Balanced heard) (run : Run) (place : Rat) :
    (s.withdraw (s.ahead run place)).pendingItems =
      s.pendingItems.filter fun item => !isAhead run place item := by
  rw [pendingItems_withdraw]
  refine List.filter_congr fun item hitem => ?_
  have hahead : item.id ∈ (s.ahead run place).map (·.id) ↔ isAhead run place item = true := by
    rw [List.mem_map]
    constructor
    · rintro ⟨other, hother, hid⟩
      obtain ⟨hpending, hother⟩ := List.mem_filter.mp hother
      have hsame := h.eq_of_id (isOpen_of_mem_pendingItems h hpending).1
        (isOpen_of_mem_pendingItems h hitem).1 hid
      exact hsame ▸ hother
    · exact fun hother => ⟨item, List.mem_filter.mpr ⟨hitem, hother⟩, rfl⟩
  rw [decide_not, Bool.eq_iff_iff]
  simp [hahead]

/-- Swapping the pattern and cancelling what is ahead goes unnoticed only if
nothing is ahead and the pattern is the same. -/
theorem untouched_iff {s t : Scheduler} {run : Run} (hrun : s.run = some run) {place : Rat}
    {node : Pattern} (ht : Alike t ((s.withdraw (s.ahead run place)).swapped node)) :
    s.Untouched t ↔ s.ahead run place = [] ∧ node = run.pattern := by
  constructor
  · intro h
    have hnone : s.ahead run place = [] := by
      by_contra hne
      refine pendingItems_withdraw_ne (s.ahead_sublist run place) hne ?_
      rw [← pendingItems_swapped, ← ht.pendingItems]
      exact h.pending
    have hpattern := h.run
    rw [ht.run, run_swapped hrun, hrun, Option.some_inj] at hpattern
    exact ⟨hnone, congrArg Run.pattern hpattern⟩
  · rintro ⟨hnone, rfl⟩
    rw [hnone] at ht
    have hsame : (s.withdraw []).swapped run.pattern = s := by
      change { s with run := s.run.map _ } = s
      rw [hrun, Option.map_some, ← hrun]
    rw [hsame] at ht
    exact ⟨ht.run, ht.rate, ht.pendingRate, ht.pendingItems, congrArg Clock.live ht.clock⟩

/-- What a replacement keeps in any case: its place, its rates and its cycle. -/
theorem kept_of_withdraw {s t : Scheduler} {run : Run} (hrun : s.run = some run)
    {items : List Scheduled} (node : Pattern)
    (ht : Alike t (s.withdraw items) ∨ Alike t ((s.withdraw items).swapped node)) :
    t.rate = s.rate ∧ t.pendingRate = s.pendingRate ∧
      ∃ pattern pending, t.run = some { run with pattern := pattern, pending := pending } := by
  have hwithdrawn := s.withdraw_eq items
  rcases ht with ht | ht
  · refine ⟨?_, ?_, run.pattern, (run.without (items.map (·.id))).pending, ?_⟩
    · rw [ht.rate, hwithdrawn]
    · rw [ht.pendingRate, hwithdrawn]
    · rw [ht.run, hwithdrawn, hrun]
      rfl
  · refine ⟨?_, ?_, node, (run.without (items.map (·.id))).pending, ?_⟩
    · rw [ht.rate, hwithdrawn]
      rfl
    · rw [ht.pendingRate, hwithdrawn]
      rfl
    · rw [ht.run, run_swapped hrun]
      rfl

/-! ## Commands that fail halfway -/

/-- A start whose pattern has no cycle zero leaves a scheduler that runs. -/
theorem start_unfinished {s : Scheduler} (hstopped : s.isRunning = false) {v : Value}
    {node : Pattern} (hnode : (coerce v).outcome s = .ok node) {given : Option Value}
    {accepted : Option Float} (haccepted : given.mapM checkRate = .ok accepted) {cause : Fault}
    (hquery : s.performance.query node 0 none = .error cause) :
    (start v given).outcome s = .error (.fault cause) ∧
      Alike ((start v given).after s) (s.begun node accepted) ∧
      ¬ s.Untouched ((start v given).after s) := by
  have hplan : s.performance.plan node 0 s.clock.now (accepted.getD s.rate) none = .error cause :=
    Performance.plan_eq_error_iff.mpr hquery
  have halike := start_error hstopped hnode haccepted hplan
  refine ⟨outcome_start hstopped hnode haccepted hplan, halike, fun huntouched => ?_⟩
  have hrun := huntouched.run
  rw [halike.run] at hrun
  rw [isRunning_of_run hrun.symm] at hstopped
  nomatch hstopped

/-- A replacement whose pattern fails in the present cycle leaves that pattern
in place and what was ahead cancelled, unless an event that cannot be written
ends it before. -/
theorem replace_unfinished {s : Scheduler} {heard : List Nat} (h : s.ledger.Balanced heard)
    {run : Run} (hrun : s.run = some run) {v : Value} {node : Pattern}
    (hnode : (coerce v).outcome s = .ok node) {place : Rat} (hplace : s.elapsed run = .ok place)
    {cause : Fault} (hquery : s.performance.query node run.cycleIndex none = .error cause) :
    let t := (replace v).after s
    (s.Untouched t ↔ s.ahead run place = [] ∧ node = run.pattern) ∧
    (t.rate = s.rate ∧ t.pendingRate = s.pendingRate ∧
      ∃ pattern pending, t.run = some { run with pattern := pattern, pending := pending }) ∧
    ((∀ item ∈ s.ahead run place, item.event.value.isWritable = true) →
      (replace v).outcome s = .error (.fault cause) ∧ t.run.map (·.pattern) = some node ∧
      (t.pendingItems = s.pendingItems.filter fun item => !isAhead run place item) ∧
      t.clock.live = s.clock.live.filter (·.id ∉ (s.ahead run place).map (·.timer))) ∧
    ((∃ item ∈ s.ahead run place, item.event.value.isWritable = false) →
      (replace v).outcome s = .error (.fault .unwritable)) := by
  intro t
  have hplan : s.performance.plan node run.cycleIndex run.cycleStart s.rate (some place) =
      .error cause := Performance.plan_eq_error_iff.mpr hquery
  rcases after_replace h hrun hnode hplace with
    ⟨⟨item, hitem, hlong⟩, first, hfirst, hne, hfailed, halike⟩ |
    ⟨hall, ⟨cause', hplan', hfailed, halike⟩ | ⟨bookings, hplan', -⟩⟩
  · have hahead : s.ahead run place ≠ [] := List.ne_nil_of_mem hitem
    refine ⟨⟨fun huntouched => ?_, fun hnone => absurd hnone.1 hahead⟩,
      kept_of_withdraw hrun node (.inl halike), fun hwritable => ?_, fun _ => hfailed⟩
    · refine absurd ?_
        (pendingItems_withdraw_ne (hfirst.sublist.trans (s.ahead_sublist run place)) hne)
      rw [← halike.pendingItems]
      exact huntouched.pending
    · rw [hwritable item hitem] at hlong
      nomatch hlong
  · have hcause : cause' = cause := Except.error.inj (hplan'.symm.trans hplan)
    refine ⟨untouched_iff hrun halike, kept_of_withdraw hrun node (.inr halike),
      fun _ => ⟨hcause ▸ hfailed, ?_, ?_, ?_⟩, fun hlong => ?_⟩
    · rw [halike.run, run_swapped hrun]
      rfl
    · rw [halike.pendingItems, pendingItems_swapped, pendingItems_withdraw_ahead h]
    · rw [halike.clock]
      exact s.live_withdraw (s.ahead run place)
    · obtain ⟨item, hitem, hlong⟩ := hlong
      rw [hall item hitem] at hlong
      nomatch hlong
  · rw [hplan] at hplan'
    nomatch hplan'

/-- **Unfinished commands**: where the new pattern's query fails, a start leaves
the scheduler at the beginning of cycle zero, and a replacement leaves the new
pattern in place of the old one, whose events ahead are cancelled with their
timers.  So a start never leaves a stopped scheduler as it was, and a
replacement does only if nothing was ahead and the pattern is the same; place,
rates and cycle are kept.  An old event that cannot be written ends a
replacement before that. -/
theorem unfinished (perf : Performance) (policy : Policy) (sounder : Sounder)
    (listener : Option Listener) (rate now : Float) (os : List Occurrence) {v : Value}
    {node : Pattern} {cause : Fault} :
    let s := afterAll os (initial perf policy sounder listener rate now)
    (coerce v).outcome s = .ok node →
    (∀ given accepted, s.isRunning = false → given.mapM checkRate = .ok accepted →
      s.performance.query node 0 none = .error cause →
      (start v given).outcome s = .error (.fault cause) ∧
        Alike ((start v given).after s) (s.begun node accepted) ∧
        ¬ s.Untouched ((start v given).after s)) ∧
    ∀ run place, s.run = some run → s.elapsed run = .ok place →
      s.performance.query node run.cycleIndex none = .error cause →
      let t := (replace v).after s
      (s.Untouched t ↔ s.ahead run place = [] ∧ node = run.pattern) ∧
      (t.rate = s.rate ∧ t.pendingRate = s.pendingRate ∧
        ∃ pattern pending, t.run = some { run with pattern := pattern, pending := pending }) ∧
      ((∀ item ∈ s.ahead run place, item.event.value.isWritable = true) →
        (replace v).outcome s = .error (.fault cause) ∧ t.run.map (·.pattern) = some node ∧
        (t.pendingItems = s.pendingItems.filter fun item => !isAhead run place item) ∧
        t.clock.live = s.clock.live.filter (·.id ∉ (s.ahead run place).map (·.timer))) ∧
      ((∃ item ∈ s.ahead run place, item.event.value.isWritable = false) →
        (replace v).outcome s = .error (.fault .unwritable)) := by
  intro s hnode
  obtain ⟨heard, hbalanced⟩ := balanced_afterAll perf policy sounder listener rate now os
  constructor
  · intro given accepted hstopped haccepted hquery
    exact start_unfinished hstopped hnode haccepted hquery
  · intro run place hrun hplace hquery
    exact replace_unfinished hbalanced hrun hnode hplace hquery

/-- A pattern with a child that is none leaves a new scheduler running with no
timer, and cancels the second of two notes that it was to replace. -/
theorem unfinished_stray :
    let notes := Pattern.sequence [.leaf (.text "a"), .leaf (.text "b")]
    let broken := Pattern.sequence [.stray (.int 5)]
    let before := initial .default Policy.roundRobin ⟨none, fun _ _ => .sounded⟩ none 1.0 0.0
    let s := afterAll [.start (.pattern notes) none] before
    (((start (.pattern broken) none).after before).isRunning = true ∧
      ((start (.pattern broken) none).after before).clock.live = []) ∧
    (replace (.pattern broken)).outcome s = .error (.fault (.notAPattern "5")) ∧
      ((replace (.pattern broken)).after s).run.map (·.pattern) = some broken ∧
      ((replace (.pattern broken)).after s).pendingItems.map (·.id) = [0] := by
  intro notes broken before s
  have hzero : fault? (before.performance.query broken 0 none) = some (.notAPattern "5") := by
    decide +kernel
  have hnow : s.run.map (fun run => ((s.elapsed run).toOption.map fun place =>
      (fault? (s.performance.query broken run.cycleIndex none),
        (s.ahead run place).all (·.event.value.isWritable),
        (s.pendingItems.filter fun item => !isAhead run place item).map (·.id)))) =
      some (some (some (.notAPattern "5"), true, [0])) := by
    decide +kernel
  obtain ⟨run, hrun, hnow⟩ := Option.map_eq_some_iff.mp hnow
  obtain ⟨place, hplace, hnow⟩ := ok_of_toOption_map hnow
  obtain ⟨hquery, hrest⟩ := Prod.mk.inj hnow
  obtain ⟨hwritable, hpending⟩ := Prod.mk.inj hrest
  constructor
  · have halike : Alike ((start (.pattern broken) none).after before) (before.begun broken none) :=
      ((unfinished .default Policy.roundRobin ⟨none, fun _ _ => .sounded⟩ none 1.0 0.0
        [] (v := .pattern broken) rfl).1 none none rfl rfl (fault?_eq_some.mp hzero)).2.1
    rw [halike.clock]
    unfold isRunning
    rw [halike.run]
    exact ⟨rfl, rfl⟩
  · obtain ⟨hfailed, hpattern, hkept, -⟩ := ((unfinished .default Policy.roundRobin
      ⟨none, fun _ _ => .sounded⟩ none 1.0 0.0 [.start (.pattern notes) none]
      (v := .pattern broken) rfl).2 run place hrun hplace (fault?_eq_some.mp hquery)).2.2.1
        (List.all_eq_true.mp hwritable)
    exact ⟨hfailed, hpattern, hkept ▸ hpending⟩

/-- A start of a pattern that cannot be played fails, and what was stopped runs;
a replacement by it fails, and the notes that were to be played are lost. -/
theorem touched_by_stray :
    let notes := Pattern.sequence [.leaf (.text "a"), .leaf (.text "b")]
    let broken := Pattern.sequence [.stray (.int 5)]
    let before := initial .default Policy.roundRobin ⟨none, fun _ _ => .sounded⟩ none 1.0 0.0
    let s := (start (.pattern notes) none).after before
    (before.isRunning = false ∧
      (start (.pattern broken) none).outcome before = .error (.fault (.notAPattern "5")) ∧
      ¬ before.Untouched ((start (.pattern broken) none).after before)) ∧
    s.isRunning = true ∧
      (replace (.pattern broken)).outcome s = .error (.fault (.notAPattern "5")) ∧
      ¬ s.Untouched ((replace (.pattern broken)).after s) := by
  intro notes broken before s
  have hzero : fault? (before.performance.query broken 0 none) = some (.notAPattern "5") := by
    decide +kernel
  have haccepted : (none : Option Value).mapM checkRate = .ok none := rfl
  have hstart := start_unfinished (s := before) rfl (v := .pattern broken) rfl haccepted
    (fault?_eq_some.mp hzero)
  have hbefore : s.pendingItems.length = 2 := by decide +kernel
  have hafter : ((replace (.pattern broken)).after s).pendingItems.length = 1 := by decide +kernel
  have hreplace : fault? ((replace (.pattern broken)).outcome s) =
      some (.fault (.notAPattern "5")) := by
    decide +kernel
  refine ⟨⟨rfl, hstart.1, hstart.2.2⟩, by decide +kernel, fault?_eq_some.mp hreplace, fun h => ?_⟩
  rw [h.pending, hbefore] at hafter
  nomatch hafter

end Scheduler

end Ostinato
