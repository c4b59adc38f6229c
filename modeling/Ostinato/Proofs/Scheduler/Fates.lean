import Ostinato.Proofs.Scheduler.Books

/-!
# Ostinato.Proofs.Scheduler.Fates

What becomes of every scheduled event.

Whatever happens to a scheduler, and however often and late its timers go off,
each event is pending, sounded once, or cancelled and never sounded; its fate
is settled once and for all.  There is one exception: an event whose value
cannot be written is given up when it is fired.  It is settled as sounded, but
the sounder is never asked for it.
-/

namespace Ostinato

namespace Ledger

/-- The fate of an event shows in the books: a pending event is still to be
sounded, a sounded one was asked for once, and a cancelled one never. -/
def Accounted (l : Ledger) (heard : List Nat) (item : Scheduled) : Prop :=
  match item.fate with
  | .pending => item.id ∈ l.pending ∧ item.id ∉ heard
  | .sounded => item.id ∉ l.pending ∧ heard.count item.id = 1
  | .cancelled => item.id ∉ l.pending ∧ item.id ∉ heard

/-- In books that balance, the fate of an event shows unless the event was
fired and could not be written. -/
theorem Balanced.accounted_iff {l : Ledger} {heard : List Nat} (h : l.Balanced heard)
    {item : Scheduled} (hmem : item ∈ l.items) :
    l.Accounted heard item ↔ (item.fate = .sounded → item.event.value.isWritable = true) := by
  have hpending := h.mem_pending hmem
  have hheard := h.mem_heard item hmem
  unfold Accounted
  cases hfate : item.fate with
  | pending => simp [hpending, hheard, hfate]
  | cancelled => simp [hpending, hheard, hfate]
  | sounded =>
      simp only [hpending, hfate, reduceCtorEq, not_false_eq_true, true_and, forall_const]
      rw [hfate] at hheard
      constructor
      · intro hcount
        have hmem : item.id ∈ heard := List.count_pos_iff.mp (by omega)
        exact (hheard.mp hmem).2
      · intro hwritable
        exact List.count_eq_one_of_mem h.nodup (hheard.mpr ⟨rfl, hwritable⟩)

/-- An event that was given up is neither pending nor was it asked for. -/
theorem Balanced.given_up {l : Ledger} {heard : List Nat} (h : l.Balanced heard)
    {item : Scheduled} (hmem : item ∈ l.items) (hfate : item.fate = .sounded)
    (hwritable : item.event.value.isWritable = false) :
    item.id ∉ l.pending ∧ item.id ∉ heard := by
  rw [h.mem_pending hmem, h.mem_heard item hmem, hfate, hwritable]
  simp

end Ledger

namespace Scheduler

/-- **Fates**: however a run goes, no two events have the same number, the
sounder is asked at most once for each, and the fate of each shows in the books
unless the event was fired and could not be written; one that could not is
never asked for.  Whatever happens later, settled fates stay, and the calls of
the sounder so far remain those for the same events. -/
theorem fates_accounted (perf : Performance) (policy : Policy) (sounder : Sounder)
    (listener : Option Listener) (rate now : Float) (past : List Occurrence) :
    let s := afterAll past (initial perf policy sounder listener rate now)
    (s.items.map (·.id)).Nodup ∧ ∃ heard, s.ledger.Balanced heard ∧
      (∀ item ∈ s.items, s.ledger.Accounted heard item ↔
        (item.fate = .sounded → item.event.value.isWritable = true)) ∧
      (∀ item ∈ s.items, item.fate = .sounded → item.event.value.isWritable = false →
        item.id ∉ s.ledger.pending ∧ item.id ∉ heard) ∧
      (∀ id ∈ s.ledger.pending, ∃ item ∈ s.items, item.id = id ∧ item.fate = .pending) ∧
      ∀ future : List Occurrence,
        (∀ item ∈ s.items, item.fate ≠ .pending → item ∈ (afterAll future s).items) ∧
        ∃ more, (afterAll future s).ledger.Balanced (heard ++ more) := by
  intro s
  obtain ⟨heard, hheard⟩ :=
    balanced_afterAll perf policy sounder listener rate now past
  refine ⟨hheard.nodup_ids, heard, hheard, fun item hmem => hheard.accounted_iff hmem,
    fun item hmem => hheard.given_up hmem, ?_, fun future => ?_⟩
  · intro id hid
    rw [hheard.pending, List.mem_map] at hid
    obtain ⟨item, hitem, hitemid⟩ := hid
    rw [List.mem_filter, beq_iff_eq] at hitem
    exact ⟨item, hitem.1, hitemid, hitem.2⟩
  · have hsteps := moves_afterAll future s heard hheard
    exact ⟨fun item hmem hfate => hheard.settled hsteps hmem hfate, hheard.steps hsteps⟩

/-- A product too long to be written: its event is fired, is no longer pending,
and was not sounded. -/
theorem unaccounted_product :
    let product := Pattern.operation (.leaf (.number (.int (10 ^ 2200)))) "*"
      (.number (.ratio (10 ^ 2200)))
    let s := afterAll [.start (.pattern product) none, .ring 0]
      (initial .default Policy.roundRobin ⟨none, fun _ _ => .sounded⟩ none 1.0 0.0)
    s.ledger.pending = [] ∧ s.trace.attempts.length = 0 ∧
      ∃ item ∈ s.items, item.fate = .sounded ∧
        ∀ heard, s.ledger.Balanced heard → ¬ s.ledger.Accounted heard item := by
  intro product s
  have hpending : s.ledger.pending = [] := by decide +kernel
  have hattempts : s.trace.attempts.length = 0 := by decide +kernel
  have hfired : s.items.any fun item =>
      item.fate == .sounded && !item.event.value.isWritable := by decide +kernel
  clear_value s
  refine ⟨hpending, hattempts, ?_⟩
  rw [List.any_eq_true] at hfired
  obtain ⟨item, hmem, hitem⟩ := hfired
  rw [Bool.and_eq_true, beq_iff_eq, Bool.not_eq_true'] at hitem
  refine ⟨item, hmem, hitem.1, fun heard hheard haccounted => ?_⟩
  have hwritable := (hheard.accounted_iff hmem).mp haccounted hitem.1
  rw [hitem.2] at hwritable
  nomatch hwritable

end Scheduler

end Ostinato
