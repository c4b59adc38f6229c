import Mathlib.Data.List.Perm.Subperm
import Ostinato.Proofs.Scheduler.Planned
import Ostinato.Proofs.Scheduler.Withdrawals

/-!
# Ostinato.Proofs.Scheduler.Tally

What was kept of a plan.

Of the events that were booked for a cycle, those are kept that were not
cancelled.  They tally with the plan of the cycle (`Tally`) if none of it is
missing, and if it is all there is unless an event was repeated.  Firing keeps
the tally (`Tally.fired`); cancelling what is ahead and booking it again keeps it
too, and repeats what was fired already of what is ahead (`Tally.swapped`).
-/

namespace Ostinato

namespace Booking

/-- Whether an event begins after a place in its cycle. -/
def isAfter (place : Rat) (b : Booking) : Bool := decide (place < b.event.active.start)

/-- Whether an event begins at a place in its cycle. -/
def isAt (place : Rat) (b : Booking) : Bool := decide (b.event.active.start = place)

end Booking

/-- Mapping what passes a test that the results tell of. -/
theorem mapM_filter {α β : Type} {f : α → Except Fault β} {q : α → Bool} {q' : β → Bool}
    (hq : ∀ a b, f a = .ok b → q' b = q a) {as : List α} {bs : List β}
    (h : as.mapM f = .ok bs) : (as.filter q).mapM f = .ok (bs.filter q') := by
  induction as generalizing bs with
  | nil =>
      have hnil : [] = bs := Except.ok.inj h
      rw [← hnil]
      rfl
  | cons a as ih =>
      rw [List.mapM_cons] at h
      obtain ⟨b, hb, hrest⟩ := bind_ok h
      obtain ⟨bs', hbs', hcons⟩ := bind_ok hrest
      rw [← Except.ok.inj hcons, List.filter_cons, List.filter_cons, hq a b hb]
      cases q a with
      | false => exact ih hbs'
      | true =>
          simp only [if_true]
          rw [List.mapM_cons, hb, ih hbs']
          rfl

/-- The plan for the rest of a cycle is the rest of its plan. -/
theorem Performance.plan_after {perf : Performance} {p : Pattern} {cycle : Int}
    {cycleStart rate : Float} {planned : List Booking}
    (h : perf.plan p cycle cycleStart rate none = .ok planned) (place : Rat) :
    perf.plan p cycle cycleStart rate (some place) = .ok (planned.filter (·.isAfter place)) := by
  obtain ⟨events, hevents, hmapped⟩ := bind_ok h
  have hrest : Scheduler.dueEvents events (some place) =
      (Scheduler.dueEvents events none).filter fun e => decide (place < e.active.start) := by
    unfold Scheduler.dueEvents
    rw [List.filter_filter]
    refine List.filter_congr fun e _ => ?_
    simp [Bool.and_comm]
  have hbooked : (Scheduler.dueEvents events (some place)).mapM
      (Booking.of cycle cycleStart rate) = .ok (planned.filter (·.isAfter place)) := by
    rw [hrest]
    refine mapM_filter (fun e b hb => ?_) hmapped
    unfold Booking.isAfter
    rw [(Booking.event_of hb).1]
  unfold plan
  rw [hevents]
  exact hbooked

/-! ## Tallies -/

/-- Events that were kept of a plan: none of it is missing, and they are just the
plan unless an event was repeated.  If one was, there are more events at its
place than planned, one of which was fired. -/
structure Tally (planned : List Booking) (repeated : Prop) (kept : List Scheduled) : Prop where
  among : ∀ item ∈ kept, item.booking ∈ planned
  complete : planned.Subperm (kept.map (·.booking))
  once : ¬ repeated → (kept.map (·.booking)).Perm planned
  twice : repeated → ∃ item ∈ kept, item.fate = .sounded ∧
    planned.countP (·.isAt item.event.active.start) <
      kept.countP (·.booking.isAt item.event.active.start)

namespace Tally

variable {planned : List Booking} {repeated : Prop} {kept : List Scheduled}

/-- What was kept is the plan if and only if no event was repeated. -/
theorem perm_iff (h : Tally planned repeated kept) :
    (kept.map (·.booking)).Perm planned ↔ ¬ repeated := by
  refine ⟨fun hperm hrepeated => ?_, h.once⟩
  obtain ⟨item, -, -, hmore⟩ := h.twice hrepeated
  have hsame := hperm.countP_eq (·.isAt item.event.active.start)
  rw [List.countP_map] at hsame
  exact absurd hsame (Nat.ne_of_gt hmore)

/-- What is just the plan tallies with it. -/
theorem of_perm (h : (kept.map (·.booking)).Perm planned) (hnone : ¬ repeated) :
    Tally planned repeated kept where
  among := fun _ hitem => h.subset (List.mem_map_of_mem hitem)
  complete := h.symm.subperm
  once := fun _ => h
  twice := fun hrepeated => absurd hrepeated hnone

/-- An event is fired. -/
theorem fired (h : Tally planned repeated kept) (id : Nat) :
    Tally planned repeated (kept.map (·.fated id .sounded)) := by
  have hbookings : (kept.map (·.fated id .sounded)).map (·.booking) = kept.map (·.booking) := by
    rw [List.map_map]
    exact List.map_congr_left fun item _ => Scheduled.booking_fated id .sounded item
  constructor
  · intro item hitem
    obtain ⟨x, hx, rfl⟩ := List.mem_map.mp hitem
    rw [Scheduled.booking_fated]
    exact h.among x hx
  · rw [hbookings]
    exact h.complete
  · rw [hbookings]
    exact h.once
  · intro hrepeated
    obtain ⟨item, hitem, hfate, hmore⟩ := h.twice hrepeated
    refine ⟨_, List.mem_map_of_mem hitem, ?_, ?_⟩
    · by_cases hid : item.id = id
      · exact Ledger.fate_fated hid
      · rw [Ledger.fated_of_ne hid, hfate]
    · rw [Scheduled.event_fated, List.countP_map]
      simpa [Function.comp_def] using hmore

/-- The kept events once those that are ahead of a place and pending were
cancelled. -/
def behind (place : Rat) (kept : List Scheduled) : List Scheduled :=
  kept.filter fun item => !(item.fate == .pending && item.booking.isAfter place)

/-- An event that was fired ahead of a place is there twice if what is ahead of
the place is booked again. -/
theorem twice_of_fired {place : Rat} {booked : List Scheduled}
    (hbooked : booked.map (·.booking) = planned.filter (·.isAfter place)) {item : Scheduled}
    (hitem : item ∈ kept) (hfate : item.fate = .sounded)
    (hplace : place < item.event.active.start) :
    item ∈ behind place kept ++ booked ∧ planned.countP (·.isAt item.event.active.start) <
      (behind place kept ++ booked).countP (·.booking.isAt item.event.active.start) := by
  have hmem : item ∈ behind place kept := List.mem_filter.mpr ⟨hitem, by simp [hfate]⟩
  have hstays : 0 < (behind place kept).countP (·.booking.isAt item.event.active.start) :=
    List.countP_pos_iff.mpr ⟨item, hmem, by simp [Booking.isAt, Scheduled.booking]⟩
  have hagain : booked.countP (·.booking.isAt item.event.active.start) =
      planned.countP (·.isAt item.event.active.start) := by
    have hmap := List.countP_map (p := (·.isAt item.event.active.start)) (f := (·.booking))
      (l := booked)
    rw [hbooked, List.countP_filter] at hmap
    refine hmap.symm.trans (List.countP_congr fun b _ => ?_)
    simp only [Booking.isAt, Booking.isAfter, Bool.and_eq_true, decide_eq_true_eq]
    exact ⟨fun h => h.1, fun h => ⟨h, h ▸ hplace⟩⟩
  refine ⟨List.mem_append_left _ hmem, ?_⟩
  rw [List.countP_append, hagain]
  omega

/-- What is ahead of a place and pending is cancelled, and what was planned ahead
of it is booked anew: what was fired ahead of it is repeated. -/
theorem swapped (h : Tally planned repeated kept) {place : Rat} {booked : List Scheduled}
    (hbooked : booked.map (·.booking) = planned.filter (·.isAfter place))
    (hfates : ∀ item ∈ kept, item.fate = .pending ∨ item.fate = .sounded) :
    Tally planned (repeated ∨ ∃ item ∈ kept, item.fate = .sounded ∧
      place < item.event.active.start) (behind place kept ++ booked) := by
  have hsplit : (planned.filter (fun b => !b.isAfter place) ++
      planned.filter (·.isAfter place)).Perm planned :=
    List.perm_append_comm.trans (List.filter_append_perm (·.isAfter place) planned)
  have hearly : (kept.map (·.booking)).filter (fun b => !b.isAfter place) =
      (kept.filter fun item => !item.booking.isAfter place).map (·.booking) := List.filter_map ..
  refine ⟨fun item hitem => ?_, ?_, fun hnone => ?_, fun hsome => ?_⟩
  · rw [List.mem_append] at hitem
    cases hitem with
    | inl hold => exact h.among item (List.mem_of_mem_filter hold)
    | inr hnew =>
        have hplanned : item.booking ∈ booked.map (·.booking) := List.mem_map_of_mem hnew
        rw [hbooked] at hplanned
        exact List.mem_of_mem_filter hplanned
  · have hstay : (kept.filter fun item => !item.booking.isAfter place).Sublist
        (behind place kept) :=
      List.monotone_filter_right kept fun item hitem => by
        rw [Bool.not_eq_true'] at hitem
        rw [hitem, Bool.and_false, Bool.not_false]
    have hearlier := (h.complete.filter (fun b => !b.isAfter place))
    rw [hearly] at hearlier
    rw [List.map_append, hbooked]
    exact hsplit.symm.subperm.trans
      ((hearlier.trans (hstay.map _).subperm).append (List.Subperm.refl _))
  · rw [not_or] at hnone
    have hbehind : behind place kept = kept.filter fun item => !item.booking.isAfter place := by
      refine List.filter_congr fun item hitem => ?_
      cases hfates item hitem with
      | inl hpending => simp [hpending]
      | inr hfired =>
          have hplace : ¬ place < item.event.active.start :=
            fun hplace => hnone.2 ⟨item, hitem, hfired, hplace⟩
          simp [hfired, Booking.isAfter, Scheduled.booking, hplace]
    rw [List.map_append, hbooked, hbehind, ← hearly]
    exact ((h.once hnone.1).filter _).append_right _ |>.trans hsplit
  · rcases hsome with hrepeated | ⟨item, hitem, hfate, hplace⟩
    · obtain ⟨item, hitem, hfate, hmore⟩ := h.twice hrepeated
      by_cases hplace : place < item.event.active.start
      · obtain ⟨hmem, htwice⟩ := twice_of_fired hbooked hitem hfate hplace
        exact ⟨item, hmem, hfate, htwice⟩
      · -- what is not ahead stays as it is
        have hsame : (behind place kept).countP (·.booking.isAt item.event.active.start) =
            kept.countP (·.booking.isAt item.event.active.start) := by
          unfold behind
          rw [List.countP_filter]
          refine List.countP_congr fun x _ => ?_
          simp only [Booking.isAt, Booking.isAfter, Bool.and_eq_true, decide_eq_true_eq]
          refine ⟨fun h => h.1, fun hat => ⟨hat, ?_⟩⟩
          simp [hat, hplace]
        refine ⟨item, List.mem_append_left _ (List.mem_filter.mpr ⟨hitem, by simp [hfate]⟩), hfate,
          ?_⟩
        rw [List.countP_append, hsame]
        omega
    · obtain ⟨hmem, htwice⟩ := twice_of_fired hbooked hitem hfate hplace
      exact ⟨item, hmem, hfate, htwice⟩

end Tally

/-! ## Kept events -/

/-- Whether an event is of a cycle and was not cancelled. -/
def Scheduled.isKept (k : Int) (item : Scheduled) : Bool :=
  item.cycle == k && item.fate != .cancelled

namespace Scheduler

/-- The events of a cycle, after the first `n`, that were not cancelled. -/
def kept (s : Scheduler) (n : Nat) (k : Int) : List Scheduled :=
  (s.items.drop n).filter (·.isKept k)

variable {s : Scheduler} {n : Nat} {k : Int}

/-- An event was kept if it is of the cycle and was not cancelled. -/
theorem mem_kept {item : Scheduled} : item ∈ s.kept n k ↔
    item ∈ s.items.drop n ∧ item.cycle = k ∧ item.fate ≠ .cancelled := by
  unfold kept Scheduled.isKept
  rw [List.mem_filter]
  simp

theorem mem_items_of_kept {item : Scheduled} (h : item ∈ s.kept n k) : item ∈ s.items :=
  List.mem_of_mem_drop (mem_kept.mp h).1

/-- An event that was kept is pending or was fired. -/
theorem fate_of_kept {item : Scheduled} (h : item ∈ s.kept n k) :
    item.fate = .pending ∨ item.fate = .sounded := by
  have hkept := (mem_kept.mp h).2.2
  cases hfate : item.fate with
  | pending => exact .inl rfl
  | sounded => exact .inr rfl
  | cancelled => exact absurd hfate hkept

/-- An event that is fired is kept. -/
theorem kept_fired {heard : List Nat} (h : s.ledger.Balanced heard) {id : Nat}
    (hopen : s.isOpen id = true) (n : Nat) (k : Int) :
    (s.settle id .sounded).kept n k = (s.kept n k).map (·.fated id .sounded) := by
  obtain ⟨fired, hfired, hpending⟩ := isOpen_eq_true.mp hopen
  change ((s.items.map (·.fated id .sounded)).drop n).filter _ = _
  rw [← List.map_drop, List.filter_map]
  refine congrArg (List.map _) (List.filter_congr fun item hitem => ?_)
  rw [Function.comp_apply]
  by_cases hid : item.id = id
  · have hsame : item = fired := h.eq_of_id (List.mem_of_mem_drop hitem) (mem_of_item? hfired)
      (hid.trans (id_of_item? hfired).symm)
    unfold Scheduled.isKept Scheduled.fated
    rw [if_pos hid, hsame, hpending]
    rfl
  · rw [Ledger.fated_of_ne hid]

/-- An event that is cancelled is not kept. -/
theorem kept_cancelled (s : Scheduler) (item : Scheduled) (n : Nat) (k : Int) :
    (s.cancelled item).kept n k = (s.kept n k).filter (·.id != item.id) := by
  have htest : (·.isKept k) ∘ (fun x : Scheduled => x.fated item.id .cancelled) =
      fun x : Scheduled => x.id != item.id && x.isKept k := by
    funext x
    rw [Function.comp_apply]
    by_cases hid : x.id = item.id
    · simp [Scheduled.isKept, Ledger.fate_fated hid, hid]
    · simp [Ledger.fated_of_ne hid, hid]
  change ((s.items.map (·.fated item.id .cancelled)).drop n).filter _ = _
  unfold kept
  rw [← List.map_drop, List.filter_map, htest, List.filter_filter]
  refine (List.map_congr_left fun x hx => ?_).trans (List.map_id _)
  have hne := (Bool.and_eq_true_iff.mp (List.mem_filter.mp hx).2).1
  exact Ledger.fated_of_ne (by simpa using hne)

/-- Of the kept events those stay that are not withdrawn. -/
theorem kept_withdraw (s : Scheduler) (items : List Scheduled) (n : Nat) (k : Int) :
    (s.withdraw items).kept n k = (s.kept n k).filter (·.id ∉ items.map (·.id)) := by
  induction items generalizing s with
  | nil => simp [withdraw]
  | cons item items ih =>
      change ((s.cancelled item).withdraw items).kept n k = _
      rw [ih, kept_cancelled]
      exact filter_filter_ne Scheduled.id _ _ _

/-- Events of other cycles can be withdrawn. -/
theorem kept_withdraw_of_ne {heard : List Nat} (h : s.ledger.Balanced heard)
    {items : List Scheduled} (hitems : ∀ item ∈ items, item ∈ s.items ∧ item.cycle ≠ k) :
    (s.withdraw items).kept n k = s.kept n k := by
  rw [kept_withdraw, List.filter_eq_self]
  intro x hx
  rw [decide_eq_true_eq, List.mem_map]
  rintro ⟨item, hitem, hid⟩
  obtain ⟨hmem, hcycle⟩ := hitems item hitem
  rw [h.eq_of_id hmem (mem_items_of_kept hx) hid] at hcycle
  exact hcycle (mem_kept.mp hx).2.1

/-- What is ahead is of no cycle before. -/
theorem le_of_ahead {run : Run} {place : Rat} {item : Scheduled} (h : item ∈ s.ahead run place) :
    run.cycleIndex ≤ item.cycle := by
  have hahead := (List.mem_filter.mp h).2
  unfold isAhead at hahead
  simp only [Bool.or_eq_true, Bool.and_eq_true, decide_eq_true_eq, beq_iff_eq] at hahead
  omega

/-- Of the present cycle those events stay that are not ahead or not pending. -/
theorem kept_withdraw_ahead {heard : List Nat} (h : s.ledger.Balanced heard) (run : Run)
    (place : Rat) (n : Nat) : (s.withdraw (s.ahead run place)).kept n run.cycleIndex =
      Tally.behind place (s.kept n run.cycleIndex) := by
  rw [kept_withdraw]
  refine List.filter_congr fun item hitem => ?_
  have hmem := mem_items_of_kept hitem
  have hcycle := (mem_kept.mp hitem).2.1
  have hahead : item.id ∈ (s.ahead run place).map (·.id) ↔
      item.fate = .pending ∧ item.booking.isAfter place = true := by
    have hwhere : isAhead run place item = item.booking.isAfter place := by
      unfold isAhead
      simp [hcycle, Booking.isAfter, Scheduled.booking]
    rw [← mem_pendingItems_iff h hmem, ← hwhere, List.mem_map]
    constructor
    · rintro ⟨other, hother, hid⟩
      obtain ⟨hpending, hother⟩ := List.mem_filter.mp hother
      have hsame := h.eq_of_id (isOpen_of_mem_pendingItems h hpending).1 hmem hid
      exact hsame ▸ ⟨hpending, hother⟩
    · exact fun hboth => ⟨item, List.mem_filter.mpr hboth, rfl⟩
  rw [Bool.eq_iff_iff, decide_eq_true_eq, hahead]
  simp [imp_iff_not_or]

/-- Booked events are kept, each in its cycle. -/
theorem kept_bookAll (hn : n ≤ s.items.length) {bookings : List Booking} {c : Int}
    (hcycle : ∀ b ∈ bookings, b.cycle = c) :
    (∃ booked, booked.map (·.booking) = bookings ∧
      (s.bookAll bookings).kept n c = s.kept n c ++ booked) ∧
      ∀ k ≠ c, (s.bookAll bookings).kept n k = s.kept n k := by
  obtain ⟨items, hitems, hbookings, hpending⟩ := items_bookAll s bookings
  have hitemsCycle : ∀ item ∈ items, item.cycle = c := fun item hitem =>
    hcycle item.booking (hbookings ▸ List.mem_map_of_mem hitem)
  have hkept : ∀ k, (s.bookAll bookings).kept n k =
      s.kept n k ++ items.filter (·.isKept k) := by
    intro k
    unfold kept
    rw [hitems, List.drop_append_of_le_length hn, List.filter_append]
  refine ⟨⟨items, hbookings, ?_⟩, fun k hk => ?_⟩
  · rw [hkept, List.filter_eq_self.mpr fun item hitem => ?_]
    simp [Scheduled.isKept, hitemsCycle item hitem, hpending item hitem]
  · rw [hkept, List.filter_eq_nil_iff.mpr fun item hitem => ?_, List.append_nil]
    simp [Scheduled.isKept, hitemsCycle item hitem, Ne.symm hk]

/-- What is played of a cycle are the kept events, as far as they could be
written. -/
theorem played_eq {heard : List Nat} (h : s.ledger.Balanced heard) (n : Nat) (k : Int) :
    s.played n heard k = ((s.kept n k).filter fun item =>
      item.fate == .pending || item.event.value.isWritable).map (·.booking) := by
  unfold played kept
  rw [List.filter_filter]
  refine congrArg (List.map _) (List.filter_congr fun item hitem => ?_)
  have hmem := List.mem_of_mem_drop hitem
  have hheard : heard.contains item.id = decide (item.fate = .sounded ∧
      item.event.value.isWritable = true) := by
    rw [Bool.eq_iff_iff, List.contains_iff_mem, h.mem_heard item hmem, decide_eq_true_eq]
  have hpending : s.ledger.pending.contains item.id = decide (item.fate = .pending) := by
    rw [Bool.eq_iff_iff, List.contains_iff_mem, h.mem_pending hmem, decide_eq_true_eq]
  rw [hheard, hpending]
  unfold Scheduled.isKept
  cases item.fate <;> cases item.event.value.isWritable <;> simp

/-- What is played of a cycle that can be written: all of its plan, once each
unless an event was repeated. -/
theorem played_of_tally {heard : List Nat} (h : s.ledger.Balanced heard) {planned : List Booking}
    {repeated : Prop} (htally : Tally planned repeated (s.kept n k))
    (hwritable : ∀ b ∈ planned, b.event.value.isWritable = true) :
    (∀ b ∈ s.played n heard k, b ∈ planned) ∧ planned.Subperm (s.played n heard k) ∧
      ((s.played n heard k).Perm planned ↔ ¬ repeated) := by
  have hall : s.played n heard k = (s.kept n k).map (·.booking) := by
    rw [played_eq h, List.filter_eq_self.mpr fun item hitem => ?_]
    have hwritten := hwritable _ (htally.among item hitem)
    change item.event.value.isWritable = true at hwritten
    rw [hwritten, Bool.or_true]
  rw [hall]
  refine ⟨fun b hb => ?_, htally.complete, htally.perm_iff⟩
  obtain ⟨item, hitem, rfl⟩ := List.mem_map.mp hb
  exact htally.among item hitem

/-- Once nothing of a cycle is pending, what is played of it was written. -/
theorem writable_of_played {heard : List Nat} (h : s.ledger.Balanced heard)
    (hdone : ∀ item ∈ s.items.drop n, item.cycle = k → item.fate ≠ .pending) :
    ∀ b ∈ s.played n heard k, b.event.value.isWritable = true := by
  rw [played_eq h]
  intro b hb
  obtain ⟨item, hitem, rfl⟩ := List.mem_map.mp hb
  obtain ⟨hkept, hplayed⟩ := List.mem_filter.mp hitem
  obtain ⟨hdrop, hcycle, -⟩ := mem_kept.mp hkept
  rw [Bool.or_eq_true, beq_iff_eq] at hplayed
  exact hplayed.resolve_left (hdone item hdrop hcycle)

end Scheduler

end Ostinato
