import Mathlib.Algebra.Order.Ring.Rat
import Mathlib.Tactic.Linarith
import Mathlib.Tactic.Ring
import Ostinato.Proofs.Event.Cut
import Ostinato.Query

/-!
# Ostinato.Proofs.Event.Row

Events one after another.

`Row gap lo hi events` goes along events in the order of the list: from `lo` to
where the first begins, from where each ends to where the next begins, and from
where the last ends to `hi`, there is a gap of the given kind.  Two kinds matter:

* `Row (· ≤ ·)` — no two events overlap;
* `Row (· = ·)` — the events tile the time between the ends.

What is done to events keeps rows of both kinds for the same reasons, which
`Spacing` lists, so each law is proved once: rows are put together
(`Spacing.append`), clipped (`Spacing.clip`), reflected (`Spacing.reflected`)
and cut from an even grid (`Spacing.grid`).
-/

namespace Ostinato

namespace Span

/-- The time in a span that is nearest to a given one. -/
def nearest (s : Span) (t : Rat) : Rat := max s.start (min s.stop t)

/-- The nearest place to one before a span is its start. -/
theorem nearest_of_le {s : Span} {t : Rat} (h : t ≤ s.start) : s.nearest t = s.start :=
  max_eq_left (le_trans (min_le_right _ _) h)

/-- The nearest place to one after a span is its end. -/
theorem nearest_of_ge {s : Span} {t : Rat} (hs : s.start ≤ s.stop) (h : s.stop ≤ t) :
    s.nearest t = s.stop := by
  rw [nearest, min_eq_left h, max_eq_right hs]

/-- Nearest places keep the order. -/
theorem nearest_mono (s : Span) {a b : Rat} (h : a ≤ b) : s.nearest a ≤ s.nearest b :=
  max_le_max_left _ (min_le_min_left _ h)

end Span

namespace Event

/-- Events in the order of the list, with gaps of one kind between them and the
ends. -/
def Row (gap : Rat → Rat → Prop) : Rat → Rat → List Event → Prop
  | lo, hi, [] => gap lo hi
  | lo, hi, e :: es => gap lo e.active.start ∧ Row gap e.active.stop hi es

/-- Kinds of gaps that may be put together, clipped and reflected. -/
structure Spacing (gap : Rat → Rat → Prop) : Prop where
  refl : ∀ t, gap t t
  trans : ∀ {a b c}, gap a b → gap b c → gap a c
  nearest : ∀ (s : Span) {a b}, gap a b → gap (s.nearest a) (s.nearest b)
  reflect : ∀ (pivot : Rat) {a b}, gap a b → gap (pivot - b) (pivot - a)

/-- Any time may pass. -/
theorem spacing_le : Spacing (· ≤ ·) where
  refl := le_refl
  trans := le_trans
  nearest s _ _ h := s.nearest_mono h
  reflect pivot _ _ h := sub_le_sub_left h pivot

/-- No time may pass. -/
theorem spacing_eq : Spacing (· = ·) where
  refl _ := rfl
  trans := Eq.trans
  nearest s _ _ h := congrArg s.nearest h
  reflect pivot _ _ h := congrArg (pivot - ·) h.symm

variable {gap : Rat → Rat → Prop}

/-! ## Putting rows together -/

/-- A row that begins after a gap. -/
theorem Spacing.before (hg : Spacing gap) {a b c : Rat} {events : List Event} (h : gap a b)
    (hrow : Row gap b c events) : Row gap a c events := by
  cases events with
  | nil => exact hg.trans h hrow
  | cons e es => exact ⟨hg.trans h hrow.1, hrow.2⟩

/-- Rows put together are a row. -/
theorem Spacing.append (hg : Spacing gap) {a b c : Rat} {es fs : List Event}
    (hes : Row gap a b es) (hfs : Row gap b c fs) : Row gap a c (es ++ fs) := by
  induction es generalizing a with
  | nil => exact hg.before hes hfs
  | cons e es ih => exact ⟨hes.1, ih hes.2⟩

/-- One event is a row between its ends. -/
theorem Spacing.single (hg : Spacing gap) (e : Event) :
    Row gap e.active.start e.active.stop [e] :=
  ⟨hg.refl _, hg.refl _⟩

/-- A row with gaps of one kind has gaps of any wider kind. -/
theorem Row.mono {gap' : Rat → Rat → Prop} (hgap : ∀ a b, gap a b → gap' a b) {a b : Rat}
    {events : List Event} (h : Row gap a b events) : Row gap' a b events := by
  induction events generalizing a with
  | nil => exact hgap _ _ h
  | cons e es ih => exact ⟨hgap _ _ h.1, ih h.2⟩

/-- Only the active spans count. -/
theorem row_congr {a b : Rat} {es fs : List Event} (h : es.map (·.active) = fs.map (·.active)) :
    Row gap a b es ↔ Row gap a b fs := by
  induction es generalizing a fs with
  | nil =>
      have hfs : fs = [] := by simpa using h.symm
      rw [hfs]
  | cons e es ih =>
      cases fs with
      | nil => simp at h
      | cons f fs =>
          rw [List.map_cons, List.map_cons, List.cons.injEq] at h
          simp only [Row, h.1, ih h.2]

/-! ## Clipping and reflecting -/

/-- What is left of an event inside a span reaches from the time nearest to its
start to the time nearest to its end. -/
theorem active_of_clip?_eq_some {e e' : Event} {span : Span} (hspan : span.start < span.stop)
    (h : e.clip? span = some e') :
    e'.active.start = span.nearest e.active.start ∧
      e'.active.stop = span.nearest e.active.stop := by
  obtain ⟨hlt, rfl⟩ := clip?_eq_some h
  rw [max_lt_iff, lt_min_iff, lt_min_iff] at hlt
  simp only [active_trim, Span.start_meet, Span.stop_meet, Span.nearest]
  constructor
  · rw [min_eq_right (le_of_lt hlt.1.2), max_comm]
  · rw [min_comm, max_eq_right (le_min (le_of_lt hspan) (le_of_lt hlt.2.1))]

/-- If nothing is left of an event, both its ends are nearest to the same
time. -/
theorem nearest_of_clip?_eq_none {e : Event} {span : Span} (hspan : span.start < span.stop)
    (he : e.active.start < e.active.stop) (h : e.clip? span = none) :
    span.nearest e.active.start = span.nearest e.active.stop := by
  have hle : e.active.stop ≤ span.start ∨ span.stop ≤ e.active.start := by
    by_contra hnot
    rw [not_or, not_le, not_le] at hnot
    have hlt : max e.active.start span.start < min e.active.stop span.stop :=
      max_lt (lt_min he hnot.2) (lt_min hnot.1 hspan)
    simp [Event.clip?, Span.start_meet, Span.stop_meet, hlt] at h
  cases hle with
  | inl hbefore => rw [Span.nearest_of_le hbefore, Span.nearest_of_le (by linarith)]
  | inr hafter =>
      rw [Span.nearest_of_ge (le_of_lt hspan) hafter,
        Span.nearest_of_ge (le_of_lt hspan) (by linarith)]

/-- What is left of a row inside a span is a row between the times nearest to
its ends. -/
theorem Spacing.clip (hg : Spacing gap) {span : Span} (hspan : span.start < span.stop)
    {a b : Rat} {events : List Event} (hpos : ∀ e ∈ events, e.active.start < e.active.stop)
    (h : Row gap a b events) :
    Row gap (span.nearest a) (span.nearest b) (clip span events) := by
  induction events generalizing a with
  | nil => exact hg.nearest span h
  | cons e es ih =>
      have htail := ih (fun e' he' => hpos e' (List.mem_cons_of_mem e he')) h.2
      have hgap := hg.nearest span h.1
      rw [clip_cons]
      cases hc : e.clip? span with
      | some e' =>
          obtain ⟨hstart, hstop⟩ := active_of_clip?_eq_some hspan hc
          exact ⟨by rw [hstart]; exact hgap, by rw [hstop]; exact htail⟩
      | none =>
          have hsame := nearest_of_clip?_eq_none hspan (hpos e List.mem_cons_self) hc
          exact hg.before hgap (by rw [hsame]; exact htail)

/-- A row reflected inside a span is a row between the reflected ends. -/
theorem Spacing.reflected (hg : Spacing gap) (span : Span) {a b : Rat} {events : List Event}
    (h : Row gap a b events) :
    Row gap (span.start + span.stop - b) (span.start + span.stop - a)
      (reflected span events) := by
  induction events generalizing a with
  | nil => exact hg.reflect _ h
  | cons e es ih =>
      have hsplit : Event.reflected span (e :: es) =
          Event.reflected span es ++ [e.reflect (span.start + span.stop)] := by
        simp [Event.reflected]
      rw [hsplit]
      exact hg.append (ih h.2) ⟨hg.refl _, hg.reflect _ h.1⟩

/-! ## Even grids -/

/-- Events on the steps of an even grid are a row. -/
theorem Spacing.grid (hg : Spacing gap) (start width : Rat) (event : Nat → Event)
    (h : ∀ i, (event i).active = Span.step start width i) (count : Nat) :
    Row gap start (start + width * count) ((List.range count).map event) := by
  induction count with
  | zero => simpa [Row] using hg.refl start
  | succ count ih =>
      rw [List.range_succ, List.map_append]
      refine hg.append ih ?_
      have hlast := hg.single (event count)
      rw [h] at hlast
      simpa [Span.step] using hlast

/-! ## Rows without overlaps -/

/-- In a row the events come in order, each ending before any later one
begins. -/
theorem Row.pairwise {a b : Rat} {events : List Event} (h : Row (· ≤ ·) a b events)
    (hpos : ∀ e ∈ events, e.active.start < e.active.stop) :
    events.Pairwise fun e f => e.active.stop ≤ f.active.start := by
  -- from `a` on everything begins; carried along for the tail
  have hboth : (events.Pairwise fun e f => e.active.stop ≤ f.active.start) ∧
      ∀ f ∈ events, a ≤ f.active.start := by
    induction events generalizing a with
    | nil => exact ⟨List.Pairwise.nil, fun f hf => absurd hf List.not_mem_nil⟩
    | cons e es ih =>
        have hes := ih h.2 fun f hf => hpos f (List.mem_cons_of_mem e hf)
        have he := hpos e List.mem_cons_self
        refine ⟨List.pairwise_cons.mpr ⟨hes.2, hes.1⟩, fun f hf => ?_⟩
        rw [List.mem_cons] at hf
        cases hf with
        | inl here => rw [here]; exact h.1
        | inr later => exact le_trans h.1 (le_trans (le_of_lt he) (hes.2 f later))
  exact hboth.1

/-- Sorting leaves a row as it is. -/
theorem Row.sortByStart (hgap : ∀ a b, gap a b → a ≤ b) {a b : Rat} {events : List Event}
    (h : Row gap a b events) (hpos : ∀ e ∈ events, e.active.start < e.active.stop) :
    Event.sortByStart events = events :=
  sortByStart_of_pairwise (((h.mono hgap).pairwise hpos).imp_of_mem fun he _ hef =>
    le_trans (le_of_lt (hpos _ he)) hef)

/-- A row from which events are left out has no overlaps either. -/
theorem Row.sublist {a b : Rat} {es fs : List Event} (hsub : fs.Sublist es)
    (hpos : ∀ e ∈ es, e.active.start < e.active.stop) (h : Row (· ≤ ·) a b es) :
    Row (· ≤ ·) a b fs := by
  induction hsub generalizing a with
  | slnil => exact h
  | cons e _ ih =>
      have htail := ih (fun f hf => hpos f (List.mem_cons_of_mem e hf)) h.2
      exact spacing_le.before (le_trans h.1 (le_of_lt (hpos e List.mem_cons_self))) htail
  | cons_cons e _ ih =>
      exact ⟨h.1, ih (fun f hf => hpos f (List.mem_cons_of_mem e hf)) h.2⟩

/-- Of events in order at most one is active at a time. -/
theorem length_filter_isActiveAt_le {events : List Event}
    (h : events.Pairwise fun e f => e.active.stop ≤ f.active.start) (t : Rat) :
    (events.filter (·.isActiveAt t)).length ≤ 1 := by
  have hkept := h.filter (·.isActiveAt t)
  have hactive : ∀ e ∈ events.filter (·.isActiveAt t), e.isActiveAt t = true :=
    fun e he => (List.mem_filter.mp he).2
  generalize events.filter (·.isActiveAt t) = kept at hkept hactive
  cases kept with
  | nil => exact Nat.zero_le 1
  | cons e rest =>
      cases rest with
      | nil => exact le_refl 1
      | cons f rest =>
          have he := hactive e (by simp)
          have hf := hactive f (by simp)
          have hef := (List.pairwise_cons.mp hkept).1 f List.mem_cons_self
          simp only [isActiveAt, Bool.and_eq_true, decide_eq_true_eq] at he hf
          linarith

/-! ## Tilings -/

/-- Events that tile the time between two ends are active one at a time, at
each time between the ends. -/
theorem Row.filter_isActiveAt {a b t : Rat} {events : List Event} (h : Row (· = ·) a b events)
    (hpos : ∀ e ∈ events, e.active.start < e.active.stop) (ha : a ≤ t) (hb : t < b) :
    ∃ e, events.filter (·.isActiveAt t) = [e] := by
  induction events generalizing a with
  | nil =>
      have hab : a = b := h
      linarith
  | cons e es ih =>
      have hstart : a = e.active.start := h.1
      have htail := fun f hf => hpos f (List.mem_cons_of_mem e hf)
      by_cases hstop : e.active.stop ≤ t
      · -- `t` lies in what follows the first event
        have hnot : e.isActiveAt t = false := by simp [isActiveAt, hstop]
        rw [List.filter_cons_of_neg (by simp [hnot])]
        exact ih h.2 htail hstop
      · have hhere : e.isActiveAt t = true := by
          simp only [isActiveAt, Bool.and_eq_true, decide_eq_true_eq]
          exact ⟨hstart ▸ ha, not_le.mp hstop⟩
        have hlater := (List.pairwise_cons.mp ((h.mono fun _ _ => le_of_eq).pairwise hpos)).1
        have hnone : es.filter (·.isActiveAt t) = [] := by
          rw [List.filter_eq_nil_iff]
          intro f hf
          have hef := hlater f hf
          have hft : ¬ f.active.start ≤ t := by linarith
          simp [isActiveAt, hft]
        exact ⟨e, by simp [hhere, hnone]⟩

end Event

end Ostinato
