import Ostinato.Proofs.Rendering.Order
import Ostinato.Proofs.Rendering.Pieces

/-!
# Ostinato.Proofs.Rendering.Fragments

What cutting into pieces leaves of an event.

The logical span of an event is divided into equal pieces, and what lies of each
in the active span is a fragment.  `Event.CutInto` lists what the fragments of an
event are like; `Event.cutInto_grid` shows it of every well-cut event, and so it
holds of all events of a pattern (`Pattern.chop_into_fragments`).
-/

namespace Ostinato

/-! ## Runs of numbers -/

/-- Of the numbers below `n`, those with a property that holds between any two of
them are a run. -/
theorem exists_range'_of_convex {p : Nat → Bool}
    (h : ∀ {i j k}, i ≤ j → j ≤ k → p i = true → p k = true → p j = true) (n : Nat) :
    ∃ first count, first + count ≤ n ∧ (List.range n).filter p = List.range' first count := by
  induction n with
  | zero => exact ⟨0, 0, Nat.le_refl 0, rfl⟩
  | succ n ih =>
    obtain ⟨first, count, hle, hrun⟩ := ih
    rw [List.range_succ, List.filter_append, hrun]
    cases hn : p n with
    | false => exact ⟨first, count, by omega, by simp [hn]⟩
    | true =>
      cases count with
      | zero => exact ⟨n, 1, by omega, by simp [hn]⟩
      | succ count =>
        have hmem : ∀ i, i ∈ List.range' first (count + 1) ↔ i < n ∧ p i = true := by
          intro i
          rw [← hrun, List.mem_filter, List.mem_range]
        -- were there a gap before `n`, the number after the run would be in it
        have hnext : first + (count + 1) = n := by
          by_contra hne
          have hlast := ((hmem (first + count)).mp (by simp [List.mem_range'_1])).2
          have hgap := h (Nat.le_succ (first + count)) (by omega) hlast hn
          have hbeyond := (hmem (first + count + 1)).mpr ⟨by omega, hgap⟩
          rw [List.mem_range'_1] at hbeyond
          omega
        have hconcat : List.range' first (count + 1 + 1) =
            List.range' first (count + 1) ++ [first + (count + 1)] := List.range'_1_concat
        exact ⟨first, count + 1 + 1, by omega, by simp [hconcat, hnext, hn]⟩

namespace Event

/-! ## Fragments -/

/-- The `i`-th of `n` equal pieces of an event's logical span. -/
def piece (n : Int) (e : Event) (i : Nat) : Span :=
  Span.step e.logical.start (e.logical.length / n) i

/-- A run of fragments that an event is cut into when its logical span is divided
into `n` pieces. -/
structure CutInto (n : Int) (e : Event) (run : List Event) : Prop where
  ne_nil : run ≠ []
  value : ∀ f ∈ run, f.value = e.value
  /-- The fragments tile the active span. -/
  tiles : Row (· = ·) e.active.start e.active.stop run
  /-- The fragments are numbered by consecutive pieces. -/
  parts : ∃ first : Nat, ((first + run.length : Nat) : Int) ≤ n ∧
    run.map (·.part) = (List.range' first run.length).map fun i : Nat => some (i : Int)
  /-- A fragment is what the active span has in common with its piece, and
  remembers the piece if that is more. -/
  fragment : ∀ f ∈ run, ∃ i : Nat, f.part = some (i : Int) ∧
    f.active = (e.piece n i).meet e.active ∧
    f.whole = if f.active = e.piece n i then none else some (e.piece n i)
  /-- A fragment has an onset if its piece begins in the active span. -/
  onset : ∀ f ∈ run, ∀ i : Nat, f.part = some (i : Int) →
    (f.hasOnset = true ↔
      e.active.start ≤ (e.piece n i).start ∧ (e.piece n i).start < e.active.stop)
  /-- An event that was never cut gives all the pieces. -/
  all : e.whole = none → (run.length : Int) = n

/-- The `i`-th of `n` pieces of an event, as an event. -/
def share (n : Int) (e : Event) (i : Nat) : Event := ⟨e.value, e.piece n i, some (i : Int), none⟩

/-- The pieces of an event's logical span are its shares, from the first to the last. -/
theorem grid_eq_map_share (n : Int) (e : Event) :
    grid n e = (List.range n.toNat).map (e.share n) := rfl

/-- What is left of a piece in the active span. -/
def fragment (n : Int) (e : Event) (i : Nat) : Event :=
  (e.share n i).trim ((e.piece n i).meet e.active)

/-- Whether something of a piece is left in the active span. -/
def Shows (n : Int) (e : Event) (i : Nat) : Prop :=
  e.active.start < (e.piece n i).stop ∧ (e.piece n i).start < e.active.stop

instance (n : Int) (e : Event) (i : Nat) : Decidable (e.Shows n i) :=
  inferInstanceAs (Decidable (_ ∧ _))

variable {n : Int} {e : Event}

/-- Each share of an event is longer than nothing. -/
theorem width_pos (he : e.WellCut) (hn : 1 ≤ n) : 0 < e.logical.length / n := by
  have hlo := he.logical_start_le
  have hhi := he.le_logical_stop
  have hpos := he.pos
  have hparts : (0 : Rat) < n := by exact_mod_cast hn
  exact div_pos (by unfold Span.length; linarith) hparts

/-- Each piece starts before it stops. -/
theorem piece_pos (he : e.WellCut) (hn : 1 ≤ n) (i : Nat) :
    (e.piece n i).start < (e.piece n i).stop := by
  have hwidth := width_pos he hn
  simp only [piece, Span.step]
  linarith

/-- Pieces come one after the other. -/
theorem piece_mono (he : e.WellCut) (hn : 1 ≤ n) {i j : Nat} (h : i ≤ j) :
    (e.piece n i).start ≤ (e.piece n j).start ∧ (e.piece n i).stop ≤ (e.piece n j).stop := by
  have hwidth := width_pos he hn
  have hij : (i : Rat) ≤ j := by exact_mod_cast h
  simp only [piece, Span.step]
  constructor <;> gcongr

/-- What shows lies between the first and the last that shows. -/
theorem Shows.between (he : e.WellCut) (hn : 1 ≤ n) {i j k : Nat} (hij : i ≤ j) (hjk : j ≤ k)
    (hi : e.Shows n i) (hk : e.Shows n k) : e.Shows n j :=
  ⟨lt_of_lt_of_le hi.1 (piece_mono he hn hij).2, lt_of_le_of_lt (piece_mono he hn hjk).1 hk.2⟩

/-- A share clipped to the active span is the fragment that shows of it, or nothing. -/
theorem clip?_share (he : e.WellCut) (hn : 1 ≤ n) (i : Nat) :
    (e.share n i).clip? e.active = if e.Shows n i then some (e.fragment n i) else none := by
  have hmeet : ((e.piece n i).meet e.active).start < ((e.piece n i).meet e.active).stop ↔
      e.Shows n i := by
    simp only [Shows, Span.start_meet, Span.stop_meet, max_lt_iff, lt_min_iff, piece_pos he hn i,
      he.pos, true_and, and_true]
  exact if_congr hmeet rfl rfl

/-- The fragments of an event are those of a run of pieces, the ones that show. -/
theorem exists_run (he : e.WellCut) (hn : 1 ≤ n) : ∃ first count : Nat, first + count ≤ n.toNat ∧
    clip e.active (grid n e) = (List.range' first count).map (e.fragment n) ∧
    ∀ i, i ∈ List.range' first count ↔ i < n.toNat ∧ e.Shows n i := by
  obtain ⟨first, count, hle, hrun⟩ := exists_range'_of_convex (p := fun i => decide (e.Shows n i))
    (fun hij hjk hi hk => by
      rw [decide_eq_true_eq] at hi hk ⊢
      exact hi.between he hn hij hjk hk) n.toNat
  have hmem : ∀ i, i ∈ List.range' first count ↔ i < n.toNat ∧ e.Shows n i := by
    intro i
    rw [← hrun, List.mem_filter, List.mem_range, decide_eq_true_eq]
  refine ⟨first, count, hle, ?_, hmem⟩
  calc clip e.active (grid n e)
      = (List.range n.toNat).filterMap fun i =>
          if decide (e.Shows n i) then some (e.fragment n i) else none := by
        rw [clip, grid_eq_map_share, List.filterMap_map]
        refine List.filterMap_congr fun i _ => ?_
        rw [Function.comp_apply, clip?_share he hn]
        simp
    _ = (List.range' first count).filterMap fun i => some (e.fragment n i) := by
        rw [← hrun, List.filterMap_filter]
    _ = (List.range' first count).map (e.fragment n) := by
        rw [List.filterMap_eq_map_iff_forall_eq_some]
        exact fun _ _ => rfl

/-- All pieces of an event that was never cut show. -/
theorem shows_of_whole_eq_none (he : e.WellCut) (hn : 1 ≤ n) (h : e.whole = none) {i : Nat}
    (hi : i < n.toNat) : e.Shows n i := by
  have hlogical : e.logical = e.active := he.whole_eq_none_iff.mp h
  have hwidth := width_pos he hn
  have hparts : (0 : Rat) < n := by exact_mod_cast hn
  have hi0 : (0 : Rat) ≤ i := Nat.cast_nonneg i
  have hin : (i : Rat) < n := by
    have : (i : Int) < n := by omega
    exact_mod_cast this
  have hall : e.logical.length / n * n = e.active.stop - e.active.start := by
    rw [div_mul_cancel₀ _ hparts.ne', hlogical, Span.length]
  rw [Shows, piece, hlogical]
  rw [hlogical] at hall hwidth
  simp only [Span.step]
  constructor
  · nlinarith
  · nlinarith

/-! ## What a fragment is like -/

/-- A fragment keeps its piece as its whole if and only if something was cut off. -/
theorem whole_fragment (n : Int) (e : Event) (i : Nat) :
    (e.fragment n i).whole =
      if (e.fragment n i).active = e.piece n i then none else some (e.piece n i) := by
  rw [fragment, active_trim]
  by_cases h : (e.piece n i).meet e.active = e.piece n i
  · rw [if_pos h, h]
    exact congrArg whole (trim_active (e.share n i))
  · rw [if_neg h]
    exact congrArg whole (if_neg h)

/-- A fragment has the onset of its piece if that lies in the active span. -/
theorem hasOnset_fragment {i : Nat} (h : e.Shows n i) :
    (e.fragment n i).hasOnset = true ↔
      e.active.start ≤ (e.piece n i).start ∧ (e.piece n i).start < e.active.stop := by
  have hlogical : (e.share n i).logical = e.piece n i := rfl
  rw [hasOnset_iff, fragment, logical_trim, active_trim, hlogical, Span.start_meet, eq_comm,
    max_eq_left_iff]
  exact ⟨fun hle => ⟨hle, h.2⟩, And.left⟩

/-- The pieces of a well-cut event, as far as they lie in its active span, are
the run of fragments it is cut into. -/
theorem cutInto_grid (he : e.WellCut) (hn : 1 ≤ n) : CutInto n e (clip e.active (grid n e)) := by
  obtain ⟨first, count, hle, hrun, hmem⟩ := exists_run he hn
  have htiles : Row (· = ·) e.active.start e.active.stop (clip e.active (grid n e)) :=
    Rendering.row_pieces spacing_eq hn e _ he (Rendering.pieces_eq_ok hn e)
  have hlength : (clip e.active (grid n e)).length = count := by simp [hrun]
  have hfragment : ∀ f ∈ clip e.active (grid n e), ∃ i, e.Shows n i ∧ f = e.fragment n i := by
    intro f hf
    rw [hrun, List.mem_map] at hf
    obtain ⟨i, hi, rfl⟩ := hf
    exact ⟨i, ((hmem i).mp hi).2, rfl⟩
  have hpart : ∀ i, (e.fragment n i).part = some (i : Int) := fun i => part_trim ..
  exact {
    ne_nil := fun hnil => by
      rw [hnil] at htiles
      exact he.pos.ne htiles
    value := fun f hf => by
      obtain ⟨i, -, rfl⟩ := hfragment f hf
      exact value_trim ..
    tiles := htiles
    parts := by
      refine ⟨first, by omega, ?_⟩
      rw [hlength, hrun, List.map_map]
      exact List.map_congr_left fun i _ => hpart i
    fragment := fun f hf => by
      obtain ⟨i, -, rfl⟩ := hfragment f hf
      exact ⟨i, hpart i, active_trim .., whole_fragment n e i⟩
    onset := fun f hf i hi => by
      obtain ⟨j, hshows, rfl⟩ := hfragment f hf
      obtain rfl : j = i := by
        rw [hpart j, Option.some.injEq] at hi
        exact_mod_cast hi
      exact hasOnset_fragment hshows
    all := fun hwhole => by
      have hall : ∀ i < n.toNat, i ∈ List.range' first count := fun i hi =>
        (hmem i).mpr ⟨hi, shows_of_whole_eq_none he hn hwhole hi⟩
      have hfirst := List.mem_range'_1.mp (hall 0 (by omega))
      have hlast := List.mem_range'_1.mp (hall (n.toNat - 1) (by omega))
      omega }

/-- Each event of a list is cut into a run, one run after the other. -/
theorem exists_runs {events : List Event} (h : ∀ e ∈ events, e.WellCut) (hn : 1 ≤ n) :
    ∃ runs, cut n events = runs.flatten ∧ List.Forall₂ (CutInto n) events runs := by
  refine ⟨events.map fun e => clip e.active (grid n e), by rw [cut, List.flatMap_def], ?_⟩
  rw [List.forall₂_map_right_iff]
  exact List.forall₂_same.mpr fun e he => cutInto_grid (h e he) hn

end Event

/-- **Fragments**: where a pattern is rendered, cutting it into `n` pieces gives
for each of its events, in order, a run of fragments that the event is cut into,
from the same draws.  A query finds the fragments of the events that the pattern
renders; without waves these are the events that a query for the pattern finds,
and the fragments stay in their order. -/
theorem Pattern.chop_into_fragments {known : Registry Transform} (hchop : known.Acts "chop" .chop)
    {parts : Value} {n : Int} (hparts : parts.toInt = .ok n) (hn : 1 ≤ n) (x : Pattern) :
    (∀ {σ : Type} (s : Setting σ), s.transforms = known → ∀ (cycle : Int) (span : Span)
      (state state' : σ) (events : List Event), span.start < span.stop →
      x.render s cycle span state = .ok (events, state') →
        ∃ runs, (Pattern.transform x "chop" [parts]).render s cycle span state =
            .ok (runs.flatten, state') ∧
          List.Forall₂ (Event.CutInto n) events runs) ∧
    ∀ perf : Performance, perf.transforms = known → ∀ (cycle : Int) (events : List Event),
      perf.query x cycle none = .ok events →
        ∃ policy stream state' rendered runs, perf.choice.resolve perf.policies = .ok policy ∧
          perf.stream cycle = .ok stream ∧
          x.render (perf.setting policy) cycle Span.cycle stream = .ok (rendered, state') ∧
          List.Forall₂ (Event.CutInto n) rendered runs ∧
          perf.query (.transform x "chop" [parts]) cycle none =
            .ok (Event.sortByStart runs.flatten) ∧
          (x.Within .still known → rendered = events ∧
            perf.query (.transform x "chop" [parts]) cycle none = .ok runs.flatten) := by
  have hrender : ∀ {σ : Type} (s : Setting σ), s.transforms = known → ∀ (cycle : Int) (span : Span)
      (state state' : σ) (events : List Event), span.start < span.stop →
      x.render s cycle span state = .ok (events, state') →
        ∃ runs, (Pattern.transform x "chop" [parts]).render s cycle span state =
            .ok (runs.flatten, state') ∧
          List.Forall₂ (Event.CutInto n) events runs := by
    rintro σ s rfl cycle span state state' events pos h
    obtain ⟨runs, hcut, hruns⟩ := Event.exists_runs (fun e he =>
      ((x.confined_render s cycle span state events state' h e he).forwards pos).1) hn
    refine ⟨runs, ?_, hruns⟩
    rw [Pattern.render_chop hchop hparts, Rendering.chopped_eq_cut hn, ← hcut]
    change (x.render s cycle span state >>= fun r => _) = _
    rw [h]
    rfl
  refine ⟨hrender, ?_⟩
  rintro perf rfl cycle events h
  have pos : Span.cycle.start < Span.cycle.stop := by decide
  obtain ⟨policy, stream, rendered, state', hpolicy, hstream, hrun, hsorted⟩ :=
    Performance.rendered_of_query h
  obtain ⟨runs, hchopped, hruns⟩ :=
    hrender (perf.setting policy) rfl cycle Span.cycle stream state' rendered pos hrun
  have hquery := Performance.query_of_rendered hpolicy hstream hchopped
  refine ⟨policy, stream, state', rendered, runs, hpolicy, hstream, hrun, hruns, hquery,
    fun hx => ?_⟩
  have hcut : (Pattern.transform x "chop" [parts]).Within .still perf.transforms :=
    ⟨hx, fun _ _ => trivial, (Value.lastWithin_full _ [parts]).mono fun _ _ => trivial⟩
  rw [Pattern.sortByStart_render (s := perf.setting policy) hx pos hrun] at hsorted
  rw [Pattern.sortByStart_render (s := perf.setting policy) hcut pos hchopped] at hquery
  exact ⟨hsorted.symm, hquery⟩

/-- Two names slowed down by two and a half and cut in three: of the first only
the last piece is left in cycle one, as a tail, and of the second two pieces. -/
theorem Pattern.chop_into_fragments_tail :
    let x := Pattern.transform (.sequence [.leaf (.text "a"), .leaf (.text "b")]) "slow"
      [.number (.ratio (5 / 2))]
    ∃ events runs, Performance.default.query x 1 none = .ok events ∧
      Performance.default.query (.transform x "chop" [.int 3]) 1 none = .ok runs.flatten ∧
      List.Forall₂ (Event.CutInto 3) events runs ∧
      runs.flatten.map (fun f => (f.part, f.hasOnset)) =
        [(some 2, false), (some 0, true), (some 1, true)] := by
  intro x
  have hchop : Performance.default.transforms.Acts "chop" .chop := ⟨_, rfl, rfl⟩
  have hx : x.Within .still Performance.default.transforms :=
    ⟨⟨trivial, trivial, trivial⟩, fun _ _ => trivial, trivial⟩
  have hsome : (Performance.default.query x 1 none).toOption.isSome := by decide +kernel
  obtain ⟨events, hquery⟩ := ok_of_isSome hsome
  have hparts : (Value.int 3).toInt = .ok 3 := rfl
  obtain ⟨-, -, -, rendered, runs, -, -, -, hruns, -, hstill⟩ :=
    (x.chop_into_fragments hchop hparts (by decide)).2 _ rfl 1 events hquery
  obtain ⟨rfl, hpieces⟩ := hstill hx
  have hshown : (Performance.default.query (.transform x "chop" [.int 3]) 1 none).toOption.map
      (·.map fun f => (f.part, f.hasOnset)) =
        some [(some 2, false), (some 0, true), (some 1, true)] := by
    decide +kernel
  rw [hpieces] at hshown
  exact ⟨rendered, runs, hquery, hpieces, hruns, Option.some.inj hshown⟩

end Ostinato
