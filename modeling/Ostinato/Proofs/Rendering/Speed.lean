import Mathlib.Algebra.BigOperators.Intervals
import Ostinato.Proofs.Rendering.Affine
import Ostinato.Proofs.Rendering.Gathering

/-!
# Ostinato.Proofs.Rendering.Speed

Playing faster or slower loses no onset and repeats none.

A pattern at another speed shows, in each cycle, slices of the cycles of its
subject.  With a fractional factor one event of the subject can be cut into
several slices, in several cycles; only the first of them keeps the onset.

1. `onsets_slice` — the onsets in a slice are those of the subject's cycle
   that fall into the cycle shown;
2. `repeated_eq_pure` — a cycle at the new speed has the onsets of its slices;
3. `Performance.onsets_fast` — so a stretch of cycles at the new speed has
   exactly the onsets of the subject that fall into it.
-/

namespace Ostinato

variable {σ : Type}

namespace Rendering

open Event

/-! ## One slice -/

/-- The slot of a subject's cycle `c` in cycle `n` is a cycle scaled down by
the factor and moved. -/
theorem slot_eq_affine (n c : Int) (factor : Rat) :
    slot factor n Span.cycle c = Span.cycle.affine (1 / factor) ((c - n * factor) / factor) := by
  unfold slot place Span.affine Span.cycle Span.length
  rw [Span.mk.injEq]
  constructor <;> ring

/-- What cycle `n` shows of the events of a subject's cycle `c`. -/
def slice (factor : Rat) (n c : Int) (events : List Event) : List Event :=
  clip Span.cycle (events.map (Event.affine (1 / factor) ((c - n * factor) / factor)))

/-- The onsets of a slice are those of the subject's cycle that fall into the
cycle shown. -/
theorem onsets_slice {factor : Rat} (hfactor : 0 < factor) (n c : Int) {events : List Event}
    (h : ∀ e ∈ events, e.WellCut) :
    onsets (fun t => n + t) (slice factor n c events) =
      (onsets (fun t => (c + t) / factor) events).filter
        fun o => (n : Rat) ≤ o.time ∧ o.time < (n : Rat) + 1 := by
  have hscale : 0 < 1 / factor := one_div_pos.mpr hfactor
  have hplace : ∀ t : Rat, n + (1 / factor * t + (c - n * factor) / factor) =
      (c + t) / factor := by
    intro t
    field_simp
    ring
  have hcut : ∀ e ∈ events.map (Event.affine (1 / factor) ((c - n * factor) / factor)),
      e.WellCut := by
    intro e he
    obtain ⟨e', he', rfl⟩ := List.mem_map.mp he
    exact (h e' he').affine hscale _
  unfold slice
  have hwithin : ∀ t : Rat, (Span.cycle.start ≤ t ∧ t < Span.cycle.stop) ↔
      ((n : Rat) ≤ n + t ∧ n + t < (n : Rat) + 1) := by
    intro t
    unfold Span.cycle
    rw [le_add_iff_nonneg_right, add_lt_add_iff_left]
  rw [onsets_clip _ _ hcut,
    onsets_filter (fun t => n + t) (fun t => Span.cycle.start ≤ t ∧ t < Span.cycle.stop)
      (fun t => (n : Rat) ≤ t ∧ t < (n : Rat) + 1) hwithin,
    onsets_affine _ hscale]
  simp only [hplace]

/-- A cycle that does not reach into cycle `n` has no onset there. -/
theorem onsets_outside {factor : Rat} (hfactor : 0 < factor) {n c : Int}
    {events : List Event} (h : ∀ e ∈ events, 0 ≤ e.active.start ∧ e.active.start < 1)
    (hout : c < (n * factor : Rat).floor ∨ (((n + 1 : Int) : Rat) * factor).ceil ≤ c) :
    (onsets (fun t => (c + t) / factor) events).filter
      (fun o => (n : Rat) ≤ o.time ∧ o.time < (n : Rat) + 1) = 0 := by
  rw [Multiset.filter_eq_nil]
  intro o ho hin
  unfold onsets at ho
  rw [Multiset.mem_coe, List.mem_map] at ho
  obtain ⟨e, he, rfl⟩ := ho
  obtain ⟨hlo, hhi⟩ := h e (List.mem_of_mem_filter he)
  simp only [le_div_iff₀ hfactor, div_lt_iff₀ hfactor] at hin
  cases hout with
  | inl hbefore =>
      have hc : ((c + 1 : Int) : Rat) ≤ n * factor := Rat.le_floor_iff.mp hbefore
      push_cast at hc
      linarith
  | inr hafter =>
      have hc : ((n + 1 : Int) : Rat) * factor ≤ c := Rat.ceil_le_iff.mp hafter
      push_cast at hc
      linarith

/-! ## One cycle -/

/-- Gathering events that are known. -/
theorem gatherFrom_eq_pure {f : Int → Drawing σ (List Event)} {g : Int → List Event} (count : Nat)
    (first : Int) (h : ∀ c, first ≤ c → c < first + count → f c = pure (g c)) :
    ∃ events, gatherFrom f count first = pure events ∧ ∀ place : Rat → Rat,
      onsets place events = ∑ c ∈ Finset.Ico first (first + count), onsets place (g c) := by
  induction count generalizing first with
  | zero =>
      refine ⟨[], rfl, fun place => ?_⟩
      rw [Nat.cast_zero, add_zero, Finset.Ico_self, Finset.sum_empty, onsets_nil]
  | succ count ih =>
      obtain ⟨rest, hrest, honsets⟩ := ih (first + 1) fun c hlo hhi => h c (by omega) (by omega)
      have hfirst : f first = pure (g first) := h first (le_refl _) (by omega)
      refine ⟨g first ++ rest, ?_, fun place => ?_⟩
      · rw [gatherFrom, hfirst, hrest, pure_bind, pure_bind]
      · have hsplit : Finset.Ico first (first + (count + 1 : Nat)) =
            insert first (Finset.Ico (first + 1) (first + 1 + count)) := by
          ext c
          rw [Finset.mem_insert, Finset.mem_Ico, Finset.mem_Ico]
          omega
        have hnew : first ∉ Finset.Ico (first + 1) (first + 1 + (count : Int)) := by
          rw [Finset.mem_Ico]
          omega
        rw [onsets_append, honsets, hsplit, Finset.sum_insert hnew]

/-- A cycle at another speed has the onsets of its slices. -/
theorem repeated_eq_pure {r : Rendering σ} (hr : Portable r) {factor : Rat} (hfactor : 0 < factor)
    (n : Int) {subject : Int → List Event}
    (h : ∀ c, (n * factor : Rat).floor ≤ c → c < (((n + 1 : Int) : Rat) * factor).ceil →
      r c Span.cycle = pure (subject c)) :
    ∃ events, repeated factor r n Span.cycle = pure events ∧ ∀ place : Rat → Rat,
      onsets place events =
        ∑ c ∈ Finset.Ico (n * factor : Rat).floor (((n + 1 : Int) : Rat) * factor).ceil,
          onsets place (slice factor n c (subject c)) := by
  have hscale : 0 < 1 / factor := one_div_pos.mpr hfactor
  have horder := first_le_last (le_of_lt hfactor) n
  rw [repeated_eq_gatherFrom hfactor.ne']
  obtain ⟨events, hevents, honsets⟩ := gatherFrom_eq_pure
    (f := shown factor r n Span.cycle) (g := fun c => slice factor n c (subject c))
    ((((n + 1 : Int) : Rat) * factor).ceil - (n * factor : Rat).floor).toNat
    (n * factor : Rat).floor fun c hlo hhi => by
      rw [shown, slot_eq_affine, hr c Span.cycle _ _ hscale, h c hlo (by omega), carried_pure,
        pure_bind]
      rfl
  refine ⟨events, hevents, fun place => ?_⟩
  rw [honsets, Int.toNat_of_nonneg (by omega), add_sub_cancel]

/-- A cycle at another speed has the onsets of the subject that fall into it.
The cycles from `lo` to `hi` are some that take it in. -/
theorem onsets_repeated {r : Rendering σ} (hr : Portable r) {factor : Rat} (hfactor : 0 < factor)
    {n lo hi : Int} (hlo : (lo : Rat) ≤ n * factor)
    (hhi : ((n + 1 : Int) : Rat) * factor ≤ (hi : Rat)) {subject : Int → List Event}
    (h : ∀ c, lo ≤ c → c < hi → r c Span.cycle = pure (subject c))
    (hin : ∀ c, lo ≤ c → c < hi → ∀ e ∈ subject c,
      e.WellCut ∧ 0 ≤ e.active.start ∧ e.active.stop ≤ 1) :
    ∃ events, repeated factor r n Span.cycle = pure events ∧
      onsets (fun t => n + t) events =
        ∑ c ∈ Finset.Ico lo hi, (onsets (fun t => (c + t) / factor) (subject c)).filter
          fun o => (n : Rat) ≤ o.time ∧ o.time < (n : Rat) + 1 := by
  have hfirst : lo ≤ (n * factor : Rat).floor := Rat.le_floor_iff.mpr hlo
  have hlast : (((n + 1 : Int) : Rat) * factor).ceil ≤ hi := Rat.ceil_le_iff.mpr hhi
  obtain ⟨events, hevents, honsets⟩ := repeated_eq_pure hr hfactor n fun c hc hc' =>
    h c (le_trans hfirst hc) (lt_of_lt_of_le hc' hlast)
  refine ⟨events, hevents, ?_⟩
  calc onsets (fun t => n + t) events
      = ∑ c ∈ Finset.Ico (n * factor : Rat).floor (((n + 1 : Int) : Rat) * factor).ceil,
          onsets (fun t => n + t) (slice factor n c (subject c)) := honsets _
    _ = ∑ c ∈ Finset.Ico (n * factor : Rat).floor (((n + 1 : Int) : Rat) * factor).ceil,
          (onsets (fun t => (c + t) / factor) (subject c)).filter
            fun o => (n : Rat) ≤ o.time ∧ o.time < (n : Rat) + 1 := by
        refine Finset.sum_congr rfl fun c hc => ?_
        rw [Finset.mem_Ico] at hc
        exact onsets_slice hfactor n c fun e he =>
          (hin c (le_trans hfirst hc.1) (lt_of_lt_of_le hc.2 hlast) e he).1
    _ = _ := by
        refine Finset.sum_subset (Finset.Ico_subset_Ico hfirst hlast) fun c hc hout => ?_
        rw [Finset.mem_Ico] at hc hout
        refine onsets_outside hfactor (fun e he => ?_) (by omega)
        obtain ⟨hcut, hpos, hend⟩ := hin c hc.1 hc.2 e he
        exact ⟨hpos, lt_of_lt_of_le hcut.pos hend⟩

/-! ## A stretch of cycles -/

/-- A stretch of cycles at another speed has the onsets of the subject that
fall into it. -/
theorem onsets_stretch {r : Rendering σ} (hr : Portable r) {factor : Rat} (hfactor : 0 < factor)
    {first last lo hi : Int} (hlo : (lo : Rat) ≤ first * factor) (hhi : last * factor ≤ (hi : Rat))
    {subject : Int → List Event} (h : ∀ c, lo ≤ c → c < hi → r c Span.cycle = pure (subject c))
    (hin : ∀ c, lo ≤ c → c < hi → ∀ e ∈ subject c,
      e.WellCut ∧ 0 ≤ e.active.start ∧ e.active.stop ≤ 1) :
    ∃ played : Int → List Event,
      (∀ n, first ≤ n → n < last → repeated factor r n Span.cycle = pure (played n)) ∧
      ∑ n ∈ Finset.Ico first last, onsets (fun t => n + t) (played n) =
        (∑ c ∈ Finset.Ico lo hi, onsets (fun t => (c + t) / factor) (subject c)).filter
          fun o => (first : Rat) ≤ o.time ∧ o.time < (last : Rat) := by
  have hcycle : ∀ n, ∃ events, first ≤ n → n < last →
      repeated factor r n Span.cycle = pure events ∧
        onsets (fun t => n + t) events =
          ∑ c ∈ Finset.Ico lo hi, (onsets (fun t => (c + t) / factor) (subject c)).filter
            fun o => (n : Rat) ≤ o.time ∧ o.time < (n : Rat) + 1 := by
    intro n
    by_cases hn : first ≤ n ∧ n < last
    · have hfirst : (first : Rat) ≤ n := Rat.intCast_le_intCast.mpr hn.1
      have hlast : ((n + 1 : Int) : Rat) ≤ last := Rat.intCast_le_intCast.mpr hn.2
      obtain ⟨events, hevents⟩ := onsets_repeated hr hfactor
        (le_trans hlo (mul_le_mul_of_nonneg_right hfirst (le_of_lt hfactor)))
        (le_trans (mul_le_mul_of_nonneg_right hlast (le_of_lt hfactor)) hhi) h hin
      exact ⟨events, fun _ _ => hevents⟩
    · exact ⟨[], fun hn1 hn2 => absurd ⟨hn1, hn2⟩ hn⟩
  choose played hplayed using hcycle
  refine ⟨played, fun n hn hn' => (hplayed n hn hn').1, ?_⟩
  calc ∑ n ∈ Finset.Ico first last, onsets (fun t => n + t) (played n)
      = ∑ n ∈ Finset.Ico first last, ∑ c ∈ Finset.Ico lo hi,
          (onsets (fun t => (c + t) / factor) (subject c)).filter
            fun o => (n : Rat) ≤ o.time ∧ o.time < (n : Rat) + 1 := by
        refine Finset.sum_congr rfl fun n hn => ?_
        rw [Finset.mem_Ico] at hn
        exact (hplayed n hn.1 hn.2).2
    _ = ∑ c ∈ Finset.Ico lo hi, ∑ n ∈ Finset.Ico first last,
          (onsets (fun t => (c + t) / factor) (subject c)).filter
            fun o => (n : Rat) ≤ o.time ∧ o.time < (n : Rat) + 1 := Finset.sum_comm
    _ = ∑ c ∈ Finset.Ico lo hi, (onsets (fun t => (c + t) / factor) (subject c)).filter
          fun o => (first : Rat) ≤ o.time ∧ o.time < (last : Rat) :=
        Finset.sum_congr rfl fun c _ => sum_filter_unit _ first last
    _ = _ := (filter_sum_onsets (fun t => (first : Rat) ≤ t ∧ t < (last : Rat)) _ _).symm

end Rendering

/-! ## Queries -/

namespace Performance

/-- An onset that falls between two cycles at a new speed belongs to a cycle
of the subject in between. -/
theorem subject_cycle_bounds {factor : Rat} (hfactor : 0 < factor) {first last lo hi c : Int}
    (hlo : (lo : Rat) ≤ first * factor) (hhi : last * factor ≤ (hi : Rat)) {t : Rat} (hpos : 0 ≤ t)
    (hlt : t < 1) (hfirst : (first : Rat) ≤ (c + t) / factor) (hlast : (c + t) / factor < last) :
    lo ≤ c ∧ c < hi := by
  rw [le_div_iff₀ hfactor] at hfirst
  rw [div_lt_iff₀ hfactor] at hlast
  have hbelow : ((lo : Int) : Rat) < ((c + 1 : Int) : Rat) := by
    push_cast
    linarith
  have habove : ((c : Int) : Rat) < ((hi : Int) : Rat) := by linarith
  rw [Rat.intCast_lt_intCast] at hbelow habove
  omega

/-- The rendering of a pattern that is played at another speed. -/
theorem render_fast {s : Setting σ} {p : Pattern} {fast : Transform}
    (hname : s.transforms.get? "fast" = some fast) (haction : fast.action = .fast)
    {operand : Value} {factor : Rat} (hoperand : operand.toTime = .ok factor) :
    (Pattern.transform p "fast" [operand]).render s =
      Rendering.repeated factor (p.render s) :=
  Pattern.render_fast ⟨fast, hname, haction⟩ hoperand p

/-- **Speed**: a pattern without waves and random transforms, played `factor`
times as fast, has in any stretch of cycles exactly the onsets that fall into
it when the time of the pattern itself is divided by the factor.  The cycles
from `lo` to `hi` are some that take in the stretch at both speeds; no onset
of another cycle falls into it. -/
theorem onsets_fast {perf : Performance} {x : Pattern} (hx : x.Within .fixed perf.transforms)
    {fast : Transform} (hname : perf.transforms.get? "fast" = some fast)
    (haction : fast.action = .fast) {operand : Value} {factor : Rat}
    (hoperand : operand.toTime = .ok factor) (hfactor : 0 < factor) {first last lo hi : Int}
    (hne : first < last) (hlo : lo ≤ first ∧ (lo : Rat) ≤ first * factor)
    (hhi : last ≤ hi ∧ last * factor ≤ (hi : Rat)) {subject : Int → List Event}
    (hsubject : ∀ c, lo ≤ c → c < hi → perf.query x c none = .ok (subject c)) :
    (∀ c events, perf.query x c none = .ok events → ∀ e ∈ events,
      (first : Rat) ≤ (c + e.active.start) / factor → (c + e.active.start) / factor < last →
        lo ≤ c ∧ c < hi) ∧
    ∃ played : Int → List Event,
      (∀ n, first ≤ n → n < last →
        perf.query (.transform x "fast" [operand]) n none = .ok (played n)) ∧
      ∑ n ∈ Finset.Ico first last, Event.onsets (fun t => n + t) (played n) =
        (∑ c ∈ Finset.Ico lo hi, Event.onsets (fun t => (c + t) / factor) (subject c)).filter
          fun o => (first : Rat) ≤ o.time ∧ o.time < (last : Rat) := by
  constructor
  · intro c events h e he hfirst hlast
    obtain ⟨hcut, hpos, hend⟩ := perf.laid_query h e he
    exact subject_cycle_bounds hfactor hlo.2 hhi.2 hpos (lt_of_lt_of_le hcut.pos hend) hfirst hlast
  · obtain ⟨⟨policy, hpolicy⟩, -⟩ :=
      policy_stream_of_query (hsubject first hlo.1 (lt_of_lt_of_le hne hhi.1))
    have hrendered : ∀ c, ∃ rendered, lo ≤ c → c < hi →
        x.render (perf.setting policy) c Span.cycle = pure rendered ∧
          subject c = Event.sortByStart rendered ∧ ∀ e ∈ rendered, e ∈ subject c := by
      intro c
      by_cases hc : lo ≤ c ∧ c < hi
      · obtain ⟨rendered, h⟩ := render_of_query hx hpolicy (hsubject c hc.1 hc.2)
        exact ⟨rendered, fun _ _ => h⟩
      · exact ⟨[], fun h h' => absurd ⟨h, h'⟩ hc⟩
    choose rendered hrendered using hrendered
    have hportable : Rendering.Portable (x.render (perf.setting policy)) := fun c span _ offset h =>
      x.render_affine not_false hx c span h offset
    obtain ⟨played, hplayed, honsets⟩ := Rendering.onsets_stretch hportable hfactor hlo.2 hhi.2
      (fun c hc hc' => (hrendered c hc hc').1) fun c hc hc' e he =>
        perf.laid_query (hsubject c hc hc') e ((hrendered c hc hc').2.2 e he)
    refine ⟨fun n => Event.sortByStart (played n), fun n hn hn' => ?_, ?_⟩
    · obtain ⟨-, stream, hstream⟩ :=
        policy_stream_of_query (hsubject n (le_trans hlo.1 hn) (lt_of_lt_of_le hn' hhi.1))
      refine query_of_render hpolicy hstream ?_
      rw [render_fast hname haction hoperand]
      exact hplayed n hn hn'
    · have hsorted : ∑ c ∈ Finset.Ico lo hi, Event.onsets (fun t => (c + t) / factor) (subject c) =
          ∑ c ∈ Finset.Ico lo hi, Event.onsets (fun t => (c + t) / factor) (rendered c) := by
        refine Finset.sum_congr rfl fun c hc => ?_
        rw [Finset.mem_Ico] at hc
        rw [(hrendered c hc.1 hc.2).2.1, Event.onsets_sortByStart]
      rw [hsorted, ← honsets]
      exact Finset.sum_congr rfl fun n _ => Event.onsets_sortByStart _ _

/-- Two names at two thirds of the speed: three cycles have the onsets of two,
although the second cycle begins within an event. -/
theorem onsets_fast_two_thirds :
    let x := Pattern.sequence [.leaf (.text "a"), .leaf (.text "b")]
    ∃ played : Int → List Event,
      (∀ n, 0 ≤ n → n < 3 →
        default.query (.transform x "fast" [.number (.ratio (2 / 3))]) n none = .ok (played n)) ∧
      (∑ n ∈ Finset.Ico (0 : Int) 3, Event.onsets (fun t => n + t) (played n)).map (·.time) =
        {0, 3 / 4, 3 / 2, 9 / 4} := by
  intro x
  have hx : x.Within .fixed default.transforms := ⟨trivial, trivial, trivial⟩
  have hfast : ∃ fast, default.transforms.get? "fast" = some fast ∧ fast.action = .fast :=
    ⟨(default.transforms.get? "fast").get (by decide +kernel), (Option.some_get _).symm,
      by decide +kernel⟩
  obtain ⟨fast, hname, haction⟩ := hfast
  have hoperand : (Value.number (.ratio (2 / 3))).toTime = .ok (2 / 3) := rfl
  have hfound : ∀ c : Int, 0 ≤ c → c < 3 →
      default.query x c none = .ok ((default.query x c none).toOption.getD []) := by
    intro c hlo hhi
    have hsome : (default.query x c none).toOption.isSome := by
      have hc : c = 0 ∨ c = 1 ∨ c = 2 := by omega
      rcases hc with rfl | rfl | rfl <;> decide +kernel
    obtain ⟨events, hevents⟩ := ok_of_isSome hsome
    rw [hevents]
    rfl
  have hlo : (0 : Int) ≤ 0 ∧ ((0 : Int) : Rat) ≤ ((0 : Int) : Rat) * (2 / 3) := by decide +kernel
  have hhi : (3 : Int) ≤ 3 ∧ ((3 : Int) : Rat) * (2 / 3) ≤ ((3 : Int) : Rat) := by decide +kernel
  obtain ⟨-, played, hplayed, honsets⟩ := onsets_fast hx hname haction hoperand
    (by decide +kernel) (by decide) hlo hhi hfound
  refine ⟨played, hplayed, ?_⟩
  rw [honsets]
  decide +kernel

end Performance

end Ostinato
