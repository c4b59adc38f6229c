import Ostinato.Proofs.Rendering.Gathering

/-!
# Ostinato.Proofs.Rendering.Repetition

Repetition of a repetition.

Factors multiply where the inner one is a whole number
(`Rendering.repeated_repeated`): its slots share the outer slots evenly, so
nothing is cut inside, and the cycles that are rendered for the outer slots at
the ends of the span, but lie outside it, are cut away whole.  They are rendered
though, so the subject must not draw and must not fail there.
-/

namespace Ostinato

variable {σ : Type}

namespace Rendering

open Drawing Event

variable {r : Rendering σ} {span : Span}

/-- The slots of a slot are slots of the span, at the product of the speeds. -/
theorem slot_slot {a b : Rat} (ha : a ≠ 0) (hb : b ≠ 0) (cycle c d : Int) (span : Span) :
    slot b c (slot a cycle span c) d = slot (a * b) cycle span d := by
  simp only [slot, place, Span.length, Span.mk.injEq]
  constructor <;> field_simp <;> ring

/-- A slot of the outer repetition shows as many slots of the inner one as its
factor says. -/
theorem shown_repeated (hr : Confined r) {a : Rat} (ha : 0 < a) {k : Nat} (hk : 0 < k)
    (cycle : Int) (pos : span.start < span.stop) (c : Int) :
    shown a (repeated k r) cycle span c = gatherFrom (shown (a * k) r cycle span) k (c * k) := by
  have hfactor : (0 : Rat) < k := by exact_mod_cast hk
  have hslot : (slot a cycle span c).start < (slot a cycle span c).stop := slot_pos ha pos
  unfold shown
  rw [repeated_natCast hk, gatherFrom_map (F := clip span) rfl (clip_append span)]
  refine gatherFrom_congr k _ fun d hlo hhi => ?_
  have hfirst : (c : Rat) * k ≤ d := by exact_mod_cast hlo
  have hlast : (d : Rat) + 1 ≤ ((c : Rat) + 1) * k := by
    have hnext : d + 1 ≤ (c + 1) * k := by
      rw [Int.add_mul, Int.one_mul]
      omega
    exact_mod_cast hnext
  rw [shown_eq hr hfactor hslot hfirst hlast, slot_slot ha.ne' hfactor.ne']

/-- The cycles shown at the product of the speeds are among those rendered at
the one speed after the other. -/
theorem stretch_within {a : Rat} (ha : 0 ≤ a) (k : Nat) (cycle : Int) :
    ∃ before after : Nat,
      (cycle * a : Rat).floor * k + before = (cycle * (a * k) : Rat).floor ∧
      ((((cycle + 1 : Int) : Rat) * a).ceil - (cycle * a : Rat).floor).toNat * k =
        before + ((((cycle + 1 : Int) : Rat) * (a * k)).ceil -
          (cycle * (a * k) : Rat).floor).toNat + after := by
  have hk : (0 : Rat) ≤ k := Nat.cast_nonneg k
  have hfirst : (cycle * a : Rat).floor * k ≤ (cycle * (a * k) : Rat).floor := by
    rw [Rat.le_floor_iff, ← mul_assoc]
    push_cast
    exact mul_le_mul_of_nonneg_right (Rat.floor_le _) hk
  have hlast : (((cycle + 1 : Int) : Rat) * (a * k)).ceil ≤
      (((cycle + 1 : Int) : Rat) * a).ceil * k := by
    rw [Rat.ceil_le_iff, ← mul_assoc, Int.cast_mul]
    exact mul_le_mul_of_nonneg_right Rat.le_ceil hk
  have horder := first_le_last ha cycle
  have horder' := first_le_last (mul_nonneg ha hk) cycle
  obtain ⟨m, hm⟩ := Int.eq_ofNat_of_zero_le (Int.sub_nonneg_of_le horder)
  obtain ⟨before, hbefore⟩ := Int.eq_ofNat_of_zero_le (Int.sub_nonneg_of_le hfirst)
  obtain ⟨after, hafter⟩ := Int.eq_ofNat_of_zero_le (Int.sub_nonneg_of_le hlast)
  refine ⟨before, after, by omega, ?_⟩
  have hlength : (((cycle + 1 : Int) : Rat) * a).ceil * k =
      (cycle * a : Rat).floor * k + (m * k : Nat) := by
    rw [Nat.cast_mul, ← Int.add_mul]
    congr 1
    omega
  rw [hm, Int.toNat_natCast]
  omega

/-- Speeds multiply, if the inner one is a whole number and the subject does not
draw. -/
theorem repeated_repeated (hr : Confined r) (hfixed : ∀ cycle span, (r cycle span).Fixed) {a : Rat}
    (ha : 0 < a) {k : Nat} (hk : 0 < k) (cycle : Int) (pos : span.start < span.stop) {state : σ}
    {result : List Event × σ} (hrun : repeated a (repeated k r) cycle span state = .ok result) :
    repeated a (repeated k r) cycle span = repeated (a * k) r cycle span := by
  have hfactor : (0 : Rat) < a * k := mul_pos ha (by exact_mod_cast hk)
  have hshown : shown a (repeated k r) cycle span =
      fun c => gatherFrom (shown (a * k) r cycle span) k (c * k) :=
    funext (shown_repeated hr ha hk cycle pos)
  obtain ⟨before, after, hfirst, hcount⟩ := stretch_within ha.le k cycle
  rw [repeated_eq_gatherFrom ha.ne', hshown, gatherFrom_mul, hcount] at hrun ⊢
  rw [repeated_eq_gatherFrom hfactor.ne', ← hfirst]
  rw [← hfirst] at hrun
  refine gatherFrom_trim (fixed_shown hfixed _ cycle span) _ _ _ _ (fun c _ hc => ?_)
    (fun c hc => ?_) hrun
  · have hbefore : (c : Rat) + 1 ≤ cycle * (a * k) := by
      have hle : c + 1 ≤ (cycle * (a * k) : Rat).floor := by omega
      exact_mod_cast Rat.le_floor_iff.mp hle
    exact shown_silent hr hfactor pos (.inl hbefore)
  · have hafter : ((cycle : Rat) + 1) * (a * k) ≤ c := by
      have hle : (((cycle + 1 : Int) : Rat) * (a * k)).ceil ≤ c := by omega
      have hreal := Rat.ceil_le_iff.mp hle
      push_cast at hreal
      exact hreal
    exact shown_silent hr hfactor pos (.inr hafter)

/-- Repeating once changes nothing in a span that runs forwards. -/
theorem repeated_one (hr : Confined r) (cycle : Int) (pos : span.start < span.stop) :
    repeated 1 r cycle span = r cycle span := by
  have hone := repeated_natCast Nat.one_pos r cycle span
  rw [Nat.cast_one, gatherFrom_one, Nat.cast_one, Int.mul_one] at hone
  rw [hone, shown_eq hr one_pos pos (by rw [mul_one]) (by rw [mul_one]), slot_one]

end Rendering

namespace Performance

/-- **Repetition**: playing `a` times as fast what plays `k` times as fast is
playing `a * k` times as fast, for a whole number `k` and a pattern without
random draws, where it can be rendered.  Playing once as fast changes nothing
in any pattern, so playing `k` times as slow undoes playing `k` times as fast. -/
theorem query_fast_fast {perf : Performance} (hfast : perf.transforms.Acts "fast" .fast)
    (hslow : perf.transforms.Acts "slow" .slow) (x : Pattern) (cycle : Int) :
    (x.Within .certain perf.transforms → ∀ (a : Rat) (k : Nat) (outer inner product : Value),
      0 < a → 0 < k → outer.toTime = .ok a → inner.toTime = .ok (k : Rat) →
      product.toTime = .ok (a * k) → ∀ events,
        perf.query (.transform (.transform x "fast" [inner]) "fast" [outer]) cycle none =
          .ok events →
        ∀ arc, perf.query (.transform (.transform x "fast" [inner]) "fast" [outer]) cycle arc =
          perf.query (.transform x "fast" [product]) cycle arc) ∧
    (∀ once : Value, once.toTime = .ok 1 → ∀ arc,
      perf.query (.transform x "fast" [once]) cycle arc = perf.query x cycle arc) ∧
    (x.Within .certain perf.transforms → ∀ (k : Nat) (operand : Value), 0 < k →
      operand.toTime = .ok (k : Rat) → ∀ events,
        perf.query (.transform (.transform x "fast" [operand]) "slow" [operand]) cycle none =
          .ok events →
        ∀ arc, perf.query (.transform (.transform x "fast" [operand]) "slow" [operand]) cycle arc =
          perf.query x cycle arc) := by
  have hpos : Span.cycle.start < Span.cycle.stop := by decide
  refine ⟨fun hx a k outer inner product ha hk houter hinner hproduct events hquery => ?_,
    fun once honce => query_congr fun policy _ => ?_,
    fun hx k operand hk hoperand events hquery => ?_⟩
  · refine query_eq_of_query hquery fun policy state result _ hrun => ?_
    rw [Pattern.render_fast hfast houter, Pattern.render_fast hfast hinner] at hrun ⊢
    rw [Pattern.render_fast hfast hproduct]
    exact Rendering.repeated_repeated (x.confined_render _)
      (x.fixed_render Fragment.isCertain_certain hx) ha hk cycle hpos hrun
  · rw [Pattern.render_fast hfast honce]
    exact Rendering.repeated_one (x.confined_render _) cycle hpos
  · have hfactor : (0 : Rat) < k := by exact_mod_cast hk
    refine query_eq_of_query hquery fun policy state result _ hrun => ?_
    rw [Pattern.render_slow hslow hoperand, if_neg hfactor.ne',
      Pattern.render_fast hfast hoperand] at hrun ⊢
    rw [Rendering.repeated_repeated (x.confined_render _)
      (x.fixed_render Fragment.isCertain_certain hx) (one_div_pos.mpr hfactor) hk cycle hpos hrun,
      one_div_mul_cancel hfactor.ne']
    exact Rendering.repeated_one (x.confined_render _) cycle hpos

/-- One and a half times twice as fast, and three times as slow, before cycle
zero. -/
theorem query_fast_fast_halves :
    let x := Pattern.sequence [.leaf (.text "a"), .parallel [.leaf (.int 1), .leaf (.text "b")]]
    let halves := Value.number (.ratio (3 / 2))
    (∃ events, default.query (.transform (.transform x "fast" [.int 2]) "fast" [halves]) (-1) none =
        .ok events ∧ default.query (.transform x "fast" [.int 3]) (-1) none = .ok events ∧
      events.length = 6) ∧
    default.query (.transform x "fast" [.int 1]) (-1) none = default.query x (-1) none ∧
    default.query (.transform (.transform x "fast" [.int 3]) "slow" [.int 3]) (-1) none =
      default.query x (-1) none := by
  intro x halves
  have hfast : default.transforms.Acts "fast" .fast := ⟨_, rfl, rfl⟩
  have hslow : default.transforms.Acts "slow" .slow := ⟨_, rfl, rfl⟩
  have hwithin : x.Within .certain default.transforms :=
    ⟨trivial, ⟨trivial, trivial, trivial⟩, trivial⟩
  obtain ⟨hproduct, honce, hback⟩ := query_fast_fast hfast hslow x (-1)
  have hfound : (default.query (.transform (.transform x "fast" [.int 2]) "fast" [halves])
      (-1) none).toOption.map List.length = some 6 := by
    decide +kernel
  obtain ⟨events, hquery, hlength⟩ := ok_of_toOption_map hfound
  have hsame := hproduct hwithin (3 / 2) 2 halves (.int 2) (.int 3) (by decide +kernel) two_pos
    rfl rfl (by decide +kernel) events hquery none
  have hslowed : (default.query (.transform (.transform x "fast" [.int 3]) "slow" [.int 3])
      (-1) none).toOption.isSome := by
    decide +kernel
  obtain ⟨undone, hundone⟩ := ok_of_isSome hslowed
  exact ⟨⟨events, hquery, hsame.symm.trans hquery, hlength⟩, honce (.int 1) rfl none,
    hback hwithin 3 (.int 3) three_pos rfl undone hundone none⟩

end Performance

end Ostinato
