import Ostinato.Proofs.Number.Chances
import Ostinato.Proofs.Rendering.Confinement

/-!
# Ostinato.Proofs.Rendering.Slides

What a wave does to events.

Nothing is said of the sine here but that it gives a double or fails: events are slid
along a wave whose height at each place is any double (`Rendering.modulatedBy`), and
the sine wave is one of those (`Rendering.modulated_eq`).  However high the wave, an
event is moved as a whole, and no further than the ends of the span
(`Event.SlidIn`); with an amount of zero it is not moved at all (`share_eq_zero`).
-/

namespace Ostinato

/-! ## Numbers -/

namespace Number

/-- A double that becomes cycle time has an exact value, near which the time is. -/
theorem toTime_float {y : Float} {t : Rat} (h : (float y).toTime = .ok t) :
    ∃ q, Double.toRat? y = some q ∧ t = closestFraction timeResolution q := by
  cases hy : Double.toRat? y with
  | none => simp [toTime, hy] at h
  | some q =>
      simp only [toTime, hy, Except.ok.injEq] at h
      exact ⟨q, rfl, h.symm⟩

end Number

namespace Value

/-- An operand with the value zero becomes a double with that value before it is
multiplied. -/
theorem scaledBy_zero {v : Value} (hzero : v.rational? = some 0) (x : Float) :
    ∃ z, Double.toRat? z = some 0 ∧ v.scaledBy x = .ok (z * x) := by
  unfold rational? at hzero
  cases hnumber : v.asNumber? with
  | none =>
      rw [hnumber] at hzero
      nomatch hzero
  | some a =>
      rw [hnumber] at hzero
      obtain ⟨z, p, hz, hnearest⟩ := Number.nearest_toFloat hzero le_rfl zero_le_one
      refine ⟨z, by rw [hnearest.1, hnearest.eq_self (.inl rfl)], ?_⟩
      simp only [scaledBy, hnumber, hz]
      rfl

end Value

namespace Event

/-! ## Shifts -/

@[simp] theorem shift_zero (e : Event) : e.shift 0 = e := by
  obtain ⟨value, active, part, whole⟩ := e
  cases whole <;> simp [shift, Span.shift]

/-- Moving an event keeps how long it lasts. -/
theorem duration_shift (e : Event) (delta : Rat) : (e.shift delta).duration = e.duration :=
  add_sub_add_right_eq_sub _ _ _

/-- The logical span of an event is moved with it. -/
theorem logical_shift (e : Event) (delta : Rat) :
    (e.shift delta).logical = e.logical.shift delta := by
  unfold logical shift
  cases e.whole <;> rfl

/-- Moving an event keeps its onset. -/
theorem hasOnset_shift (e : Event) (delta : Rat) : (e.shift delta).hasOnset = e.hasOnset := by
  rw [Bool.eq_iff_iff, hasOnset_iff, hasOnset_iff, logical_shift]
  exact add_left_inj delta

/-- What a slide inside a span makes of an event: its spans are moved by the same
time, nothing else changes, and it stays inside the span. -/
structure SlidIn (span : Span) (e e' : Event) : Prop where
  moved : ∃ delta, e'.active = e.active.shift delta ∧ e'.whole = e.whole.map (·.shift delta)
  value : e'.value = e.value
  part : e'.part = e.part
  duration : e'.duration = e.duration
  logical : e'.logical.length = e.logical.length
  onset : e'.hasOnset = e.hasOnset
  pos : e'.active.start < e'.active.stop
  inside : span.start ≤ e'.active.start ∧ e'.active.stop ≤ span.stop

/-- An event that is moved and stays in the span is slid inside it. -/
theorem slidIn_shift {span : Span} {e : Event} {delta : Rat} (pos : span.start < span.stop)
    (h : (e.shift delta).Laid span) : SlidIn span e (e.shift delta) where
  moved := ⟨delta, rfl, rfl⟩
  value := rfl
  part := rfl
  duration := duration_shift e delta
  logical := by
    rw [logical_shift]
    exact add_sub_add_right_eq_sub _ _ _
  onset := hasOnset_shift e delta
  pos := (h.forwards pos).1.pos
  inside := (h.forwards pos).2

end Event

namespace Rendering

open Drawing Event

variable {σ : Type}

/-! ## Waves of any height -/

/-- The subject with its events slid along a wave that has the given heights in
each cycle. -/
def modulatedBy (amount : Value) (height : Int → Rat → Except Fault Float)
    (subject : Rendering σ) : Rendering σ :=
  fun cycle span => do
    let events ← subject cycle span
    events.mapM fun e => liftM (slidBy amount (height cycle) span e)

/-- The sine wave is a wave. -/
theorem modulated_eq (amount rate : Value) (subject : Rendering σ) :
    modulated amount rate subject = modulatedBy amount (wave rate) subject := rfl

variable {amount : Value} {span : Span} {e e' : Event}

/-- Each event is slid, in its turn and without a draw. -/
theorem modulatedBy_eq_ok {height : Int → Rat → Except Fault Float} {subject : Rendering σ}
    {cycle : Int} {state state' : σ} {slid : List Event}
    (h : modulatedBy amount height subject cycle span state = .ok (slid, state')) :
    ∃ events, subject cycle span state = .ok (events, state') ∧
      List.Forall₂ (fun e e' => slidBy amount (height cycle) span e = .ok e') events slid := by
  obtain ⟨events, middle, hsubject, hslid⟩ := bind_eq_ok h
  rw [mapM_lift] at hslid
  cases hmap : events.mapM (slidBy amount (height cycle) span) with
  | error fault =>
      rw [hmap] at hslid
      nomatch hslid
  | ok es =>
      rw [hmap] at hslid
      obtain ⟨rfl, rfl⟩ := Prod.mk.inj (Except.ok.inj hslid)
      exact ⟨events, hsubject, forall₂_of_mapM hmap⟩

/-! ## No amount -/

/-- With an amount of zero, an event is moved by no share of the span, however high
the wave. -/
theorem share_eq_zero (hzero : amount.rational? = some 0) {x y : Float} {share : Rat}
    (hy : amount.scaledBy x = .ok y) (hshare : (Number.float y).toTime = .ok share) :
    share = 0 := by
  obtain ⟨z, hz, hscaled⟩ := Value.scaledBy_zero hzero x
  obtain rfl : z * x = y := Except.ok.inj (hscaled.symm.trans hy)
  obtain ⟨q, hq, rfl⟩ := Number.toTime_float hshare
  rw [Double.eq_zero_of_zero_mul hz hq]
  exact closestFraction_of_den_le (by decide)

/-- With an amount of zero, an event that lies in the span stays where it is. -/
theorem slidBy_zero (hzero : amount.rational? = some 0) {height : Rat → Except Fault Float}
    (hlow : span.start ≤ e.active.start) (hhigh : e.active.stop ≤ span.stop)
    (h : slidBy amount height span e = .ok e') : e' = e := by
  obtain ⟨x, y, share, hy, hshare, rfl⟩ := slidBy_eq_ok h
  have hroom : e.active.start ≤ span.stop - e.duration := by
    unfold duration Span.length
    linarith
  rw [share_eq_zero hzero hy hshare, zero_mul, add_zero, clampTime_eq_self hlow hroom, sub_self,
    shift_zero]

end Rendering

open Rendering in
/-- **Slides**: a modulation slides the events of its subject along a wave.  Whatever
the heights of the wave, if none of the events fails, they are those of the subject, in
the same order and after the same draws, each moved as a whole to a place inside the
span, with its value, its part, its lengths and its onset as before; and with an amount
of zero they are the same. -/
theorem Pattern.modulation_slides (p : Pattern) (amount rate : Value) {σ : Type} (s : Setting σ) :
    (Pattern.modulation p amount rate).render s =
      modulatedBy amount (wave rate) (p.render s) ∧
    ∀ (height : Int → Rat → Except Fault Float) (cycle : Int) (span : Span) (state state' : σ)
      (slid : List Event), span.start < span.stop →
      modulatedBy amount height (p.render s) cycle span state = .ok (slid, state') →
      ∃ events, p.render s cycle span state = .ok (events, state') ∧
        List.Forall₂ (Event.SlidIn span) events slid ∧
        (amount.rational? = some 0 → slid = events) := by
  refine ⟨modulated_eq amount rate (p.render s),
    fun height cycle span state state' slid pos h => ?_⟩
  obtain ⟨events, hsubject, hslid⟩ := modulatedBy_eq_ok h
  have hlaid : ∀ e ∈ events, e.Laid span := p.confined_render s _ _ _ _ _ hsubject
  refine ⟨events, hsubject, ?_, fun hzero => ?_⟩
  · refine List.forall₂_iff_get.mpr ⟨hslid.length_eq, fun i hi hi' => ?_⟩
    obtain ⟨x, y, share, -, -, heq⟩ := slidBy_eq_ok (hslid.get hi hi')
    rw [heq]
    exact Event.slidIn_shift pos (laid_shift (hlaid _ (List.get_mem events ⟨i, hi⟩)) _)
  · refine (List.ext_get hslid.length_eq fun i hi hi' => ?_).symm
    obtain ⟨-, hlow, hhigh⟩ := (hlaid _ (List.get_mem events ⟨i, hi⟩)).forwards pos
    exact (slidBy_zero hzero hlow hhigh (hslid.get hi hi')).symm

open Rendering in
/-- Two names slowed down by three halves, the second of them cut off: along a wave that
stands as the sine does at their onsets, the second is slid to the first quarter with all
of its logical span.  With no amount both stay. -/
theorem Pattern.modulation_slides_tail :
    let p := Pattern.transform (.sequence [.leaf (.text "a"), .leaf (.text "b")]) "slow"
      [.number (.ratio (3 / 2))]
    let s := Performance.default.setting Policy.roundRobin
    let height : Int → Rat → Except Fault Float :=
      fun _ place => .ok (if place = 0 then 0.0 else -1.0)
    let half := Value.number (.float 0.5)
    (∃ slid state' events,
      modulatedBy half height (p.render s) 0 Span.cycle ⟨#[], 0⟩ = .ok (slid, state') ∧
      slid.map (fun e => (e.active, e.whole)) =
        [(⟨0, 3 / 4⟩, none), (⟨1 / 4, 1 / 2⟩, some ⟨1 / 4, 1⟩)] ∧
      p.render s 0 Span.cycle ⟨#[], 0⟩ = .ok (events, state') ∧
      List.Forall₂ (Event.SlidIn Span.cycle) events slid) ∧
    ∃ slid state',
      modulatedBy (.int 0) height (p.render s) 0 Span.cycle ⟨#[], 0⟩ = .ok (slid, state') ∧
      p.render s 0 Span.cycle ⟨#[], 0⟩ = .ok (slid, state') ∧ slid.length = 2 := by
  intro p s height half
  have hslides := fun amount => (p.modulation_slides amount (.int 1) s).2 height 0 Span.cycle
    ⟨#[], 0⟩
  constructor
  · have hrun : (modulatedBy half height (p.render s) 0 Span.cycle ⟨#[], 0⟩).toOption.map
        (·.1.map fun e => (e.active, e.whole)) =
        some [(⟨0, 3 / 4⟩, none), (⟨1 / 4, 1 / 2⟩, some ⟨1 / 4, 1⟩)] := by decide +kernel
    obtain ⟨⟨slid, state'⟩, h, hspans⟩ := ok_of_toOption_map hrun
    obtain ⟨events, hsubject, hslid, -⟩ := hslides half state' slid (by decide) h
    exact ⟨slid, state', events, h, hspans, hsubject, hslid⟩
  · have hrun : (modulatedBy (.int 0) height (p.render s) 0 Span.cycle ⟨#[], 0⟩).toOption.map
        (·.1.length) = some 2 := by decide +kernel
    obtain ⟨⟨slid, state'⟩, h, htwo⟩ := ok_of_toOption_map hrun
    obtain ⟨events, hsubject, -, hsame⟩ := hslides (.int 0) state' slid (by decide) h
    rw [← hsame rfl] at hsubject
    exact ⟨slid, state', h, hsubject, htwo⟩

end Ostinato
