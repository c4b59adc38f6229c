import Mathlib.Data.Rat.Lemmas
import Ostinato.Proofs.Event.Affine
import Ostinato.Proofs.Rendering.Closure
import Ostinato.Proofs.Rendering.Drawing

/-!
# Ostinato.Proofs.Rendering.Affine

Renderings do not depend on where they are laid out.

Without waves, rendering a pattern in a span that was scaled and moved gives
the events of the span itself, scaled and moved alike, with the same draws and
the same failures: `Pattern.render_affine`.  Each combinator computes the spans
of its parts from the ends of its own, so the law is proved for each of them
and holds of all patterns by closure.
-/

namespace Ostinato

namespace Rendering

open Event

variable {σ : Type}

/-- The events of a computation under the map that takes `t` to
`scale * t + offset`. -/
def carried (scale offset : Rat) (m : Drawing σ (List Event)) : Drawing σ (List Event) :=
  List.map (Event.affine scale offset) <$> m

/-- A rendering that does not depend on the place and the size of its span. -/
def Portable (r : Rendering σ) : Prop :=
  ∀ (cycle : Int) (span : Span) (scale offset : Rat), 0 < scale →
    r cycle (span.affine scale offset) = carried scale offset (r cycle span)

variable {scale offset : Rat}

/-! ## Computations under the map -/

theorem carried_pure (events : List Event) :
    carried scale offset (pure events : Drawing σ (List Event)) =
      pure (events.map (Event.affine scale offset)) := map_pure _ _

/-- What a computation begins with does not take part in the map of its events. -/
theorem carried_bind {α : Type} (m : Drawing σ α) (f : α → Drawing σ (List Event)) :
    carried scale offset (m >>= f) = m >>= fun a => carried scale offset (f a) := map_bind _ _ _

/-- Going on after a computation under the map. -/
theorem bind_carried {α : Type} (m : Drawing σ (List Event)) (f : List Event → Drawing σ α) :
    carried scale offset m >>= f = m >>= fun events => f (events.map (Event.affine scale offset)) :=
  bind_map_left _ _ _

/-- Events of two computations in a row are mapped together. -/
theorem carried_append (m n : Drawing σ (List Event)) :
    (do
      let events ← carried scale offset m
      let rest ← carried scale offset n
      pure (events ++ rest)) =
    carried scale offset (do
      let events ← m
      let rest ← n
      pure (events ++ rest)) := by
  simp only [bind_carried, carried_bind, carried_pure, List.map_append]

/-- Cycles gathered one after the other go along with the map if each of them does. -/
theorem gatherFrom_carried {f g : Int → Drawing σ (List Event)}
    (h : ∀ c, f c = carried scale offset (g c)) (count : Nat) (first : Int) :
    gatherFrom f count first = carried scale offset (gatherFrom g count first) := by
  induction count generalizing first with
  | zero => exact (carried_pure []).symm
  | succ count ih => rw [gatherFrom, gatherFrom, h first, ih, carried_append]

/-- Mapping the events of a computation one by one, by a map that goes along
with the affine one. -/
theorem mapM_carried {f : Event → Except Fault Event}
    (h : ∀ e, f (e.affine scale offset) = Event.affine scale offset <$> f e)
    (events : List Event) :
    ((events.map (Event.affine scale offset)).mapM fun e => (liftM (f e) : Drawing σ Event)) =
      carried scale offset (events.mapM fun e => liftM (f e)) := by
  induction events with
  | nil => exact (carried_pure []).symm
  | cons e events ih =>
      have hlift : (liftM (Event.affine scale offset <$> f e) : Drawing σ Event) =
          Event.affine scale offset <$> liftM (f e) := by
        cases f e <;> rfl
      rw [List.map_cons, List.mapM_cons, List.mapM_cons, h, hlift, ih]
      simp only [bind_map_left, bind_carried, carried_bind, carried_pure, List.map_cons]

/-! ## Groups -/

/-- Slots in a row are laid out from a start and a width, and so are mapped with
them. -/
theorem slots_portable {cycle : Int} {start width : Rat} {rs : List (Rendering σ)}
    (hscale : 0 < scale) (h : ∀ r ∈ rs, Portable r) (count : Nat) :
    slots cycle (scale * start + offset) (scale * width) count rs =
      carried scale offset (slots cycle start width count rs) := by
  induction rs generalizing count with
  | nil => exact (carried_pure []).symm
  | cons r rs ih =>
      rw [slots, slots, ← Span.affine_step, h r List.mem_cons_self _ _ _ _ hscale,
        ih (fun r' hr' => h r' (List.mem_cons_of_mem r hr')), carried_append]

/-- Children in a row share the length of the span. -/
theorem portable_sequence {rs : List (Rendering σ)} (h : ∀ r ∈ rs, Portable r) :
    Portable (sequence rs) := by
  intro cycle span scale offset hscale
  unfold sequence
  rw [Span.length_affine, mul_div_assoc]
  exact slots_portable hscale h 0

/-- Whose turn it is depends on the cycle alone. -/
theorem portable_parallel (choose : Int → Int → Except Fault Int) {rs : List (Rendering σ)}
    (h : ∀ r ∈ rs, Portable r) : Portable (parallel choose rs) := by
  intro cycle span scale offset hscale
  unfold parallel
  split
  · exact (carried_pure []).symm
  · rw [carried_bind]
    refine bind_congr fun pick => ?_
    simp only [List.getD_eq_getElem?_getD]
    cases hr : rs[(pick.emod rs.length).toNat]? with
    | none => exact (carried_pure []).symm
    | some r => exact h r (List.mem_of_getElem? hr) _ _ _ _ hscale

/-- Scaling keeps the sign. -/
theorem sign_num_scaled (hscale : 0 < scale) (x : Rat) : (scale * x).num.sign = x.num.sign := by
  rcases lt_trichotomy x 0 with hneg | hzero | hpos
  · rw [Int.sign_eq_neg_one_of_neg (Rat.num_neg.mpr hneg),
      Int.sign_eq_neg_one_of_neg (Rat.num_neg.mpr (mul_neg_of_pos_of_neg hscale hneg))]
  · rw [hzero, mul_zero]
  · rw [Int.sign_eq_one_of_pos (Rat.num_pos.mpr hpos),
      Int.sign_eq_one_of_pos (Rat.num_pos.mpr (mul_pos hscale hpos))]

/-- Dividing a scaled length scales the quotient; the fault of dividing by
zero shows only the sign of the length. -/
theorem divide_scaled (hscale : 0 < scale) (length : Rat) (parts : Int) :
    divide (scale * length) parts = (scale * ·) <$> divide length parts := by
  unfold divide
  by_cases hparts : parts = 0
  · rw [if_pos hparts, if_pos hparts, sign_num_scaled hscale]
    rfl
  · rw [if_neg hparts, if_neg hparts, mul_div_assoc]
    rfl

/-- Going on with a scaled quotient. -/
theorem divide_scaled_bind (hscale : 0 < scale) (length : Rat) (parts : Int) {α : Type}
    (f : Rat → Drawing σ α) :
    ((liftM (divide (scale * length) parts) : Drawing σ Rat) >>= f) =
      (liftM (divide length parts) : Drawing σ Rat) >>= fun width => f (scale * width) := by
  rw [divide_scaled hscale]
  cases divide length parts <;> rfl

/-- The steps of a rhythm share the length of the span, and a rest plays nothing in
any span. -/
theorem portable_euclidean (steps pulses rotation : Int) {r : Rendering σ} (h : Portable r) :
    Portable (euclidean steps pulses rotation r) := by
  intro cycle span scale offset hscale
  unfold euclidean
  rw [Span.length_affine, divide_scaled_bind hscale, carried_bind]
  refine bind_congr fun width => ?_
  rw [carried_bind]
  refine bind_congr fun mask => slots_portable hscale (fun r' hr' => ?_) 0
  rw [List.mem_map] at hr'
  obtain ⟨hit, -, rfl⟩ := hr'
  cases hit with
  | true => exact h
  | false => exact fun _ _ _ _ _ => (carried_pure []).symm

/-! ## Repetition and order -/

/-- Each slot of a repetition is a place in the span, which is mapped with it, and
clipping goes through the map. -/
theorem portable_repeated (factor : Rat) {r : Rendering σ} (h : Portable r) :
    Portable (repeated factor r) := by
  intro cycle span scale offset hscale
  unfold repeated
  split
  · exact (carried_pure []).symm
  · refine gatherFrom_carried (fun c => ?_) _ _
    have hslot : ∀ place width : Rat,
        (⟨(span.affine scale offset).start + place * ((span.affine scale offset).length / factor),
          (span.affine scale offset).start + place * ((span.affine scale offset).length / factor) +
            (span.affine scale offset).length / factor⟩ : Span) =
        Span.affine ⟨span.start + place * (span.length / factor),
          span.start + place * (span.length / factor) + span.length / factor⟩ scale offset := by
      intro place width
      rw [Span.length_affine, mul_div_assoc]
      unfold Span.affine
      rw [Span.mk.injEq]
      constructor <;> ring
    simp only
    rw [hslot _ 0, h c _ _ _ hscale, bind_carried, carried_bind]
    refine bind_congr fun events => ?_
    rw [carried_pure, clip_affine hscale]

/-- Playing backwards reflects about the ends of the span, which are mapped with it. -/
theorem portable_reversed {r : Rendering σ} (h : Portable r) : Portable (reversed r) := by
  intro cycle span scale offset hscale
  unfold reversed
  rw [h cycle span _ _ hscale, bind_carried, carried_bind]
  refine bind_congr fun events => ?_
  rw [carried_pure, reflected_affine]

/-- The halves of a palindrome meet in the middle of the span. -/
theorem portable_palindrome {r : Rendering σ} (h : Portable r) : Portable (palindrome r) := by
  intro cycle span scale offset hscale
  have hmiddle : ((span.affine scale offset).start + (span.affine scale offset).stop) / 2 =
      scale * ((span.start + span.stop) / 2) + offset := by
    unfold Span.affine
    ring
  have hfirst : (⟨(span.affine scale offset).start, scale * ((span.start + span.stop) / 2) +
      offset⟩ : Span) = Span.affine ⟨span.start, (span.start + span.stop) / 2⟩ scale offset := rfl
  have hsecond : (⟨scale * ((span.start + span.stop) / 2) + offset,
      (span.affine scale offset).stop⟩ : Span) =
      Span.affine ⟨(span.start + span.stop) / 2, span.stop⟩ scale offset := rfl
  unfold palindrome
  simp only
  rw [hmiddle, hfirst, hsecond, h cycle _ _ _ hscale, h cycle _ _ _ hscale, bind_carried,
    carried_bind]
  refine bind_congr fun forward => ?_
  rw [bind_carried, carried_bind]
  refine bind_congr fun backward => ?_
  rw [carried_pure, reflected_affine, List.map_append]

/-! ## Single events -/

/-- The pieces of a carried event are its pieces, carried alike. -/
theorem pieces_affine (hscale : 0 < scale) (parts : Int) (e : Event) :
    pieces parts (e.affine scale offset) =
      List.map (Event.affine scale offset) <$> pieces parts e := by
  unfold pieces
  rw [logical_affine, Span.length_affine, divide_scaled hscale]
  cases divide e.logical.length parts with
  | error fault => rfl
  | ok width =>
      have hpieces : (List.range parts.toNat).map (fun i : Nat => (⟨(e.affine scale offset).value,
          Span.step (e.logical.affine scale offset).start (scale * width) i, some (i : Int),
          none⟩ : Event)) =
          ((List.range parts.toNat).map fun i : Nat =>
            (⟨e.value, Span.step e.logical.start width i, some (i : Int), none⟩ : Event)).map
              (Event.affine scale offset) := by
        rw [List.map_map]
        refine List.map_congr_left fun i _ => ?_
        rw [Function.comp_apply, Event.affine, Event.affine, Span.affine_step]
        rfl
      change Except.ok (clip (e.active.affine scale offset) _) = _
      rw [hpieces, clip_affine hscale]
      rfl

/-- Pieces of an event that was mapped are the mapped pieces. -/
theorem portable_chopped (parts : Int) {r : Rendering σ} (h : Portable r) :
    Portable (chopped parts r) := by
  intro cycle span scale offset hscale
  unfold chopped
  rw [h cycle span _ _ hscale, bind_carried, carried_bind]
  refine bind_congr fun events => ?_
  induction events with
  | nil => exact (carried_pure []).symm
  | cons e events ih =>
      have hlift : (liftM (List.map (Event.affine scale offset) <$> pieces parts e) :
          Drawing σ (List Event)) = carried scale offset (liftM (pieces parts e)) := by
        cases pieces parts e <;> rfl
      rw [List.map_cons, gather, gather, ih, pieces_affine hscale, hlift, carried_append]

/-- What is dropped depends on the draws alone, not on where the events are. -/
theorem thin_carried (draw : σ → Rat × σ) (probability : Float) (events : List Event) :
    thin draw probability (events.map (Event.affine scale offset)) =
      carried scale offset (thin draw probability events) := by
  induction events with
  | nil => exact (carried_pure []).symm
  | cons e events ih =>
      rw [List.map_cons, thin, thin, ih, carried_bind]
      refine bind_congr fun x => ?_
      rw [bind_carried, carried_bind]
      refine bind_congr fun rest => ?_
      rw [carried_pure]
      split <;> rfl

/-- Dropping events at random takes place after they are laid out. -/
theorem portable_degraded (draw : σ → Rat × σ) (probability : Float) {r : Rendering σ}
    (h : Portable r) : Portable (degraded draw probability r) := by
  intro cycle span scale offset hscale
  unfold degraded
  rw [h cycle span _ _ hscale, bind_carried, carried_bind]
  exact bind_congr fun events => thin_carried draw probability events

/-- Arithmetic on the value of a carried event. -/
theorem computed_affine (op : Operator) (operand : Value) (e : Event) :
    computed op operand (e.affine scale offset) =
      Event.affine scale offset <$> computed op operand e := by
  obtain ⟨value, active, part, whole⟩ := e
  cases value with
  | number x =>
      unfold computed Event.affine
      simp only
      cases Value.combine op x operand <;> rfl
  | _ => rfl

/-- Arithmetic changes the value of an event and leaves its spans as they are. -/
theorem portable_calculated (op : Operator) (operand : Value) {r : Rendering σ}
    (h : Portable r) : Portable (calculated op operand r) := by
  intro cycle span scale offset hscale
  unfold calculated
  rw [h cycle span _ _ hscale, bind_carried, carried_bind]
  exact bind_congr fun events => mapM_carried (computed_affine op operand) events

/-! ## All patterns -/

/-- Every combinator but the wave is portable. -/
theorem closed_portable (s : Setting σ) {F : Fragment} (hF : ¬ F.sliding) :
    s.Closed F Portable where
  failed _ := fun _ _ _ _ _ => rfl
  decided f r h := fun cycle span scale offset hscale => by
    rw [carried_bind]
    exact bind_congr fun i => h i cycle span scale offset hscale
  drawn _ r h := fun cycle span scale offset hscale => by
    rw [carried_bind]
    exact bind_congr fun x => h x cycle span scale offset hscale
  leaf value := fun _ span _ _ _ => (carried_pure [⟨value, span, none, none⟩]).symm
  sequence _ h := portable_sequence h
  parallel _ h := portable_parallel s.choose h
  euclidean steps pulses rotation _ h := portable_euclidean steps pulses rotation h
  repeated factor _ h := portable_repeated factor h
  reversed _ h := portable_reversed h
  palindrome _ h := portable_palindrome h
  chopped parts _ h := portable_chopped parts h
  degraded _ probability _ h := portable_degraded s.draw probability h
  calculated op operand _ h := portable_calculated op operand h
  modulated sliding := absurd sliding hF

end Rendering

/-- **Portability**: without waves, rendering in a scaled and moved span
scales and moves the events, and changes neither draws nor failures. -/
theorem Pattern.render_affine {σ : Type} {s : Setting σ} {F : Fragment} (hF : ¬ F.sliding)
    {p : Pattern} (hp : p.Within F s.transforms) (cycle : Int) (span : Span) {scale : Rat}
    (hscale : 0 < scale) (offset : Rat) :
    p.render s cycle (span.affine scale offset) =
      Rendering.carried scale offset (p.render s cycle span) :=
  p.render_closed (Rendering.closed_portable s hF) hp cycle span scale offset hscale

/-- **Position independence**: what a pattern without waves renders in one span,
it renders in any other from the same draws: the same events in the same order,
carried over by the affine map that takes the ends of the one span to the ends
of the other.  The draws that are left are the same too. -/
theorem Pattern.render_elsewhere {σ : Type} {s : Setting σ} {p : Pattern}
    (hp : p.Within .still s.transforms) (cycle : Int) {here there : Span}
    (hhere : here.start < here.stop) (hthere : there.start < there.stop) {state state' : σ}
    {events : List Event} (h : p.render s cycle here state = .ok (events, state')) :
    ∃ scale offset : Rat, scale * here.start + offset = there.start ∧
      scale * here.stop + offset = there.stop ∧
      p.render s cycle there state = .ok (events.map (Event.affine scale offset), state') := by
  obtain ⟨scale, offset, hscale, hmap⟩ := Span.exists_affine hhere hthere
  refine ⟨scale, offset, congrArg Span.start hmap, congrArg Span.stop hmap, ?_⟩
  rw [← hmap, p.render_affine not_false hp cycle here hscale offset]
  change Except.map _ (p.render s cycle here state) = _
  rw [h]
  rfl

/-- Three items played once in two and a half cycles, cut in two and thinned:
the second cycle shows three pieces, the first of them a tail, and so does a
span of half its length. -/
theorem Pattern.render_elsewhere_slow_chop :
    let p := Pattern.transform (.transform (.transform (.sequence
      [.leaf (.text "a"), .leaf (.int 1), .leaf (.text "c")]) "slow" [.number (.ratio (5 / 2))])
        "chop" [.int 2]) "degrade" []
    let s : Setting Nat := ⟨fun n => (n / 8, n + 1), fun _ _ => .ok 0, Transform.builtin⟩
    ∃ events, p.render s 1 Span.cycle 4 = .ok (events, 7) ∧
      events.map (·.hasOnset) = [false, true, true] ∧
      ∃ scale offset : Rat, scale * 0 + offset = 1 / 3 ∧ scale * 1 + offset = 5 / 6 ∧
        p.render s 1 ⟨1 / 3, 5 / 6⟩ 4 = .ok (events.map (Event.affine scale offset), 7) := by
  intro p s
  have hp : p.Within .still s.transforms :=
    ⟨⟨⟨⟨trivial, trivial, trivial, trivial⟩, fun _ _ => trivial, trivial⟩,
      fun _ _ => trivial, trivial⟩, fun _ _ => trivial, trivial⟩
  have hfound : (p.render s 1 Span.cycle 4).toOption.map
      (fun r => (r.1.map (·.hasOnset), r.2)) = some ([false, true, true], 7) := by
    decide +kernel
  obtain ⟨r, h, hr⟩ := ok_of_toOption_map hfound
  rw [Prod.mk.injEq] at hr
  have hrender : p.render s 1 Span.cycle 4 = .ok (r.1, 7) := by
    rw [h, ← hr.2]
  have hthere : (⟨1 / 3, 5 / 6⟩ : Span).start < (⟨1 / 3, 5 / 6⟩ : Span).stop := by decide +kernel
  exact ⟨r.1, hrender, hr.1, p.render_elsewhere hp 1 (by decide) hthere hrender⟩

end Ostinato
