import Ostinato.Proofs.Rendering.Affine
import Ostinato.Proofs.Rendering.Gathering
import Ostinato.Proofs.Rendering.Order

/-!
# Ostinato.Proofs.Rendering.Reversal

Patterns played backwards.

1. Reflecting twice changes nothing, so playing backwards undoes itself, in any
   pattern (`Rendering.reversed_reversed`).
2. What does not depend on its place plays backwards in a reflected span what it
   plays in the span itself, reflected (`Rendering.Portable.reversed_reflect`).
3. So a group backwards has its children backwards, in reverse order
   (`Rendering.reversed_sequence`), and a palindrome is the same in both
   directions (`Rendering.reversed_palindrome`).
-/

namespace Ostinato

variable {σ : Type}

namespace Event

/-! ## Reflection -/

/-- Events reflected about half of `pivot`, last to first. -/
def mirrored (pivot : Rat) (events : List Event) : List Event :=
  events.reverse.map (·.reflect pivot)

/-- Playing backwards reflects events about the sum of the ends of the span. -/
theorem reflected_eq_mirrored (span : Span) (events : List Event) :
    reflected span events = mirrored (span.start + span.stop) events := rfl

/-- Reflecting an event twice changes nothing. -/
theorem reflect_reflect (e : Event) (pivot : Rat) : (e.reflect pivot).reflect pivot = e := by
  obtain ⟨value, active, part, whole⟩ := e
  cases whole <;> simp [reflect, Span.reflect_reflect]

/-- Events in a row are reflected the last first. -/
theorem mirrored_append (pivot : Rat) (events later : List Event) :
    mirrored pivot (events ++ later) = mirrored pivot later ++ mirrored pivot events := by
  simp [mirrored]

/-- Reflecting events twice changes nothing, their order included. -/
theorem mirrored_mirrored (pivot : Rat) (events : List Event) :
    mirrored pivot (mirrored pivot events) = events := by
  simp [mirrored, Function.comp_def, reflect_reflect]

/-- A pivot that moves along with an event. -/
theorem reflect_affine_one (e : Event) (pivot offset : Rat) :
    (e.affine 1 offset).reflect (pivot + offset) = e.reflect pivot := by
  have hspan : ∀ s : Span, (s.affine 1 offset).reflect (pivot + offset) = s.reflect pivot := by
    intro s
    simp only [Span.affine, Span.reflect, Span.mk.injEq]
    constructor <;> ring
  obtain ⟨value, active, part, whole⟩ := e
  cases whole <;> simp [reflect, affine, hspan]

/-- Events moved along with the pivot are reflected to where they were. -/
theorem mirrored_affine_one (events : List Event) (pivot offset : Rat) :
    mirrored (pivot + offset) (events.map (Event.affine 1 offset)) = mirrored pivot events := by
  simp [mirrored, ← List.map_reverse, Function.comp_def, reflect_affine_one]

end Event

/-- A reflected span is the span moved. -/
theorem Span.reflect_eq_affine (s : Span) (pivot : Rat) :
    s.reflect pivot = s.affine 1 (pivot - (s.start + s.stop)) := by
  simp only [reflect, affine, mk.injEq]
  constructor <;> ring

namespace Rendering

open Event

variable {r : Rendering σ} {rs : List (Rendering σ)} {cycle : Int} {span : Span}

/-! ## Twice backwards -/

/-- Playing backwards twice changes nothing. -/
theorem reversed_reversed (r : Rendering σ) : reversed (reversed r) = r := by
  funext cycle span
  simp only [reversed, bind_assoc, pure_bind, reflected_eq_mirrored, mirrored_mirrored, bind_pure]

/-! ## Backwards in another place -/

/-- What does not depend on its place plays backwards in a reflected span what it
plays, reflected. -/
theorem Portable.reversed_reflect (h : Portable r) (cycle : Int) (span : Span) (pivot : Rat) :
    reversed r cycle (span.reflect pivot) = mirrored pivot <$> r cycle span := by
  have hpivot : (span.reflect pivot).start + (span.reflect pivot).stop =
      pivot + (pivot - (span.start + span.stop)) := by
    simp only [Span.reflect]
    ring
  have hplace : r cycle (span.reflect pivot) =
      carried 1 (pivot - (span.start + span.stop)) (r cycle span) := by
    rw [Span.reflect_eq_affine, h cycle span 1 _ one_pos]
  simp only [reversed, hplace, bind_carried, reflected_eq_mirrored, hpivot, mirrored_affine_one,
    map_eq_pure_bind]

/-- What a portable rendering plays in a cycle, it plays in any span. -/
theorem Portable.eq_pure (h : Portable r) {events : List Event}
    (hr : r cycle Span.cycle = pure events) (pos : span.start < span.stop) :
    r cycle span = pure (events.map (Event.affine span.length span.start)) := by
  have hlength : 0 < span.length := sub_pos.mpr pos
  have hspan : Span.cycle.affine span.length span.start = span := by
    simp [Span.affine, Span.cycle, Span.length]
  rw [← carried_pure, ← hr, ← h cycle Span.cycle _ _ hlength, hspan]

/-! ## Groups -/

/-- The last of some slots is rendered after the others. -/
theorem slots_concat (rs : List (Rendering σ)) (r : Rendering σ) (start width : Rat) (count : Nat) :
    slots cycle start width count (rs ++ [r]) = (do
      let events ← slots cycle start width count rs
      let rest ← r cycle (Span.step start width (count + rs.length : Nat))
      pure (events ++ rest)) := by
  simp [slots_append, slots]

/-- The slots `count` from the one end of a row and `left` from the other are
reflected onto each other. -/
theorem reflect_step {start width pivot count left : Rat}
    (h : pivot = start + start + width * (count + 1 + left)) :
    (Span.step start width count).reflect pivot = Span.step start width left := by
  simp only [Span.step, Span.reflect, h, Span.mk.injEq]
  constructor <;> ring

/-- Slots reflected are the slots from the other end, each backwards. -/
theorem mirrored_slots {start width pivot : Rat} (hportable : ∀ r ∈ rs, Portable r)
    (hfound : ∀ r ∈ rs, ∀ k : Nat, ∃ events, r cycle (Span.step start width k) = pure events)
    (count left : Nat)
    (hpivot : pivot = start + start + width * (count + rs.length + left : Nat)) :
    mirrored pivot <$> slots cycle start width count rs =
      slots cycle start width left (rs.reverse.map reversed) := by
  induction rs generalizing count with
  | nil => rfl
  | cons r rs ih =>
    obtain ⟨events, hevents⟩ := hfound r List.mem_cons_self count
    have hrest := ih (fun r' hr' => hportable r' (List.mem_cons_of_mem r hr'))
      (fun r' hr' => hfound r' (List.mem_cons_of_mem r hr')) (count + 1)
      (by rw [hpivot, List.length_cons]; push_cast; ring)
    have hstep : Span.step start width (left + rs.length : Nat) =
        (Span.step start width count).reflect pivot := by
      refine (reflect_step ?_).symm
      rw [hpivot, List.length_cons]
      push_cast
      ring
    have hlast : reversed r cycle (Span.step start width (left + rs.length : Nat)) =
        pure (mirrored pivot events) := by
      rw [hstep, (hportable r List.mem_cons_self).reversed_reflect, hevents, map_pure]
    rw [List.reverse_cons, List.map_append, List.map_cons, List.map_nil, slots_concat,
      List.length_map, List.length_reverse, hlast, ← hrest, slots, hevents]
    simp only [map_eq_pure_bind, bind_assoc, pure_bind, mirrored_append]

/-- What is found in a cycle is found in the slots of a group. -/
theorem found_in_slots (hportable : ∀ r ∈ rs, Portable r)
    (hfound : ∀ r ∈ rs, ∃ events, r cycle Span.cycle = pure events)
    (pos : span.start < span.stop) :
    ∀ r ∈ rs, ∀ k : Nat, ∃ events,
      r cycle (Span.step span.start (span.length / rs.length) k) = pure events := by
  intro r hr k
  obtain ⟨events, hevents⟩ := hfound r hr
  have hlength : (0 : Rat) < rs.length := by exact_mod_cast List.length_pos_of_mem hr
  have hwidth : 0 < span.length / rs.length := div_pos (sub_pos.mpr pos) hlength
  refine ⟨_, (hportable r hr).eq_pure hevents ?_⟩
  simp only [Span.step]
  linarith

/-- Slots of renderings that yield their events right away do so too. -/
theorem slots_eq_pure {start width : Rat}
    (hfound : ∀ r ∈ rs, ∀ k : Nat, ∃ events, r cycle (Span.step start width k) = pure events)
    (count : Nat) : ∃ events, slots cycle start width count rs = pure events := by
  induction rs generalizing count with
  | nil => exact ⟨[], rfl⟩
  | cons r rs ih =>
    obtain ⟨events, hevents⟩ := hfound r List.mem_cons_self count
    obtain ⟨rest, hrest⟩ := ih (fun r' hr' => hfound r' (List.mem_cons_of_mem r hr')) (count + 1)
    exact ⟨events ++ rest, by rw [slots, hevents, hrest, pure_bind, pure_bind]⟩

/-- A group backwards is the group of its members backwards, in reverse order.
The members must be found, since the first that fails decides the fault. -/
theorem reversed_sequence (hportable : ∀ r ∈ rs, Portable r)
    (hfound : ∀ r ∈ rs, ∃ events, r cycle Span.cycle = pure events)
    (pos : span.start < span.stop) :
    reversed (sequence rs) cycle span = sequence (rs.reverse.map reversed) cycle span := by
  by_cases hrs : rs = []
  · subst hrs
    rfl
  · have hlength : (rs.length : Rat) ≠ 0 := by
      exact_mod_cast (List.length_pos_iff.mpr hrs).ne'
    have hpivot : span.start + span.stop =
        span.start + span.start + span.length / rs.length * (0 + rs.length + 0 : Nat) := by
      rw [Nat.zero_add, Nat.add_zero, div_mul_cancel₀ _ hlength, Span.length]
      ring
    have hslots := mirrored_slots hportable (found_in_slots hportable hfound pos) 0 0 hpivot
    simp only [reversed, reflected_eq_mirrored, sequence, List.length_map, List.length_reverse,
      ← hslots, map_eq_pure_bind]

/-! ## Palindromes -/

/-- The second half of a palindrome is the first half reflected. -/
theorem palindrome_eq_pure (h : Portable r) {forward : List Event}
    (hr : r cycle ⟨span.start, (span.start + span.stop) / 2⟩ = pure forward) :
    palindrome r cycle span = pure (forward ++ mirrored (span.start + span.stop) forward) := by
  have hsecond : (⟨(span.start + span.stop) / 2, span.stop⟩ : Span) =
      Span.reflect ⟨span.start, (span.start + span.stop) / 2⟩ (span.start + span.stop) := by
    simp only [Span.reflect, Span.mk.injEq]
    constructor <;> ring
  have hback : reversed r cycle ⟨(span.start + span.stop) / 2, span.stop⟩ =
      pure (mirrored (span.start + span.stop) forward) := by
    rw [hsecond, h.reversed_reflect, hr, map_pure]
  have hhalves : palindrome r cycle span = (do
      let forward ← r cycle ⟨span.start, (span.start + span.stop) / 2⟩
      let backward ← reversed r cycle ⟨(span.start + span.stop) / 2, span.stop⟩
      pure (forward ++ backward)) := by
    simp only [palindrome, reversed, bind_assoc, pure_bind]
  rw [hhalves, hr, hback, pure_bind, pure_bind]

/-- A palindrome is the same in both directions. -/
theorem reversed_palindrome (h : Portable r) {forward : List Event}
    (hr : r cycle ⟨span.start, (span.start + span.stop) / 2⟩ = pure forward) :
    reversed (palindrome r) cycle span = palindrome r cycle span := by
  simp only [reversed, palindrome_eq_pure h hr, pure_bind, reflected_eq_mirrored, mirrored_append,
    mirrored_mirrored]

end Rendering

/-! ## Patterns -/

section

variable {s : Setting σ}

/-- The name for playing backwards plays its subject backwards. -/
theorem Pattern.render_rev (h : s.transforms.Acts "rev" .rev) (p : Pattern) :
    (Pattern.transform p "rev" []).render s = Rendering.reversed (p.render s) :=
  render_acts h p []

/-- The name for a palindrome plays its subject forwards and then backwards. -/
theorem Pattern.render_palindrome (h : s.transforms.Acts "palindrome" .palindrome) (p : Pattern) :
    (Pattern.transform p "palindrome" []).render s = Rendering.palindrome (p.render s) :=
  render_acts h p []

/-- Patterns backwards render backwards. -/
theorem Pattern.renderAll_rev (h : s.transforms.Acts "rev" .rev) (ps : List Pattern) :
    Pattern.renderAll s (ps.reverse.map fun p => .transform p "rev" []) =
      (Pattern.renderAll s ps).reverse.map Rendering.reversed := by
  simp [Pattern.renderAll_eq_map, Pattern.render_rev h, Function.comp_def]

end

namespace Performance

variable {perf : Performance}

/-- Patterns that are found without draws render alike from all of them. -/
theorem renderAll_found {policy : Policy} {children : List Pattern} {cycle : Int}
    (hchildren : Pattern.AllWithin .fixed perf.transforms children)
    (hpolicy : perf.choice.resolve perf.policies = .ok policy)
    (hfound : ∀ c ∈ children, ∃ events, perf.query c cycle none = .ok events) :
    ∀ r ∈ Pattern.renderAll (perf.setting policy) children,
      ∃ events, r cycle Span.cycle = pure events := by
  induction children with
  | nil => exact fun r hr => absurd hr List.not_mem_nil
  | cons c children ih =>
    intro r hr
    rw [Pattern.renderAll, List.mem_cons] at hr
    cases hr with
    | inl here =>
      obtain ⟨events, hevents⟩ := hfound c List.mem_cons_self
      obtain ⟨rendered, hrendered, -⟩ := render_of_query hchildren.1 hpolicy hevents
      exact ⟨rendered, here ▸ hrendered⟩
    | inr later =>
      exact ih hchildren.2 (fun c' hc' => hfound c' (List.mem_cons_of_mem c hc')) r later

/-- **Backwards**: a group of children that are found, without waves and random
transforms, plays backwards what the group of the children backwards plays, in
reverse order.  Twice backwards is forwards, in any pattern. -/
theorem query_rev_sequence (hrev : perf.transforms.Acts "rev" .rev) (cycle : Int) :
    (∀ children, Pattern.AllWithin .fixed perf.transforms children →
      (∀ c ∈ children, ∃ events, perf.query c cycle none = .ok events) →
      (∀ arc, perf.query (.transform (.sequence children) "rev" []) cycle arc =
        perf.query (.sequence (children.reverse.map fun c => .transform c "rev" [])) cycle arc) ∧
      (children ≠ [] →
        ∃ events, perf.query (.transform (.sequence children) "rev" []) cycle none = .ok events)) ∧
    ∀ x arc, perf.query (.transform (.transform x "rev" []) "rev" []) cycle arc =
      perf.query x cycle arc := by
  have pos : Span.cycle.start < Span.cycle.stop := by decide
  have hportable : ∀ policy children, Pattern.AllWithin .fixed perf.transforms children →
      ∀ r ∈ Pattern.renderAll (perf.setting policy) children, r.Portable := fun policy children h =>
    Pattern.renderAll_closed (Rendering.closed_portable (perf.setting policy) not_false) children h
  refine ⟨fun children hchildren hfound => ⟨query_congr fun policy hpolicy => ?_, fun hne => ?_⟩,
    fun x => query_congr fun policy _ => ?_⟩
  · rw [Pattern.render_rev hrev, Pattern.render, Pattern.render, Pattern.renderAll_rev hrev]
    exact Rendering.reversed_sequence (hportable policy children hchildren)
      (renderAll_found hchildren hpolicy hfound) pos
  · obtain ⟨c, hc⟩ := List.exists_mem_of_ne_nil children hne
    obtain ⟨events, hevents⟩ := hfound c hc
    obtain ⟨⟨policy, hpolicy⟩, stream, hstream⟩ := policy_stream_of_query hevents
    obtain ⟨rendered, hrendered⟩ := Rendering.slots_eq_pure (Rendering.found_in_slots
      (hportable policy children hchildren) (renderAll_found hchildren hpolicy hfound) pos) 0
    have hback : (Pattern.transform (.sequence children) "rev" []).render (perf.setting policy)
        cycle Span.cycle = pure (Event.reflected Span.cycle rendered) := by
      rw [Pattern.render_rev hrev, Pattern.render]
      simp only [Rendering.reversed, Rendering.sequence, hrendered, pure_bind]
    exact ⟨_, query_of_render hpolicy hstream hback⟩
  · rw [Pattern.render_rev hrev, Pattern.render_rev hrev, Rendering.reversed_reversed]

/-- A slowed group cut in pieces, of which the cycle cuts the first and the last,
and a rhythm.  Backwards it is the last piece that has lost its onset.  And a
thinned name, twice backwards. -/
theorem query_rev_sequence_tail :
    let slowed := Pattern.transform (.transform (.sequence [.leaf (.text "a"), .leaf (.text "b")])
      "slow" [.number (.ratio (5 / 2))]) "chop" [.int 2]
    let rhythm := Pattern.euclidean 5 3 1 (.leaf (.int 1))
    let back (p : Pattern) := Pattern.transform p "rev" []
    let thinned := Pattern.transform (.leaf (.text "c")) "degrade" []
    (∃ events, default.query (back (.sequence [slowed, rhythm])) 1 none = .ok events ∧
      default.query (.sequence [back rhythm, back slowed]) 1 none = .ok events ∧
      events.map (·.hasOnset) = [true, true, true, false, true, true]) ∧
    default.query (back (back thinned)) 1 none = default.query thinned 1 none := by
  intro slowed rhythm back thinned
  have hrev : default.transforms.Acts "rev" .rev := ⟨_, rfl, rfl⟩
  have hchildren : Pattern.AllWithin .fixed default.transforms [slowed, rhythm] :=
    ⟨⟨⟨⟨trivial, trivial, trivial⟩, Fragment.names_of_applies rfl ⟨by decide, by decide⟩, trivial⟩,
      Fragment.names_of_applies rfl ⟨by decide, by decide⟩, trivial⟩, trivial, trivial⟩
  have hfound : ∀ c ∈ [slowed, rhythm], ∃ events, default.query c 1 none = .ok events := by
    have hslowed : (default.query slowed 1 none).toOption.isSome := by decide +kernel
    have hrhythm : (default.query rhythm 1 none).toOption.isSome := by decide +kernel
    simpa using ⟨ok_of_isSome hslowed, ok_of_isSome hrhythm⟩
  have hevents : (default.query (back (.sequence [slowed, rhythm])) 1 none).toOption.map
      (·.map (·.hasOnset)) = some [true, true, true, false, true, true] := by
    decide +kernel
  obtain ⟨events, hquery, honsets⟩ := ok_of_toOption_map hevents
  obtain ⟨hgroup, htwice⟩ := query_rev_sequence hrev 1
  have hsame := (hgroup [slowed, rhythm] hchildren hfound).1 none
  exact ⟨⟨events, hquery, hsame.symm.trans hquery, honsets⟩, htwice thinned none⟩

/-- What a pattern without waves renders from all draws is found as it is. -/
theorem query_of_still_render {p : Pattern} (hp : p.Within .still perf.transforms) {policy : Policy}
    (hpolicy : perf.choice.resolve perf.policies = .ok policy) {cycle : Int} {stream : Twister}
    (hstream : perf.stream cycle = .ok stream) {rendered : List Event}
    (h : p.render (perf.setting policy) cycle Span.cycle = pure rendered) :
    perf.query p cycle none = .ok rendered := by
  have hpos : Span.cycle.start < Span.cycle.stop := by decide
  have hsorted : Event.sortByStart rendered = rendered :=
    Pattern.sortByStart_render (s := perf.setting policy) hp hpos (congrFun h stream)
  exact hsorted ▸ query_of_render hpolicy hstream h

/-- What a pattern without waves and random transforms is found to play in a
cycle, it renders there from all draws. -/
theorem render_eq_pure {x : Pattern} (hx : x.Within .fixed perf.transforms) {policy : Policy}
    (hpolicy : perf.choice.resolve perf.policies = .ok policy) {cycle : Int} {events : List Event}
    (h : perf.query x cycle none = .ok events) :
    x.render (perf.setting policy) cycle Span.cycle = pure events := by
  obtain ⟨rendered, hrendered, -⟩ := render_of_query hx hpolicy h
  obtain ⟨-, stream, hstream⟩ := policy_stream_of_query h
  have hstill := hx.mono Fragment.still_allows_fixed
  have hquery := query_of_still_render hstill hpolicy hstream hrendered
  obtain rfl : rendered = events := Except.ok.inj (hquery.symm.trans h)
  exact hrendered

/-- Of a cycle squeezed into its first half and what is reflected from there,
the first half is what was squeezed. -/
theorem filter_first_half {events : List Event}
    (h : ∀ e ∈ events, e.WellCut ∧ 0 ≤ e.active.start ∧ e.active.stop ≤ 1) :
    (events.map (Event.affine (1 / 2) 0) ++
        Event.reflected Span.cycle (events.map (Event.affine (1 / 2) 0))).filter
      (·.active.start < 1 / 2) = events.map (Event.affine (1 / 2) 0) := by
  have hfirst : ∀ e ∈ events.map (Event.affine (1 / 2) 0),
      e.active.start < 1 / 2 ∧ e.active.stop ≤ 1 / 2 := by
    intro e he
    obtain ⟨e', he', rfl⟩ := List.mem_map.mp he
    obtain ⟨hcut, -, hstop⟩ := h e' he'
    have hpos := hcut.pos
    simp only [Event.affine, Span.affine]
    constructor <;> linarith
  have hsecond : ∀ e ∈ Event.reflected Span.cycle (events.map (Event.affine (1 / 2) 0)),
      1 / 2 ≤ e.active.start := by
    intro e he
    obtain ⟨e', he', rfl⟩ := List.mem_map.mp he
    have hstop := (hfirst e' (List.mem_reverse.mp he')).2
    simp only [Event.reflect, Span.reflect, Span.cycle]
    linarith
  rw [List.filter_append, List.filter_eq_self.mpr fun e he => decide_eq_true (hfirst e he).1,
    List.filter_eq_nil_iff.mpr fun e he => by simpa using hsecond e he, List.append_nil]

/-- **Palindromes**: what is found of a pattern without waves and random
transforms is found of its palindrome in the first half of the cycle, in half
the time, and after that the same reflected.  So the palindrome is the same
backwards, event for event. -/
theorem query_palindrome_rev (hrev : perf.transforms.Acts "rev" .rev)
    (hpalindrome : perf.transforms.Acts "palindrome" .palindrome) {x : Pattern}
    (hx : x.Within .fixed perf.transforms) {cycle : Int} {events : List Event}
    (h : perf.query x cycle none = .ok events) :
    (∀ arc, perf.query (.transform (.transform x "palindrome" []) "rev" []) cycle arc =
      perf.query (.transform x "palindrome" []) cycle arc) ∧
    ∃ found, perf.query (.transform x "palindrome" []) cycle none = .ok found ∧
      found = events.map (Event.affine (1 / 2) 0) ++
        Event.reflected Span.cycle (events.map (Event.affine (1 / 2) 0)) ∧
      found.filter (·.active.start < 1 / 2) = events.map (Event.affine (1 / 2) 0) := by
  have hportable : ∀ policy, Rendering.Portable (x.render (perf.setting policy)) := fun policy =>
    x.render_closed (Rendering.closed_portable (perf.setting policy) not_false) hx
  have hhalf : ∀ policy, perf.choice.resolve perf.policies = .ok policy →
      x.render (perf.setting policy) cycle ⟨0, (0 + 1) / 2⟩ =
        pure (events.map (Event.affine (1 / 2) 0)) := by
    intro policy hpolicy
    have hlength : Span.length ⟨0, (0 + 1) / 2⟩ = 1 / 2 := by decide +kernel
    rw [(hportable policy).eq_pure (render_eq_pure hx hpolicy h) (by decide +kernel), hlength]
  have hback : ∀ arc, perf.query (.transform (.transform x "palindrome" []) "rev" []) cycle arc =
      perf.query (.transform x "palindrome" []) cycle arc := by
    refine query_congr fun policy hpolicy => ?_
    rw [Pattern.render_rev hrev, Pattern.render_palindrome hpalindrome]
    exact Rendering.reversed_palindrome (hportable policy) (hhalf policy hpolicy)
  obtain ⟨⟨policy, hpolicy⟩, stream, hstream⟩ := policy_stream_of_query h
  have hrender : (Pattern.transform x "palindrome" []).render (perf.setting policy) cycle
      Span.cycle = pure (events.map (Event.affine (1 / 2) 0) ++
        Event.reflected Span.cycle (events.map (Event.affine (1 / 2) 0))) := by
    rw [Pattern.render_palindrome hpalindrome]
    exact Rendering.palindrome_eq_pure (hportable policy) (hhalf policy hpolicy)
  have hpattern : (Pattern.transform x "palindrome" []).Within .still perf.transforms :=
    ⟨hx.mono Fragment.still_allows_fixed, fun _ _ => trivial, trivial⟩
  exact ⟨hback, _, query_of_still_render hpattern hpolicy hstream hrender, rfl,
    filter_first_half fun e he => perf.laid_query h e he⟩

/-- A slowed group that begins with a tail and an alternation: the palindrome of
cycle one has eight events, the same backwards. -/
theorem query_palindrome_rev_tail :
    let x := Pattern.sequence [.transform (.sequence [.leaf (.text "a"), .leaf (.text "b")]) "slow"
      [.number (.ratio (5 / 2))],
      .parallel [.leaf (.int 1), .sequence [.leaf (.int 2), .leaf (.int 3)]]]
    let palindrome := Pattern.transform x "palindrome" []
    ∃ events, default.query x 1 none = .ok events ∧ ∃ found,
      default.query palindrome 1 none = .ok found ∧
      default.query (.transform palindrome "rev" []) 1 none = .ok found ∧
      found.filter (·.active.start < 1 / 2) = events.map (Event.affine (1 / 2) 0) ∧
      found.map (·.hasOnset) = [false, true, true, true, true, true, false, true] := by
  intro x palindrome
  have hrev : default.transforms.Acts "rev" .rev := ⟨_, rfl, rfl⟩
  have hpalindrome : default.transforms.Acts "palindrome" .palindrome := ⟨_, rfl, rfl⟩
  have hx : x.Within .fixed default.transforms :=
    ⟨⟨⟨trivial, trivial, trivial⟩, Fragment.names_of_applies rfl ⟨by decide, by decide⟩, trivial⟩,
      ⟨trivial, ⟨trivial, trivial, trivial⟩, trivial⟩, trivial⟩
  have hsome : (default.query x 1 none).toOption.isSome := by decide +kernel
  obtain ⟨events, hquery⟩ := ok_of_isSome hsome
  obtain ⟨hback, found, hfound, -, hfirst⟩ := query_palindrome_rev hrev hpalindrome hx hquery
  have honsets : (default.query palindrome 1 none).toOption.map (·.map (·.hasOnset)) =
      some [false, true, true, true, true, true, false, true] := by
    decide +kernel
  rw [hfound] at honsets
  exact ⟨events, hquery, found, hfound, (hback none).trans hfound, hfirst, Option.some.inj honsets⟩

end Performance

end Ostinato
