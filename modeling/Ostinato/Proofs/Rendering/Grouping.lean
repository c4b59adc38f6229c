import Ostinato.Proofs.Rendering.Gathering

/-!
# Ostinato.Proofs.Rendering.Grouping

Groups of groups.

Slots of equal slots are the slots of a finer row, exactly, since times are
fractions (`Span.step_step`).  So a group of groups that all have the same number
of members is the flat group of all of them (`Rendering.sequence_flatten`),
whatever the members draw, and however they fail.  A group with one member is that
member (`Rendering.sequence_singleton`).
-/

namespace Ostinato

variable {σ : Type}

/-- The slots of a slot are slots of the row that is `m` times as fine. -/
theorem Span.step_step {m : Nat} (hm : 0 < m) (start width count k : Rat) :
    Span.step (Span.step start width count).start ((Span.step start width count).length / m) k =
      Span.step start (width / m) (count * m + k) := by
  have hmq : (m : Rat) ≠ 0 := by exact_mod_cast hm.ne'
  simp only [step, length, mk.injEq]
  constructor <;> field_simp <;> ring

namespace Rendering

/-- A row in a slot is a stretch of the row that is as many times as fine as it
has members. -/
theorem sequence_step {m : Nat} (hm : 0 < m) {rs : List (Rendering σ)} (hrs : rs.length = m)
    (cycle : Int) (start width : Rat) (count : Nat) :
    sequence rs cycle (Span.step start width count) =
      slots cycle start (width / m) (count * m) rs := by
  -- the row is followed from any of its members on
  have hrow : ∀ (rest : List (Rendering σ)) (k : Nat),
      slots cycle (Span.step start width count).start
        ((Span.step start width count).length / m) k rest =
          slots cycle start (width / m) (count * m + k) rest := by
    intro rest
    induction rest with
    | nil => exact fun _ => rfl
    | cons r rest ih =>
      intro k
      rw [slots, slots, Span.step_step hm, ih, Nat.add_assoc, Nat.cast_add, Nat.cast_mul]
  rw [sequence, hrs, hrow, Nat.add_zero]

/-- Rows in slots, one after the other, are one row. -/
theorem slots_map_sequence {m : Nat} (hm : 0 < m) {groups : List (List (Rendering σ))}
    (h : ∀ rs ∈ groups, rs.length = m) (cycle : Int) (start width : Rat) (count : Nat) :
    slots cycle start width count (groups.map sequence) =
      slots cycle start (width / m) (count * m) groups.flatten := by
  induction groups generalizing count with
  | nil => rfl
  | cons rs groups ih =>
    simp only [List.forall_mem_cons] at h
    have hcount : (count + 1) * m = count * m + rs.length := by rw [h.1, Nat.succ_mul]
    rw [List.map_cons, List.flatten_cons, slots, slots_append, sequence_step hm h.1, ih h.2, hcount]

/-- Groups of the same length have as many members as there are groups, times that
length. -/
theorem length_flatten_of_length {α : Type} {m : Nat} {groups : List (List α)}
    (h : ∀ g ∈ groups, g.length = m) : groups.flatten.length = groups.length * m := by
  rw [List.length_flatten, List.map_congr_left h, List.map_const', List.sum_replicate_nat]

/-- A group of groups of one size is flat. -/
theorem sequence_flatten {m : Nat} (hm : 0 < m) {groups : List (List (Rendering σ))}
    (h : ∀ rs ∈ groups, rs.length = m) :
    sequence (groups.map sequence) = sequence groups.flatten := by
  funext cycle span
  rw [sequence, sequence, slots_map_sequence hm h, List.length_map, length_flatten_of_length h,
    Nat.zero_mul, Nat.cast_mul, div_div]

/-- A group with one member is that member. -/
theorem sequence_singleton (r : Rendering σ) : sequence [r] = r := by
  funext cycle span
  have hspan : Span.step span.start span.length 0 = span := by simp [Span.step, Span.length]
  simp [sequence, slots, hspan]

end Rendering

namespace Pattern

/-- Groups of patterns render as groups of their renderings. -/
theorem renderAll_map_sequence (s : Setting σ) (groups : List (List Pattern)) :
    renderAll s (groups.map sequence) = (groups.map (renderAll s)).map Rendering.sequence := by
  simp only [renderAll_eq_map, List.map_map]
  exact List.map_congr_left fun _ _ => rfl

/-- The renderings of groups put together are those of each group, put together. -/
theorem renderAll_flatten (s : Setting σ) (groups : List (List Pattern)) :
    renderAll s groups.flatten = (groups.map (renderAll s)).flatten := by
  rw [renderAll_eq_map, List.map_flatten]
  exact congrArg List.flatten (List.map_congr_left fun ps _ => (renderAll_eq_map s ps).symm)

/-- A group of one child plays what the child plays. -/
theorem render_singleton (s : Setting σ) (p : Pattern) :
    (sequence [p]).render s = p.render s :=
  Rendering.sequence_singleton (p.render s)

/-- **Uniform groups are flat**: a group of groups with the same number of
patterns in each renders in every span, forwards or not, as the group of all the
patterns in order does: the same events, the same draws and the same faults.  A
group of one pattern renders as that pattern. -/
theorem render_flatten {m : Nat} (hm : 0 < m) {groups : List (List Pattern)}
    (h : ∀ ps ∈ groups, ps.length = m) :
    (∀ {σ : Type} (s : Setting σ),
      (sequence (groups.map sequence)).render s = (sequence groups.flatten).render s) ∧
    (∀ (perf : Performance) (cycle : Int) (arc : Option Arc),
      perf.query (sequence (groups.map sequence)) cycle arc =
        perf.query (sequence groups.flatten) cycle arc) ∧
    ∀ {σ : Type} (s : Setting σ) (p : Pattern), (sequence [p]).render s = p.render s := by
  have hflat : ∀ {σ : Type} (s : Setting σ),
      (sequence (groups.map sequence)).render s = (sequence groups.flatten).render s := by
    intro σ s
    have hlengths : ∀ rs ∈ groups.map (renderAll s), rs.length = m := by
      intro rs hrs
      obtain ⟨ps, hps, rfl⟩ := List.mem_map.mp hrs
      rw [length_renderAll, h ps hps]
    rw [render, render, renderAll_map_sequence, renderAll_flatten,
      Rendering.sequence_flatten hm hlengths]
  refine ⟨hflat, fun perf cycle arc => ?_, render_singleton⟩
  exact Performance.query_congr (fun policy _ => by rw [hflat]) arc

/-- Two groups of two, of which the first and the last draw: the one is dropped,
the other kept.  And a group with a wave beside something that is no pattern. -/
theorem render_flatten_pairs :
    let s : Setting Nat := ⟨fun n => (n / 4, n + 1), fun _ _ => .ok 0, Transform.builtin⟩
    let thinned := Pattern.transform (.leaf (.text "a")) "degrade" []
    let pairs := [[thinned, leaf (.text "b")], [leaf (.text "c"), thinned]]
    let failing := [[modulation (leaf (.text "b")) (.int 1) (.int 2), leaf (.int 1)],
      [thinned, stray .nothing]]
    (∀ ps ∈ pairs ++ failing, ps.length = 2) ∧
    (∃ events, (sequence (pairs.map sequence)).render s 1 Span.cycle 1 = .ok (events, 3) ∧
      (sequence pairs.flatten).render s 1 Span.cycle 1 = .ok (events, 3) ∧
      events.map (·.active.start) = [1 / 4, 1 / 2, 3 / 4]) ∧
    Performance.default.query (sequence (failing.map sequence)) 1 none =
      Performance.default.query (sequence failing.flatten) 1 none := by
  intro s thinned pairs failing
  have hpairs : ∀ ps ∈ pairs, ps.length = 2 := by decide
  have hfailing : ∀ ps ∈ failing, ps.length = 2 := by decide
  have hrun : ((sequence (pairs.map sequence)).render s 1 Span.cycle 1).toOption.map
      (fun result => (result.1.map (·.active.start), result.2)) =
        some ([1 / 4, 1 / 2, 3 / 4], 3) := by
    decide +kernel
  obtain ⟨⟨events, state⟩, h, hresult⟩ := ok_of_toOption_map hrun
  obtain ⟨hstarts, rfl⟩ := Prod.mk.inj hresult
  have hflat := (render_flatten two_pos hpairs).1 s
  exact ⟨List.forall_mem_append.mpr ⟨hpairs, hfailing⟩, ⟨events, h, hflat ▸ h, hstarts⟩,
    (render_flatten two_pos hfailing).2.1 Performance.default 1 none⟩

end Pattern

end Ostinato
