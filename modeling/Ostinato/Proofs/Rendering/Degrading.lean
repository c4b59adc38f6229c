import Ostinato.Proofs.Rendering.Thinning

/-!
# Ostinato.Proofs.Rendering.Degrading

Patterns with a place where events are dropped at random.

If nothing above the place drops events, a greater chance there loses some of the
events that are found, and changes no others (`Context.degrade_more`).
-/

namespace Ostinato

variable {σ : Type}

/-! ## Slots of a group -/

namespace Event

/-- Whether an event lies in the slots from one up to another, out of `n` that share
the cycle. -/
def InSlots (n first last : Nat) (e : Event) : Prop :=
  (first : Rat) / n ≤ e.active.start ∧ e.active.start < e.active.stop ∧
    e.active.stop ≤ (last : Rat) / n

/-- Events in earlier slots begin first. -/
theorem InSlots.start_le {n i j k l : Nat} (hjk : j ≤ k) {e e' : Event} (he : e.InSlots n i j)
    (he' : e'.InSlots n k l) : e.active.start ≤ e'.active.start := by
  have hslots : (j : Rat) / n ≤ (k : Rat) / n := by gcongr
  exact he.2.1.le.trans (he.2.2.trans (hslots.trans he'.1))

/-- Events of `n` children in a row: of those before the child `i`, of that child,
and of those after it. -/
structure Beside (n i : Nat) (earlier own later : List Event) : Prop where
  earlier : ∀ e ∈ earlier, e.InSlots n 0 i
  own : ∀ e ∈ own, e.InSlots n i (i + 1)
  later : ∀ e ∈ later, e.InSlots n (i + 1) n

variable {n i : Nat} {earlier own later : List Event}

/-- Fewer events of each part are still beside each other. -/
theorem Beside.of_subset (h : Beside n i earlier own later) {earlier' own' later' : List Event}
    (hearlier : earlier' ⊆ earlier) (hown : own' ⊆ own) (hlater : later' ⊆ later) :
    Beside n i earlier' own' later' :=
  ⟨fun e he => h.earlier e (hearlier he), fun e he => h.own e (hown he),
    fun e he => h.later e (hlater he)⟩

/-- Events picked from each part are beside each other. -/
theorem Beside.filter (h : Beside n i earlier own later) (keep : Event → Bool) :
    Beside n i (earlier.filter keep) (own.filter keep) (later.filter keep) :=
  h.of_subset (List.filter_subset_self _) (List.filter_subset_self _) (List.filter_subset_self _)

/-- Sorting the parts leaves them beside each other. -/
theorem Beside.sort (h : Beside n i earlier own later) :
    Beside n i (sortByStart earlier) (sortByStart own) (sortByStart later) :=
  h.of_subset (sortByStart_perm _).subset (sortByStart_perm _).subset (sortByStart_perm _).subset

/-- Events of children in a row are sorted child by child. -/
theorem Beside.sortByStart_append (h : Beside n i earlier own later) :
    sortByStart (earlier ++ own ++ later) =
      sortByStart earlier ++ sortByStart own ++ sortByStart later := by
  rw [Event.sortByStart_append, Event.sortByStart_append]
  · exact fun e he e' he' => (h.earlier e he).start_le le_rfl (h.own e' he')
  · intro e he e' he'
    rcases List.mem_append.mp he with he | he
    · exact (h.earlier e he).start_le (Nat.le_succ i) (h.later e' he')
    · exact (h.own e he).start_le le_rfl (h.later e' he')

end Event

namespace Rendering

open Drawing Event

variable {r r' : Rendering σ} {before after : List (Rendering σ)}

/-- Renderings in slots keep to them. -/
theorem ensures_inSlots {rs : List (Rendering σ)} (h : ∀ r ∈ rs, Confined r) {n : Nat} (hn : 0 < n)
    (cycle : Int) (count : Nat) :
    (slots cycle 0 (1 / n) count rs).Ensures fun events =>
      ∀ e ∈ events, e.InSlots n count (count + rs.length) := by
  have hpos : (0 : Rat) < 1 / n := one_div_pos.mpr (by exact_mod_cast hn)
  refine (ensures_slots (P := fun span e => e.Laid span) (fun r hr => h r hr cycle) count).mono
    fun events hevents e he => ?_
  obtain ⟨k, hlow, hhigh, hlaid⟩ := hevents e he
  have hforwards : (Span.step 0 (1 / n) k).start < (Span.step 0 (1 / n) k).stop := by
    simp only [Span.step]
    linarith
  obtain ⟨hcut, hstart, hstop⟩ := hlaid.forwards hforwards
  simp only [Span.step, zero_add, one_div_mul_eq_div] at hstart hstop
  have hn' : (0 : Rat) < n := by exact_mod_cast hn
  refine ⟨le_trans ?_ hstart, hcut.pos, le_trans hstop ?_⟩
  · gcongr
  · gcongr
    exact_mod_cast hhigh

/-- A group in a cycle plays what is before a child, the child, and what is after. -/
theorem sequence_beside (before after : List (Rendering σ)) (r : Rendering σ) (cycle : Int) :
    sequence (before ++ r :: after) cycle Span.cycle = (do
      let earlier ← slots cycle 0 (1 / (before.length + 1 + after.length : Nat)) 0 before
      let own ← slots cycle 0 (1 / (before.length + 1 + after.length : Nat)) before.length [r]
      let later ←
        slots cycle 0 (1 / (before.length + 1 + after.length : Nat)) (before.length + 1) after
      pure (earlier ++ own ++ later)) := by
  have hlength : (before ++ r :: after).length = before.length + 1 + after.length := by
    simp only [List.length_append, List.length_cons]
    omega
  have hcycle : Span.cycle.length = 1 := by decide +kernel
  have hjoined : before ++ r :: after = before ++ ([r] ++ after) := rfl
  rw [sequence, hlength, hcycle, hjoined, slots_append, slots_append]
  simp only [bind_assoc, pure_bind, Nat.zero_add, List.append_assoc, List.length_singleton]
  rfl

/-- Of a group, only the events of the child are lost in which events are dropped. -/
theorem thins_beside (hr : Confined r) (hbefore : ∀ r ∈ before, Confined r)
    (hafter : ∀ r ∈ after, Confined r) (hthins : r.Thins r') {cycle : Int} {state state' : σ}
    {events : List Event}
    (h : sequence (before ++ r :: after) cycle Span.cycle state = .ok (events, state')) :
    ∃ earlier own kept later, events = earlier ++ own ++ later ∧
      sequence (before ++ r' :: after) cycle Span.cycle state =
        .ok (earlier ++ kept ++ later, state') ∧
      kept.Sublist own ∧
      Beside (before.length + 1 + after.length) before.length earlier own later := by
  have hn : 0 < before.length + 1 + after.length := by omega
  rw [sequence_beside] at h ⊢
  obtain ⟨earlier, first, hearlier, h⟩ := bind_eq_ok h
  obtain ⟨own, second, hown, h⟩ := bind_eq_ok h
  obtain ⟨later, third, hlater, h⟩ := bind_eq_ok h
  obtain ⟨rfl, rfl⟩ := Prod.mk.inj (Except.ok.inj h)
  obtain ⟨kept, hkept, hsub⟩ := thins_slots (.cons hthins .nil) cycle _ _ _ first own second hown
  refine ⟨earlier, own, kept, later, rfl, ?_, hsub, ?_, ?_, ?_⟩
  · rw [bind_of_eq_ok hearlier, bind_of_eq_ok hkept, bind_of_eq_ok hlater]
    rfl
  · have hslots := ensures_inSlots hbefore hn cycle 0 state earlier first hearlier
    rwa [Nat.zero_add] at hslots
  · exact ensures_inSlots (List.forall_mem_singleton.mpr hr) hn cycle _ first own second hown
  · exact ensures_inSlots hafter hn cycle _ second later third hlater

end Rendering

/-! ## Events that are lost -/

/-- What is lost of the events that are found when more is dropped at an open place:
some of them, and in a group only some of the child with the place. -/
structure Context.Loses (C : Context) (events fewer : List Event) : Prop where
  sublist : fewer.Sublist events
  beside : ∀ before inner after, C = .sequence before inner after →
    ∃ earlier own kept later, events = earlier ++ own ++ later ∧
      fewer = earlier ++ kept ++ later ∧ kept.Sublist own ∧
      Event.Beside (before.length + 1 + after.length) before.length earlier own later

namespace Context

variable {s : Setting σ} {C : Context} {p q : Pattern}

/-- What a query finds is fewer events, in a group fewer of one child, if the
rendering at the open place plays fewer. -/
theorem loses_eventsIn (hC : C.Within .lossless s.transforms) (hp : p.isNumberLeaf = false)
    (hq : q.isNumberLeaf = false) (hthins : (p.render s).Thins (q.render s)) {state : σ}
    {cycle : Int} {arc : Option Arc} {events : List Event}
    (h : (C.fill p).eventsIn s state cycle arc = .ok events) :
    ∃ fewer, (C.fill q).eventsIn s state cycle arc = .ok fewer ∧ C.Loses events fewer := by
  obtain ⟨keep, rendered, state', hrendered, rfl, hselect⟩ := Pattern.selected_of_eventsIn h
  rw [render_fill s hp] at hrendered
  have hplug := plug_related (Rendering.surrounding_thins s) hthins hC
  obtain ⟨fewer, hfewer, hsub⟩ := hplug cycle Span.cycle state rendered state' hrendered
  refine ⟨Event.sortByStart (fewer.filter keep), hselect _ fewer state' ?_,
    Event.sortByStart_sublist (hsub.filter keep), ?_⟩
  · rw [render_fill s hq, hfewer]
  · rintro before inner after rfl
    have hall : ∀ ps : List Pattern, ∀ r ∈ Pattern.renderAll s ps, Rendering.Confined r := fun ps =>
      Pattern.renderAll_closed (Rendering.closed_confined s) ps (Pattern.allWithin_full _ ps)
    have hinner : Rendering.Confined (inner.plug s (p.render s)) := by
      rw [← render_fill s hp]
      exact Pattern.confined_render s _
    have hlost : (inner.plug s (p.render s)).Thins (inner.plug s (q.render s)) :=
      plug_related (Rendering.surrounding_thins s) hthins hC
    obtain ⟨earlier, own, kept, later, rfl, hkept, hown, hbeside⟩ :=
      Rendering.thins_beside hinner (hall before) (hall after) hlost hrendered
    obtain ⟨rfl, -⟩ := Prod.mk.inj (Except.ok.inj (hfewer.symm.trans hkept))
    rw [Pattern.length_renderAll, Pattern.length_renderAll] at hbeside
    have hselected := hbeside.filter keep
    have hleft := hselected.of_subset (List.Subset.refl _) (hown.filter keep).subset
      (List.Subset.refl _)
    simp only [List.filter_append]
    exact ⟨_, _, _, _, hselected.sortByStart_append, hleft.sortByStart_append,
      Event.sortByStart_sublist (hown.filter keep), hselected.sort⟩

end Context

/-! ## Draws -/

namespace Twister

/-- A shift to the right leaves so many bits of a word. -/
theorem toNat_shiftRight_lt (w : UInt32) {k : Nat} (hk : k < 32) :
    (w >>> UInt32.ofNat k).toNat < 2 ^ (32 - k) := by
  have hshift : (UInt32.ofNat k).toNat % 32 = k := by
    rw [UInt32.toNat_ofNat']
    omega
  rw [UInt32.toNat_shiftRight, hshift, Nat.shiftRight_eq_div_pow,
    Nat.div_lt_iff_lt_mul (Nat.two_pow_pos k), ← pow_add, Nat.sub_add_cancel hk.le]
  exact w.toNat_lt

/-- Draws lie from zero up to one. -/
theorem draw_unit (t : Twister) : 0 ≤ t.draw.1 ∧ t.draw.1 < 1 := by
  have hdraw : t.draw.1 =
      mkRat ((t.next.1 >>> 5).toNat <<< 26 + (t.next.2.next.1 >>> 6).toNat : Nat) (1 <<< 53) := rfl
  have hhigh : (t.next.1 >>> 5).toNat < 2 ^ 27 := toNat_shiftRight_lt t.next.1 (by decide)
  have hlow : (t.next.2.next.1 >>> 6).toNat < 2 ^ 26 :=
    toNat_shiftRight_lt t.next.2.next.1 (by decide)
  have hbits : (t.next.1 >>> 5).toNat <<< 26 + (t.next.2.next.1 >>> 6).toNat < 1 <<< 53 := by
    rw [Nat.shiftLeft_eq, Nat.shiftLeft_eq]
    omega
  rw [hdraw, Rat.mkRat_eq_div, Int.cast_natCast]
  generalize 1 <<< 53 = n at hbits
  have hn : (0 : Rat) < n := Nat.cast_pos.mpr ((Nat.zero_le _).trans_lt hbits)
  rw [div_lt_one hn]
  exact ⟨div_nonneg (Nat.cast_nonneg _) hn.le, Nat.cast_lt.mpr hbits⟩

end Twister

/-- Whether all draws lie from zero up to, not including, one. -/
def Setting.DrawsInUnit (s : Setting σ) : Prop :=
  ∀ state, 0 ≤ (s.draw state).1 ∧ (s.draw state).1 < 1

/-- A performance draws from zero up to, not including, one. -/
theorem Performance.drawsInUnit_setting (perf : Performance) (policy : Policy) :
    (perf.setting policy).DrawsInUnit := Twister.draw_unit

/-! ## Chances -/

/-- The pattern with events dropped at random. -/
def Pattern.degraded (v : Value) (x : Pattern) : Pattern := .transform x "degrade" [v]

section

variable {s : Setting σ} {v w : Value} {a b : Rat}

/-- A greater chance drops more.  Both chances are read as doubles, and reading
keeps their order. -/
theorem Pattern.thins_degraded (hdegrade : s.transforms.Acts "degrade" .degrade)
    (hv : v.rational? = some a) (hw : w.rational? = some b) (hpos : 0 ≤ a) (hab : a ≤ b)
    (hle : b ≤ 1) (x : Pattern) : ((x.degraded v).render s).Thins ((x.degraded w).render s) := by
  obtain ⟨chance, p, hchance, hp⟩ := v.nearest_toFloat hv hpos (hab.trans hle)
  obtain ⟨chance', q, hchance', hq⟩ := w.nearest_toFloat hw (hpos.trans hab) hle
  have hpq : p ≤ q := hp.le hq hab
  rw [degraded, degraded, render_degrade hdegrade hchance, render_degrade hdegrade hchance']
  refine Rendering.thins_degraded s.draw (fun t ht => ?_) _
  rw [Number.lessOrSame_of_nearest hq, decide_eq_true_eq] at ht
  rw [Number.lessOrSame_of_nearest hp, decide_eq_true_eq]
  exact hpq.trans ht

/-- With chance zero nothing is dropped, with chance one everything is. -/
theorem Pattern.render_degraded_certain (hdegrade : s.transforms.Acts "degrade" .degrade)
    (hdraws : s.DrawsInUnit) (hv : v.rational? = some a) (x : Pattern) :
    (a = 0 → (x.degraded v).render s = Rendering.spent s.draw true (x.render s)) ∧
    (a = 1 → (x.degraded v).render s = Rendering.spent s.draw false (x.render s)) := by
  have hrender : a = 0 ∨ a = 1 → ∀ keep, (∀ state, decide (a ≤ (s.draw state).1) = keep) →
      (x.degraded v).render s = Rendering.spent s.draw keep (x.render s) := by
    intro ha keep hkeep
    have hunit : 0 ≤ a ∧ a ≤ 1 := by
      rcases ha with rfl | rfl <;> norm_num
    obtain ⟨chance, p, hchance, hp⟩ := v.nearest_toFloat hv hunit.1 hunit.2
    obtain rfl := hp.eq_self ha
    rw [degraded, render_degrade hdegrade hchance]
    exact Rendering.degraded_eq_spent
      (fun state => (Number.lessOrSame_of_nearest hp _).trans (hkeep state)) _
  constructor
  · rintro rfl
    exact hrender (.inl rfl) true fun state => decide_eq_true (hdraws state).1
  · rintro rfl
    exact hrender (.inr rfl) false fun state => decide_eq_false (not_le.mpr (hdraws state).2)

end

namespace Context

/-- **Dropping more only loses events**: where events are dropped at random, and
nothing above that place drops events, a greater chance finds some of the events
that were found, from any draws; in a group, the events of the other children stay
as they are.  With chance zero all events of the place go on to what is around it,
with chance one none; a draw is spent for each. -/
theorem degrade_more {known : Registry Transform} (hdegrade : known.Acts "degrade" .degrade)
    {C : Context} (hC : C.Within .lossless known) {v w : Value} {a b : Rat}
    (hv : v.rational? = some a) (hw : w.rational? = some b) (hpos : 0 ≤ a) (hab : a ≤ b)
    (hle : b ≤ 1) (x : Pattern) :
    (∀ {σ : Type} (s : Setting σ), s.transforms = known → ∀ state cycle arc events,
      (C.fill (x.degraded v)).eventsIn s state cycle arc = .ok events →
        ∃ fewer, (C.fill (x.degraded w)).eventsIn s state cycle arc = .ok fewer ∧
          C.Loses events fewer) ∧
    (∀ perf : Performance, perf.transforms = known → ∀ cycle arc events,
      perf.query (C.fill (x.degraded v)) cycle arc = .ok events →
        ∃ fewer, perf.query (C.fill (x.degraded w)) cycle arc = .ok fewer ∧
          C.Loses events fewer) ∧
    (∀ {σ : Type} (s : Setting σ), s.transforms = known → s.DrawsInUnit →
      (a = 0 → (C.fill (x.degraded v)).render s =
        C.plug s (Rendering.spent s.draw true (x.render s))) ∧
      (b = 1 → (C.fill (x.degraded w)).render s =
        C.plug s (Rendering.spent s.draw false (x.render s)))) ∧
    ∀ (perf : Performance) (policy : Policy), (perf.setting policy).DrawsInUnit := by
  have hloses : ∀ {σ : Type} (s : Setting σ), s.transforms = known → ∀ state cycle arc events,
      (C.fill (x.degraded v)).eventsIn s state cycle arc = .ok events →
        ∃ fewer, (C.fill (x.degraded w)).eventsIn s state cycle arc = .ok fewer ∧
          C.Loses events fewer := by
    rintro σ s rfl state cycle arc events h
    exact loses_eventsIn hC rfl rfl (Pattern.thins_degraded hdegrade hv hw hpos hab hle x) h
  refine ⟨hloses, ?_, ?_, Performance.drawsInUnit_setting⟩
  · intro perf hknown cycle arc events h
    obtain ⟨policy, hpolicy, hrest⟩ := bind_ok h
    obtain ⟨stream, hstream, hevents⟩ := bind_ok hrest
    obtain ⟨fewer, hfewer, hlost⟩ := hloses (perf.setting policy) hknown stream cycle arc events
      hevents
    refine ⟨fewer, ?_, hlost⟩
    unfold Performance.query
    rw [hpolicy, hstream]
    exact hfewer
  · rintro σ s rfl hdraws
    refine ⟨fun ha => ?_, fun hb => ?_⟩
    · rw [render_fill s rfl, (Pattern.render_degraded_certain hdegrade hdraws hv x).1 ha]
    · rw [render_fill s rfl, (Pattern.render_degraded_certain hdegrade hdraws hw x).2 hb]

/-- Four names thinned with chance a quarter and with chance three quarters, between
a name and a thinned one, and played backwards in some cycles. -/
theorem degrade_more_between :
    let s : Setting Nat :=
      ⟨fun n => (((n % 4 : Nat) : Rat) / 4, n + 1), fun _ _ => .ok 0, Transform.builtin⟩
    let names := Pattern.sequence (["a", "b", "c", "d"].map fun name => .leaf (.text name))
    let thinned := Pattern.transform (.leaf (.text "e")) "degrade" []
    let C := Context.sequence [.leaf (.text "f")]
      (.transform .here "sometimes" [.call "rev" []]) [thinned]
    let found := fun chance : Float =>
      (C.fill (names.degraded (.number (.float chance)))).eventsIn s 0 0 none
    (∃ events fewer, found 0.25 = .ok events ∧ found 0.75 = .ok fewer ∧ C.Loses events fewer ∧
      events.length = 4 ∧ fewer.length = 2) ∧
    (C.fill (names.degraded (.int 0))).render s =
      C.plug s (Rendering.spent s.draw true (names.render s)) ∧
    (C.fill (names.degraded (.int 1))).render s =
      C.plug s (Rendering.spent s.draw false (names.render s)) := by
  intro s names thinned C found
  have hdegrade : Transform.builtin.Acts "degrade" .degrade := ⟨_, rfl, rfl⟩
  have hsometimes : Fragment.lossless.Names Transform.builtin "sometimes" :=
    Fragment.names_of_applies rfl nofun
  have hrev : Fragment.lossless.Names Transform.builtin "rev" :=
    Fragment.names_of_applies rfl nofun
  have hC : C.Within .lossless Transform.builtin := ⟨trivial, hsometimes, hrev, trivial⟩
  have hdraws : s.DrawsInUnit := by
    intro n
    have hlt : ((n % 4 : Nat) : Rat) < 4 := by exact_mod_cast Nat.mod_lt n four_pos
    exact ⟨by positivity, (div_lt_one four_pos).mpr hlt⟩
  have hquarter : (Value.number (.float 0.25)).rational? = some (1 / 4) := by decide +kernel
  have hthree : (Value.number (.float 0.75)).rational? = some (3 / 4) := by decide +kernel
  have hzero : (Value.int 0).rational? = some 0 := rfl
  have hone : (Value.int 1).rational? = some 1 := rfl
  have hevents : (found 0.25).toOption.map List.length = some 4 := by decide +kernel
  have hfewer : (found 0.75).toOption.map List.length = some 2 := by decide +kernel
  obtain ⟨events, hevents, hlength⟩ := ok_of_toOption_map hevents
  obtain ⟨fewer, hfewer, hlength'⟩ := ok_of_toOption_map hfewer
  obtain ⟨fewer', hfewer', hlost⟩ := (degrade_more hdegrade hC hquarter hthree (by norm_num)
    (by norm_num) (by norm_num) names).1 s rfl 0 0 none events hevents
  obtain rfl := Except.ok.inj (hfewer.symm.trans hfewer')
  have hcertain := (degrade_more hdegrade hC hzero hone le_rfl zero_le_one le_rfl names).2.2.1 s rfl
    hdraws
  exact ⟨⟨events, fewer, hevents, hfewer, hlost, hlength, hlength'⟩, hcertain.1 rfl,
    hcertain.2 rfl⟩

end Context

end Ostinato
