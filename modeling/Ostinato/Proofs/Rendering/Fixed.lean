import Ostinato.Proofs.Event.Onsets
import Ostinato.Proofs.Rendering.Confinement

/-!
# Ostinato.Proofs.Rendering.Fixed

Renderings that draw nothing.

`m.Fixed` says that a computation neither looks at the state of the draws nor
changes it.  Without random transforms, rendering a pattern is such a
computation (`Pattern.fixed_render`), and what is found in a cycle is what the
pattern renders there, in another order (`Performance.render_of_query`).
-/

namespace Ostinato

variable {σ α β : Type}

namespace Drawing

/-- A computation that does not draw. -/
def Fixed (m : Drawing σ α) : Prop := ∃ outcome : Except Fault α, m = liftM outcome

/-- What is computed without drawing leaves the draws as they are. -/
theorem fixed_lift (outcome : Except Fault α) : (liftM outcome : Drawing σ α).Fixed :=
  ⟨outcome, rfl⟩

theorem fixed_pure (a : α) : (pure a : Drawing σ α).Fixed := ⟨.ok a, rfl⟩

theorem fixed_throw (fault : Fault) : (throw fault : Drawing σ α).Fixed := ⟨.error fault, rfl⟩

/-- Of two computations in a row, each leaves the draws as they are. -/
theorem Fixed.bind {m : Drawing σ α} {f : α → Drawing σ β} (hm : m.Fixed)
    (hf : ∀ a, (f a).Fixed) : (m >>= f).Fixed := by
  obtain ⟨outcome, rfl⟩ := hm
  cases outcome with
  | error fault => exact ⟨.error fault, rfl⟩
  | ok a =>
      obtain ⟨outcome', h⟩ := hf a
      exact ⟨outcome', h⟩

/-- A computation that does not draw and can yield one result only, if it ends
at all. -/
theorem Fixed.eq_pure {m : Drawing σ α} (hm : m.Fixed) {a : α} (h : m.Ensures (· = a))
    {state : σ} {result : α × σ} (hrun : m state = .ok result) : m = pure a := by
  have hresult : result.1 = a := h state result.1 result.2 hrun
  obtain ⟨outcome, rfl⟩ := hm
  cases outcome with
  | error fault => nomatch hrun
  | ok b =>
      obtain rfl : (b, state) = result := Except.ok.inj hrun
      rw [← hresult]
      rfl

/-- Going through a list by computations without draws leaves the draws as they are. -/
theorem fixed_mapM (f : α → Except Fault β) (as : List α) :
    (as.mapM fun a => (liftM (f a) : Drawing σ β)).Fixed :=
  ⟨as.mapM f, mapM_lift f as⟩

end Drawing

namespace Rendering

open Drawing

/-- So does gathering from parts that do. -/
theorem fixed_gather {f : α → Drawing σ (List Event)} (h : ∀ a, (f a).Fixed) (as : List α) :
    (gather f as).Fixed := by
  induction as with
  | nil => exact fixed_pure []
  | cons a as ih =>
      exact (h a).bind fun events => ih.bind fun rest => fixed_pure (events ++ rest)

/-- So does gathering cycles. -/
theorem fixed_gatherFrom {f : Int → Drawing σ (List Event)} (h : ∀ c, (f c).Fixed)
    (count : Nat) (first : Int) : (gatherFrom f count first).Fixed := by
  induction count generalizing first with
  | zero => exact fixed_pure []
  | succ count ih =>
      exact (h first).bind fun events => (ih (first + 1)).bind fun rest =>
        fixed_pure (events ++ rest)

/-- So do slots in a row. -/
theorem fixed_slots {cycle : Int} {start width : Rat} {rs : List (Rendering σ)}
    (h : ∀ r ∈ rs, ∀ span, (r cycle span).Fixed) (count : Nat) :
    (slots cycle start width count rs).Fixed := by
  induction rs generalizing count with
  | nil => exact fixed_pure []
  | cons r rs ih =>
      have htail := ih (fun r' hr' => h r' (List.mem_cons_of_mem r hr')) (count + 1)
      exact (h r List.mem_cons_self _).bind fun events => htail.bind fun rest =>
        fixed_pure (events ++ rest)

/-- So do children that take turns: the choice does not draw. -/
theorem fixed_parallel (choose : Int → Int → Except Fault Int) {rs : List (Rendering σ)}
    (h : ∀ r ∈ rs, ∀ cycle span, (r cycle span).Fixed) (cycle : Int) (span : Span) :
    (parallel choose rs cycle span).Fixed := by
  unfold parallel
  split
  · exact fixed_pure []
  · refine (fixed_lift (choose cycle rs.length)).bind fun pick => ?_
    simp only [List.getD_eq_getElem?_getD]
    cases hr : rs[(pick.emod rs.length).toNat]? with
    | none => exact fixed_pure []
    | some r => exact h r (List.mem_of_getElem? hr) _ span

/-- So does a rhythm; its rests do not draw. -/
theorem fixed_euclidean (steps pulses rotation : Int) {r : Rendering σ}
    (h : ∀ cycle span, (r cycle span).Fixed) (cycle : Int) (span : Span) :
    (euclidean steps pulses rotation r cycle span).Fixed := by
  refine (fixed_lift (divide span.length steps)).bind fun width =>
    (fixed_lift (Rhythm.euclidean steps pulses rotation)).bind fun mask => fixed_slots ?_ 0
  intro r' hr' span'
  obtain ⟨hit, -, rfl⟩ := List.mem_map.mp hr'
  cases hit with
  | true => exact h cycle span'
  | false => exact fixed_pure []

/-- So does a repetition. -/
theorem fixed_repeated (factor : Rat) {r : Rendering σ} (h : ∀ cycle span, (r cycle span).Fixed)
    (cycle : Int) (span : Span) : (repeated factor r cycle span).Fixed := by
  unfold repeated
  split
  · exact fixed_pure []
  · exact fixed_gatherFrom (fun c => (h c _).bind fun _ => fixed_pure _) _ _

/-- So does a wave, whose heights are computed. -/
theorem fixed_modulated (amount rate : Value) {r : Rendering σ}
    (h : ∀ cycle span, (r cycle span).Fixed) (cycle : Int) (span : Span) :
    (modulated amount rate r cycle span).Fixed :=
  (h cycle span).bind fun events => fixed_mapM (slid amount rate cycle span) events

/-- Every combinator but those that draw at random draws nothing. -/
theorem closed_fixed (s : Setting σ) {F : Fragment} (hF : F.IsCertain) :
    s.Closed F fun r => ∀ cycle span, (r cycle span).Fixed where
  failed fault := fun _ _ => fixed_throw fault
  decided f _ h := fun cycle span => (fixed_lift (f cycle)).bind fun i => h i cycle span
  drawn allowed := absurd rfl (hF _ allowed).2
  leaf value := fun _ span => fixed_pure [(⟨value, span, none, none⟩ : Event)]
  sequence _ h := fun cycle _ => fixed_slots (fun r hr => h r hr cycle) 0
  parallel _ h := fixed_parallel s.choose h
  euclidean steps pulses rotation _ h := fixed_euclidean steps pulses rotation h
  repeated factor _ h := fixed_repeated factor h
  reversed _ h := fun cycle span => (h cycle span).bind fun _ => fixed_pure _
  palindrome _ h := fun cycle _ =>
    (h cycle _).bind fun _ => (h cycle _).bind fun _ => fixed_pure _
  chopped parts _ h := fun cycle span =>
    (h cycle span).bind fun events => fixed_gather (fun e => fixed_lift (pieces parts e)) events
  degraded allowed := absurd rfl (hF _ allowed).1
  calculated op operand _ h := fun cycle span =>
    (h cycle span).bind fun events => fixed_mapM (computed op operand) events
  modulated _ amount rate _ h := fixed_modulated amount rate h

end Rendering

/-- Without random transforms, rendering draws nothing. -/
theorem Pattern.fixed_render {s : Setting σ} {F : Fragment} (hF : F.IsCertain) {p : Pattern}
    (hp : p.Within F s.transforms) (cycle : Int) (span : Span) : (p.render s cycle span).Fixed :=
  p.render_closed (Rendering.closed_fixed s hF) hp cycle span

/-! ## Queries -/

namespace Performance

/-- What a query finds in a cycle is what the pattern renders there, sorted. -/
theorem rendered_of_query {perf : Performance} {p : Pattern} {cycle : Int} {events : List Event}
    (h : perf.query p cycle none = .ok events) :
    ∃ policy stream rendered state', perf.choice.resolve perf.policies = .ok policy ∧
      perf.stream cycle = .ok stream ∧
      p.render (perf.setting policy) cycle Span.cycle stream = .ok (rendered, state') ∧
      events = Event.sortByStart rendered := by
  obtain ⟨policy, hpolicy, hrest⟩ := bind_ok h
  obtain ⟨stream, hstream, hevents⟩ := bind_ok hrest
  obtain ⟨rendered, hrun, hsorted⟩ := bind_ok hevents
  obtain ⟨⟨rendered', state'⟩, hrender, hfst⟩ := bind_ok hrun
  have hsame : rendered' = rendered := Except.ok.inj hfst
  rw [hsame] at hrender
  exact ⟨policy, stream, rendered, state', hpolicy, hstream, hrender, (Except.ok.inj hsorted).symm⟩

/-- What a query finds of a pattern without random transforms, the pattern
renders from every state of the draws. -/
theorem render_of_query {perf : Performance} {policy : Policy} {p : Pattern}
    (hp : p.Within .fixed perf.transforms) (hpolicy : perf.choice.resolve perf.policies = .ok policy)
    {cycle : Int} {events : List Event} (h : perf.query p cycle none = .ok events) :
    ∃ rendered, p.render (perf.setting policy) cycle Span.cycle = pure rendered ∧
      events = Event.sortByStart rendered ∧ ∀ e ∈ rendered, e ∈ events := by
  obtain ⟨policy', hpolicy', hstream⟩ := bind_ok h
  obtain ⟨stream, -, hevents⟩ := bind_ok hstream
  rw [hpolicy] at hpolicy'
  rw [← Except.ok.inj hpolicy'] at hevents
  obtain ⟨outcome, hrender⟩ := p.fixed_render (s := perf.setting policy) Fragment.isCertain_fixed hp
    cycle Span.cycle
  unfold Pattern.eventsIn at hevents
  rw [hrender] at hevents
  cases outcome with
  | error fault => nomatch hevents
  | ok rendered =>
      have hsorted : events = Event.sortByStart rendered := (Except.ok.inj hevents).symm
      refine ⟨rendered, hrender, hsorted, fun e he => ?_⟩
      rw [hsorted]
      exact Event.mem_sortByStart.mpr he

/-- What a pattern renders in a cycle is found, sorted. -/
theorem query_of_rendered {perf : Performance} {policy : Policy} {p : Pattern}
    (hpolicy : perf.choice.resolve perf.policies = .ok policy) {cycle : Int}
    {stream state' : Twister} (hstream : perf.stream cycle = .ok stream) {rendered : List Event}
    (h : p.render (perf.setting policy) cycle Span.cycle stream = .ok (rendered, state')) :
    perf.query p cycle none = .ok (Event.sortByStart rendered) := by
  unfold query
  rw [hpolicy, hstream]
  change (Prod.fst <$> p.render (perf.setting policy) cycle Span.cycle stream) >>= _ = _
  rw [h]
  rfl

/-- A query for what a pattern renders from every state of the draws. -/
theorem query_of_render {perf : Performance} {policy : Policy} {p : Pattern}
    (hpolicy : perf.choice.resolve perf.policies = .ok policy) {cycle : Int} {stream : Twister}
    (hstream : perf.stream cycle = .ok stream) {rendered : List Event}
    (h : p.render (perf.setting policy) cycle Span.cycle = pure rendered) :
    perf.query p cycle none = .ok (Event.sortByStart rendered) :=
  query_of_rendered hpolicy hstream (congrFun h stream)

/-- A query that finds events has its policy and its stream. -/
theorem policy_stream_of_query {perf : Performance} {p : Pattern} {cycle : Int} {arc : Option Arc}
    {events : List Event} (h : perf.query p cycle arc = .ok events) :
    (∃ policy, perf.choice.resolve perf.policies = .ok policy) ∧
      ∃ stream, perf.stream cycle = .ok stream := by
  obtain ⟨policy, hpolicy, hrest⟩ := bind_ok h
  obtain ⟨stream, hstream, -⟩ := bind_ok hrest
  exact ⟨⟨policy, hpolicy⟩, ⟨stream, hstream⟩⟩

end Performance

end Ostinato
