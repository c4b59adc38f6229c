import Mathlib.Data.Rat.Floor
import Ostinato.Proofs.Rendering.Confinement
import Ostinato.Proofs.Rendering.Fixed

/-!
# Ostinato.Proofs.Rendering.Gathering

Events gathered from one stretch of cycles after the other.

1. Stretches are joined, cut and nested like the numbers of their cycles
   (`gatherFrom_add`, `gatherFrom_mul`), and a map that goes along with joining
   lists goes inside (`gatherFrom_map`).
2. A cycle at another speed gathers what its span shows of the subject's cycles
   (`repeated_eq_gatherFrom`): all of a cycle whose slot lies in the span
   (`shown_eq`), and nothing of one whose slot lies outside (`shown_silent`).
   So a whole number of cycles plays like a group (`repeated_eq_sequence`).
3. Without draws, cycles that nothing is shown of can be left out at both ends
   of a stretch (`gatherFrom_trim`).
-/

namespace Ostinato

variable {σ α β : Type}

namespace Rendering

open Drawing Event

variable {f g : Int → Drawing σ (List Event)}

/-! ## Stretches -/

/-- Gathering looks only at the cycles that it goes through. -/
theorem gatherFrom_congr (count : Nat) (first : Int)
    (h : ∀ c, first ≤ c → c < first + count → f c = g c) :
    gatherFrom f count first = gatherFrom g count first := by
  induction count generalizing first with
  | zero => rfl
  | succ count ih =>
    rw [gatherFrom, gatherFrom, h first (by omega) (by omega),
      ih (first + 1) fun c hlo hhi => h c (by omega) (by omega)]

/-- Gathering one cycle is that cycle. -/
theorem gatherFrom_one (f : Int → Drawing σ (List Event)) (first : Int) :
    gatherFrom f 1 first = f first := by
  simp [gatherFrom]

/-- Gathering some cycles and then more of them gathers all. -/
theorem gatherFrom_add (f : Int → Drawing σ (List Event)) (m n : Nat) (first : Int) :
    gatherFrom f (m + n) first = (do
      let events ← gatherFrom f m first
      let rest ← gatherFrom f n (first + m)
      pure (events ++ rest)) := by
  induction m generalizing first with
  | zero => simp [gatherFrom]
  | succ m ih =>
    have hnext : first + 1 + (m : Int) = first + (m + 1 : Nat) := by push_cast; ring
    rw [Nat.succ_add_eq_add_succ, Nat.add_succ, gatherFrom, gatherFrom, ih, hnext]
    simp only [bind_assoc, pure_bind, List.append_assoc]

/-- Stretches of `n` cycles each, one after the other. -/
theorem gatherFrom_mul (f : Int → Drawing σ (List Event)) (m n : Nat) (first : Int) :
    gatherFrom (fun c => gatherFrom f n (c * n)) m first = gatherFrom f (m * n) (first * n) := by
  induction m generalizing first with
  | zero => simp [gatherFrom]
  | succ m ih =>
    have hnext : (first + 1) * n = first * n + (n : Int) := by ring
    rw [gatherFrom, ih, Nat.succ_mul, Nat.add_comm, gatherFrom_add, hnext]

/-- A map that goes along with joining lists goes inside. -/
theorem gatherFrom_map {F : List Event → List Event} (hnil : F [] = [])
    (happend : ∀ es es', F (es ++ es') = F es ++ F es') (f : Int → Drawing σ (List Event))
    (count : Nat) (first : Int) :
    (do
      let events ← gatherFrom f count first
      pure (F events)) =
    gatherFrom (fun c => do
      let events ← f c
      pure (F events)) count first := by
  induction count generalizing first with
  | zero => simp [gatherFrom, hnil]
  | succ count ih =>
    rw [gatherFrom, gatherFrom, ← ih]
    simp only [bind_assoc, pure_bind, happend]

/-- Renderings in slots are gathered from the numbers of the slots. -/
theorem gatherFrom_eq_slots {cycle : Int} {start width : Rat} {rs : List (Rendering σ)}
    (first : Int) (count : Nat)
    (h : ∀ i (hi : i < rs.length),
      f (first + i) = rs[i] cycle (Span.step start width (count + i : Nat))) :
    gatherFrom f rs.length first = slots cycle start width count rs := by
  induction rs generalizing first count with
  | nil => rfl
  | cons r rs ih =>
    have hhead : f first = r cycle (Span.step start width count) := by
      simpa using h 0 (Nat.zero_lt_succ _)
    have htail : gatherFrom f rs.length (first + 1) = slots cycle start width (count + 1) rs := by
      refine ih (first + 1) (count + 1) fun i hi => ?_
      have hitem := h (i + 1) (Nat.succ_lt_succ hi)
      rw [List.getElem_cons_succ] at hitem
      rw [← Nat.add_right_comm, Nat.add_assoc count, ← hitem]
      congr 1
      push_cast
      ring
    rw [List.length_cons, gatherFrom, slots, hhead, htail]

/-- Slots in a row, those of one list after those of another. -/
theorem slots_append (cycle : Int) (start width : Rat) (rs rs' : List (Rendering σ)) (count : Nat) :
    slots cycle start width count (rs ++ rs') = (do
      let events ← slots cycle start width count rs
      let rest ← slots cycle start width (count + rs.length) rs'
      pure (events ++ rest)) := by
  induction rs generalizing count with
  | nil => simp [slots]
  | cons r rs ih =>
    have hcount : count + 1 + rs.length = count + (r :: rs).length := by
      rw [List.length_cons]
      omega
    rw [List.cons_append, slots, slots, ih, hcount]
    simp only [bind_assoc, pure_bind, List.append_assoc]

/-! ## Slots of a repetition -/

/-- Where a cycle at another speed lays out the time `t` of its subject. -/
def place (factor : Rat) (cycle : Int) (span : Span) (t : Rat) : Rat :=
  span.start + (t - cycle * factor) * (span.length / factor)

/-- Where a cycle at another speed lays out the cycle `c` of its subject. -/
def slot (factor : Rat) (cycle : Int) (span : Span) (c : Int) : Span :=
  ⟨place factor cycle span c, place factor cycle span c + span.length / factor⟩

/-- What the span of a cycle at another speed shows of the cycle `c` of its
subject. -/
def shown (factor : Rat) (subject : Rendering σ) (cycle : Int) (span : Span) (c : Int) :
    Drawing σ (List Event) := do
  let events ← subject c (slot factor cycle span c)
  pure (clip span events)

/-- Repetition gathers what it shows of each cycle of its subject that reaches into
the cycle played. -/
theorem repeated_eq_gatherFrom {factor : Rat} (hfactor : factor ≠ 0) (subject : Rendering σ)
    (cycle : Int) (span : Span) :
    repeated factor subject cycle span =
      gatherFrom (shown factor subject cycle span)
        ((((cycle + 1 : Int) : Rat) * factor).ceil - (cycle * factor : Rat).floor).toNat
        (cycle * factor : Rat).floor := if_neg hfactor

/-- A whole number of cycles fits into one. -/
theorem repeated_natCast {n : Nat} (hn : 0 < n) (subject : Rendering σ) (cycle : Int)
    (span : Span) :
    repeated n subject cycle span = gatherFrom (shown n subject cycle span) n (cycle * n) := by
  have hfactor : (n : Rat) ≠ 0 := by exact_mod_cast hn.ne'
  have hfirst : (cycle : Rat) * n = ((cycle * n : Int) : Rat) := by
    push_cast
    rfl
  have hlast : ((cycle + 1 : Int) : Rat) * n = ((cycle * n + n : Int) : Rat) := by
    push_cast
    ring
  have hcount : (cycle * n + n - cycle * n : Int).toNat = n := by omega
  rw [repeated_eq_gatherFrom hfactor, hfirst, hlast, Rat.floor_intCast, Rat.ceil_intCast, hcount]

variable {factor : Rat} {cycle c : Int} {span : Span}

/-- The first place of a cycle is the start of the span. -/
theorem place_first : place factor cycle span (cycle * factor) = span.start := by
  simp [place]

/-- The last place of a cycle is the end of the span. -/
theorem place_last (hfactor : factor ≠ 0) :
    place factor cycle span (((cycle : Rat) + 1) * factor) = span.stop := by
  have hlength : factor * (span.length / factor) = span.stop - span.start :=
    mul_div_cancel₀ _ hfactor
  calc place factor cycle span (((cycle : Rat) + 1) * factor)
      = span.start + factor * (span.length / factor) := by unfold place; ring
    _ = span.stop := by rw [hlength]; ring

/-- Above zero, a factor keeps the order of time. -/
theorem place_mono (hfactor : 0 < factor) (pos : span.start < span.stop) :
    Monotone (place factor cycle span) := by
  have hwidth : 0 < span.length / factor := div_pos (sub_pos.mpr pos) hfactor
  intro t t' h
  unfold place
  gcongr

/-- A slot ends where the next one begins. -/
theorem stop_slot : (slot factor cycle span c).stop = place factor cycle span ((c : Rat) + 1) := by
  simp only [slot, place]
  ring

/-- At the old speed a cycle has the span for itself. -/
theorem slot_one : slot 1 c span c = span := by
  simp [slot, place, Span.length]

/-- Above zero, a factor makes slots that start before they stop. -/
theorem slot_pos (hfactor : 0 < factor) (pos : span.start < span.stop) :
    (slot factor cycle span c).start < (slot factor cycle span c).stop := by
  have hwidth : 0 < span.length / factor := div_pos (sub_pos.mpr pos) hfactor
  simpa only [slot] using lt_add_of_pos_right _ hwidth

/-- The slot of a cycle that the span has room for. -/
theorem slot_within (hfactor : 0 < factor) (pos : span.start < span.stop)
    (hlo : (cycle : Rat) * factor ≤ c) (hhi : (c : Rat) + 1 ≤ ((cycle : Rat) + 1) * factor) :
    span.start ≤ (slot factor cycle span c).start ∧ (slot factor cycle span c).stop ≤ span.stop := by
  have hmono : Monotone (place factor cycle span) := place_mono hfactor pos
  have hstart := hmono hlo
  have hstop := hmono hhi
  rw [place_first] at hstart
  rw [place_last hfactor.ne', ← stop_slot] at hstop
  exact ⟨hstart, hstop⟩

/-- The slot of a cycle that is over before the span begins, or begins after it. -/
theorem slot_outside (hfactor : 0 < factor) (pos : span.start < span.stop)
    (hout : (c : Rat) + 1 ≤ cycle * factor ∨ ((cycle : Rat) + 1) * factor ≤ c) :
    (slot factor cycle span c).stop ≤ span.start ∨
      span.stop ≤ (slot factor cycle span c).start := by
  have hmono : Monotone (place factor cycle span) := place_mono hfactor pos
  refine hout.imp (fun hbefore => ?_) (fun hafter => ?_)
  · have hstop := hmono hbefore
    rwa [place_first, ← stop_slot] at hstop
  · have hstart := hmono hafter
    rwa [place_last hfactor.ne'] at hstart

/-- All of a cycle is shown whose slot lies in the span. -/
theorem shown_eq {r : Rendering σ} (hr : Confined r) (hfactor : 0 < factor)
    (pos : span.start < span.stop) (hlo : (cycle : Rat) * factor ≤ c)
    (hhi : (c : Rat) + 1 ≤ ((cycle : Rat) + 1) * factor) :
    shown factor r cycle span c = r c (slot factor cycle span c) := by
  obtain ⟨hstart, hstop⟩ := slot_within hfactor pos hlo hhi
  have hall : ∀ events, (∀ e ∈ events, e.Laid (slot factor cycle span c)) →
      (pure (clip span events) : Drawing σ (List Event)) = pure events := by
    intro events hlaid
    rw [clip_eq_self fun e he => ?_]
    obtain ⟨hcut, hlow, hhigh⟩ := (hlaid e he).forwards (slot_pos hfactor pos)
    exact ⟨hcut.pos, le_trans hstart hlow, le_trans hhigh hstop⟩
  rw [shown, (hr c _).bind_congr hall, bind_pure]

/-- Of as many cycles as the factor says, the slots share the span evenly. -/
theorem slot_natCast (n : Nat) (cycle : Int) (span : Span) (i : Nat) :
    slot n cycle span (cycle * n + i) = Span.step span.start (span.length / n) i := by
  simp only [slot, place, Span.step, Span.mk.injEq]
  push_cast
  constructor <;> ring

/-- A rendering that plays the members of a list in its cycles, one in each, plays
at their number times the speed what the group of them plays. -/
theorem repeated_eq_sequence {r : Rendering σ} (hr : Confined r) {rs : List (Rendering σ)}
    (hne : rs ≠ []) (pos : span.start < span.stop)
    (h : ∀ i (hi : i < rs.length), r (cycle * rs.length + i) = rs[i] cycle) :
    repeated rs.length r cycle span = sequence rs cycle span := by
  have hlength := List.length_pos_iff.mpr hne
  have hn : (0 : Rat) < rs.length := by exact_mod_cast hlength
  rw [repeated_natCast hlength]
  refine gatherFrom_eq_slots _ 0 fun i hi => ?_
  have hroom : (i : Rat) + 1 ≤ rs.length := by exact_mod_cast hi
  rw [shown_eq hr hn pos (by push_cast; linarith) (by push_cast; linarith), slot_natCast, h i hi,
    Nat.zero_add]

/-- Nothing is shown of a cycle whose slot lies outside the span. -/
theorem shown_silent {r : Rendering σ} (hr : Confined r) (hfactor : 0 < factor)
    (pos : span.start < span.stop)
    (hout : (c : Rat) + 1 ≤ cycle * factor ∨ ((cycle : Rat) + 1) * factor ≤ c) :
    (shown factor r cycle span c).Ensures (· = []) := by
  refine (hr c _).bind fun events hlaid => ensures_pure (clip_eq_nil fun e he => ?_)
  obtain ⟨-, hlow, hhigh⟩ := (hlaid e he).forwards (slot_pos hfactor pos)
  cases slot_outside hfactor pos hout with
  | inl hstop => exact le_trans (min_le_left _ _) (le_trans hhigh (le_trans hstop (le_max_right _ _)))
  | inr hstart => exact le_trans (min_le_right _ _) (le_trans hstart (le_trans hlow (le_max_left _ _)))

/-! ## Leaving out -/

/-- What is shown of a subject that does not draw is shown without drawing. -/
theorem fixed_shown {r : Rendering σ} (hr : ∀ cycle span, (r cycle span).Fixed) (factor : Rat)
    (cycle : Int) (span : Span) (c : Int) : (shown factor r cycle span c).Fixed :=
  (hr c _).bind fun _ => fixed_pure _

/-- A stretch without draws in which nothing is found, if it can be rendered at
all. -/
theorem gatherFrom_eq_nil (hf : ∀ c, (f c).Fixed) (count : Nat) (first : Int)
    (h : ∀ c, first ≤ c → c < first + count → (f c).Ensures (· = [])) {state : σ}
    {result : List Event × σ} (hrun : gatherFrom f count first state = .ok result) :
    gatherFrom f count first = pure [] := by
  induction count generalizing first state result with
  | zero => rfl
  | succ count ih =>
    obtain ⟨events, state', hfirst, hlater⟩ := bind_eq_ok hrun
    obtain ⟨rest, state'', hrest, -⟩ := bind_eq_ok hlater
    have hhead : f first = pure [] :=
      (hf first).eq_pure (h first (le_refl _) (by omega)) hfirst
    have htail : gatherFrom f count (first + 1) = pure [] :=
      ih (first + 1) (fun c hlo hhi => h c (by omega) (by omega)) hrest
    simp [gatherFrom, hhead, htail]

/-- Cycles in which nothing is found can be left out at both ends of a stretch
without draws, if they can be rendered at all. -/
theorem gatherFrom_trim (hf : ∀ c, (f c).Fixed) (before count after : Nat) (first : Int)
    (hbefore : ∀ c, first ≤ c → c < first + before → (f c).Ensures (· = []))
    (hafter : ∀ c, first + before + count ≤ c → (f c).Ensures (· = [])) {state : σ}
    {result : List Event × σ}
    (hrun : gatherFrom f (before + count + after) first state = .ok result) :
    gatherFrom f (before + count + after) first = gatherFrom f count (first + before) := by
  rw [gatherFrom_add, gatherFrom_add] at hrun ⊢
  simp only [bind_assoc, pure_bind] at hrun ⊢
  obtain ⟨_, middle, hrunBefore, hrun⟩ := bind_eq_ok hrun
  obtain ⟨_, last, -, hrun⟩ := bind_eq_ok hrun
  obtain ⟨_, _, hrunAfter, -⟩ := bind_eq_ok hrun
  have hnilBefore := gatherFrom_eq_nil hf before first hbefore hrunBefore
  have hnilAfter := gatherFrom_eq_nil hf after _ (fun c hlo _ => hafter c (by omega)) hrunAfter
  simp only [hnilBefore, hnilAfter, pure_bind, List.nil_append, List.append_nil, bind_pure]

end Rendering

/-! ## Queries -/

namespace Performance

variable {perf : Performance} {p q : Pattern} {cycle : Int}

/-- Patterns that render alike are found alike. -/
theorem query_congr (h : ∀ policy, perf.choice.resolve perf.policies = .ok policy →
      p.render (perf.setting policy) cycle Span.cycle =
        q.render (perf.setting policy) cycle Span.cycle) (arc : Option Arc) :
    perf.query p cycle arc = perf.query q cycle arc := by
  unfold query Pattern.eventsIn
  cases hpolicy : perf.choice.resolve perf.policies with
  | error fault => rfl
  | ok policy => simp only [bind, Except.bind, h policy hpolicy]

/-- Where the first pattern is found, it may be taken to render. -/
theorem query_eq_of_query {events : List Event} (hquery : perf.query p cycle none = .ok events)
    (h : ∀ policy state result, perf.choice.resolve perf.policies = .ok policy →
      p.render (perf.setting policy) cycle Span.cycle state = .ok result →
        p.render (perf.setting policy) cycle Span.cycle =
          q.render (perf.setting policy) cycle Span.cycle) (arc : Option Arc) :
    perf.query p cycle arc = perf.query q cycle arc := by
  obtain ⟨policy, stream, rendered, state', hpolicy, -, hrender, -⟩ := rendered_of_query hquery
  refine query_congr (fun policy' hpolicy' => ?_) arc
  obtain rfl : policy = policy' := Except.ok.inj (hpolicy.symm.trans hpolicy')
  exact h policy stream _ hpolicy hrender

end Performance

end Ostinato
