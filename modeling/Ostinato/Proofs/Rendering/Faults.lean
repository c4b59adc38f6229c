import Ostinato.Proofs.Notation.WellFormed
import Ostinato.Proofs.Rendering.Closure
import Ostinato.Proofs.Rendering.Drawing
import Ostinato.Query

/-!
# Ostinato.Proofs.Rendering.Faults

What can go wrong when a pattern plays that was read from text.

`r.FailsIn F` says that a rendering fails with faults in `F` only.  Of a
well-formed pattern every combinator is given operands that it can use, so all
that is left to fail is the choice among parallel children and, node by node,
what `Pattern.Risks` lists: rests that are too many to be copied, and doubles
that overflow.  The rules follow the combinators (`Rendering.failsIn_repeated`
and so on), the main induction the patterns (`Pattern.WellFormed.failsIn`).
-/

namespace Ostinato

variable {σ α β : Type}

/-! ## Computations -/

/-- All that can go wrong with copies of single items is their number. -/
theorem Copies.fault_of_held {count : Int} {fault : Fault} (h : held count 1 = .error fault) :
    fault = .countTooLarge ∨ fault = .outOfMemory := by
  unfold held fitting at h
  split at h
  · exact .inl (Except.error.inj h).symm
  · simp only [bind, Except.bind] at h
    split at h
    · exact .inr (Except.error.inj h).symm
    · nomatch h

namespace Drawing

/-- Whatever a computation fails with is in `F`. -/
def FailsIn (F : Fault → Prop) (m : Drawing σ α) : Prop :=
  ∀ state fault, m state = .error fault → F fault

variable {F : Fault → Prop}

theorem failsIn_pure (a : α) : FailsIn F (pure a : Drawing σ α) := fun _ _ h => nomatch h

/-- Drawing does not fail. -/
theorem failsIn_draw (f : σ → α × σ) : FailsIn F (fun state => pure (f state) : Drawing σ α) :=
  fun _ _ h => nomatch h

/-- Of two computations in a row, the first fails or the second does. -/
theorem FailsIn.bind {m : Drawing σ α} {f : α → Drawing σ β} (hm : FailsIn F m)
    (hf : ∀ a, FailsIn F (f a)) : FailsIn F (m >>= f) := by
  intro state fault h
  change (m state >>= fun p => f p.1 p.2) = .error fault at h
  cases hstate : m state with
  | error fault' =>
    rw [hstate] at h
    exact hm state fault (hstate.trans (congrArg Except.error (Except.error.inj h)))
  | ok p =>
    rw [hstate] at h
    exact hf p.1 p.2 fault h

/-- A computation without draws fails as it does by itself. -/
theorem failsIn_lift {outcome : Except Fault α} (h : ∀ fault, outcome = .error fault → F fault) :
    FailsIn F (liftM outcome : Drawing σ α) := by
  intro state fault hstate
  cases outcome with
  | error fault' => exact h fault (congrArg Except.error (Except.error.inj hstate))
  | ok a => nomatch hstate

/-- Going on with something that does not draw and succeeds. -/
theorem failsIn_lift_ok {outcome : Except Fault α} {a : α} (ha : outcome = .ok a)
    {f : α → Drawing σ β} (hf : FailsIn F (f a)) :
    FailsIn F ((liftM outcome : Drawing σ α) >>= f) := by
  rw [ha]
  exact hf

/-- Going through a list fails where one of its members does. -/
theorem failsIn_mapM {f : α → Except Fault β} (h : ∀ a fault, f a = .error fault → F fault)
    (as : List α) : FailsIn F (as.mapM fun a => (liftM (f a) : Drawing σ β)) := by
  induction as with
  | nil => exact failsIn_pure []
  | cons a as ih =>
    rw [List.mapM_cons]
    exact (failsIn_lift (h a)).bind fun b => ih.bind fun bs => failsIn_pure (b :: bs)

end Drawing

/-! ## Renderings -/

namespace Rendering

open Drawing

/-- A rendering fails with faults in `F` only, whichever cycle it plays. -/
def FailsIn (F : Fault → Prop) (r : Rendering σ) : Prop :=
  ∀ cycle span, Drawing.FailsIn F (r cycle span)

variable {F : Fault → Prop} {r : Rendering σ}

/-- Gathering fails where one of its parts does. -/
theorem failsIn_gather {f : α → Drawing σ (List Event)} (h : ∀ a, Drawing.FailsIn F (f a))
    (as : List α) : Drawing.FailsIn F (gather f as) := by
  induction as with
  | nil => exact failsIn_pure []
  | cons a as ih => exact (h a).bind fun events => ih.bind fun rest => failsIn_pure (events ++ rest)

/-- Gathering cycles fails where one of them does. -/
theorem failsIn_gatherFrom {f : Int → Drawing σ (List Event)} (h : ∀ c, Drawing.FailsIn F (f c))
    (count : Nat) (first : Int) : Drawing.FailsIn F (gatherFrom f count first) := by
  induction count generalizing first with
  | zero => exact failsIn_pure []
  | succ count ih =>
    exact (h first).bind fun events => (ih (first + 1)).bind fun rest => failsIn_pure (events ++ rest)

/-- Slots in a row fail where one of their renderings does. -/
theorem failsIn_slots {rs : List (Rendering σ)} (h : ∀ r ∈ rs, FailsIn F r) (cycle : Int)
    (start width : Rat) (count : Nat) : Drawing.FailsIn F (slots cycle start width count rs) := by
  induction rs generalizing count with
  | nil => exact failsIn_pure []
  | cons r rs ih =>
    simp only [List.forall_mem_cons] at h
    exact (h.1 cycle _).bind fun events => (ih h.2 (count + 1)).bind fun rest =>
      failsIn_pure (events ++ rest)

/-- A leaf does not fail. -/
theorem failsIn_leaf (value : Value) : FailsIn F (leaf value : Rendering σ) :=
  fun _ _ => failsIn_pure _

theorem failsIn_silent : FailsIn F (fun _ _ => pure [] : Rendering σ) := fun _ _ => failsIn_pure _

/-- A sequence fails where one of its children does. -/
theorem failsIn_sequence {rs : List (Rendering σ)} (h : ∀ r ∈ rs, FailsIn F r) :
    FailsIn F (sequence rs) := fun cycle _ => failsIn_slots h cycle _ _ 0

/-- Children that take turns fail in the choice between them or in the child that is
chosen. -/
theorem failsIn_parallel {choose : Int → Int → Except Fault Int} {rs : List (Rendering σ)}
    (hchoose : ∀ cycle count fault, 0 < count → choose cycle count = .error fault → F fault)
    (h : ∀ r ∈ rs, FailsIn F r) : FailsIn F (parallel choose rs) := by
  intro cycle span
  unfold parallel
  split
  · exact failsIn_pure []
  · rename_i hempty
    have hcount : (0 : Int) < rs.length := by
      cases rs with
      | nil => exact absurd rfl hempty
      | cons r rs => simp
    refine (failsIn_lift fun fault => hchoose cycle _ fault hcount).bind fun pick => ?_
    have hpicked : FailsIn F (rs.getD (pick.emod rs.length).toNat fun _ _ => pure []) := by
      rw [List.getD_eq_getElem?_getD]
      cases hget : rs[(pick.emod rs.length).toNat]? with
      | none => exact failsIn_silent
      | some r => exact h r (List.mem_of_getElem? hget)
    exact hpicked _ span

/-- A rhythm that has steps fails only where its rests cannot be copied or its
subject fails. -/
theorem failsIn_euclidean {steps pulses rotation : Int} (hsteps : 1 ≤ steps)
    (hrests : ∀ fault, pulses < 1 → Copies.held steps 1 = .error fault → F fault)
    (h : FailsIn F r) : FailsIn F (euclidean steps pulses rotation r) := by
  intro cycle span
  have hwidth := divide_eq_ok (show steps ≠ 0 by omega) span.length
  refine failsIn_lift_ok hwidth ((failsIn_lift fun fault hmask => ?_).bind fun mask => ?_)
  · unfold Rhythm.euclidean at hmask
    rw [if_neg (by omega)] at hmask
    split at hmask
    · rename_i hpulses
      cases hheld : Copies.held steps 1 with
      | ok n => simp [hheld, bind, Except.bind, pure, Except.pure] at hmask
      | error fault' =>
        simp only [hheld, bind, Except.bind, Except.error.injEq] at hmask
        exact hrests fault hpulses (hmask ▸ hheld)
    · nomatch hmask
  · refine failsIn_slots (fun r' hr' => ?_) cycle _ _ 0
    obtain ⟨hit, -, rfl⟩ := List.mem_map.mp hr'
    cases hit with
    | true => exact h
    | false => exact failsIn_silent

/-- Repeating fails where its subject does: a factor is divided by only if it is not
zero. -/
theorem failsIn_repeated (factor : Rat) (h : FailsIn F r) : FailsIn F (repeated factor r) := by
  intro cycle span
  unfold repeated
  split
  · exact failsIn_pure []
  · exact failsIn_gatherFrom (fun c => (h c _).bind fun _ => failsIn_pure _) _ _

/-- Playing backwards fails where its subject does. -/
theorem failsIn_reversed (h : FailsIn F r) : FailsIn F (reversed r) :=
  fun cycle span => (h cycle span).bind fun _ => failsIn_pure _

/-- So does a palindrome. -/
theorem failsIn_palindrome (h : FailsIn F r) : FailsIn F (palindrome r) :=
  fun cycle _ => (h cycle _).bind fun _ => (h cycle _).bind fun _ => failsIn_pure _

/-- So does cutting into pieces, if there is at least one. -/
theorem failsIn_chopped {parts : Int} (hparts : 1 ≤ parts) (h : FailsIn F r) :
    FailsIn F (chopped parts r) := by
  refine fun cycle span => (h cycle span).bind fun events => failsIn_gather (fun e => ?_) events
  refine failsIn_lift fun fault hpieces => ?_
  simp only [pieces, divide_eq_ok (show parts ≠ 0 by omega)] at hpieces
  nomatch hpieces

/-- Dropping events at random does not fail. -/
theorem failsIn_thin (draw : σ → Rat × σ) (probability : Float) (events : List Event) :
    Drawing.FailsIn F (thin draw probability events) := by
  induction events with
  | nil => exact failsIn_pure []
  | cons e events ih =>
    exact (failsIn_draw draw).bind fun x => ih.bind fun rest => failsIn_pure _

/-- So degrading fails where its subject does. -/
theorem failsIn_degraded (draw : σ → Rat × σ) (probability : Float) (h : FailsIn F r) :
    FailsIn F (degraded draw probability r) :=
  fun cycle span => (h cycle span).bind fun events => failsIn_thin draw probability events

/-- What is decided by a draw fails where what it decides for does. -/
theorem failsIn_tossed {t : Rendering σ} (draw : σ → Rat × σ) (probability : Float)
    (h : FailsIn F r) (ht : FailsIn F t) : FailsIn F (tossed draw probability r t) := by
  refine fun cycle span => (failsIn_draw draw).bind fun x => ?_
  split
  · exact h cycle span
  · exact ht cycle span

/-- Arithmetic fails where its subject does or where an event's value cannot be
computed with. -/
theorem failsIn_calculated {op : Operator} {operand : Value}
    (hcomputed : ∀ e fault, computed op operand e = .error fault → F fault) (h : FailsIn F r) :
    FailsIn F (calculated op operand r) :=
  fun cycle span => (h cycle span).bind fun events => failsIn_mapM hcomputed events

/-- A wave fails where its subject does or where an event cannot be slid. -/
theorem failsIn_modulated {amount rate : Value}
    (hslid : ∀ cycle span e fault, slid amount rate cycle span e = .error fault → F fault)
    (h : FailsIn F r) : FailsIn F (modulated amount rate r) :=
  fun cycle span => (h cycle span).bind fun events => failsIn_mapM (hslid cycle span) events

end Rendering

/-! ## Operands -/

namespace Number

variable {x y : Number}

/-- A readable operand has an exact value. -/
theorem Readable.toTime (h : x.Readable) : ∃ q, x.toTime = .ok q := by
  cases h with
  | int inRange => exact ⟨_, rfl⟩
  | @float x finite =>
    have hvalue : ∃ q, Double.toRat? x = some q := by simp [Double.toRat?, finite]
    obtain ⟨q, hq⟩ := hvalue
    exact ⟨_, by simp only [Number.toTime, hq]; rfl⟩

/-- A readable operand has a double. -/
theorem Readable.toFloat (h : x.Readable) : ∃ y, x.toFloat = .ok y := by
  cases h with
  | int inRange =>
    obtain ⟨y, hy⟩ := Option.isSome_iff_exists.mp inRange
    exact ⟨y, by simp only [Number.toFloat, hy]⟩
  | float finite => exact ⟨_, rfl⟩

/-- The double of a number other than zero does not compare equal to zero. -/
theorem Readable.beq_zero_of_toFloat (h : x.Readable) (hzero : x.isZero = false) {y : Float}
    (hy : x.toFloat = .ok y) : (y == 0.0) = false := by
  cases h with
  | @int n inRange =>
    obtain ⟨z, hz⟩ := Option.isSome_iff_exists.mp inRange
    simp only [Number.toFloat, hz, Except.ok.injEq] at hy
    have hn : n ≠ 0 := by
      rintro rfl
      exact absurd hzero (by decide)
    exact Double.beq_zero_of_ofInt? hn (hy ▸ hz)
  | float finite =>
    obtain rfl := Except.ok.inj hy
    exact beq_zero_of_isZero hzero

/-- All that can go wrong on the way to a double is its size. -/
theorem fault_of_toFloat {fault : Fault} (h : x.toFloat = .error fault) :
    fault = .integerTooLarge ∨ fault = .fractionTooLarge := by
  cases x with
  | int n =>
    simp only [Number.toFloat] at h
    split at h
    · nomatch h
    · exact .inl (Except.error.inj h).symm
  | float x => nomatch h
  | ratio q =>
    simp only [Number.toFloat] at h
    split at h
    · nomatch h
    · exact .inr (Except.error.inj h).symm

end Number

namespace Operator

variable {op : Operator}

/-- All that can go wrong with an operator on doubles is their size. -/
theorem fault_of_doubles {x y : Number} (hy : y.Readable)
    (nonzero : op = .modulo → y.isZero = false) {fault : Fault}
    (h : (do let a ← x.toFloat; let b ← y.toFloat; Number.float <$> onFloat op a b) =
      .error fault) : fault = .integerTooLarge ∨ fault = .fractionTooLarge := by
  obtain ⟨b, hb⟩ := hy.toFloat
  cases ha : x.toFloat with
  | error fault' =>
    simp only [ha, bind, Except.bind, Except.error.injEq] at h
    exact h ▸ Number.fault_of_toFloat ha
  | ok a =>
    have hzero : op = .modulo → (b == 0.0) = false :=
      fun hop => hy.beq_zero_of_toFloat (nonzero hop) hb
    obtain ⟨z, hz⟩ := onFloat_ok (x := a) hzero
    simp [ha, hb, hz, bind, Except.bind, Functor.map, Except.map] at h

/-- All that can go wrong with an operator whose second operand was read, and
is no zero to divide by, is the size of a double. -/
theorem fault_of_apply {x y : Number} (hy : y.Readable) (nonzero : op = .modulo → y.isZero = false)
    {fault : Fault} (h : op.apply x y = .error fault) :
    fault = .integerTooLarge ∨ fault = .fractionTooLarge := by
  cases y with
  | int b =>
    have hb : op = .modulo → b ≠ 0 := by
      rintro hop rfl
      exact absurd (nonzero hop) (by decide)
    cases x with
    | int a =>
      obtain ⟨n, hn⟩ := onInt_ok (a := a) hb
      simp [apply, hn] at h
    | float x => exact fault_of_doubles hy nonzero h
    | ratio a =>
      have hratio : op = .modulo → (b : Rat) ≠ 0 := fun hop => by exact_mod_cast hb hop
      obtain ⟨q, hq⟩ := onRatio_ok (a := a) hratio
      simp [apply, hq] at h
  | float y => cases x <;> exact fault_of_doubles hy nonzero h
  | ratio q => nomatch hy

end Operator

namespace Rendering

variable {F : Fault → Prop}

/-- What can go wrong with arithmetic on an event. -/
theorem fault_of_computed {op : Operator} {x : Number} (hx : x.Readable)
    (nonzero : op = .modulo → x.isZero = false) {e : Event} {fault : Fault}
    (h : computed op (.number x) e = .error fault) :
    fault = .integerTooLarge ∨ fault = .fractionTooLarge := by
  unfold computed at h
  split at h
  · rename_i y _
    cases happly : op.apply y x with
    | ok z => simp [Value.combine, Value.asNumber?, happly, bind, Except.bind, pure, Except.pure] at h
    | error fault' =>
      simp only [Value.combine, Value.asNumber?, happly, Functor.map, Except.map, bind, Except.bind,
        Except.error.injEq] at h
      exact h ▸ Operator.fault_of_apply hx nonzero happly
  · nomatch h

/-- What can go wrong with a wave: a place or cycle that is too large for a
double, and doubles that have overflowed. -/
def waveFaults : List Fault :=
  [.integerTooLarge, .fractionTooLarge, .sineOfInfinity, .fractionOfInfinity, .fractionOfNaN]

/-- A wave whose rate is readable fails only by numbers that are too large. -/
theorem fault_of_wave {rate : Number} (hrate : rate.Readable) {cycle : Int} {place : Rat}
    {fault : Fault} (h : wave (.number rate) cycle place = .error fault) : fault ∈ waveFaults := by
  obtain ⟨y, hy⟩ := hrate.toFloat
  have hsize : ∀ {z : Number}, z.toFloat = .error fault → fault ∈ waveFaults := by
    intro z hz
    obtain rfl | rfl := Number.fault_of_toFloat hz <;> simp [waveFaults]
  simp only [wave, Value.scaleBy, Value.asNumber?, hy, bind, Except.bind, pure, Except.pure] at h
  cases hplace : (Number.ratio place).toFloat with
  | error fault' =>
    simp only [hplace, Except.error.injEq] at h
    exact hsize (h ▸ hplace)
  | ok x =>
    simp only [hplace] at h
    cases hcycle : (Number.int cycle).toFloat with
    | error fault' =>
      simp only [hcycle, Except.error.injEq] at h
      exact hsize (h ▸ hcycle)
    | ok c =>
      simp only [hcycle, sine] at h
      split at h
      · nomatch h
      · rw [← Except.error.inj h]
        simp [waveFaults]

/-- What can go wrong with sliding an event along a wave. -/
theorem fault_of_slid {amount rate : Number} (hamount : amount.Readable) (hrate : rate.Readable)
    {cycle : Int} {span : Span} {e : Event} {fault : Fault}
    (h : slid (.number amount) (.number rate) cycle span e = .error fault) :
    fault ∈ waveFaults := by
  obtain ⟨y, hy⟩ := hamount.toFloat
  simp only [slid, Value.scaledBy, Value.asNumber?, hy, bind, Except.bind, pure, Except.pure] at h
  cases hwave : wave (.number rate) cycle e.active.start with
  | error fault' =>
    simp only [hwave, Except.error.injEq] at h
    exact h ▸ fault_of_wave hrate hwave
  | ok height =>
    simp only [hwave, Number.toTime] at h
    cases hvalue : Double.toRat? (y * height) with
    | some q => simp [hvalue] at h
    | none =>
      simp only [hvalue, Except.error.injEq] at h
      rw [← h]
      split <;> simp [waveFaults]

end Rendering

/-! ## Transforms -/

namespace Setting

variable {s : Setting σ} {F : Fault → Prop} {subject : Rendering σ}

/-- The last operand of a call is the one that was added last. -/
theorem lastCalled_concat (s : Setting σ) (vs : List Value) (v : Value) (subject : Rendering σ) :
    s.lastCalled (vs ++ [v]) subject = s.called v subject := by
  induction vs with
  | nil => simp [lastCalled]
  | cons w vs ih =>
    cases vs with
    | nil => simp [lastCalled]
    | cons u us => simpa [lastCalled] using ih

/-- A count that was checked is a whole number of at least one. -/
theorem toInt_of_count {what : String} {x : Number} {rest : List Value}
    (h : (OperandCheck.count what).run (.number x :: rest) = .ok ()) :
    ∃ n, x.toInt = .ok n ∧ 1 ≤ n := by
  simp only [OperandCheck.run, OperandCheck.subject, Value.wholeNumber, bind, Except.bind] at h
  cases hint : x.toInt with
  | error fault => simp [hint] at h
  | ok n =>
    simp only [hint] at h
    by_cases hsame : x.same (.int n) = true
    · simp only [hsame, if_true] at h
      exact ⟨n, rfl, by by_contra hlow; simp [show n < 1 by omega] at h⟩
    · simp [hsame] at h

/-- A period that was checked has a place for every cycle. -/
theorem phase_ok {x : Number} {n : Int} (hn : x.toInt = .ok n) (hpos : 1 ≤ n) (cycle : Int) :
    phase cycle (.number x) = .ok (cycle.fmod n) := by
  have hzero : n ≠ 0 := by omega
  simp [phase, Value.toInt, Value.asNumber?, hn, hzero, bind, Except.bind]

/-- What an action does to a subject fails only where the subject, or the call
inside the action, does. -/
theorem failsIn_act {t : Transform} (known : t ∈ Transform.builtin.entries.map Prod.snd)
    {xs : List Number} {calls : List Value} (fewest : t.fewest ≤ xs.length)
    (readable : ∀ x ∈ xs, x.Readable) (hcalls : calls.length = if t.nested then 1 else 0)
    (accepted : t.Accepts (xs.map Value.number ++ calls)) {last : Rendering σ → Rendering σ}
    (hlast : t.nested = true → Rendering.FailsIn F (last subject))
    (h : Rendering.FailsIn F subject) :
    Rendering.FailsIn F (s.act t.action (xs.map Value.number ++ calls) last subject) := by
  have hfirst : ∀ {k : Nat}, (k : Int) + 1 ≤ xs.length → ∃ x rest, xs = x :: rest ∧ x.Readable := by
    intro k hk
    cases xs with
    | nil => exact absurd hk (by simp)
    | cons x rest => exact ⟨x, rest, rfl, readable x List.mem_cons_self⟩
  simp only [Transform.builtin, List.map_cons, List.map_nil, List.mem_cons, List.not_mem_nil,
    or_false] at known
  obtain rfl | rfl | rfl | rfl | rfl | rfl | rfl | rfl | rfl := known
  · exact Rendering.failsIn_reversed h
  · exact Rendering.failsIn_palindrome h
  · -- fast
    obtain ⟨x, rest, rfl, hx⟩ := hfirst (k := 0) (by simpa using fewest)
    obtain ⟨q, hq⟩ := hx.toTime
    exact fun cycle span => Drawing.failsIn_lift_ok rfl <|
      Drawing.failsIn_lift_ok hq (Rendering.failsIn_repeated q h cycle span)
  · -- slow
    obtain ⟨x, rest, rfl, hx⟩ := hfirst (k := 0) (by simpa using fewest)
    obtain ⟨q, hq⟩ := hx.toTime
    exact fun cycle span => Drawing.failsIn_lift_ok rfl <|
      Drawing.failsIn_lift_ok hq (Rendering.failsIn_repeated _ h cycle span)
  · -- degrade
    obtain rfl : calls = [] := List.length_eq_zero_iff.mp hcalls
    cases xs with
    | nil => exact Rendering.failsIn_degraded s.draw evenChance h
    | cons x rest =>
      obtain ⟨y, hy⟩ := (readable x List.mem_cons_self).toFloat
      exact fun cycle span =>
        Drawing.failsIn_lift_ok hy (Rendering.failsIn_degraded s.draw y h cycle span)
  · -- chop
    obtain ⟨x, rest, rfl, hx⟩ := hfirst (k := 0) (by simpa using fewest)
    obtain ⟨n, hn, hpos⟩ := toInt_of_count (accepted _ rfl)
    exact fun cycle span => Drawing.failsIn_lift_ok rfl <|
      Drawing.failsIn_lift_ok hn (Rendering.failsIn_chopped hpos h cycle span)
  · -- every
    obtain ⟨x, rest, rfl, hx⟩ := hfirst (k := 0) (by simpa using fewest)
    obtain ⟨n, hn, hpos⟩ := toInt_of_count (accepted _ rfl)
    intro cycle span
    refine Drawing.failsIn_lift_ok rfl (Drawing.failsIn_lift_ok (phase_ok hn hpos cycle) ?_)
    split
    · exact hlast rfl cycle span
    · exact h cycle span
  · -- when
    obtain ⟨x, rest, rfl, hx⟩ := hfirst (k := 1) (by simpa using fewest)
    obtain ⟨n, hn, hpos⟩ := toInt_of_count (accepted _ rfl)
    cases rest with
    | nil => exact absurd fewest (by simp)
    | cons y rest =>
      intro cycle span
      refine Drawing.failsIn_lift_ok rfl (Drawing.failsIn_lift_ok (phase_ok hn hpos cycle) ?_)
      refine Drawing.failsIn_lift_ok rfl (Drawing.failsIn_lift_ok rfl ?_)
      split
      · exact hlast rfl cycle span
      · exact h cycle span
  · -- sometimes
    have htossed : ∀ probability : Float,
        Rendering.FailsIn F (Rendering.tossed s.draw probability (last subject) subject) :=
      fun probability => Rendering.failsIn_tossed s.draw probability (hlast rfl) h
    obtain ⟨call, rfl⟩ := List.length_eq_one_iff.mp hcalls
    cases xs with
    | nil => exact htossed evenChance
    | cons x rest =>
      obtain ⟨y, hy⟩ := (readable x List.mem_cons_self).toFloat
      cases rest <;> exact fun cycle span => Drawing.failsIn_lift_ok hy (htossed y cycle span)

/-- A call of which the operands are in order fails only where its subject
does. -/
theorem failsIn_applyNamed (hbuiltin : s.transforms = Transform.builtin) {name : String}
    {operands : List Value} (hcall : WellCalled name operands) (h : Rendering.FailsIn F subject) :
    Rendering.FailsIn F (s.applyNamed name operands (s.lastCalled operands) subject) := by
  have hmem : ∀ {name : String} {t : Transform}, Transform.builtin.get? name = some t →
      t ∈ Transform.builtin.entries.map Prod.snd := by
    intro name t hget
    obtain ⟨before, after, hentries, -⟩ := List.lookup_eq_some_iff.mp hget
    simp [hentries]
  induction hcall with
  | @plain name t xs known flat fewest readable accepted =>
    rw [applyNamed_of_some (hbuiltin ▸ known)]
    have hact : Rendering.FailsIn F (s.act t.action (xs.map Value.number ++ [])
        (s.lastCalled (xs.map Value.number)) subject) :=
      failsIn_act (hmem known) fewest readable (by simp [flat]) (by simpa using accepted)
        (by simp [flat]) h
    simpa using hact
  | nested known nests fewest readable call accepted ih =>
    rw [applyNamed_of_some (hbuiltin ▸ known)]
    refine failsIn_act (hmem known) fewest readable (by simp [nests]) accepted (fun _ => ?_) h
    rw [lastCalled_concat]
    exact ih

end Setting

/-! ## Nodes -/

mutual

/-- The nodes of a pattern, itself included. -/
def Pattern.nodes : Pattern → List Pattern
  | .leaf value => [.leaf value]
  | .sequence children => .sequence children :: Pattern.allNodes children
  | .parallel children => .parallel children :: Pattern.allNodes children
  | .transform child name operands => .transform child name operands :: child.nodes
  | .euclidean steps pulses rotation child => .euclidean steps pulses rotation child :: child.nodes
  | .modulation child amount rate => .modulation child amount rate :: child.nodes
  | .operation child sign operand => .operation child sign operand :: child.nodes
  | .stray value => [.stray value]

/-- The nodes of some patterns. -/
def Pattern.allNodes : List Pattern → List Pattern
  | [] => []
  | p :: ps => p.nodes ++ Pattern.allNodes ps

end

namespace Pattern

/-- The nodes of some patterns are the nodes of each. -/
theorem mem_allNodes {q : Pattern} {ps : List Pattern} :
    q ∈ allNodes ps ↔ ∃ p ∈ ps, q ∈ p.nodes := by
  induction ps with
  | nil => simp [allNodes]
  | cons p ps ih => simp [allNodes, ih]

/-- Whether events are slid along a wave. -/
def isModulation : Pattern → Bool
  | modulation .. => true
  | _ => false

/-- Whether numbers are computed with: any operator but a star, and a star
after a number. -/
def isArithmetic : Pattern → Bool
  | operation child sign _ => sign != Operator.times.sign || child.isNumberLeaf
  | _ => false

/-- What a node adds to the faults of its children. -/
def Risks : Pattern → Fault → Prop
  | euclidean steps pulses _ _, fault => pulses = 0 ∧ Copies.held steps 1 = .error fault
  | modulation .., fault => fault ∈ Rendering.waveFaults
  | operation child sign operand, fault =>
    (operation child sign operand).isArithmetic = true ∧
      (fault = .integerTooLarge ∨ fault = .fractionTooLarge)
  | _, _ => False

/-- Whether a node's rests can be held: a rhythm without pulses is a list of as
many rests as it has steps. -/
def isHeld : Pattern → Bool
  | euclidean steps pulses _ _ => pulses != 0 || (Copies.held steps 1).toOption.isSome
  | _ => true

/-- What a node risks is an overflow, a lack of memory or a bad value, never a fault
of type. -/
theorem Risks.family {p : Pattern} {fault : Fault} (h : p.Risks fault) :
    fault.family ∈ [Fault.Family.overflow, .memory, .value] := by
  cases p with
  | euclidean steps pulses rotation child =>
    obtain rfl | rfl := Copies.fault_of_held h.2 <;> simp [Fault.family]
  | modulation child amount rate =>
    simp only [Risks, Rendering.waveFaults, List.mem_cons, List.not_mem_nil, or_false] at h
    obtain rfl | rfl | rfl | rfl | rfl := h <;> simp [Fault.family]
  | operation child sign operand => obtain rfl | rfl := h.2 <;> simp [Fault.family]
  | _ => exact h.elim

/-- Only waves, arithmetic and rests that cannot be held add faults. -/
theorem Risks.cases {p : Pattern} {fault : Fault} (h : p.Risks fault) :
    p.isModulation = true ∨ p.isArithmetic = true ∨ p.isHeld = false := by
  cases p with
  | euclidean steps pulses rotation child =>
    obtain ⟨rfl, hheld⟩ := h
    simp [isHeld, hheld, Except.toOption]
  | modulation child amount rate => exact .inl rfl
  | operation child sign operand => exact .inr (.inl h.1)
  | _ => exact h.elim

/-- A well-formed pattern fails only in the choices among children and with
what its nodes add. -/
theorem WellFormed.failsIn {s : Setting σ} (hbuiltin : s.transforms = Transform.builtin)
    {F : Fault → Prop}
    (hchoose : ∀ cycle count fault, 0 < count → s.choose cycle count = .error fault → F fault)
    {p : Pattern} (h : p.WellFormed) (hrisks : ∀ q ∈ p.nodes, ∀ fault, q.Risks fault → F fault) :
    Rendering.FailsIn F (p.render s) := by
  have hall : ∀ {ps : List Pattern}, (∀ p ∈ ps, Rendering.FailsIn F (p.render s)) →
      ∀ r ∈ renderAll s ps, Rendering.FailsIn F r := by
    intro ps hps r hr
    rw [renderAll_eq_map, List.mem_map] at hr
    obtain ⟨p, hp, rfl⟩ := hr
    exact hps p hp
  induction h with
  | number readable => exact Rendering.failsIn_leaf _
  | text s => exact Rendering.failsIn_leaf _
  | sequence children ih =>
    simp only [nodes, List.forall_mem_cons, mem_allNodes] at hrisks
    exact Rendering.failsIn_sequence <|
      hall fun p hp => ih p hp fun q hq => hrisks.2 q ⟨p, hp, hq⟩
  | parallel children ih =>
    simp only [nodes, List.forall_mem_cons, mem_allNodes] at hrisks
    exact Rendering.failsIn_parallel hchoose <|
      hall fun p hp => ih p hp fun q hq => hrisks.2 q ⟨p, hp, hq⟩
  | transform child call ih =>
    simp only [nodes, List.forall_mem_cons] at hrisks
    exact Setting.failsIn_applyNamed hbuiltin call (ih hrisks.2)
  | euclidean child hsteps hpulses _ _ _ ih =>
    simp only [nodes, List.forall_mem_cons] at hrisks
    exact Rendering.failsIn_euclidean hsteps
      (fun fault hsilent hheld => hrisks.1 fault ⟨by omega, hheld⟩) (ih hrisks.2)
  | modulation child hamount hrate ih =>
    simp only [nodes, List.forall_mem_cons] at hrisks
    exact Rendering.failsIn_modulated
      (fun cycle span e fault hslid =>
        hrisks.1 fault (Rendering.fault_of_slid hamount hrate hslid)) (ih hrisks.2)
  | @operation p op x child readable nonzero ih =>
    simp only [nodes, List.forall_mem_cons] at hrisks
    have hchild := ih hrisks.2
    cases hrep : op.sign == Operator.times.sign && !p.isNumberLeaf with
    | true =>
      obtain ⟨q, hq⟩ := readable.toTime
      rw [Pattern.render, Setting.operated_repeats hrep]
      exact fun cycle span =>
        Drawing.failsIn_lift_ok hq (Rendering.failsIn_repeated q hchild cycle span)
    | false =>
      have harithmetic : (Pattern.operation p op.sign (.number x)).isArithmetic = true := by
        rw [isArithmetic, bne, Bool.or_eq_true, Bool.not_eq_true']
        rwa [Bool.and_eq_false_iff, Bool.not_eq_false'] at hrep
      rw [Pattern.render, Setting.operated_calculates hrep (Operator.ofSign?_sign op)]
      exact Rendering.failsIn_calculated
        (fun e fault hcomputed => hrisks.1 fault
          ⟨harithmetic, Rendering.fault_of_computed readable nonzero hcomputed⟩) hchild

end Pattern

/-! ## Queries -/

namespace Performance

/-- A stream that cannot be had is one whose seed text would be too long. -/
theorem stream_eq_error_iff {perf : Performance} {cycle : Int} {fault : Fault} :
    perf.stream cycle = .error fault ↔ fault = .unwritable ∧
      (perf.seed.isWritable && (Number.int cycle).isWritable) = false := by
  cases hseed : perf.seed.isWritable <;> cases hcycle : (Number.int cycle).isWritable
  all_goals
    simp [stream, seedText, Value.written, Number.written, hseed, hcycle, bind, Except.bind,
      Functor.map, Except.map, pure, Except.pure, eq_comm]

/-- Where the policy and the arc are in order, a query fails for want of a
stream or because the pattern fails. -/
theorem fault_of_query {perf : Performance} {policy : Policy} {p : Pattern} {cycle : Int}
    {arc : Option Arc} (resolved : perf.choice.resolve perf.policies = .ok policy)
    (timed : ∀ ends ∈ arc, (∃ low, ends.1.toTime = .ok low) ∧ ∃ high, ends.2.toTime = .ok high)
    {fault : Fault} (h : perf.query p cycle arc = .error fault) :
    perf.stream cycle = .error fault ∨ ∃ state,
      p.render (perf.setting policy) cycle Span.cycle state = .error fault := by
  simp only [query, resolved, bind, Except.bind] at h
  cases hstream : perf.stream cycle with
  | error fault' =>
    simp only [hstream, Except.error.injEq] at h
    exact .inl (congrArg Except.error h)
  | ok state =>
    simp only [hstream, Pattern.eventsIn, StateT.run', bind, Except.bind] at h
    refine .inr ⟨state, ?_⟩
    cases hrender : p.render (perf.setting policy) cycle Span.cycle state with
    | error fault' =>
      simp only [hrender, Functor.map, Except.map, Except.error.injEq] at h
      rw [h]
    | ok r =>
      cases arc with
      | none => simp [hrender, Functor.map, Except.map, pure, Except.pure] at h
      | some ends =>
        obtain ⟨⟨low, hlow⟩, high, hhigh⟩ := timed ends rfl
        simp [hrender, hlow, hhigh, Functor.map, Except.map, pure, Except.pure] at h

/-- **What is read does not go wrong**: a query for a pattern that text stands
for fails only where the policy does, for want of a seed text, or with a fault
that some node of the pattern risks, and never with a fault of another family
than these.  If the policy answers, the seed text can be written, and the
pattern has no waves, no arithmetic and no rhythm of too many rests, the query
finds its events. -/
theorem query_of_parse {text : String} {p : Pattern} (parsed : parse Transform.builtin text = .ok p)
    {perf : Performance} (known : perf.transforms = Transform.builtin) {policy : Policy}
    (resolved : perf.choice.resolve perf.policies = .ok policy) (cycle : Int) {arc : Option Arc}
    (timed : ∀ ends ∈ arc, (∃ low, ends.1.toTime = .ok low) ∧ ∃ high, ends.2.toTime = .ok high) :
    (∀ fault, perf.query p cycle arc = .error fault →
      (∃ c count, 0 < count ∧ policy c count perf.seed = .error fault) ∨
      fault.family ∈ [Fault.Family.overflow, .memory, .value] ∧
        (fault = .unwritable ∧ (perf.seed.isWritable && (Number.int cycle).isWritable) = false ∨
          ∃ q ∈ p.nodes, q.Risks fault)) ∧
    ((∀ c count, 0 < count → ∃ pick, policy c count perf.seed = .ok pick) →
      perf.seed.isWritable = true → (Number.int cycle).isWritable = true →
      (∀ q ∈ p.nodes, q.isModulation = false ∧ q.isArithmetic = false ∧ q.isHeld = true) →
      ∃ events, perf.query p cycle arc = .ok events) := by
  have hfails : ∀ fault, perf.query p cycle arc = .error fault →
      (∃ c count, 0 < count ∧ policy c count perf.seed = .error fault) ∨
      fault = .unwritable ∧ (perf.seed.isWritable && (Number.int cycle).isWritable) = false ∨
      ∃ q ∈ p.nodes, q.Risks fault := by
    intro fault h
    obtain hstream | ⟨state, hrender⟩ := fault_of_query resolved timed h
    · exact .inr (.inl (stream_eq_error_iff.mp hstream))
    · have hwell := (Pattern.wellFormed_of_parse parsed).1.failsIn (s := perf.setting policy) known
        (F := fun fault => (∃ c count, 0 < count ∧ policy c count perf.seed = .error fault) ∨
          ∃ q ∈ p.nodes, q.Risks fault)
        (fun c count fault hcount hpick => .inl ⟨c, count, hcount, hpick⟩)
        (fun q hq fault hrisk => .inr ⟨q, hq, hrisk⟩)
      exact (hwell cycle _ state fault hrender).imp_right .inr
  constructor
  · intro fault h
    obtain hpolicy | hunwritable | ⟨q, hq, hrisk⟩ := hfails fault h
    · exact .inl hpolicy
    · exact .inr ⟨by simp [hunwritable.1, Fault.family], .inl hunwritable⟩
    · exact .inr ⟨hrisk.family, .inr ⟨q, hq, hrisk⟩⟩
  · intro answers hseed hcycle plain
    cases hquery : perf.query p cycle arc with
    | ok events => exact ⟨events, rfl⟩
    | error fault =>
      obtain ⟨c, count, hcount, hpick⟩ | ⟨-, hlong⟩ | ⟨q, hq, hrisk⟩ := hfails fault hquery
      · obtain ⟨pick, hanswer⟩ := answers c count hcount
        rw [hpick] at hanswer
        nomatch hanswer
      · simp [hseed, hcycle] at hlong
      · have hplain := plain q hq
        obtain h | h | h := hrisk.cases <;> simp_all

/-- An alternation, a rhythm without pulses and nested transforms are played in
cycle five, where a part of the cycle is asked for. -/
theorem query_of_parse_nested :
    let text := "<bd 1> / 8:0 . every 2 fast 3"
    let arc : Option Arc := some (.number (.ratio (1 / 4)), .number (.ratio (1 / 2)))
    ∃ p, parse Transform.builtin text = .ok p ∧
      (∀ q ∈ p.nodes, q.isModulation = false ∧ q.isArithmetic = false ∧ q.isHeld = true) ∧
      ∃ events, Performance.default.query p 5 arc = .ok events := by
  intro text arc
  have hread : (parse Transform.builtin text).toOption.map (fun p => p.nodes.all fun q =>
      !q.isModulation && !q.isArithmetic && q.isHeld) = some true := by
    decide +kernel
  obtain ⟨p, hp, hnodes⟩ := ok_of_toOption_map hread
  have hplain : ∀ q ∈ p.nodes,
      q.isModulation = false ∧ q.isArithmetic = false ∧ q.isHeld = true := by
    simpa [and_assoc] using hnodes
  have htimed : ∀ ends ∈ arc, (∃ low, ends.1.toTime = .ok low) ∧ ∃ high, ends.2.toTime = .ok high := by
    intro ends hends
    rw [← Option.mem_some.mp hends]
    exact ⟨⟨_, rfl⟩, _, rfl⟩
  have hknown : Performance.default.transforms = Transform.builtin := rfl
  have hanswers : ∀ c count, 0 < count → ∃ pick, Policy.roundRobin c count (.int 0) = .ok pick :=
    fun c count hcount => ⟨_, if_neg (by omega)⟩
  exact ⟨p, hp, hplain,
    (query_of_parse hp hknown rfl 5 htimed).2 hanswers
      (by decide +kernel) (by decide +kernel) hplain⟩

/-- The limit of digits is reached by the power of ten. -/
theorem isWritable_of_le {n : Nat} (h : Nat.pow 10 Fault.digitLimit ≤ n) :
    (Number.int n).isWritable = false := by
  change Number.isShort (n : Int).natAbs = false
  rw [Int.natAbs_natCast]
  exact decide_eq_false (Nat.not_lt.mpr h)

/-- A seed or a cycle with too many digits has no stream. -/
theorem query_error_of_long {perf : Performance} {policy : Policy} {p : Pattern} {cycle : Int}
    {arc : Option Arc} (resolved : perf.choice.resolve perf.policies = .ok policy)
    (h : (perf.seed.isWritable && (Number.int cycle).isWritable) = false) :
    perf.query p cycle arc = .error .unwritable := by
  simp only [query, resolved, stream_eq_error_iff.mpr ⟨rfl, h⟩, bind, Except.bind]

/-- A rhythm without pulses may have more steps than a list can hold rests, and
a seed or a cycle may have too many digits to be written: then a query fails,
though there are neither waves nor arithmetic. -/
theorem fault_of_rests :
    (∃ p, parse Transform.builtin "/9223372036854775808:0" = .ok p ∧
      (∀ q ∈ p.nodes, q.isModulation = false ∧ q.isArithmetic = false) ∧
      default.query p 0 none = .error .countTooLarge) ∧
    (∃ p, parse Transform.builtin "/9223372036854775807:0" = .ok p ∧
      (∀ q ∈ p.nodes, q.isModulation = false ∧ q.isArithmetic = false) ∧
      default.query p 0 none = .error .outOfMemory) ∧
    ∃ p, parse Transform.builtin "a" = .ok p ∧
      (∀ q ∈ p.nodes, q.isModulation = false ∧ q.isArithmetic = false) ∧
      default.query p (Nat.pow 10 Fault.digitLimit) none = .error .unwritable ∧
      { default with seed := .int (Nat.pow 10 Fault.digitLimit) }.query p 0 none =
        .error .unwritable := by
  have hrests : ∀ {text : String} {fault : Fault},
      (parse Transform.builtin text).toOption.map (fun p =>
        (p.nodes.all fun q => !q.isModulation && !q.isArithmetic, fault? (default.query p 0 none))) =
        some (true, some fault) →
      ∃ p, parse Transform.builtin text = .ok p ∧
        (∀ q ∈ p.nodes, q.isModulation = false ∧ q.isArithmetic = false) ∧
        default.query p 0 none = .error fault := by
    intro text fault hread
    obtain ⟨p, hp, hpair⟩ := ok_of_toOption_map hread
    obtain ⟨hnodes, hfault⟩ := Prod.mk.inj hpair
    exact ⟨p, hp, by simpa using hnodes, fault?_eq_some.mp hfault⟩
  refine ⟨hrests (by decide +kernel), hrests (by decide +kernel), ?_⟩
  have hread : (parse Transform.builtin "a").toOption.map (fun p =>
      p.nodes.all fun q => !q.isModulation && !q.isArithmetic) = some true := by
    decide +kernel
  obtain ⟨p, hp, hnodes⟩ := ok_of_toOption_map hread
  have hlong : (Number.int (Nat.pow 10 Fault.digitLimit : Nat)).isWritable = false :=
    isWritable_of_le (Nat.le_refl _)
  refine ⟨p, hp, by simpa using hnodes, query_error_of_long rfl ?_, query_error_of_long rfl ?_⟩
  · rw [hlong, Bool.and_false]
  · have hseed : (Value.int (Nat.pow 10 Fault.digitLimit : Nat)).isWritable = false := hlong
    rw [hseed, Bool.false_and]

end Performance

end Ostinato
