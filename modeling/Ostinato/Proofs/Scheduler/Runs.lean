import Ostinato.Proofs.Scheduler.Changes

/-!
# Ostinato.Proofs.Scheduler.Runs

What can happen to a scheduler, in any order.

A run is a list of occurrences: commands, which may be refused or fail, and
timers that go off.  A timer may go off at any time, early or late, and `poke`
has one go off although it was cancelled or did so before.
-/

namespace Ostinato

/-- What can happen to a scheduler. -/
inductive Occurrence where
  | start (pattern : Value) (rate : Option Value)
  | replace (pattern : Value)
  | stop
  | setRate (rate : Value)
  | configureJournal (enable : Value) (level : Option Value)
  /-- The clock moves on and timers go off as they come due. -/
  | advance (time : Float)
  /-- The clock is set and no timer goes off. -/
  | jump (time : Float)
  /-- A timer goes off, once and only if it waits. -/
  | ring (timer : Nat)
  /-- A timer goes off, whether it waits or not. -/
  | poke (timer : Nat)

namespace Scheduler

open Scheduling

/-- A waiting timer goes off. -/
def ring (timer : Nat) : Scheduling Unit := do
  let s ← get
  match s.clock.timer? timer with
  | none => return
  | some t =>
    if t.waiting then
      set { s with clock := s.clock.settle timer }
      perform t.task
    else return

end Scheduler

namespace Occurrence

open Scheduling

/-- What an occurrence makes a scheduler do. -/
def act : Occurrence → Scheduling Unit
  | start pattern rate => Scheduler.start pattern rate
  | replace pattern => Scheduler.replace pattern
  | stop => Scheduler.stop
  | setRate rate => Scheduler.setRate rate
  | configureJournal enable level => Scheduler.configureJournal enable level
  | advance time => Scheduler.advanceTo time
  | jump time => Scheduler.jumpTo time
  | ring timer => Scheduler.ring timer
  | poke timer => Scheduler.poke timer

/-- The scheduler after an occurrence. -/
def next (o : Occurrence) (s : Scheduler) : Scheduler := o.act.after s

end Occurrence

namespace Scheduler

open Scheduling

/-- A scheduler that nothing has happened to. -/
def initial (perf : Performance) (policy : Policy) (sounder : Sounder) (listener : Option Listener)
    (rate now : Float) : Scheduler where
  transforms := perf.transforms
  policies := perf.policies
  policy := policy
  seed := perf.seed
  sounder := sounder
  listener := listener
  rate := rate
  pendingRate := none
  run := none
  items := []
  generation := 0
  boundary := none
  clock := ⟨now, []⟩
  journal := Journal.initial
  trace := Trace.empty
  attempted := 0
  told := 0

/-- A new scheduler is one that nothing has happened to. -/
theorem eq_initial_of_new {given : Value} {perf : Performance} {sounder : Sounder}
    {listener : Option Listener} {now : Float} {s : Scheduler}
    (h : Scheduler.new given perf sounder listener now = .ok s) :
    ∃ policy rate, perf.choice.resolve perf.policies = .ok policy ∧ checkRate given = .ok rate ∧
      s = initial perf policy sounder listener rate now := by
  obtain ⟨rate, hrate, hrest⟩ := bind_ok h
  obtain ⟨policy, hpolicy, hs⟩ := bind_ok hrest
  exact ⟨policy, rate, hpolicy, hrate, (Except.ok.inj hs).symm⟩

/-- The scheduler after a run. -/
def afterAll (os : List Occurrence) (s : Scheduler) : Scheduler :=
  os.foldl (fun s o => o.next s) s

/-- After two runs in a row is after the second, from where the first one ended. -/
theorem afterAll_append (os os' : List Occurrence) (s : Scheduler) :
    afterAll (os ++ os') s = afterAll os' (afterAll os s) := List.foldl_append

/-- What every occurrence keeps, every run keeps. -/
theorem afterAll_related {R : Scheduler → Scheduler → Prop} (hrefl : ∀ s, R s s)
    (htrans : ∀ {s t u}, R s t → R t u → R s u) {os : List Occurrence}
    (h : ∀ o ∈ os, ∀ s, R s (o.next s)) (s : Scheduler) : R s (afterAll os s) := by
  induction os generalizing s with
  | nil => exact hrefl s
  | cons o os ih =>
      exact htrans (h o List.mem_cons_self s)
        (ih (fun o' ho' => h o' (List.mem_cons_of_mem o ho')) (o.next s))

/-! ## Timers that go off -/

/-- The earliest of some timers is one of them. -/
theorem foldl_earlier_mem {α : Type} (t : Timer α) (ts : List (Timer α)) :
    ts.foldl Clock.earlier t ∈ t :: ts := by
  induction ts generalizing t with
  | nil => exact List.mem_cons_self
  | cons u ts ih =>
      rw [List.foldl_cons]
      have hmem := ih (Clock.earlier t u)
      rw [List.mem_cons] at hmem
      cases hmem with
      | inl hfirst =>
          rw [hfirst]
          unfold Clock.earlier
          split
          · exact List.mem_cons_of_mem _ List.mem_cons_self
          · exact List.mem_cons_self
      | inr hlater => exact List.mem_cons_of_mem _ (List.mem_cons_of_mem _ hlater)

/-- The next timer is one that waits. -/
theorem live_of_next? {α : Type} {c : Clock α} {limit : Float} {t : Timer α}
    (h : c.next? limit = some t) : t ∈ c.live := by
  unfold Clock.next? at h
  cases hdue : c.live.filter (·.due ≤ limit) with
  | nil => rw [hdue] at h; nomatch h
  | cons u us =>
      rw [hdue] at h
      have hmem : t ∈ c.live.filter (·.due ≤ limit) := by
        rw [hdue, ← Option.some.inj h]
        exact foldl_earlier_mem u us
      exact List.mem_of_mem_filter hmem

/-- The scheduler when a timer went off, before its task is done. -/
def expired (s : Scheduler) (timer : Nat) : Scheduler :=
  { s with clock := s.clock.settle timer }

/-- The scheduler at another time. -/
def atTime (s : Scheduler) (now : Float) : Scheduler :=
  { s with clock := { s.clock with now := now } }

/-- What is kept by the passing of time and by each timer that goes off is kept
by moving the clock forward. -/
theorem advanceWithin_related {R : Scheduler → Scheduler → Prop} (hrefl : ∀ s, R s s)
    (htrans : ∀ {s t u}, R s t → R t u → R s u) (hclock : ∀ s now, R s (s.atTime now))
    (htimer : ∀ s, ∀ t ∈ s.clock.live, R s ((perform t.task).after (s.expired t.id)))
    (limit : Nat) (time : Float) (s : Scheduler) : R s ((advanceWithin limit time).after s) := by
  induction limit generalizing s with
  | zero => exact hrefl s
  | succ limit ih =>
      unfold advanceWithin
      rw [after_get_bind]
      cases hnext : s.clock.next? time with
      | none => exact hclock s _
      | some t =>
          rw [after_set_bind]
          let moved := s.atTime (s.clock.moveTo t.due).now
          have hwaits : t ∈ moved.clock.live := live_of_next? hnext
          have hperformed : R s ((perform t.task).after (moved.expired t.id)) :=
            htrans (hclock s _) (htimer moved t hwaits)
          change R s ((perform t.task >>= fun _ => advanceWithin limit time).after
            (moved.expired t.id))
          cases houtcome : (perform t.task).outcome (moved.expired t.id) with
          | error e =>
              rw [after_bind_error houtcome]
              exact hperformed
          | ok _ =>
              rw [after_bind houtcome]
              exact htrans hperformed (ih _)

/-- A timer that goes off once, if it waits. -/
theorem ring_cases (timer : Nat) (s : Scheduler) :
    (ring timer).after s = s ∨ ∃ t ∈ s.clock.live, t.id = timer ∧
      (ring timer).after s = (perform t.task).after (s.expired timer) := by
  unfold ring
  rw [after_get_bind]
  cases hfind : s.clock.timer? timer with
  | none => exact .inl rfl
  | some t =>
      simp only
      cases hwaiting : t.waiting with
      | false => exact .inl rfl
      | true =>
          refine .inr ⟨t, List.mem_filter.mpr ⟨List.mem_of_find?_eq_some hfind, hwaiting⟩, ?_, rfl⟩
          have hid := List.find?_some hfind
          simpa using hid

/-- A timer that goes off in any case. -/
theorem poke_cases (timer : Nat) (s : Scheduler) :
    (poke timer).after s = s ∨ ∃ t ∈ s.clock.timers, t.id = timer ∧
      (poke timer).after s = (perform t.task).after s := by
  unfold poke
  rw [after_get_bind]
  cases hfind : s.clock.timer? timer with
  | none => exact .inl rfl
  | some t =>
      have hid := List.find?_some hfind
      exact .inr ⟨t, List.mem_of_find?_eq_some hfind, by simpa using hid, rfl⟩

/-! ## Occurrences -/

/-- What an occurrence comes to.  Whatever follows from single changes, and is
kept by the passing of time and by each timer that goes off, need be shown only
of starts, of stops and of timers that go off again. -/
theorem next_related {S R : Scheduler → Scheduler → Prop} (hS : Tracks S)
    (hsingle : ∀ {s t}, S s t → R s t) (htrans : ∀ {s t u}, R s t → R t u → R s u)
    (hclock : ∀ s now, R s (s.atTime now))
    (htimer : ∀ s, ∀ t ∈ s.clock.live, R s ((perform t.task).after (s.expired t.id)))
    {o : Occurrence} {s : Scheduler}
    (hstart : ∀ v given, o = .start v given → R s ((start v given).after s))
    (hstop : o = .stop → R s (stop.after s))
    (hpoke : ∀ t ∈ s.clock.timers, o = .poke t.id → R s ((perform t.task).after s)) :
    R s (o.next s) := by
  have hrefl : ∀ s, R s s := fun s => hsingle (hS.refl s)
  cases o with
  | start v given => exact hstart v given rfl
  | replace v => exact hsingle (hS.replace v s)
  | stop => exact hstop rfl
  | setRate v => exact hsingle (hS.setRate v s)
  | configureJournal enable level => exact hsingle (hS.configureJournal enable level s)
  | advance time => exact advanceWithin_related hrefl htrans hclock htimer patience time s
  | jump time => exact hclock s time
  | ring timer =>
      change R s ((ring timer).after s)
      rcases ring_cases timer s with hsame | ⟨t, ht, rfl, hrung⟩
      · rw [hsame]
        exact hrefl s
      · rw [hrung]
        exact htimer s t ht
  | poke timer =>
      change R s ((poke timer).after s)
      rcases poke_cases timer s with hsame | ⟨t, ht, rfl, hpoked⟩
      · rw [hsame]
        exact hrefl s
      · rw [hpoked]
        exact hpoke t ht rfl

end Scheduler

end Ostinato
