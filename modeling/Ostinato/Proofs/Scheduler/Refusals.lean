import Ostinato.Proofs.Scheduler.Latching

/-!
# Ostinato.Proofs.Scheduler.Refusals

Commands that are refused.

A command is refused for what it is given, a pattern that cannot be played or a
rate that is none, or for the state it finds: a start needs a scheduler that is
stopped and a replacement one that plays.  All of this is tested before
anything is changed, the pattern first, then the rate, then the state
(`next_of_refusal`).  Only the reading of notation leaves something behind: the
entries it makes in the journal.
-/

namespace Ostinato

/-! ## What is refused -/

namespace Value

/-- Whether a value cannot be played: it is notation that cannot be read, or
neither notation nor a pattern. -/
def Unplayable (transforms : Registry Transform) : Value → Prop
  | text notated => ∃ e, parse transforms notated = .error e
  | pattern _ => False
  | _ => True

/-- Whether a value is no rate: it stands for no double that is greater than
zero. -/
def NoRate (v : Value) : Prop := ∀ x, v.toFloat = .ok x → ¬ 0.0 < x

/-- The pattern that a value stands for where it is to be played. -/
def played (transforms : Registry Transform) : Value → Except SchedulerError Pattern
  | text notated => (parse transforms notated).mapError .malformed
  | pattern p => .ok p
  | v => .error (.fault (.notPlayable v.kind))

/-- A value cannot be played if and only if no pattern stands for it. -/
theorem unplayable_iff {transforms : Registry Transform} {v : Value} :
    v.Unplayable transforms ↔ ∃ e, v.played transforms = .error e := by
  cases v with
  | text notated =>
      change (∃ e, parse transforms notated = .error e) ↔
        ∃ e, (parse transforms notated).mapError SchedulerError.malformed = .error e
      cases parse transforms notated with
      | error e => exact iff_of_true ⟨e, rfl⟩ ⟨_, rfl⟩
      | ok p => exact iff_of_false (fun ⟨_, he⟩ => by cases he) (fun ⟨_, he⟩ => by cases he)
  | pattern p => exact iff_of_false id (fun ⟨_, he⟩ => by cases he)
  | _ => exact iff_of_true trivial ⟨_, rfl⟩

/-- A value is no rate if and only if it is refused as one. -/
theorem noRate_iff {v : Value} : v.NoRate ↔ ∃ cause, Scheduler.checkRate v = .error cause := by
  unfold NoRate Scheduler.checkRate
  cases v.toFloat with
  | error cause => exact iff_of_true (fun _ hx => by cases hx) ⟨cause, rfl⟩
  | ok x =>
      change _ ↔ ∃ cause, (if 0.0 < x then Except.ok x else _) = Except.error cause
      by_cases hpos : 0.0 < x
      · rw [if_pos hpos]
        exact iff_of_false (fun h => h x rfl hpos) (fun ⟨_, he⟩ => by cases he)
      · rw [if_neg hpos]
        exact iff_of_true (fun y hy => Except.ok.inj hy ▸ hpos) ⟨_, rfl⟩

/-- A rate that may be given is refused if it is none. -/
theorem noRate_of_mapM {given : Option Value} :
    (∃ r, given = some r ∧ r.NoRate) ↔ ∃ cause, given.mapM Scheduler.checkRate = .error cause := by
  cases given with
  | none => exact iff_of_false (fun ⟨_, hr, _⟩ => by cases hr) (fun ⟨_, he⟩ => by cases he)
  | some r =>
      have hmap : (some r).mapM Scheduler.checkRate = some <$> Scheduler.checkRate r := rfl
      have hgiven : (∃ r', some r = some r' ∧ r'.NoRate) ↔ r.NoRate := by simp
      rw [hgiven, noRate_iff, hmap]
      cases Scheduler.checkRate r with
      | error cause => exact iff_of_true ⟨cause, rfl⟩ ⟨cause, rfl⟩
      | ok rate => exact iff_of_false (fun ⟨_, he⟩ => by cases he) (fun ⟨_, he⟩ => by cases he)

end Value

namespace Occurrence

/-- Whether a scheduler refuses a command. -/
def Refused (s : Scheduler) : Occurrence → Prop
  | start v given => s.isRunning = true ∨ v.Unplayable s.transforms ∨
      ∃ r, given = some r ∧ r.NoRate
  | replace v => s.isRunning = false ∨ v.Unplayable s.transforms
  | setRate r => r.NoRate
  | _ => False

/-- Why a command is refused, if it is.  Of several reasons the pattern comes
first, then the rate, then what is or is not being played. -/
def refusal (s : Scheduler) : Occurrence → Except SchedulerError Unit
  | start v given => do
    let _ ← v.played s.transforms
    let _ ← (given.mapM Scheduler.checkRate).mapError .fault
    if s.isRunning then .error .alreadyRunning else .ok ()
  | replace v => do
    let _ ← v.played s.transforms
    if s.isRunning then .ok () else .error .notRunning
  | setRate r => do
    let _ ← (Scheduler.checkRate r).mapError .fault
    .ok ()
  | _ => .ok ()

end Occurrence

/-! ## Entries -/

namespace Journal

/-- The journal with some lines more. -/
def printed (j : Journal) (lines : List String) : Journal := { j with lines := j.lines ++ lines }

/-- A journal is another with some lines more, and with none if it is switched
off. -/
def Extends (j' j : Journal) : Prop :=
  ∃ lines, j' = j.printed lines ∧ (j.enabled = false → lines = [])

theorem extends_refl (j : Journal) : j.Extends j := by
  refine ⟨[], ?_, fun _ => rfl⟩
  unfold printed
  rw [List.append_nil]

/-- Lines added to added lines are added lines. -/
theorem Extends.trans {j j' j'' : Journal} (h : j'.Extends j) (h' : j''.Extends j') :
    j''.Extends j := by
  obtain ⟨lines, rfl, hnone⟩ := h
  obtain ⟨more, rfl, hnone'⟩ := h'
  refine ⟨lines ++ more, ?_, fun hoff => ?_⟩
  · unfold printed
    rw [List.append_assoc]
  · rw [hnone hoff, hnone' hoff]
    rfl

/-- An entry is one line more, or none if it is not made. -/
theorem extends_log (j : Journal) (category message : String) (level : Int) :
    (j.log category message level).Extends j := by
  by_cases hentered : (j.enabled && level ≤ j.level) = true
  · refine ⟨["[LoopScript:" ++ category ++ "] " ++ message], ?_, fun hoff => ?_⟩
    · unfold log
      rw [if_pos hentered]
      rfl
    · rw [hoff] at hentered
      nomatch hentered
  · have hsame : j.log category message level = j := by
      unfold log
      rw [if_neg hentered]
    rw [hsame]
    exact j.extends_refl

/-- The entries for the modulations that were read are lines more. -/
theorem extends_logModulations (j : Journal) (c : Cursor) : (j.logModulations c).Extends j := by
  unfold logModulations
  induction c.modulations with
  | nil => exact j.extends_refl
  | cons operands modulations ih => exact ih.trans (extends_log _ _ _ _)

/-- Reading yields what the text stands for, and makes nothing but entries. -/
theorem read_text (j : Journal) (transforms : Registry Transform) (notated : String) :
    (j.read transforms (.text notated)).1 = parse transforms notated ∧
      (j.read transforms (.text notated)).2.Extends j := by
  have htokens : (Source.text notated).tokens = tokenize notated := rfl
  unfold read parse
  rw [htokens]
  cases tokenize notated with
  | error e => exact ⟨rfl, j.extends_refl⟩
  | ok tokens =>
      simp only
      cases (parseTokens transforms tokens).1 with
      | error e => exact ⟨rfl, j.extends_logModulations _⟩
      | ok p => exact ⟨rfl, (j.extends_logModulations _).trans (extends_log _ _ _ _)⟩

end Journal

namespace Scheduler

open Scheduling

/-- A scheduler is another with some lines more in its journal, and with none if
that is switched off. -/
def Extends (t s : Scheduler) : Prop :=
  ∃ lines, t = { s with journal := s.journal.printed lines } ∧
    (s.journal.enabled = false → lines = [])

/-- A scheduler with more lines in its journal extends the one before. -/
theorem extends_of_journal {s : Scheduler} {journal : Journal} (h : journal.Extends s.journal) :
    Extends { s with journal := journal } s := by
  obtain ⟨lines, rfl, hnone⟩ := h
  exact ⟨lines, rfl, hnone⟩

theorem extends_refl (s : Scheduler) : s.Extends s := extends_of_journal s.journal.extends_refl

/-- A pattern is found unless the value cannot be played, and nothing is changed
but for entries in the journal. -/
theorem coerce_eq (v : Value) (s : Scheduler) :
    (coerce v).outcome s = v.played s.transforms ∧ ((coerce v).after s).Extends s := by
  cases v with
  | text notated =>
      obtain ⟨hresult, hextends⟩ := s.journal.read_text s.transforms notated
      change (coerce (.text notated)).outcome s =
        (parse s.transforms notated).mapError SchedulerError.malformed ∧ _
      rw [← hresult]
      unfold coerce
      simp only [outcome_get_bind, after_get_bind, outcome_set_bind, after_set_bind]
      cases (s.journal.read s.transforms (.text notated)).1 with
      | error e => exact ⟨rfl, extends_of_journal hextends⟩
      | ok p => exact ⟨rfl, extends_of_journal hextends⟩
  | _ => exact ⟨rfl, s.extends_refl⟩

/-! ## Refusals -/

/-- A command is refused if there is a reason for it. -/
theorem refused_iff {s : Scheduler} {o : Occurrence} :
    o.Refused s ↔ ∃ e, o.refusal s = .error e := by
  cases o with
  | start v given =>
      simp only [Occurrence.Refused, Occurrence.refusal, Value.unplayable_iff, Value.noRate_of_mapM]
      cases v.played s.transforms with
      | error e => exact iff_of_true (.inr (.inl ⟨e, rfl⟩)) ⟨e, rfl⟩
      | ok node =>
          cases given.mapM checkRate with
          | error cause => exact iff_of_true (.inr (.inr ⟨cause, rfl⟩)) ⟨_, rfl⟩
          | ok rate => cases s.isRunning <;> simp [Except.mapError, bind, Except.bind]
  | replace v =>
      simp only [Occurrence.Refused, Occurrence.refusal, Value.unplayable_iff]
      cases v.played s.transforms with
      | error e => exact iff_of_true (.inr ⟨e, rfl⟩) ⟨e, rfl⟩
      | ok node => cases s.isRunning <;> simp [bind, Except.bind]
  | setRate r =>
      simp only [Occurrence.Refused, Occurrence.refusal, Value.noRate_iff]
      cases checkRate r with
      | error cause => exact iff_of_true ⟨cause, rfl⟩ ⟨_, rfl⟩
      | ok rate => exact iff_of_false (fun ⟨_, he⟩ => by cases he) (fun ⟨_, he⟩ => by cases he)
  | _ => exact iff_of_false id (fun ⟨_, he⟩ => by cases he)

/-- Lines in the journal do not start or stop anything. -/
theorem isRunning_of_extends {s t : Scheduler} (h : t.Extends s) : t.isRunning = s.isRunning := by
  obtain ⟨lines, rfl, -⟩ := h
  rfl

/-- A start that there is a reason to refuse fails for it.  The reasons are tested
in their order, each before anything but the journal is changed. -/
theorem start_of_refusal {v : Value} {given : Option Value} {s : Scheduler} {e : SchedulerError}
    (h : (Occurrence.start v given).refusal s = .error e) :
    (start v given).outcome s = .error e ∧ ((start v given).after s).Extends s := by
  obtain ⟨hread, hextends⟩ := coerce_eq v s
  simp only [Occurrence.refusal] at h
  unfold start
  cases hplayed : v.played s.transforms with
  | error e' =>
      rw [hplayed] at h hread
      rw [outcome_bind_error hread, after_bind_error hread]
      exact ⟨congrArg Except.error (Except.error.inj h), hextends⟩
  | ok node =>
      rw [hplayed] at h hread
      rw [outcome_bind hread, after_bind hread]
      cases hrate : given.mapM checkRate with
      | error cause =>
          rw [hrate] at h
          exact ⟨congrArg Except.error (Except.error.inj h), hextends⟩
      | ok rate =>
          rw [hrate] at h
          cases hrunning : s.isRunning with
          | false =>
              rw [hrunning] at h
              cases h
          | true =>
              rw [hrunning] at h
              rw [orFault_ok, pure_bind, outcome_get_bind, after_get_bind,
                isRunning_of_extends hextends, hrunning]
              exact ⟨congrArg Except.error (Except.error.inj h), hextends⟩

/-- A replacement that there is a reason to refuse fails for it. -/
theorem replace_of_refusal {v : Value} {s : Scheduler} {e : SchedulerError}
    (h : (Occurrence.replace v).refusal s = .error e) :
    (replace v).outcome s = .error e ∧ ((replace v).after s).Extends s := by
  obtain ⟨hread, hextends⟩ := coerce_eq v s
  simp only [Occurrence.refusal] at h
  unfold replace
  cases hplayed : v.played s.transforms with
  | error e' =>
      rw [hplayed] at h hread
      rw [outcome_bind_error hread, after_bind_error hread]
      exact ⟨congrArg Except.error (Except.error.inj h), hextends⟩
  | ok node =>
      rw [hplayed] at h hread
      have hstill : ((coerce v).after s).run = s.run := by
        obtain ⟨lines, hsame, -⟩ := hextends
        rw [hsame]
      rw [outcome_bind hread, after_bind hread, outcome_get_bind, after_get_bind, hstill]
      unfold isRunning at h
      cases hrun : s.run with
      | some run =>
          rw [hrun] at h
          cases h
      | none =>
          rw [hrun] at h
          exact ⟨congrArg Except.error (Except.error.inj h), hextends⟩

/-- A command that is refused fails for the reason there is, and makes nothing
but entries. -/
theorem next_of_refusal {s : Scheduler} {o : Occurrence} {e : SchedulerError}
    (h : o.refusal s = .error e) : o.act.outcome s = .error e ∧ (o.next s).Extends s := by
  cases o with
  | start v given => exact start_of_refusal h
  | replace v => exact replace_of_refusal h
  | setRate r =>
      simp only [Occurrence.refusal] at h
      change (setRate r).outcome s = _ ∧ ((setRate r).after s).Extends s
      cases hrate : checkRate r with
      | error cause =>
          rw [hrate] at h
          rw [setRate_error hrate]
          unfold setRate
          rw [hrate, orFault_error, outcome_bind_error rfl]
          exact ⟨congrArg Except.error (Except.error.inj h), s.extends_refl⟩
      | ok rate =>
          rw [hrate] at h
          cases h
  | _ => cases h

/-- **Refusals**: a command that a scheduler refuses, in whatever state it is,
fails for the first of the reasons there are and leaves everything as it was;
reading its notation may make entries in the journal if that is switched on.
Whatever happens later comes to the same as if the command had not been given. -/
theorem refusals_inert (s : Scheduler) {o : Occurrence} (hrefused : o.Refused s) :
    (∃ e, o.refusal s = .error e ∧ o.act.outcome s = .error e) ∧
    (∃ lines, o.next s = { s with journal := s.journal.printed lines } ∧
      (s.journal.enabled = false → lines = [])) ∧
    ∀ later : List Occurrence,
      (∃ journal, afterAll (o :: later) s = { afterAll later s with journal := journal }) ∧
      ∀ o' : Occurrence,
        o'.act.outcome (afterAll (o :: later) s) = o'.act.outcome (afterAll later s) := by
  obtain ⟨e, he⟩ := refused_iff.mp hrefused
  obtain ⟨hfailed, hextends⟩ := next_of_refusal he
  refine ⟨⟨e, he, hfailed⟩, hextends, fun later => ?_⟩
  have hlike : Like Eq s (o.next s) := by
    obtain ⟨lines, hsame, -⟩ := hextends
    exact ⟨s.aside, s.journal.printed lines, rfl, hsame⟩
  have hlater : Like Eq (afterAll later s) (afterAll (o :: later) s) := like_eq_afterAll later hlike
  refine ⟨eq_of_like_eq hlater, fun o' => ?_⟩
  exact ((blind_act (fun rate h => by rw [h]) (fun h => by rw [h]) (fun attempt h => by rw [h])
    o').on hlater).outcome.symm

/-- While two notes are played and another rate waits, a start with a rate that
is none, a replacement by notation that cannot be read, and a rate that is no
number are refused, and then the replacement by another note is not. -/
theorem refusals_inert_notes :
    let s := afterAll [.start (.text "a b") none, .setRate (.int 2)]
      (initial .default Policy.roundRobin ⟨none, fun _ _ => .sounded⟩ none 1.0 0.0)
    s.pendingItems.length = 2 ∧ s.pendingRate = some 2.0 ∧
      ∀ o ∈ [Occurrence.start (.text "c") (some (.int 0)), .replace (.text "["),
        .setRate (.number (.float (0.0 / 0.0)))],
        (∃ e, o.act.outcome s = .error e) ∧ o.next s = s ∧
          ∃ journal, afterAll [o, .replace (.text "c")] s =
            { afterAll [.replace (.text "c")] s with journal := journal } := by
  intro s
  have hpending : s.pendingItems.length = 2 := by decide +kernel
  have hwaits : s.pendingRate = some 2.0 := by decide +kernel
  have hoff : s.journal.enabled = false := by decide +kernel
  have hstart : (Occurrence.start (.text "c") (some (.int 0))).Refused s :=
    .inl (by decide +kernel)
  have hreplace : (Occurrence.replace (.text "[")).Refused s := by
    have hunread : (fault? (parse s.transforms "[")).isSome = true := by decide +kernel
    obtain ⟨e, he⟩ := Option.isSome_iff_exists.mp hunread
    exact .inr ⟨e, fault?_eq_some.mp he⟩
  have hrate : (Occurrence.setRate (.number (.float (0.0 / 0.0)))).Refused s := by
    intro x hx
    rw [← show (0.0 / 0.0 : Float) = x from Except.ok.inj hx]
    decide +kernel
  refine ⟨hpending, hwaits, fun o ho => ?_⟩
  have hrefused : o.Refused s := by
    simp only [List.mem_cons, List.not_mem_nil, or_false] at ho
    rcases ho with rfl | rfl | rfl
    · exact hstart
    · exact hreplace
    · exact hrate
  obtain ⟨⟨e, -, hfailed⟩, ⟨lines, hsame, hnone⟩, hlater⟩ := refusals_inert s hrefused
  refine ⟨⟨e, hfailed⟩, ?_, (hlater [.replace (.text "c")]).1⟩
  rw [hsame, hnone hoff]
  unfold Journal.printed
  rw [List.append_nil]

end Scheduler

end Ostinato
