import ApiDoc.Proofs.Scan.Rules

/-!
# Runs of the scanner

A run is a sequence of steps with the events they give. Whatever a scan does
is a run from the start of the document:

* it succeeds iff a run with its events empties the agenda
  (`outcome_eq_ok_iff`);
* a run may be cut off the front of an outcome (`Run.outcome_eq`), which is
  how scans are put together;
* each of its events is given by one step, between two runs (`Run.at_event`).

`Run.preserves` packs the induction: what every rule keeps, every run keeps.
`Run.preserves_reached` lets the rule speak of a state that the run reaches, so that
what is known of all runs is at hand.
`Regular` is the first such invariant: apart from a task under way, only the
items of the document are on the agenda.
-/

namespace ApiDoc.Scan

/-! ## Steps -/

/-- The state without the first task of its agenda. -/
abbrev State.drop (s : State) (later : List Task) : State :=
  { s with agenda := later }

theorem step_eq_moved_iff {limit : Nat} {s : State} {m : Move} :
    step limit s = .moved m ↔
      ∃ task later, s.agenda = task :: later ∧ Performs limit (s.drop later) task m := by
  unfold step
  cases ha : s.agenda with
  | nil => simp
  | cons task later =>
    cases hp : perform limit { s with agenda := later } task with
    | error fault =>
      simp only [hp, reduceCtorEq, false_iff]
      rintro ⟨task', later', heq, h⟩
      obtain ⟨rfl, rfl⟩ := List.cons.inj heq
      rw [perform_of_performs h] at hp
      cases hp
    | ok move =>
      simp only [hp, Step.moved.injEq]
      constructor
      · rintro rfl
        exact ⟨task, later, rfl, perform_eq_ok_iff.mp hp⟩
      · rintro ⟨task', later', heq, h⟩
        obtain ⟨rfl, rfl⟩ := List.cons.inj heq
        rw [perform_of_performs h] at hp
        exact (Except.ok.inj hp).symm

theorem step_eq_finished_iff {limit : Nat} {s : State} :
    step limit s = .finished ↔ s.agenda = [] := by
  unfold step
  cases s.agenda with
  | nil => simp
  | cons task later =>
    simp only [reduceCtorEq, iff_false]
    split <;> simp

/-- Every task but a body passes over blanks first. -/
theorem step_behind {limit pos : Nat} {blanks rest : List UInt8} {task : Task}
    {later : List Task} {contexts : List Nat} (hblanks : ∀ b ∈ blanks, Byte.isBlank b = true)
    (hbody : ∀ line, task ≠ .body line) :
    step limit ⟨⟨pos, blanks ++ rest⟩, task :: later, contexts⟩
      = step limit ⟨⟨pos + blanks.length, rest⟩, task :: later, contexts⟩ := by
  have htakes : (⟨pos, blanks ++ rest⟩ : Cursor).Takes blanks ⟨pos + blanks.length, rest⟩ :=
    ⟨rfl, rfl⟩
  have hcursor : (⟨pos, blanks ++ rest⟩ : Cursor).eatBlanks
      = (⟨pos + blanks.length, rest⟩ : Cursor).eatBlanks :=
    Cursor.eatWhile_of_takes htakes hblanks
  have hperform : perform limit ⟨⟨pos, blanks ++ rest⟩, later, contexts⟩ task
      = perform limit ⟨⟨pos + blanks.length, rest⟩, later, contexts⟩ task := by
    cases task with
    | body line => exact absurd rfl (hbody line)
    | items | tail line | lineEnd ending =>
      unfold perform
      rw [hcursor]
      rfl
  simp only [step, hperform]

/-! ## Outcomes -/

/-- What a scan from a state on comes to. -/
def State.outcome (limit : Nat) (s : State) : Except Fault (List Event) :=
  match (s.transcript limit).fault? with
  | some fault => .error fault
  | none => .ok ((s.transcript limit).events.map (·.1))

theorem scan_eq_outcome (limit : Nat) (bytes : List UInt8) :
    scan limit bytes = (State.start bytes).outcome limit := rfl

theorem State.transcript_eq (limit : Nat) (s : State) :
    s.transcript limit =
      match step limit s with
      | .finished => ⟨[], none, s.cursor.pos⟩
      | .failed fault => ⟨[], some fault, fault.pos⟩
      | .moved move => (move.next.transcript limit).after move := by
  rw [State.transcript]
  split <;> rename_i h <;> simp only [h]

theorem State.outcome_finished {limit : Nat} {s : State} (h : step limit s = .finished) :
    s.outcome limit = .ok [] := by
  rw [outcome, transcript_eq, h]
  rfl

theorem State.outcome_failed {limit : Nat} {s : State} {fault : Fault}
    (h : step limit s = .failed fault) : s.outcome limit = .error fault := by
  rw [outcome, transcript_eq, h]

theorem State.outcome_moved {limit : Nat} {s : State} {m : Move} (h : step limit s = .moved m) :
    s.outcome limit = (m.next.outcome limit).map (m.events ++ ·) := by
  rw [outcome, transcript_eq, h]
  simp only [Transcript.after, outcome]
  cases (m.next.transcript limit).fault? with
  | some fault => rfl
  | none => simp [Except.map, Function.comp_def]

/-- States whose next steps are the same come to the same. -/
theorem State.outcome_congr {limit : Nat} {s t : State} (h : step limit s = step limit t) :
    s.outcome limit = t.outcome limit := by
  cases ht : step limit t with
  | finished => rw [outcome_finished (h.trans ht), outcome_finished ht]
  | failed fault => rw [outcome_failed (h.trans ht), outcome_failed ht]
  | moved m => rw [outcome_moved (h.trans ht), outcome_moved ht]

/-! ## Runs -/

/-- `Run limit s events t`: steps lead from `s` to `t` and give `events`. -/
inductive Run (limit : Nat) : State → List Event → State → Prop
  | refl (s : State) : Run limit s [] s
  | step {s t : State} {m : Move} {events : List Event} (h : step limit s = .moved m)
      (rest : Run limit m.next events t) : Run limit s (m.events ++ events) t

namespace Run

variable {limit : Nat} {s t u : State} {events more : List Event}

theorem single {m : Move} (h : Scan.step limit s = .moved m) : Run limit s m.events m.next := by
  have := Run.step h (.refl _)
  rwa [List.append_nil] at this

theorem trans (h : Run limit s events t) (k : Run limit t more u) :
    Run limit s (events ++ more) u := by
  induction h with
  | refl _ => exact k
  | step hs _ ih =>
    rw [List.append_assoc]
    exact .step hs (ih k)

/-- A rule for the first task makes a run of one step. -/
theorem of_rule {c : Cursor} {task : Task} {later : List Task} {contexts : List Nat} {m : Move}
    (h : Performs limit ⟨c, later, contexts⟩ task m) :
    Run limit ⟨c, task :: later, contexts⟩ m.events m.next :=
  single (step_eq_moved_iff.mpr ⟨task, later, rfl, h⟩)

/-- Blanks before what a rule speaks of are passed over, except before a body. -/
theorem of_rule_behind {pos : Nat} {blanks rest : List UInt8} {task : Task} {later : List Task}
    {contexts : List Nat} {m : Move} (hblanks : ∀ b ∈ blanks, Byte.isBlank b = true)
    (hbody : ∀ line, task ≠ .body line)
    (h : Performs limit ⟨⟨pos + blanks.length, rest⟩, later, contexts⟩ task m) :
    Run limit ⟨⟨pos, blanks ++ rest⟩, task :: later, contexts⟩ m.events m.next := by
  apply single
  rw [step_behind hblanks hbody]
  exact step_eq_moved_iff.mpr ⟨task, later, rfl, h⟩

/-- The events of a run come before those of the rest of the scan. -/
theorem outcome_eq (h : Run limit s events t) :
    s.outcome limit = (t.outcome limit).map (events ++ ·) := by
  induction h with
  | @refl s =>
    cases s.outcome limit with
    | error fault => rfl
    | ok events => rfl
  | @step s t m events hs _ ih =>
    rw [State.outcome_moved hs, ih]
    cases t.outcome limit with
    | error fault => rfl
    | ok more => exact congrArg Except.ok (List.append_assoc _ _ _).symm

/-- A run without events leaves the outcome as it is. -/
theorem outcome_silent (h : Run limit s [] t) : s.outcome limit = t.outcome limit := by
  rw [h.outcome_eq]
  cases t.outcome limit with
  | error fault => rfl
  | ok events => rfl

/-- Nothing happens when the agenda is empty. -/
theorem of_done (h : Run limit s events t) (hdone : s.agenda = []) : events = [] ∧ t = s := by
  cases h with
  | refl => exact ⟨rfl, rfl⟩
  | step hs _ =>
    rw [step_eq_finished_iff.mpr hdone] at hs
    cases hs

/-- Every event of a run is given by one of its steps. -/
theorem at_event {before after : List Event} {e : Event} (h : Run limit s events t)
    (hsplit : events = before ++ e :: after) :
    ∃ front u m first last back, Run limit s front u ∧ Scan.step limit u = .moved m ∧
      Run limit m.next back t ∧ m.events = first ++ e :: last ∧ before = front ++ first ∧
      after = last ++ back := by
  induction h generalizing before with
  | refl s => exact absurd hsplit.symm (by simp)
  | @step s t m events hs hrest ih =>
    -- the event comes later, or this step gives it
    have hlater : ∀ {more}, events = more ++ e :: after → before = m.events ++ more →
        ∃ front u m first last back, Run limit s front u ∧ Scan.step limit u = .moved m ∧
          Run limit m.next back t ∧ m.events = first ++ e :: last ∧ before = front ++ first ∧
          after = last ++ back := by
      intro more hevents hbefore
      obtain ⟨front, u, m', first, last, back, hfront, hu, hback, hm, hmore, hafter⟩ := ih hevents
      refine ⟨m.events ++ front, u, m', first, last, back, .step hs hfront, hu, hback, hm, ?_,
        hafter⟩
      rw [hbefore, hmore, List.append_assoc]
    rcases List.append_eq_append_iff.mp hsplit with ⟨more, hbefore, hevents⟩ | ⟨more, hm, hafter⟩
    · exact hlater hevents hbefore
    · cases more with
      | nil =>
        have hevents : events = [] ++ e :: after := hafter.symm
        rw [List.append_nil] at hm
        exact hlater hevents (by rw [hm, List.append_nil])
      | cons d last =>
        obtain ⟨rfl, hlast⟩ := List.cons.inj hafter
        exact ⟨[], s, m, before, last, events, .refl s, hs, hrest, hm, rfl, hlast⟩

/-- What every step keeps, every run keeps; `P` may speak of the events given
so far. -/
theorem preserves {P : List Event → State → Prop}
    (hstep : ∀ {before s task later m}, s.agenda = task :: later →
      Performs limit (s.drop later) task m → P before s → P (before ++ m.events) m.next)
    (h : Run limit s events t) : ∀ before, P before s → P (before ++ events) t := by
  induction h with
  | refl _ =>
    intro before hp
    rwa [List.append_nil]
  | step hs _ ih =>
    intro before hp
    obtain ⟨task, later, ha, hperf⟩ := step_eq_moved_iff.mp hs
    rw [← List.append_assoc]
    exact ih _ (hstep ha hperf hp)

/-- So what every step keeps in the states that a run reaches, the run keeps. -/
theorem preserves_reached {P : List Event → State → Prop}
    (hstep : ∀ {before u task later m}, Run limit s before u → u.agenda = task :: later →
      Performs limit (u.drop later) task m → P before u → P (before ++ m.events) m.next)
    (h : Run limit s events t) (hp : P [] s) : P events t := by
  have hboth := h.preserves (P := fun events t => Run limit s events t ∧ P events t) ?_ []
    ⟨.refl s, hp⟩
  · exact hboth.2
  · rintro before u task later m ha hperf ⟨hrun, hp⟩
    exact ⟨hrun.trans (.single (step_eq_moved_iff.mpr ⟨task, later, ha, hperf⟩)),
      hstep hrun ha hperf hp⟩

end Run

/-- A scan succeeds iff a run empties the agenda. -/
theorem State.outcome_eq_ok_iff {limit : Nat} {s : State} {events : List Event} :
    s.outcome limit = .ok events ↔ ∃ t, Run limit s events t ∧ t.agenda = [] := by
  constructor
  · intro h
    induction hw : s.work using Nat.strong_induction_on generalizing s events with
    | _ work ih =>
      cases hs : Scan.step limit s with
      | finished =>
        rw [outcome_finished hs] at h
        cases h
        exact ⟨s, .refl s, step_eq_finished_iff.mp hs⟩
      | failed fault =>
        rw [outcome_failed hs] at h
        cases h
      | moved m =>
        rw [outcome_moved hs] at h
        cases hm : m.next.outcome limit with
        | error fault =>
          rw [hm] at h
          cases h
        | ok more =>
          rw [hm] at h
          cases h
          obtain ⟨t, hrun, ht⟩ := ih _ (hw ▸ work_step hs) hm rfl
          exact ⟨t, .step hs hrun, ht⟩
  · rintro ⟨t, hrun, ht⟩
    rw [hrun.outcome_eq, outcome_finished (step_eq_finished_iff.mpr ht)]
    exact congrArg Except.ok (List.append_nil _)

/-! ## The agenda -/

/-- An agenda between two steps: nothing, the items of the document, or one
task under way before them. -/
inductive Regular : List Task → Prop
  | done : Regular []
  | items : Regular [.items]
  | under (task : Task) (h : task ≠ .items) : Regular [task, .items]

theorem Regular.later {task : Task} {later : List Task} (h : Regular (task :: later)) :
    task = .items ∧ later = [] ∨ task ≠ .items ∧ later = [.items] := by
  cases h with
  | items => exact .inl ⟨rfl, rfl⟩
  | under task hne => exact .inr ⟨hne, rfl⟩

/-- Behind the first task nothing but the items are on the agenda. -/
theorem Regular.eq_items {task next : Task} {later rest : List Task}
    (h : Regular (task :: later)) (heq : later = next :: rest) : next = .items := by
  rcases h.later with ⟨-, hnil⟩ | ⟨-, hitems⟩
  · rw [hnil] at heq
    cases heq
  · rw [hitems] at heq
    exact (List.cons.inj heq).1.symm

/-- Every rule leaves a regular agenda. -/
theorem Performs.regular {limit : Nat} {s : State} {task : Task} {m : Move}
    (h : Performs limit s task m) (hreg : Regular (task :: s.agenda)) :
    Regular m.next.agenda := by
  rcases hreg.later with ⟨rfl, hlater⟩ | ⟨hne, hlater⟩
  · cases h <;> simp only [State.proceed, hlater, List.append_nil] <;>
      first
        | exact .done
        | exact .items
        | exact .under _ (by simp)
  · cases h <;>
      first
        | exact absurd rfl hne
        | simp only [State.proceed, parameter, bareParameter, textBody, hlater, List.nil_append,
            List.singleton_append]
          first
            | exact .items
            | exact .under _ (by simp)

/-- The agenda empties at the end of the document only, when no context is
open. -/
theorem Performs.done {limit : Nat} {s : State} {task : Task} {m : Move}
    (h : Performs limit s task m) (hreg : Regular (task :: s.agenda))
    (hdone : m.next.agenda = []) :
    task = .items ∧ s.cursor.eatBlanks.rest = [] ∧ s.contexts = [] ∧
      m = ⟨[], s.proceed s.cursor.eatBlanks []⟩ := by
  rcases hreg.later with ⟨rfl, hlater⟩ | ⟨hne, hlater⟩
  · cases h with
    | finish hr hctx => exact ⟨rfl, hr, hctx, rfl⟩
    | _ => cases hdone
  · have hitems : Task.items ∈ m.next.agenda := by
      cases h <;>
        first
          | exact absurd rfl hne
          | exact List.mem_append_right _ (hlater ▸ List.mem_singleton_self _)
    rw [hdone] at hitems
    cases hitems

theorem Run.regular {limit : Nat} {s t : State} {events : List Event}
    (h : Run limit s events t) (hreg : Regular s.agenda) : Regular t.agenda := by
  refine h.preserves (P := fun _ s => Regular s.agenda) ?_ [] hreg
  intro before s task later m ha hperf hs
  exact hperf.regular (ha ▸ hs)

end ApiDoc.Scan

namespace ApiDoc

/-- The scan of a source succeeds with the events of a run. -/
theorem Source.scan_eq_ok_iff {source : Source} {limit : Nat} {events : List Event} :
    source.scan limit = .ok events ↔
      ∃ t, Scan.Run limit (.start source.bytes) events t ∧ t.agenda = [] := by
  rw [← Scan.State.outcome_eq_ok_iff, ← Scan.scan_eq_outcome, Source.scan]
  cases Scan.scan limit source.bytes with
  | ok events => simp
  | error fault => simp

end ApiDoc
