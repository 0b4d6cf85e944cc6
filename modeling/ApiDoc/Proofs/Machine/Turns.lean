import ApiDoc.Proofs.Machine.Steps

/-!
# Turns of the machine

The machine is the scanner: turn by turn it gives the events of the scan and then
its fault, if it has one.

* **Soundness** (`sound_after`): every turn comes to a value, and behind it the
  machine follows the scanner, or is between the two phases of a step, or has
  failed. This is the invariant from which the properties of all reachable
  machines are read off.
* **Agreement** (`scans`): after some turns the machine has given all that
  the scan gives, and is idle.
-/

namespace ApiDoc

open Scan (State Move Fault Task)

/-- All that a scan gives, in order. -/
def Scan.Transcript.answers (t : Scan.Transcript) : List (Except Fault Event) :=
  t.events.map (.ok ·.1) ++ (t.fault?.map .error).toList

theorem Scan.Transcript.answers_after (t : Scan.Transcript) (move : Move) :
    (t.after move).answers = move.events.map .ok ++ t.answers := by
  rw [answers, Transcript.after, List.map_append, List.map_map, List.append_assoc]
  rfl

namespace Machine

/-- What the first turns on a source give, and the machine behind them. -/
def after (source : Source) (limit n : Nat) : Checked (List (Except Fault Event) × Machine) := do
  let m ← start source
  m.turns limit n

variable {source : Source} {s : State} {m behind : Machine} {limit n : Nat}
  {given : List (Except Fault Event)}

/-! ## Every turn -/

/-- What holds of a machine that has given `given`. -/
inductive Sound (source : Source) (limit : Nat) (given : List (Except Fault Event))
    (m : Machine) : Prop
  | following {s : State} {events : List Event} (hs : Scan.Accounted source events s)
      (h : Follows source s m) : Sound source limit given m
  | calling {s : State} {events : List Event} {task : Task} {later : List Task}
      (hs : Scan.Accounted source events s) (hagenda : s.agenda = task :: later)
      (h : Calls source (s.drop later) m (Scan.perform limit (s.drop later) task)) :
      Sound source limit given m
  | failed {fault : Fault} {c : Cursor} (hheld : source.Holds c)
      (hhead : m.head = source.headAt c.pos) (hstack : m.stack = []) (hpending : m.pending = [])
      (hfault : m.fault = some fault ∨ m.fault = none ∧ .error fault ∈ given) :
      Sound source limit given m

/-- The head of a sound machine stands where a cursor does. -/
theorem Sound.held (h : Sound source limit given m) :
    ∃ c, source.Holds c ∧ m.head = source.headAt c.pos := by
  cases h with
  | following hs h => exact ⟨_, hs.holds, h.head⟩
  | calling hs hagenda h =>
    obtain ⟨c, hready⟩ := h.ready
    exact ⟨c, hready.held, hready.head⟩
  | failed hheld hhead => exact ⟨_, hheld, hhead⟩

/-- What has been given does no harm. -/
theorem Sound.more (h : Sound source limit given m) (later : List (Except Fault Event)) :
    Sound source limit (given ++ later) m := by
  cases h with
  | following hs h => exact .following hs h
  | calling hs hagenda h => exact .calling hs hagenda h
  | failed hheld hhead hstack hpending hfault =>
    exact .failed hheld hhead hstack hpending
      (hfault.imp_right fun ⟨hnone, hmem⟩ => ⟨hnone, List.mem_append_left later hmem⟩)

/-- Behind the last phase of a step. -/
theorem sound_of_answers {events : List Event} {task : Task} {later : List Task}
    (hs : Scan.Accounted source events s) (hagenda : s.agenda = task :: later)
    (h : Answers source (Scan.perform limit (s.drop later) task) m) :
    Sound source limit given m := by
  cases hperform : Scan.perform limit (s.drop later) task with
  | ok move =>
    rw [hperform] at h
    exact .following ((Scan.perform_eq_ok_iff.mp hperform).accounted hagenda hs) h.1
  | error fault =>
    rw [hperform] at h
    obtain ⟨hhead, hstack, hpending, hfault⟩ := h
    obtain ⟨c, ⟨taken, htakes⟩, hpos⟩ := (Scan.fails_of_perform hperform).reaches
    exact .failed (hs.holds.move htakes) (hpos ▸ hhead) hstack hpending (.inl hfault)

/-- A turn that runs a phase. -/
theorem turn_of_run {phase : Phase} {below : List Phase} {P : Machine → Prop}
    (hpending : m.pending = []) (hfault : m.fault = none) (hstack : m.stack = phase :: below)
    (h : (run limit { m with stack := below } phase).Yields P) :
    ∃ next, m.turn limit = .ok (none, next) ∧ P next := by
  obtain ⟨next, hrun, hnext⟩ := h
  refine ⟨next, ?_, hnext⟩
  rw [hpending, hfault] at hrun
  rw [turn, hpending, hfault, hstack]
  dsimp only
  rw [hrun]
  rfl

theorem Follows.turn {events : List Event} (hs : Scan.Accounted source events s)
    (h : Follows source s m) (hpending : m.pending = []) {task : Task} {later : List Task}
    (hagenda : s.agenda = task :: later) (limit : Nat) :
    ∃ next, m.turn limit = .ok (none, next) ∧
      Pursues source (s.drop later) (Scan.perform limit (s.drop later) task) next := by
  obtain ⟨phase, below, hstack, hyields⟩ := h.run hs.holds hpending
    (fun first hfirst => Nat.le_of_lt (hs.contexts first hfirst)) hagenda limit
  exact turn_of_run hpending h.fault hstack hyields

theorem Calls.turn {result : Except Fault Move} (h : Calls source s m result) (limit : Nat) :
    ∃ next, m.turn limit = .ok (none, next) ∧ Answers source result next := by
  obtain ⟨c, hready⟩ := h.ready
  obtain ⟨phase, below, hstack, hyields⟩ := h.run limit
  exact turn_of_run hready.pending hready.fault hstack hyields

/-- A turn that gives an event. -/
theorem turn_of_pending {event : Event} {later : List Event} (h : m.pending = event :: later) :
    m.turn limit = .ok (some (.ok event), { m with pending := later }) := by
  rw [turn, h]
  rfl

/-- A turn that gives the fault. -/
theorem turn_of_fault {fault : Fault} (hpending : m.pending = []) (hfault : m.fault = some fault) :
    m.turn limit = .ok (some (.error fault), { m with fault := none }) := by
  rw [turn, hpending, hfault]
  rfl

/-- A turn with nothing left to do. -/
theorem turn_of_idle (hpending : m.pending = []) (hfault : m.fault = none) (hstack : m.stack = []) :
    m.turn limit = .ok (none, m) := by
  rw [turn, hpending, hfault, hstack]
  rfl

/-- **One turn.** It comes to a value, and leaves a machine that is sound again. -/
theorem Sound.turn (h : Sound source limit given m) :
    ∃ answer next, m.turn limit = .ok (answer, next) ∧
      Sound source limit (given ++ answer.toList) next := by
  cases h with
  | @following s events hs h =>
    cases hpending : m.pending with
    | cons event later =>
      refine ⟨_, _, turn_of_pending hpending, .following hs ?_⟩
      exact ⟨h.head, h.contexts, h.fault, h.plan⟩
    | nil =>
      cases hagenda : s.agenda with
      | nil =>
        refine ⟨_, _, turn_of_idle hpending h.fault ?_, .following hs h⟩
        exact plan_nil (hagenda ▸ h.plan)
      | cons task later =>
        obtain ⟨next, hturn, hanswers | hcalls⟩ := h.turn hs hpending hagenda limit
        · exact ⟨_, next, hturn, sound_of_answers hs hagenda hanswers⟩
        · exact ⟨_, next, hturn, .calling hs hagenda hcalls⟩
  | calling hs hagenda h =>
    obtain ⟨next, hturn, hanswers⟩ := h.turn limit
    exact ⟨_, next, hturn, sound_of_answers hs hagenda hanswers⟩
  | @failed fault c hheld hhead hstack hpending hfault =>
    -- the fault is given once, and then nothing
    rcases hfault with hsome | ⟨hnone, hmem⟩
    · have hmem : .error fault ∈ given ++ [.error fault] :=
        List.mem_append_right given (List.mem_singleton_self _)
      exact ⟨_, _, turn_of_fault hpending hsome,
        .failed hheld hhead hstack hpending (.inr ⟨rfl, hmem⟩)⟩
    · have hsame : Sound source limit given m :=
        .failed hheld hhead hstack hpending (.inr ⟨hnone, hmem⟩)
      exact ⟨_, m, turn_of_idle hpending hnone hstack, hsame.more _⟩

theorem turns_succ {answer : Option (Except Fault Event)} {next : Machine}
    (h : m.turn limit = .ok (answer, next)) (k : next.turns limit n = .ok (given, behind)) :
    m.turns limit (n + 1) = .ok (answer.toList ++ given, behind) := by
  rw [turns, h, Checked.ok_bind]
  dsimp only
  rw [k]
  rfl

/-- **All turns.** -/
theorem Sound.turns (h : Sound source limit given m) (n : Nat) :
    ∃ more next, m.turns limit n = .ok (more, next) ∧
      Sound source limit (given ++ more) next := by
  induction n generalizing given m with
  | zero => exact ⟨[], m, rfl, by rwa [List.append_nil]⟩
  | succ n ih =>
    obtain ⟨answer, next, hturn, hnext⟩ := h.turn
    obtain ⟨more, last, hturns, hlast⟩ := ih hnext
    exact ⟨_, last, turns_succ hturn hturns, by rwa [← List.append_assoc]⟩

theorem start_eq (source : Source) :
    start source = .ok { head := source.headAt 0, stack := [.lineStart] } := by
  rw [start, source.start_eq]
  rfl

theorem follows_start (source : Source) :
    Follows source (State.start source.bytes) { head := source.headAt 0, stack := [.lineStart] } :=
  ⟨rfl, rfl, rfl, .items⟩

theorem sound_after (source : Source) (limit n : Nat) :
    (after source limit n).Yields fun (given, m) => Sound source limit given m := by
  have hstart : Sound source limit [] { head := source.headAt 0, stack := [.lineStart] } :=
    .following (Scan.accounted_start source) (follows_start source)
  obtain ⟨given, m, hturns, hsound⟩ := hstart.turns n
  refine ⟨(given, m), ?_, hsound⟩
  rw [after, start_eq, Checked.ok_bind, hturns]

/-! ## All that is given -/

/-- The machine gives all of `given` and comes to rest as `behind`. -/
def Ends (limit : Nat) (m : Machine) (given : List (Except Fault Event)) (behind : Machine) :
    Prop :=
  ∃ n, m.turns limit n = .ok (given, behind)

theorem ends_refl (limit : Nat) (m : Machine) : Ends limit m [] m :=
  ⟨0, rfl⟩

theorem ends_of_turn {answer : Option (Except Fault Event)} {next : Machine}
    (h : m.turn limit = .ok (answer, next)) (k : Ends limit next given behind) :
    Ends limit m (answer.toList ++ given) behind := by
  obtain ⟨n, hturns⟩ := k
  exact ⟨n + 1, turns_succ h hturns⟩

/-- What waits is given first. -/
theorem ends_of_drained (h : Ends limit { m with pending := [] } given behind) :
    Ends limit m (m.pending.map .ok ++ given) behind := by
  generalize hpending : m.pending = pending
  induction pending generalizing m with
  | nil =>
    rw [← hpending] at h
    exact h
  | cons event later ih =>
    have hlater : Ends limit { m with pending := later } (later.map .ok ++ given) behind :=
      ih (m := { m with pending := later }) h rfl
    exact ends_of_turn (turn_of_pending hpending) hlater

/-- The machine has given everything and stands at `pos`. -/
structure Idle (source : Source) (pos : Nat) (m : Machine) : Prop where
  head : m.head = source.headAt pos
  stack : m.stack = []
  pending : m.pending = []
  fault : m.fault = none

/-- A step is made in one turn or in two, in which nothing is given. -/
theorem Follows.step {events : List Event} (hs : Scan.Accounted source events s)
    (h : Follows source s m) (hpending : m.pending = []) {task : Task} {later : List Task}
    (hagenda : s.agenda = task :: later) (limit : Nat) :
    ∃ next, Answers source (Scan.perform limit (s.drop later) task) next ∧
      ∀ given behind, Ends limit next given behind → Ends limit m given behind := by
  obtain ⟨next, hturn, hanswers | hcalls⟩ := h.turn hs hpending hagenda limit
  · exact ⟨next, hanswers, fun _ _ hends => ends_of_turn hturn hends⟩
  · obtain ⟨last, hlast, hanswers⟩ := hcalls.turn limit
    exact ⟨last, hanswers, fun _ _ hends => ends_of_turn hturn (ends_of_turn hlast hends)⟩

theorem Follows.ends {events : List Event} (hs : Scan.Accounted source events s)
    (h : Follows source s m) (limit : Nat) :
    ∃ behind, Ends limit m (m.pending.map .ok ++ (s.transcript limit).answers) behind ∧
      Idle source (s.transcript limit).pos behind := by
  -- every step leaves less work
  induction hw : s.work using Nat.strong_induction_on generalizing s m events with
  | _ work ih =>
    have hdrained : Follows source s { m with pending := [] } :=
      ⟨h.head, h.contexts, h.fault, h.plan⟩
    suffices ∃ behind, Ends limit { m with pending := [] } (s.transcript limit).answers behind ∧
        Idle source (s.transcript limit).pos behind by
      obtain ⟨behind, hends, hidle⟩ := this
      exact ⟨behind, ends_of_drained hends, hidle⟩
    cases hagenda : s.agenda with
    | nil =>
      have hstep : Scan.step limit s = .finished := Scan.step_eq_finished_iff.mpr hagenda
      rw [State.transcript_eq, hstep]
      exact ⟨_, ends_refl _ _, h.head, plan_nil (hagenda ▸ h.plan), rfl, h.fault⟩
    | cons task later =>
      obtain ⟨next, hanswers, hback⟩ := hdrained.step hs rfl hagenda limit
      cases hperform : Scan.perform limit (s.drop later) task with
      | ok move =>
        have hperf := Scan.perform_eq_ok_iff.mp hperform
        have hstep : Scan.step limit s = .moved move :=
          Scan.step_eq_moved_iff.mpr ⟨task, later, hagenda, hperf⟩
        rw [hperform] at hanswers
        obtain ⟨behind, hends, hidle⟩ := ih move.next.work (hw ▸ Scan.work_step hstep)
          (hperf.accounted hagenda hs) hanswers.1 rfl
        rw [State.transcript_eq, hstep]
        refine ⟨behind, hback _ _ ?_, hidle⟩
        rw [hanswers.2] at hends
        rwa [Scan.Transcript.answers_after]
      | error fault =>
        have hstep : Scan.step limit s = .failed fault := by
          rw [Scan.step, hagenda]
          dsimp only
          rw [hperform]
        rw [hperform] at hanswers
        obtain ⟨hhead, hstack, hpending, hfault⟩ := hanswers
        rw [State.transcript_eq, hstep]
        refine ⟨{ next with fault := none }, hback _ _ ?_, hhead, hstack, hpending, rfl⟩
        exact ends_of_turn (turn_of_fault hpending hfault) (ends_refl _ _)

/-- What the machine gives is what the scan gives. -/
def Scans (source : Source) (limit : Nat) : Prop :=
  ∃ n m, after source limit n = .ok ((Scan.transcript limit source.bytes).answers, m) ∧
    Idle source (Scan.transcript limit source.bytes).pos m

theorem scans (source : Source) (limit : Nat) : Scans source limit := by
  obtain ⟨m, ⟨n, hturns⟩, hidle⟩ := (follows_start source).ends (Scan.accounted_start source) limit
  refine ⟨n, m, ?_, hidle⟩
  rw [after, start_eq, Checked.ok_bind, hturns]
  rfl

end Machine

end ApiDoc
