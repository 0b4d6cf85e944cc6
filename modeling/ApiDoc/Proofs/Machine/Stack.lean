import ApiDoc.Proofs.Machine.Turns

/-!
# The stack of the machine

Between two turns the stack of the machine has one of few shapes: the start of a
line at the bottom, and on it at most two phases that belong together. It is
empty only at the end.

* **Shapes** (`Stacked`): what a plan puts on the stack, and what a call puts on
  top of it.
* **Directives** (`Phase.readsDirective`): where a phase of a directive is on the
  stack, the directive is there, so that no phase is left early for the lack of
  it.
-/

namespace ApiDoc

open Scan (State Move Fault)

/-- The shapes of a stack that is not empty. -/
inductive Stacked : List Phase → Prop
  | lineStart : Stacked [.lineStart]
  | keyword : Stacked [.keyword, .lineStart]
  | directiveTail : Stacked [.directiveTail, .lineStart]
  | onLine {phase : Phase}
      (h : phase ∈ [.quotedParameter, .bareParameter, .note, .lineComment]) :
      Stacked [phase, .directiveTail, .lineStart]
  | under {phase : Phase} (h : phase ∈ [.body, .text, .parenText, .lineComment]) :
      Stacked [phase, .lineStart]
  | lineEnd {ending : Scan.Ending} : Stacked [.lineEnd ending, .lineStart]
  | beforeEnd {phase : Phase} {ending : Scan.Ending} (h : phase ∈ [.schema, .blockComment]) :
      Stacked [phase, .lineEnd ending, .lineStart]

/-- Whether a phase works on the directive whose line was read. -/
def Phase.readsDirective : Phase → Bool
  | lineStart | keyword | lineEnd _ | lineComment | blockComment => false
  | _ => true

namespace Machine

variable {source : Source} {s : State} {m : Machine}

/-- The directive is there for every phase that works on it. -/
def Supplied (m : Machine) : Prop :=
  ∀ phase ∈ m.stack, phase.readsDirective = true → m.directive.isSome = true

theorem supplied_of_some {directive : LineDirective} (h : m.directive = some directive) :
    m.Supplied := by
  intro phase _ _
  rw [h]
  rfl

/-- The machine has come to the end of a source, or has failed. -/
def Stopped (m : Machine) (source : Source) (given : List (Except Fault Event)) : Prop :=
  m.fault = none ∧ m.head.pos = source.length ∧ m.contexts = [] ∨
    m.fault.isSome = true ∨ ∃ fault, .error fault ∈ given

theorem Calls.stacked {result : Except Fault Move} (h : Calls source s m result) :
    Stacked m.stack ∧ m.Supplied := by
  cases h with
  | lineComment _ _ hstack =>
    exact ⟨hstack ▸ .under (by simp), by simp [Supplied, hstack, Phase.readsDirective]⟩
  | blockComment _ _ hstack =>
    exact ⟨hstack ▸ .beforeEnd (by simp), by simp [Supplied, hstack, Phase.readsDirective]⟩
  | keyword _ _ hstack =>
    exact ⟨hstack ▸ .keyword, by simp [Supplied, hstack, Phase.readsDirective]⟩
  | note _ _ hstack hline | tailComment _ _ hstack hline
  | quotedParameter _ _ hstack hline | bareParameter _ _ hstack hline =>
    exact ⟨hstack ▸ .onLine (by simp), supplied_of_some hline⟩
  | schema _ _ hstack hline => exact ⟨hstack ▸ .beforeEnd (by simp), supplied_of_some hline⟩
  | text _ _ hstack hline | parenText _ _ hstack hline =>
    exact ⟨hstack ▸ .under (by simp), supplied_of_some hline⟩

theorem plan_stacked {agenda : List Scan.Task} {stack : List Phase}
    {directive : Option LineDirective} (h : Plan agenda stack directive) :
    (agenda = [] ∧ stack = [] ∨ Stacked stack) ∧
      ∀ phase ∈ stack, phase.readsDirective = true → directive.isSome = true := by
  cases h with
  | done => exact ⟨.inl ⟨rfl, rfl⟩, by simp⟩
  | items => exact ⟨.inr .lineStart, by simp [Phase.readsDirective]⟩
  | tail => exact ⟨.inr .directiveTail, fun _ _ _ => rfl⟩
  | body => exact ⟨.inr (.under (by simp)), fun _ _ _ => rfl⟩
  | lineEnd => exact ⟨.inr .lineEnd, by simp [Phase.readsDirective]⟩

end Machine

/-- **The stack of the machine.** For every source and every limit, behind any
number of turns the stack has one of the shapes of `Stacked`, or is empty and the
machine has stopped; and wherever a phase that works on the directive is on the
stack, the directive is there. This machine gives what the scan gives. -/
theorem machine_stacked (source : Source) (limit n : Nat) :
    ((Machine.after source limit n).Yields fun (given, m) =>
      (Stacked m.stack ∨ m.stack = [] ∧ m.Stopped source given) ∧ m.Supplied) ∧
      Machine.Scans source limit := by
  refine ⟨?_, Machine.scans source limit⟩
  obtain ⟨⟨given, m⟩, hafter, hsound⟩ := Machine.sound_after source limit n
  refine ⟨(given, m), hafter, ?_⟩
  cases hsound with
  | @following s events hs h =>
    obtain ⟨⟨hagenda, hstack⟩ | hstacked, hsupplied⟩ := Machine.plan_stacked h.plan
    · obtain ⟨hrest, hcontexts⟩ := hs.done hagenda
      have hpos : m.head.pos = source.length := by
        rw [h.head, Source.pos_headAt, hs.holds.pos_of_nil hrest]
      exact ⟨.inr ⟨hstack, .inl ⟨h.fault, hpos, h.contexts.trans hcontexts⟩⟩, hsupplied⟩
    · exact ⟨.inl hstacked, hsupplied⟩
  | calling hs hagenda h => exact ⟨.inl h.stacked.1, h.stacked.2⟩
  | failed hheld hhead hstack hpending hfault =>
    refine ⟨.inr ⟨hstack, .inr ?_⟩, by simp [Machine.Supplied, hstack]⟩
    rcases hfault with hsome | ⟨-, hmem⟩
    · exact .inl (by rw [hsome]; rfl)
    · exact .inr ⟨_, hmem⟩

end ApiDoc
