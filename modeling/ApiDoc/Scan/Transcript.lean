import ApiDoc.Scan.Items
import ApiDoc.Scan.Tail

/-!
# Scanning a document

A scan repeats steps until the agenda is empty or a step fails. It fails at
most once, and nothing follows a failure.

* `transcript` tells all that a scan does: its events, each with the offset
  the scanner had reached when it was given, and how the scan ended.
* `scan` keeps the events of a scan that did not fail.
-/

namespace ApiDoc.Scan

/-- The depth to which contexts may be nested, if no other is asked for. -/
def defaultLimit : Nat := 64

/-- What happens next in a state. -/
inductive Step where
  | finished
  | failed (fault : Fault)
  | moved (move : Move)
  deriving DecidableEq, Repr

/-- Does one task in a state whose agenda no longer holds it. -/
def perform (limit : Nat) (s : State) : Task → Except Fault Move
  | .items => items s s.cursor.eatBlanks
  | .tail line => tail limit line s s.cursor.eatBlanks
  | .body line => body line s
  | .lineEnd ending => lineEnd ending s s.cursor.eatBlanks

/-- Does the first task of the agenda. -/
def step (limit : Nat) (s : State) : Step :=
  match s.agenda with
  | [] => .finished
  | task :: later =>
    match perform limit { s with agenda := later } task with
    | .ok move => .moved move
    | .error fault => .failed fault

theorem work_perform {limit : Nat} {s : State} {task : Task} {m : Move}
    (h : perform limit s task = .ok m) : m.next.work < s.work + task.weight := by
  have hle := s.cursor.length_eatBlanks_le
  cases task with
  | items => exact work_items hle h
  | tail line =>
    exact work_tail (fun _ _ hr => Cursor.head_eatWhile hr) hle h
  | body line => exact work_body h
  | lineEnd ending => exact work_lineEnd hle h

/-- Every step leaves less work. -/
theorem work_step {limit : Nat} {s : State} {m : Move} (h : step limit s = .moved m) :
    m.next.work < s.work := by
  unfold step at h
  split at h
  · cases h
  · rename_i task later ha
    split at h
    · rename_i move hp
      cases h
      have := work_perform hp
      simp only [State.work, ha, Task.weightAll] at this ⊢
      omega
    · cases h

/-- All that a scan does. -/
structure Transcript where
  /-- The events, each with the offset reached. -/
  events : List (Event × Nat)
  /-- The failure with which the scan ended, if it did. -/
  fault? : Option Fault
  /-- The offset reached at the end. -/
  pos : Nat
  deriving DecidableEq, Repr

/-- The transcript with the events of a move before it. -/
def Transcript.after (t : Transcript) (m : Move) : Transcript :=
  { t with events := m.events.map (·, m.next.cursor.pos) ++ t.events }

/-- The scan from a state on. -/
def State.transcript (limit : Nat) (s : State) : Transcript :=
  match _ : step limit s with
  | .finished => ⟨[], none, s.cursor.pos⟩
  | .failed fault => ⟨[], some fault, fault.pos⟩
  | .moved move => (move.next.transcript limit).after move
termination_by s.work
decreasing_by exact work_step ‹_›

/-- The scan of a document. -/
def transcript (limit : Nat) (bytes : List UInt8) : Transcript :=
  (State.start bytes).transcript limit

/-- The events of a document. -/
def scan (limit : Nat) (bytes : List UInt8) : Except Fault (List Event) :=
  let t := transcript limit bytes
  match t.fault? with
  | some fault => .error fault
  | none => .ok (t.events.map (·.1))

end ApiDoc.Scan

namespace ApiDoc

/-- The events of a source. -/
def Source.scan (limit : Nat) (s : Source) : Except Diagnostic (List Event) :=
  match Scan.scan limit s.bytes with
  | .ok events => .ok events
  | .error fault => .error (fault.diagnostic s)

end ApiDoc
