import ApiDoc.Scan.Transcript

/-!
# Reading events one by one

A reader hands out the events of a scan when they are asked for. It steps only
when no event of an earlier step is pending, so that a document is read no
further than the events taken from it.

* `next` gives an event, or the fault with which the scan ends, or nothing.
* A fault empties the agenda, so that nothing is given behind it.
-/

namespace ApiDoc.Scan

/-- The state in which a step that fails leaves the scanner. -/
def State.halt (s : State) (fault : Fault) : State :=
  { s with cursor := s.cursor.advance (fault.pos - s.cursor.pos), agenda := [] }

/-- A scan under way. -/
structure Reader where
  state : State
  /-- The events of the last step that have not been taken. -/
  pending : List Event := []
  deriving DecidableEq, Repr

namespace Reader

/-- A reader at the start of a document. -/
def start (bytes : List UInt8) : Reader :=
  { state := .start bytes }

/-- The offset reached. -/
def pos (r : Reader) : Nat :=
  r.state.cursor.pos

/-- Takes the next event or the fault of the scan. -/
def next (limit : Nat) (r : Reader) : Option (Except Fault Event) × Reader :=
  match r.pending with
  | e :: later => (some (.ok e), { r with pending := later })
  | [] =>
    match _ : step limit r.state with
    | .finished => (none, r)
    | .failed fault => (some (.error fault), { state := r.state.halt fault })
    | .moved move => next limit { state := move.next, pending := move.events }
termination_by r.state.work
decreasing_by exact work_step ‹_›

end Reader

end ApiDoc.Scan
