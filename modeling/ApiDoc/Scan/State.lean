import ApiDoc.Diagnostic
import ApiDoc.Directive.Notation
import ApiDoc.Directive.Kind
import ApiDoc.Lexeme
import ApiDoc.Text.Cursor

/-!
# The state of the scanner

The scanner reads a document from left to right. Between two steps it holds
a cursor, an agenda of things still to be read, and the offsets of the
parentheses that are open.

* The first task of the agenda is done next; it may put others before the
  rest of the agenda.
* A step either fails or moves to a state with less `work`, so that every
  scan ends.
-/

namespace ApiDoc.Scan

/-- The directive on whose line, or in whose body, the cursor stands. -/
structure Line where
  kind : Kind
  /-- The notation of the body, as far as it has been declared. -/
  declared : Notation := .standard
  /-- Whether the parenthesis that ends the line has been read. -/
  opened : Bool := false
  deriving DecidableEq, Repr

/-- What stands before the end of a line. -/
inductive Ending where
  | schema
  | comment
  | paren
  deriving DecidableEq, Repr

/-- The place behind `e`, as a message shows it. -/
def Ending.place : Ending → String
  | schema => "after schema"
  | comment => "after comment"
  | paren => "after \")\""

/-- Something to be read. -/
inductive Task where
  /-- Directives, comments and closing parentheses up to the end. -/
  | items
  /-- The rest of a directive line. -/
  | tail (line : Line)
  /-- The body of a directive, if it has one. -/
  | body (line : Line)
  /-- The end of a line on which nothing but a comment may follow. -/
  | lineEnd (ending : Ending)
  deriving DecidableEq, Repr

structure State where
  cursor : Cursor
  /-- What is to be read, in order. -/
  agenda : List Task
  /-- The offsets of the open parentheses, the innermost first. -/
  contexts : List Nat := []
  deriving DecidableEq, Repr

/-- Where and why a scan fails. -/
structure Fault where
  cause : Cause
  /-- The offset the fault is about. -/
  offset : Nat
  /-- The offset the scanner had reached. -/
  pos : Nat
  deriving DecidableEq, Repr

/-- What a step does: the events it gives and the state it leads to. -/
structure Move where
  events : List Event
  next : State
  deriving DecidableEq, Repr

/-! ## Faults -/

/-- A fault at the cursor. -/
def faultAt (c : Cursor) (complaint : Complaint) : Fault :=
  ⟨.lexical complaint, c.pos, c.pos⟩

/-- The fault of a document that does not go on as expected. -/
def unexpected (c : Cursor) (place expected : String) : Fault :=
  match c.rest with
  | [] => faultAt c (.endOfFile expected)
  | b :: _ => faultAt c (.invalidByte b place expected)

def Fault.diagnostic (f : Fault) (source : Source) : Diagnostic :=
  .inSource f.cause source (.point f.offset)

/-! ## Work -/

/-- A directive line is followed by a body, so it weighs more. -/
def Task.weight : Task → Nat
  | tail _ => 2
  | _ => 1

/-- The weight of an agenda. -/
def Task.weightAll : List Task → Nat
  | [] => 0
  | task :: later => task.weight + weightAll later

theorem Task.weightAll_append (front later : List Task) :
    weightAll (front ++ later) = weightAll front + weightAll later := by
  induction front with
  | nil => simp [weightAll]
  | cons task rest ih =>
    simp only [List.cons_append, weightAll, ih]
    omega

/-- A bound on the steps that lie ahead. -/
def State.work (s : State) : Nat :=
  3 * s.cursor.rest.length + Task.weightAll s.agenda

/-- The state with the cursor moved and some tasks put first. -/
def State.proceed (s : State) (c : Cursor) (tasks : List Task) : State :=
  { s with cursor := c, agenda := tasks ++ s.agenda }

/-- The state at the start of a document. -/
def State.start (bytes : List UInt8) : State :=
  { cursor := ⟨0, bytes⟩, agenda := [.items] }

theorem State.work_proceed (s : State) (c : Cursor) (tasks : List Task) :
    (s.proceed c tasks).work + 3 * s.cursor.rest.length
      = s.work + 3 * c.rest.length + Task.weightAll tasks := by
  simp only [proceed, work, Task.weightAll_append]
  omega

end ApiDoc.Scan
