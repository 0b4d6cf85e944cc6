import ApiDoc.Diagnostic.Code
import ApiDoc.Diagnostic.Complaint
import ApiDoc.Schema.Extent
import ApiDoc.Text.Line

/-!
# Diagnostics

A diagnostic tells why a document was refused, where, and through which
inclusions it was reached. It holds the source it points into, so its line
and quote need no further look-up.

* The code and the message depend on the cause alone.
* Passing an inclusion appends one entry to the trace and changes nothing
  else.
-/

namespace ApiDoc

/-- Why a document is refused. -/
inductive Cause where
  /-- The outer language cannot be read. -/
  | lexical (complaint : Complaint)
  /-- A schema body cannot be read. -/
  | schema (complaint : Complaint)
  /-- A keyword names no directive. -/
  | unknownDirective (text : String)
  /-- A directive stands where it may not. -/
  | context (message : String)
  /-- A directive does not take this parameter. -/
  | parameter (text : String)
  /-- A file cannot be had. -/
  | load (message : String)
  deriving DecidableEq, Repr

namespace Cause

def code : Cause → Code
  | lexical (.endOfFile _) => .endOfFile
  | lexical _ => .invalidByte
  | schema _ => .invalidSchema
  | unknownDirective _ => .unknownDirective
  | context _ => .misplacedDirective
  | parameter _ => .incorrectParameter
  | load _ => .loadFailure

def message : Cause → String
  | lexical complaint => complaint.message
  | schema complaint => complaint.message
  | unknownDirective text => "unknown directive \"" ++ text ++ "\""
  | context message => message
  | parameter text => "incorrect parameter \"" ++ text ++ "\""
  | load message => message

end Cause

/-- Where a diagnostic points. -/
inductive Location where
  /-- Into a source that was read. -/
  | inSource (source : Source) (span : Span)
  /-- At a file that could not be had. -/
  | atFile (name : String)
  deriving DecidableEq

/-- A point at which one file pulls in another. -/
structure Inclusion where
  file : String
  line : Nat
  deriving DecidableEq, Repr

def Inclusion.render (i : Inclusion) : String :=
  i.file ++ ":" ++ toString i.line

structure Diagnostic where
  cause : Cause
  location : Location
  /-- The inclusions passed, the innermost first. -/
  trace : List Inclusion := []
  deriving DecidableEq

namespace Diagnostic

/-! ## Making diagnostics -/

/-- A diagnostic of the bytes of a span. -/
def inSource (cause : Cause) (source : Source) (span : Span) : Diagnostic :=
  { cause, location := .inSource source span }

/-- A fault of the schema body that starts at `start`. -/
def ofSchemaFault (source : Source) (start : Nat) (fault : Schema.Fault) : Diagnostic :=
  inSource (.schema fault.complaint) source (.point (fault.offsetFrom start))

/-- A file that could not be had. -/
def ofLoad (file message : String) : Diagnostic :=
  { cause := .load message, location := .atFile file }

/-- A file that is too long. -/
def ofTooLarge (e : TooLarge) : Diagnostic :=
  ofLoad e.name e.message

/-- The diagnostic as seen from the file that includes the one it arose in
at `offset`. -/
def through (d : Diagnostic) (including : Source) (offset : Nat) : Diagnostic :=
  { d with trace := d.trace ++ [⟨including.name, including.lineNumber offset⟩] }

/-! ## Reading diagnostics -/

def code (d : Diagnostic) : Code :=
  d.cause.code

def message (d : Diagnostic) : String :=
  d.cause.message

def fileName (d : Diagnostic) : String :=
  match d.location with
  | .inSource source _ => source.name
  | .atFile name => name

def span? (d : Diagnostic) : Option Span :=
  match d.location with
  | .inSource _ span => some span
  | .atFile _ => none

/-- The source and the offset pointed at, if there is such a place. -/
def place? (d : Diagnostic) : Option (Source × Nat) :=
  match d.location with
  | .inSource source span => span.get?.map fun offsets => (source, offsets.1)
  | .atFile _ => none

def line? (d : Diagnostic) : Option Nat :=
  d.place?.map fun (source, offset) => source.lineNumber offset

def quote? (d : Diagnostic) : Option String :=
  d.place?.map fun (source, offset) => source.quote offset

/-- The diagnostic as shown to a person: code and message, place, quote, and
one line for each inclusion. -/
def render (d : Diagnostic) : String :=
  let head := "error[" ++ d.code.text ++ "]: " ++ d.message ++ "\n --> " ++ d.fileName
  let line := (d.line?.map fun n => ":" ++ toString n).getD ""
  let quote := (d.quote?.map fun text => "\n  | " ++ text).getD ""
  head ++ line ++ quote ++ String.join (d.trace.map fun i => "\n" ++ i.render)

end Diagnostic

end ApiDoc
