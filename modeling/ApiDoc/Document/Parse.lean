import ApiDoc.Document.Assembly
import ApiDoc.Scan.Transcript

/-!
# Reading documents

A source is scanned and the events are assembled. The first failure of
either is the failure of the whole.
-/

namespace ApiDoc

/-- Reads a source. -/
def Source.parse (limit : Nat) (s : Source) : Except Diagnostic Document :=
  match s.scan limit with
  | .error d => .error d
  | .ok events =>
    match s.validate events with
    | .error d => .error d
    | .ok directives => .ok ⟨s, directives⟩

/-- Scans independent sources. -/
def scanAll (limit : Nat) (sources : List Source) :
    List (Except Diagnostic (List Event)) :=
  sources.map (Source.scan limit)

/-- Reads independent sources. -/
def parseAll (limit : Nat) (sources : List Source) : List (Except Diagnostic Document) :=
  sources.map (Source.parse limit)

end ApiDoc
