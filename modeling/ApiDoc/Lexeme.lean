import ApiDoc.Interchange.Catalog
import ApiDoc.Text.Span

/-!
# Lexemes

A document is read as a stream of events. A lexeme gives two: its opening
names its first byte, its closing the whole of it. Contexts alone enclose
other lexemes; the two events of any other part stand side by side.
-/

namespace ApiDoc

/-- A part of a document. -/
inductive Part where
  | keyword
  | parameter
  /-- An annotation behind a directive. -/
  | note
  | schema
  | text
  /-- What stands between the parentheses of a directive. -/
  | context
  | comment
  deriving DecidableEq, Repr

inductive Edge where
  | opening
  | closing
  deriving DecidableEq, Repr

/-- What an event marks. -/
structure Mark where
  part : Part
  edge : Edge
  deriving DecidableEq, Repr

namespace Part

def all : List Part := [.keyword, .parameter, .note, .schema, .text, .context, .comment]

def name : Part → String
  | keyword => "Keyword"
  | parameter => "Parameter"
  | note => "Annotation"
  | schema => "Schema"
  | text => "Text"
  | context => "Context"
  | comment => "Comment"

end Part

def Edge.name : Edge → String
  | opening => "Begin"
  | closing => "End"

namespace Mark

def all : List Mark :=
  Part.all.flatMap fun part => [⟨part, .opening⟩, ⟨part, .closing⟩]

instance : Catalog Mark where
  members := all
  nameOf m := m.part.name ++ m.edge.name

def isOpening (m : Mark) : Bool :=
  m.edge == .opening

/-- The mark that closes what this one opens. -/
def closer? (m : Mark) : Option Mark :=
  match m.edge with
  | .opening => some { m with edge := .closing }
  | .closing => none

end Mark

structure Event where
  mark : Mark
  span : Span
  deriving DecidableEq, Repr

/-- The two events of a lexeme from `start` up to `stop`, `stop` left out. -/
def Part.events (part : Part) (start stop : Nat) : List Event :=
  [⟨⟨part, .opening⟩, .point start⟩, ⟨⟨part, .closing⟩, .ofRange start stop⟩]

end ApiDoc
