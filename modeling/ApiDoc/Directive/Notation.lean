import ApiDoc.Interchange.Catalog

/-!
# Schema notations

A directive with a schema body may name the language of the body among its
parameters; without a name it is an example value.
-/

namespace ApiDoc

/-- The grammar a schema body is read by. -/
inductive Grammar where
  | jsight
  | regex
  deriving DecidableEq, Repr

inductive Notation where
  /-- An example value with annotations. -/
  | jsight
  /-- A regular expression between slashes. -/
  | regex
  /-- Any value at all; there is no body. -/
  | any
  /-- No value; there is no body. -/
  | empty
  deriving DecidableEq, Repr

namespace Notation

def all : List Notation := [.jsight, .regex, .any, .empty]

/-- The name as written in a document. -/
def display : Notation → String
  | jsight => "jsight"
  | regex => "regex"
  | any => "any"
  | empty => "empty"

/-- The notation a parameter names. -/
def resolve? (name : String) : Option Notation :=
  all.find? fun n => n.display == name

/-- The notation of a directive that names none. -/
def standard : Notation := jsight

/-- The grammar of the body, for a notation that has one. -/
def grammar? : Notation → Option Grammar
  | jsight => some .jsight
  | regex => some .regex
  | any | empty => none

/-- Whether a directive with this notation may have a body. -/
def acceptsBody (n : Notation) : Bool :=
  n.grammar?.isSome

instance : Catalog Grammar where
  members := [.jsight, .regex]
  nameOf
    | .jsight => "Jsight"
    | .regex => "Regex"

instance : Catalog Notation where
  members := all
  nameOf
    | jsight => "Jsight"
    | regex => "Regex"
    | any => "Any"
    | empty => "Empty"

/-- A notation is known by the name it is written with. -/
theorem resolve?_display (n : Notation) : resolve? n.display = some n := by
  cases n <;> decide

end Notation

end ApiDoc
