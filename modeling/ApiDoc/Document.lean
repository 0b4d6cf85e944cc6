import ApiDoc.Directive.Parameter
import ApiDoc.Text.Source

/-!
# Documents

A document is its directives in the order of the source. The tree is held
in the directives themselves: each names its parent by index, and the
children of a directive are those that name it.
-/

namespace ApiDoc

structure Body where
  content : Content
  span : Span
  deriving DecidableEq, Repr

structure Directive where
  kind : Kind
  keyword : Span
  /-- The directive directly above, or `none` at the top level. -/
  parent : Option Nat
  parameters : List (Parameter × Span) := []
  /-- The annotation on the directive line. -/
  note : Option Span := none
  body : Option Body := none
  /-- From the opening to the closing parenthesis of the directive. -/
  context : Option Span := none
  deriving DecidableEq, Repr

namespace Directive

/-- The values of the parameters in this role, in the order of the source. -/
def valuesOf (d : Directive) (role : Role) : List String :=
  d.parameters.filterMap fun (p, _) => if p.role = role then some p.value else none

/-- The value of the first parameter in this role. -/
def value? (d : Directive) (role : Role) : Option String :=
  (d.valuesOf role).head?

end Directive

structure Document where
  source : Source
  directives : Array Directive
  deriving DecidableEq

namespace Document

/-- The indices of the directives with this parent, in increasing order. -/
def withParent (d : Document) (parent : Option Nat) : List Nat :=
  (List.range d.directives.size).filter fun i =>
    (d.directives[i]?).any fun directive => directive.parent == parent

/-- The directives at the top level. -/
def roots (d : Document) : List Nat :=
  d.withParent none

/-- The directives directly beneath one. -/
def children (d : Document) (index : Nat) : List Nat :=
  d.withParent (some index)

/-- The text of a span of the source. -/
def text (d : Document) (span : Span) : String :=
  d.source.text span

end Document

end ApiDoc
