import ApiDoc.Directive.Notation
import ApiDoc.Directive.Parameter
import ApiDoc.Text.Span

/-!
# Interchange

Kinds, notations, roles and spans are exchanged with other programs as plain
values: a member of a catalog as its name, a span as a record of its two
offsets.

* A member is also read from a record whose only field has its name and is
  null.
* A span is also read from a list of its two offsets, and its record may hold
  more than is asked for.
* The offsets of a span are not compared, so that an unset span comes back
  as it was.
-/

namespace ApiDoc

/-- A plain value. -/
inductive Value where
  | null
  | bool (b : Bool)
  | integer (n : Int)
  /-- A number that is not an integer. -/
  | fraction
  | text (s : String)
  | list (items : List Value)
  | record (fields : List (String × Value))
  deriving Inhabited

namespace Value

/-- The member of a catalog that a value names, as a text or as the only field
of a record. A member carries nothing, so that field is null. -/
def toMember? {α : Type} [Catalog α] : Value → Option α
  | text name => Catalog.find? name
  | record [(name, null)] => Catalog.find? name
  | _ => none

def ofMember {α : Type} [Catalog α] (a : α) : Value :=
  text (Catalog.nameOf a)

/-- The offset that a value is. -/
def toOffset? : Value → Option Nat
  | integer n => if 0 ≤ n ∧ n ≤ maxOffset then some n.toNat else none
  | _ => none

/-- The span that two values are. -/
def toSpanOf? (first last : Value) : Option Span := do
  let first ← first.toOffset?
  let last ← last.toOffset?
  return ⟨first, last⟩

def toSpan? : Value → Option Span
  | record fields => do
    let first ← fields.lookup "begin"
    let last ← fields.lookup "end"
    toSpanOf? first last
  | list [first, last] => toSpanOf? first last
  | _ => none

def ofSpan (s : Span) : Value :=
  record [("begin", integer s.first), ("end", integer s.last)]

end Value

end ApiDoc
