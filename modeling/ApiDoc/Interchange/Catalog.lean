/-!
# Catalogs

A catalog is a finite type whose members are exchanged by name. The names
are fixed, so that what one program writes another can read.
-/

namespace ApiDoc

class Catalog (α : Type) where
  /-- Every member, in its customary order. -/
  members : List α
  /-- The name under which a member is exchanged. -/
  nameOf : α → String

/-- The member with this name. -/
def Catalog.find? {α : Type} [Catalog α] (name : String) : Option α :=
  (Catalog.members : List α).find? fun a => Catalog.nameOf a == name

end ApiDoc
