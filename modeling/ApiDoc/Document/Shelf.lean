import ApiDoc.Document.Loader

/-!
# Shelves

A shelf is a loader over files held in memory. A file on it may be known
not to be readable, and a name may stand for another.
-/

namespace ApiDoc

structure Shelf where
  files : List (String × List UInt8) := []
  /-- Names that cannot be read, with the reason. -/
  unreadable : List (String × String) := []
  /-- The names that files go by once they are loaded, where they differ. -/
  aliases : List (String × String) := []
  deriving DecidableEq, Repr

namespace Shelf

/-- Puts a file on the shelf in place of any other of the same name. -/
def insert (s : Shelf) (name : String) (bytes : List UInt8) : Shelf :=
  { s with files := (name, bytes) :: s.files.filter (·.1 != name) }

/-- The number of files. -/
def size (s : Shelf) : Nat :=
  s.files.length

def isEmpty (s : Shelf) : Bool :=
  s.files.isEmpty

/-- Takes a file from the shelf. -/
def load (s : Shelf) : Loader := fun name =>
  match s.unreadable.lookup name with
  | some reason => .error (.unreadable name reason)
  | none =>
    match s.files.lookup name with
    | some bytes => .ok ((s.aliases.lookup name).getD name, bytes)
    | none => .error (.notFound name)

end Shelf

end ApiDoc
