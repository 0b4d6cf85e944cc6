import ApiDoc.Document.Parse

/-!
# Files

Files come from a loader, which stands for whatever holds them. A file that
others include reports its failures with the chain of inclusions through
which it was reached; nothing else depends on that chain.
-/

namespace ApiDoc

/-- Why a file cannot be had. -/
inductive LoadError where
  | notFound (name : String)
  | unreadable (name reason : String)
  deriving DecidableEq, Repr

def LoadError.message : LoadError → String
  | notFound name => "file \"" ++ name ++ "\" not found"
  | unreadable name reason => "cannot read \"" ++ name ++ "\": " ++ reason

/-- Finds a file by name: the name it goes by from then on, and its bytes. -/
abbrev Loader := String → Except LoadError (String × List UInt8)

/-- The source in a file. -/
def Loader.source (load : Loader) (name : String) : Except Diagnostic Source :=
  match load name with
  | .error e => .error (.ofLoad name e.message)
  | .ok (resolved, bytes) =>
    match Source.ofBytes resolved bytes with
    | .error e => .error (.ofTooLarge e)
    | .ok s => .ok s

/-- A place in a source at which a file is included. -/
structure Site where
  source : Source
  offset : Nat
  deriving DecidableEq

/-- Reads a file. -/
def Loader.parse (load : Loader) (limit : Nat) (name : String) : Except Diagnostic Document :=
  match load.source name with
  | .error d => .error d
  | .ok s => s.parse limit

/-- Reads a file that is included at the first site, whose own source is
included at the second, and so on outward. -/
def Loader.parseIncluded (load : Loader) (limit : Nat) (name : String) (sites : List Site) :
    Except Diagnostic Document :=
  match load.parse limit name with
  | .ok d => .ok d
  | .error d => .error (sites.foldl (fun d site => d.through site.source site.offset) d)

end ApiDoc
