/-!
# Codes of diagnostics

Every failure has a stable code. The first digit tells the phase that failed:
reading the bytes, reading the directives, or loading the file.
-/

namespace ApiDoc

/-- The sort of a failure. -/
inductive Category where
  | lexical
  | unknownDirective
  | context
  | parameter
  | schema
  | load
  deriving DecidableEq, Repr

inductive Code where
  /-- A byte that cannot stand where it stands. -/
  | invalidByte
  /-- A document that ends too early. -/
  | endOfFile
  /-- A malformed schema body. -/
  | invalidSchema
  /-- A keyword of no kind. -/
  | unknownDirective
  /-- A directive that may not stand where it stands. -/
  | misplacedDirective
  /-- A parameter its directive does not take. -/
  | incorrectParameter
  /-- A file that cannot be had. -/
  | loadFailure
  deriving DecidableEq, Repr

namespace Category

def name : Category → String
  | lexical => "Lexical"
  | unknownDirective => "UnknownDirective"
  | context => "Context"
  | parameter => "Parameter"
  | schema => "SubScanner"
  | load => "Load"

end Category

namespace Code

def all : List Code :=
  [.invalidByte, .endOfFile, .invalidSchema, .unknownDirective, .misplacedDirective,
    .incorrectParameter, .loadFailure]

/-- The code as printed. -/
def text : Code → String
  | invalidByte => "E0001"
  | endOfFile => "E0002"
  | invalidSchema => "E0003"
  | unknownDirective => "E1001"
  | misplacedDirective => "E1002"
  | incorrectParameter => "E1003"
  | loadFailure => "E9001"

def category : Code → Category
  | invalidByte => .lexical
  | endOfFile => .lexical
  | invalidSchema => .schema
  | unknownDirective => .unknownDirective
  | misplacedDirective => .context
  | incorrectParameter => .parameter
  | loadFailure => .load

/-- Whether the code belongs to the phase that reads bytes. -/
def isReadingFailure (c : Code) : Bool :=
  ['E', '0'].isPrefixOf c.text.toList

end Code

end ApiDoc
