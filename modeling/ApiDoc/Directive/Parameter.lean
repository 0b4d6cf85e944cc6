import ApiDoc.Directive.Kind
import ApiDoc.Directive.Notation

/-!
# Parameters

The words behind a keyword are its parameters. A parameter may be quoted;
without its quotes it is classified by the kind of its directive, which
gives it a role and a value or refuses it.

* `unquote` removes one pair of quotes and resolves the escapes inside.
* `Parameter.classify?` is the table of roles by kind.
-/

namespace ApiDoc

/-- What a parameter is to its directive. -/
inductive Role where
  | path
  | schemaNotation
  | type
  | name
  | format
  | queryExample
  | version
  | title
  | protocolName
  | methodName
  | tagName
  | operationId
  /-- One of many values of the same sort; it has no label. -/
  | unnamed
  deriving DecidableEq, Repr

namespace Role

def all : List Role :=
  [.path, .schemaNotation, .type, .name, .format, .queryExample, .version, .title,
    .protocolName, .methodName, .tagName, .operationId, .unnamed]

instance : Catalog Role where
  members := all
  nameOf
    | path => "Path"
    | schemaNotation => "SchemaNotation"
    | type => "Type"
    | name => "Name"
    | format => "Format"
    | queryExample => "QueryExample"
    | version => "Version"
    | title => "Title"
    | protocolName => "ProtocolName"
    | methodName => "MethodName"
    | tagName => "TagName"
    | operationId => "OperationId"
    | unnamed => "Unnamed"

/-- The role as a reader sees it. -/
def label : Role → String
  | unnamed => ""
  | role => Catalog.nameOf role

end Role

structure Parameter where
  role : Role
  value : String
  deriving DecidableEq, Repr

namespace Parameter

/-! ## Quotes -/

/-- Resolves a backslash before a quote or a backslash; before anything else
it stands for itself. -/
def unescape : List Char → List Char
  | [] => []
  | [c] => [c]
  | c :: d :: rest =>
    if c = '\\' then
      if d = '"' ∨ d = '\\' then d :: unescape rest else c :: d :: unescape rest
    else c :: unescape (d :: rest)

/-- What stands between `before` and `behind`, if the text starts and ends
so. -/
def between? (before behind : Char) : List Char → Option (List Char)
  | [] => none
  | c :: rest =>
    if c = before ∧ rest.getLast? = some behind then some rest.dropLast else none

/-- The parameter without its quotes; a bare parameter is its own value. -/
def unquote (raw : String) : String :=
  match between? '"' '"' raw.toList with
  | some inner => String.ofList (unescape inner)
  | none => raw

/-! ## References -/

/-- A character of a name. -/
def isNameChar (c : Char) : Bool :=
  c.isAlphanum || c == '_' || c == '-'

/-- The name in a reference such as `@cat`. -/
def reference? : List Char → Option (List Char)
  | [] => none
  | c :: name =>
    if c = '@' ∧ name ≠ [] ∧ name.all isNameChar = true then some name else none

/-- Whether the text is a reference to a user type. -/
def isReference (text : String) : Bool :=
  (reference? text.toList).isSome

/-- Whether the text is a reference between brackets. -/
def isReferenceArray (text : String) : Bool :=
  ((between? '[' ']' text.toList).bind reference?).isSome

/-! ## Roles by kind -/

/-- A parameter that must be a reference; its value is the name alone. -/
def named? (role : Role) (text : String) : Option Parameter :=
  (reference? text.toList).map fun name => ⟨role, String.ofList name⟩

/-- A parameter that must be a notation. -/
def notated? (text : String) : Option Parameter :=
  (Notation.resolve? text).map fun _ => ⟨.schemaNotation, text⟩

/-- A parameter that names the schema of a message or of a type: a notation,
an array of references or a single reference. -/
def schemaRef? (role : Role) (text : String) : Option Parameter :=
  match notated? text with
  | some parameter => some parameter
  | none => if isReferenceArray text then some ⟨role, text⟩ else named? role text

/-- The words that fix the format of a query. -/
def queryFormats : List String := ["htmlFormEncoded", "noFormat"]

/-- The parameter that the unquoted text is to a directive of this kind. -/
def ofText? (kind : Kind) (text : String) : Option Parameter :=
  match kind with
  | .url | .get | .post | .put | .patch | .delete | .baseUrl => some ⟨.path, text⟩
  | .request | .responseCode | .body => schemaRef? .type text
  | .typeDef => schemaRef? .name text
  | .headers | .path | .params | .result => notated? text
  | .query => some ⟨if queryFormats.contains text then .format else .queryExample, text⟩
  | .jsight | .version => some ⟨.version, text⟩
  | .title => some ⟨.title, text⟩
  | .server | .enumDef | .macroDef | .paste => named? .name text
  | .protocol => some ⟨.protocolName, text⟩
  | .method => some ⟨.methodName, text⟩
  | .tag => named? .tagName text
  | .tags => named? .unnamed text
  | .operationId => some ⟨.operationId, text⟩
  | .info | .description => none

/-- Classifies a parameter as written; `none` if its directive takes no such
parameter. -/
def classify? (kind : Kind) (raw : String) : Option Parameter :=
  ofText? kind (unquote raw)

end Parameter

end ApiDoc
