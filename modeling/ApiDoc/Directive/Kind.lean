import ApiDoc.Interchange.Catalog

/-!
# Directive kinds and where they may stand

Every directive has one of thirty kinds. The grammar of contexts is a table:
a kind says whether it may stand at the top level, which kinds may stand
directly beneath it, and what its body holds.

* A kind has one fixed spelling, except for response codes, which are
  written as numbers.
* `Kind.permits` speaks of direct children only; it is not transitive.
-/

namespace ApiDoc

/-- What the body of a directive holds. -/
inductive Content where
  /-- An embedded schema. -/
  | schema
  /-- Free text. -/
  | text
  deriving DecidableEq, Repr

inductive Kind where
  | jsight
  | info
  | title
  | version
  | description
  | server
  | baseUrl
  | url
  | get
  | post
  | put
  | patch
  | delete
  | body
  | request
  | responseCode
  | path
  | headers
  | query
  | typeDef
  | enumDef
  | macroDef
  | paste
  | protocol
  | method
  | params
  | result
  | tag
  | tags
  | operationId
  deriving DecidableEq, Repr

namespace Kind

def all : List Kind :=
  [.jsight, .info, .title, .version, .description, .server, .baseUrl, .url, .get, .post, .put,
    .patch, .delete, .body, .request, .responseCode, .path, .headers, .query, .typeDef, .enumDef,
    .macroDef, .paste, .protocol, .method, .params, .result, .tag, .tags, .operationId]

theorem mem_all (k : Kind) : k ∈ all := by
  cases k <;> decide

/-! ## Names -/

/-- The keyword as written in a document. -/
def spelling? : Kind → Option String
  | jsight => some "JSIGHT"
  | info => some "INFO"
  | title => some "Title"
  | version => some "Version"
  | description => some "Description"
  | server => some "SERVER"
  | baseUrl => some "BaseUrl"
  | url => some "URL"
  | get => some "GET"
  | post => some "POST"
  | put => some "PUT"
  | patch => some "PATCH"
  | delete => some "DELETE"
  | body => some "Body"
  | request => some "Request"
  | responseCode => none
  | path => some "Path"
  | headers => some "Headers"
  | query => some "Query"
  | typeDef => some "TYPE"
  | enumDef => some "ENUM"
  | macroDef => some "MACRO"
  | paste => some "PASTE"
  | protocol => some "Protocol"
  | method => some "Method"
  | params => some "Params"
  | result => some "Result"
  | tag => some "TAG"
  | tags => some "Tags"
  | operationId => some "OperationId"

/-- The kind as a message shows it. -/
def display (k : Kind) : String :=
  k.spelling?.getD "HTTP response code"

instance : Catalog Kind where
  members := all
  nameOf
    | jsight => "Jsight"
    | info => "Info"
    | title => "Title"
    | version => "Version"
    | description => "Description"
    | server => "Server"
    | baseUrl => "BaseUrl"
    | url => "Url"
    | get => "Get"
    | post => "Post"
    | put => "Put"
    | patch => "Patch"
    | delete => "Delete"
    | body => "Body"
    | request => "Request"
    | responseCode => "HttpResponseCode"
    | path => "Path"
    | headers => "Headers"
    | query => "Query"
    | typeDef => "Type"
    | enumDef => "Enum"
    | macroDef => "Macro"
    | paste => "Paste"
    | protocol => "Protocol"
    | method => "Method"
    | params => "Params"
    | result => "Result"
    | tag => "Tag"
    | tags => "Tags"
    | operationId => "OperationId"

/-! ## The grammar of contexts -/

/-- One of the five request methods. -/
def isHttpMethod : Kind → Bool
  | get | post | put | patch | delete => true
  | _ => false

def allowedAtRoot : Kind → Bool
  | jsight | info | server | url | macroDef | paste | tag | typeDef | enumDef => true
  | k => k.isHttpMethod

/-- What the body holds, for a kind that may have one. -/
def body? : Kind → Option Content
  | typeDef | enumDef | body | request | responseCode | path | headers | query | params
  | result => some .schema
  | description => some .text
  | _ => none

def hasSchemaBody (k : Kind) : Bool :=
  k.body? == some .schema

def hasTextBody (k : Kind) : Bool :=
  k.body? == some .text

/-- The four properties packed into a number, the least bit first: allowed at
the top level, request method, schema body, text body. -/
def flagBits (k : Kind) : Nat :=
  k.allowedAtRoot.toNat + 2 * k.isHttpMethod.toNat + 4 * k.hasSchemaBody.toNat
    + 8 * k.hasTextBody.toNat

/-- The kinds that may stand directly beneath a request method. -/
def methodChildren : List Kind :=
  [.description, .request, .responseCode, .path, .query, .tags, .operationId, .paste]

/-- The kinds that may stand directly beneath this one. -/
def children : Kind → List Kind
  | info => [.title, .version, .description]
  | server => [.baseUrl]
  | url =>
    [.get, .post, .put, .patch, .delete, .path, .protocol, .method, .description, .tags, .paste]
  | get => methodChildren
  | post => methodChildren
  | put => methodChildren
  | patch => methodChildren
  | delete => methodChildren
  | request => [.headers, .body]
  | responseCode => [.headers, .body]
  | method => [.description, .params, .result, .tags]
  | macroDef =>
    [.get, .post, .put, .patch, .delete, .description, .request, .responseCode, .path, .query,
      .headers, .body, .protocol, .method, .params, .result, .tags, .operationId, .paste]
  | tag => [.title, .description, .tag]
  | _ => []

/-- Whether `child` may stand directly beneath `parent`. -/
def permits (parent child : Kind) : Bool :=
  parent.children.contains child

end Kind

end ApiDoc
