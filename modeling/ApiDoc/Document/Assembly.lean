import ApiDoc.Diagnostic
import ApiDoc.Directive.Keyword
import ApiDoc.Document
import ApiDoc.Lexeme

/-!
# Assembling a document from events

The events of a source are taken one by one. A keyword adds a directive and
finds its parent; the other events amend the directive added last.

* The *chain* leads from the directive added last, through the parents, to
  a root. A new directive is put beneath the nearest directive of the chain
  that permits it.
* An explicit context bounds that search: inside the parentheses of a
  directive nothing is put above it. When the context closes, the chain is
  cut back to what stands outside its owner.
* A directive that nothing in reach permits must be allowed at the top
  level, and no context may be open.
-/

namespace ApiDoc

/-- A document under way. -/
structure Assembly where
  directives : Array Directive := #[]
  /-- The directives that may still receive children, the innermost first. -/
  chain : List Nat := []
  /-- For every open context, the number of directives in the chain outside
  its owner; the innermost first. -/
  contexts : List Nat := []
  deriving DecidableEq, Repr

namespace Assembly

/-- Changes the directive added last. -/
def amend (a : Assembly) (f : Directive → Directive) : Assembly :=
  { a with directives := a.directives.modify (a.directives.size - 1) f }

/-- The kind of the directive added last. -/
def lastKind? (a : Assembly) : Option Kind :=
  a.directives.back?.map (·.kind)

/-! ## Directives -/

/-- Whether the directive at `index` permits a child of this kind. -/
def permits (a : Assembly) (kind : Kind) (index : Nat) : Bool :=
  (a.directives[index]?).any fun d => d.kind.permits kind

/-- The part of the chain that a new directive can be put beneath. -/
def reach (a : Assembly) : List Nat :=
  a.chain.take (a.chain.length - a.contexts.headD 0)

/-- The chain from the nearest directive that permits this kind outward. -/
def chainFor? (a : Assembly) (kind : Kind) : Option (List Nat) :=
  (a.reach.findIdx? (a.permits kind)).map a.chain.drop

/-- The message about a directive that may not stand where it stands. -/
def misplaced (a : Assembly) (kind : Kind) : String :=
  let place :=
    match a.chain.head?.bind (a.directives[·]?) with
    | some d => "in \"" ++ d.kind.display ++ "\""
    | none => "at the top level"
  "the directive \"" ++ kind.display ++ "\" is not allowed " ++ place

/-- Adds a directive beneath the first of `chain`. -/
def add (a : Assembly) (kind : Kind) (span : Span) (chain : List Nat) : Assembly :=
  { a with
    directives := a.directives.push { kind, keyword := span, parent := chain.head? }
    chain := a.directives.size :: chain }

/-- Takes a keyword. -/
def keyword (source : Source) (a : Assembly) (span : Span) : Except Diagnostic Assembly :=
  let text := source.text span
  match Keyword.classify? text with
  | none => .error (.inSource (.unknownDirective text) source span)
  | some kind =>
    match a.chainFor? kind with
    | some chain => .ok (a.add kind span chain)
    | none =>
      if a.contexts = [] ∧ kind.allowedAtRoot = true then .ok (a.add kind span [])
      else .error (.inSource (.context (a.misplaced kind)) source span)

/-- Takes a parameter. -/
def parameter (source : Source) (a : Assembly) (span : Span) : Except Diagnostic Assembly :=
  match a.lastKind? with
  | none => .ok a
  | some kind =>
    let raw := source.text span
    match Parameter.classify? kind raw with
    | some p => .ok (a.amend fun d => { d with parameters := d.parameters ++ [(p, span)] })
    | none => .error (.inSource (.parameter raw) source span)

/-! ## Contexts -/

/-- Takes an opening parenthesis. -/
def openContext (a : Assembly) (span : Span) : Assembly :=
  if a.directives.isEmpty then a
  else
    { a.amend fun d => { d with context := some span } with
      contexts := (a.chain.length - 1) :: a.contexts }

/-- The directive of the chain that has `outside` others outside it. -/
def owner? (a : Assembly) (outside : Nat) : Option Nat :=
  if outside < a.chain.length then a.chain[a.chain.length - 1 - outside]? else none

/-- Takes a closing parenthesis. -/
def closeContext (a : Assembly) (span : Span) : Assembly :=
  match a.contexts with
  | [] => a
  | outside :: outer =>
    let directives :=
      match a.owner? outside with
      | some index => a.directives.modify index fun d => { d with context := some span }
      | none => a.directives
    { directives, chain := a.chain.drop (a.chain.length - outside), contexts := outer }

/-! ## Events -/

/-- Takes an event. -/
def accept (source : Source) (a : Assembly) (e : Event) : Except Diagnostic Assembly :=
  match e.mark.part, e.mark.edge with
  | .keyword, .closing => a.keyword source e.span
  | .parameter, .closing => a.parameter source e.span
  | .note, .closing => .ok (a.amend fun d => { d with note := some e.span })
  | .schema, .closing => .ok (a.amend fun d => { d with body := some ⟨.schema, e.span⟩ })
  | .text, .closing => .ok (a.amend fun d => { d with body := some ⟨.text, e.span⟩ })
  | .context, .opening => .ok (a.openContext e.span)
  | .context, .closing => .ok (a.closeContext e.span)
  | _, _ => .ok a

/-- Takes events from left to right. -/
def acceptAll (source : Source) : Assembly → List Event → Except Diagnostic Assembly
  | a, [] => .ok a
  | a, e :: rest =>
    match a.accept source e with
    | .ok next => next.acceptAll source rest
    | .error d => .error d

end Assembly

/-- The directives that the events of a source describe. -/
def Source.validate (source : Source) (events : List Event) :
    Except Diagnostic (Array Directive) :=
  match Assembly.acceptAll source {} events with
  | .ok a => .ok a.directives
  | .error d => .error d

end ApiDoc
