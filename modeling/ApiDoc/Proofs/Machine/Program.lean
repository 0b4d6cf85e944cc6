import ApiDoc.Proofs.Machine.Head
import ApiDoc.Scan.Transcript

/-!
# The scanner as a machine

Here the scanner is written as a machine that works on a reading head and keeps
its place on a stack of phases. A phase may put others on the stack, to be
resumed when it is done, and what it emits waits until it is asked for.

* A `turn` gives the first event that waits, or the fault; if nothing waits it
  runs the phase on top of the stack.
* A fault empties the stack.
* Every read, slice, span and sum is checked, so that `turns` comes to a value
  only if no turn has broken a demand.
-/

namespace ApiDoc

open Checked (loop sum)
open Scan (Ending Fault Line)

/-- What the machine is about to read. -/
inductive Phase where
  /-- The next item, or the end. -/
  | lineStart
  | keyword
  /-- The rest of a directive line. -/
  | directiveTail
  | quotedParameter
  | bareParameter
  | note
  /-- The body of a directive, if it has one. -/
  | body
  | schema
  | text
  /-- Text up to a line that starts with a closing parenthesis. -/
  | parenText
  | lineComment
  | blockComment
  /-- The end of a line on which nothing but a comment may follow. -/
  | lineEnd (ending : Ending)
  deriving DecidableEq, Repr

/-- The directive whose line is read. -/
structure LineDirective extends Line where
  /-- Whether a schema has been met on the line. -/
  inline : Bool := false
  deriving DecidableEq, Repr

structure Machine where
  head : Head
  /-- The phases to be run, the next one first. -/
  stack : List Phase
  /-- The events that have not been given. -/
  pending : List Event := []
  /-- The fault that has not been given. -/
  fault : Option Fault := none
  directive : Option LineDirective := none
  /-- The offsets of the open parentheses, the innermost first. -/
  contexts : List Nat := []
  deriving DecidableEq, Repr

namespace Machine

/-- The machine at the start of a source. -/
def start (source : Source) : Checked Machine := do
  let head ← Head.start source
  pure { head, stack := [.lineStart] }

/-! ## What phases do -/

def move (m : Machine) (head : Head) : Machine :=
  { m with head }

@[simp]
theorem stack_move (m : Machine) (head : Head) : (m.move head).stack = m.stack := rfl

@[simp]
theorem contexts_move (m : Machine) (head : Head) : (m.move head).contexts = m.contexts := rfl

def push (m : Machine) (phase : Phase) : Machine :=
  { m with stack := phase :: m.stack }

/-- Puts `phase` before `next`. -/
def call (m : Machine) (phase next : Phase) : Machine :=
  (m.push next).push phase

@[simp]
theorem stack_push (m : Machine) (phase : Phase) : (m.push phase).stack = phase :: m.stack := rfl

@[simp]
theorem stack_call (m : Machine) (phase next : Phase) :
    (m.call phase next).stack = phase :: next :: m.stack := rfl

/-- The events of a part. -/
def emit (m : Machine) (part : Part) (first stop : Nat) : Checked Machine := do
  let span ← Checked.range first stop
  let events := [⟨⟨part, .opening⟩, .point first⟩, ⟨⟨part, .closing⟩, span⟩]
  pure { m with pending := m.pending ++ events }

/-- Stops with a fault. -/
def halt (m : Machine) (fault : Fault) : Machine :=
  { m with stack := [], fault := some fault }

/-- Stops here, with a fault about `offset`. -/
def fail (m : Machine) (cause : Cause) (offset : Nat) : Machine :=
  m.halt ⟨cause, offset, m.head.pos⟩

/-- Stops at a byte that cannot come next. -/
def unexpected (m : Machine) (place expected : String) : Checked Machine :=
  if m.head.atEnd then pure (m.fail (.lexical (.endOfFile expected)) m.head.pos)
  else do
    let b ← m.head.current
    pure (m.fail (.lexical (.invalidByte b place expected)) m.head.pos)

/-! ## Items -/

def lineStart (m : Machine) : Checked Machine := do
  let head ← m.head.eatBlanks
  let m := m.move head
  if head.atEnd then
    if m.contexts.isEmpty then pure m else m.unexpected "" "\")\""
  else do
    let b ← head.current
    if Byte.isBreak b then do
      let (_, head) ← head.eatBreak
      pure ((m.move head).push .lineStart)
    else if b = Byte.hash then pure (m.call .lineComment .lineStart)
    else do
      let next ← head.peek
      if b = Byte.slash ∧ next = Byte.hash then
        pure ((m.push .lineStart).call .blockComment (.lineEnd .comment))
      else if b = Byte.closeParen then
        match m.contexts with
        | [] => m.unexpected "at directive start" "directive"
        | first :: outer => do
          let span ← Checked.span first head.pos
          let events := [⟨⟨.context, .closing⟩, span⟩]
          let head ← head.advance
          pure ({ m with head, contexts := outer, pending := m.pending ++ events }.call
            (.lineEnd .paren) .lineStart)
      else pure (m.call .keyword .lineStart)

/-- One round of reading a keyword: it ends with a kind or with how far it
came. -/
def keywordRound (state : Keyword.Progress × Head) :
    Checked (Checked.Round (Keyword.Progress × Head) (Except Keyword.Progress Kind × Head)) := do
  let (progress, head) := state
  let b ← head.current
  if Keyword.isBoundary b then
    match progress.complete? with
    | some kind => pure (.done (.ok kind, head))
    | none => pure (.done (.error progress, head))
  else
    match progress.feed? b with
    | some next => do
      let head ← head.advance
      pure (.again (next, head))
    | none => pure (.done (.error progress, head))

def keyword (m : Machine) : Checked Machine := do
  let first := m.head.pos
  let (outcome, head) ← loop keywordRound m.head.rounds (.start, m.head)
  match outcome with
  | .ok kind => do
    let m ← (m.move head).emit .keyword first head.pos
    pure ({ m with directive := some { kind } }.push .directiveTail)
  | .error progress =>
    if progress.depth = 0 then (m.move head).unexpected "at directive start" progress.expected
    else do
      let word ← head.sliceFrom first
      (m.move head).unexpected ("in keyword \"" ++ Utf8.lossy word ++ "\"") progress.expected

/-! ## Directive lines -/

/-- Whether the parenthesis under the head ends the line. -/
def parenEndsLine (m : Machine) : Checked Bool := do
  let head ← m.head.advance
  let head ← head.eatBlanks
  let ended ← head.atLineEnd
  if ended then pure true
  else do
    let noted ← head.startsWith [Byte.slash, Byte.slash]
    if noted then pure true
    else do
      let b ← head.current
      pure (b == Byte.hash)

def openParen (limit : Nat) (directive : LineDirective) (m : Machine) : Checked Machine := do
  let first := m.head.pos
  let opened := { directive with opened := true }
  if directive.kind.hasTextBody then do
    let head ← m.head.advance
    pure ({ m with head, directive := some opened }.push .directiveTail)
  else if limit ≤ m.contexts.length then
    pure (m.fail (.lexical (.plain ("explicit contexts nested deeper than " ++ toString limit)))
      first)
  else do
    let events := [⟨⟨.context, .opening⟩, .point first⟩]
    let head ← m.head.advance
    pure ({ m with head, directive := some opened, contexts := first :: m.contexts,
                   pending := m.pending ++ events }.push .directiveTail)

/-- Reads what stands next on a directive line, which is not over. -/
def directiveItem (limit : Nat) (directive : LineDirective) (m : Machine) : Checked Machine := do
  let b ← m.head.current
  let next ← m.head.peek
  if b = Byte.slash ∧ next = Byte.slash then pure (m.call .note .directiveTail)
  else if b = Byte.hash then pure (m.call .lineComment .directiveTail)
  else if directive.opened then m.unexpected "after \"(\"" "end of line or annotation"
  else if b = Byte.openParen then do
    let ended ← m.parenEndsLine
    if ended then m.openParen limit directive
    else do
      let head ← m.head.advance
      let head ← head.eatBlanks
      (m.move head).unexpected "after \"(\"" "end of line or annotation"
  else if Scan.opensInlineSchema directive.toLine b next then
    pure ({ m with directive := some { directive with inline := true } }.call .schema
      (.lineEnd .schema))
  else if b = Byte.quote then pure (m.call .quotedParameter .directiveTail)
  else pure (m.call .bareParameter .directiveTail)

def directiveTail (limit : Nat) (m : Machine) : Checked Machine := do
  let head ← m.head.eatBlanks
  let ended ← head.atLineEnd
  if ended then do
    let (_, head) ← head.eatBreak
    pure ((m.move head).push .body)
  else
    match m.directive with
    | none => pure (m.move head)
    | some directive => (m.move head).directiveItem limit directive

/-- The parameter from `first` up to the head has been read. -/
def finishParameter (m : Machine) (first : Nat) : Checked Machine := do
  let stop := m.head.pos
  let m ← m.emit .parameter first stop
  let raw ← m.head.slice first stop
  pure { m with
    directive := m.directive.map fun d => { d with toLine := d.toLine.declare raw } }

/-- One round of reading a parameter in quotes: it ends behind the closing quote,
or with the place where none can come. -/
def quotedRound (head : Head) : Checked (Checked.Round Head (Option String × Head)) := do
  let b ← head.current
  if head.atEnd then pure (.done (some "", head))
  else if Byte.isBreak b then pure (.done (some "in quoted parameter", head))
  else if b = Byte.backslash then do
    let head ← head.advance
    let ended ← head.atLineEnd
    if ended then pure (.again head)
    else do
      let head ← head.advance
      pure (.again head)
  else if b = Byte.quote then do
    let head ← head.advance
    pure (.done (none, head))
  else do
    let head ← head.advance
    pure (.again head)

def quotedParameter (m : Machine) : Checked Machine := do
  let first := m.head.pos
  let head ← m.head.advance
  let (place, head) ← loop quotedRound head.rounds head
  let m := m.move head
  match place with
  | some place => m.unexpected place "\"\\\"\""
  | none => do
    let ended ← head.atLineEnd
    let b ← head.current
    if ended || Byte.isBlank b then m.finishParameter first
    else m.unexpected "after parameter" "space or end of line"

def bareParameter (m : Machine) : Checked Machine := do
  let first := m.head.pos
  let head ← m.head.eatWhile (! Byte.isWhite ·)
  (m.move head).finishParameter first

/-! ## Notes and comments -/

/-- Reads a part that runs to the end of the line. -/
def linePart (part : Part) (m : Machine) : Checked Machine := do
  let first := m.head.pos
  let head ← m.head.eatLine
  let stop ← head.trimmedEnd first
  (m.move head).emit part first stop

/-- The offset of the first `#/`. -/
def closeIndex? (bytes : List UInt8) : Option Nat :=
  bytes.tails.findIdx? ([Byte.hash, Byte.slash].isPrefixOf ·)

def blockComment (m : Machine) : Checked Machine := do
  let first := m.head.pos
  let head := m.head.advanceBy 2
  let rest ← head.rest
  match closeIndex? rest with
  | some index =>
    let head := head.advanceBy (min (min index maxOffset + 2) maxOffset)
    (m.move head).emit .comment first head.pos
  | none => (m.move (head.advanceBy maxOffset)).unexpected "" "\"#/\""

/-- Moves past the line end, which must come now. -/
def endLine (ending : Ending) (m : Machine) : Checked Machine :=
  if m.head.atEnd then pure m
  else do
    let (moved, head) ← m.head.eatBreak
    if moved then pure (m.move head) else m.unexpected ending.place "end of line"

def lineEnd (ending : Ending) (m : Machine) : Checked Machine := do
  let head ← m.head.eatBlanks
  let b ← head.current
  let m ←
    if b = Byte.hash ∧ head.atEnd = false then (m.move head).linePart .comment
    else pure (m.move head)
  m.endLine ending

/-! ## Bodies -/

/-- Whether an item starts at `head`, and no schema. -/
def startsItem (head : Head) : Checked Bool := do
  let rest ← head.rest
  pure (head.atEnd || Keyword.opensDirective rest
    || rest.head?.any (fun b => b == Byte.hash || b == Byte.closeParen || b == Byte.openParen)
    || [Byte.slash, Byte.hash].isPrefixOf rest)

/-- Whether text ends before the line at `head`. -/
def endsText (m : Machine) (head : Head) : Checked Bool :=
  if head.atEnd then pure true
  else do
    let rest ← head.rest
    if Keyword.opensDirective rest then pure true
    else if m.contexts.isEmpty then pure false
    else do
      let b ← head.current
      pure (b == Byte.closeParen)

/-- Looks for the body of a directive whose line holds none. -/
def bodyBelow (kind : Kind) (m : Machine) : Checked Machine := do
  let head ← m.head.nextContent
  let ends ← if kind.hasSchemaBody then startsItem head else m.endsText head
  if ends then pure m
  else if kind.hasSchemaBody then pure ((m.move head).call .schema (.lineEnd .schema))
  else pure ((m.move head).push .text)

def body (m : Machine) : Checked Machine :=
  match m.directive with
  | none => pure m
  | some directive =>
    if directive.opened then
      if directive.kind.hasTextBody then pure (m.push .parenText) else pure m
    else if directive.inline then pure m
    else if directive.kind.hasSchemaBody || directive.kind.hasTextBody then
      m.bodyBelow directive.kind
    else pure m

def schema (m : Machine) : Checked Machine := do
  let first := m.head.pos
  match m.directive with
  | none => pure m
  | some directive =>
    match directive.declared.grammar? with
    | none =>
      pure (m.fail (.lexical (.plain
        ("unexpected schema body for notation \"" ++ directive.declared.display ++ "\""))) first)
    | some grammar => do
      let rest ← m.head.rest
      match Schema.extent grammar rest with
      | .ok n => do
        let head := m.head.advanceBy n
        let stop ← sum first n
        (m.move head).emit .schema first stop
      | .error fault => pure (m.fail (.schema fault.complaint) (fault.offsetFrom first))

/-- One round of reading text: a line of it. -/
def textRound (m : Machine) (state : Nat × Head) :
    Checked (Checked.Round (Nat × Head) (Nat × Head)) := do
  let (stop, head) := state
  let first := head.pos
  let head ← head.eatLine
  let trimmed ← head.trimmedEnd first
  let stop := max trimmed stop
  let (moved, head) ← head.eatBreak
  if moved then do
    let look ← head.nextContent
    let ends ← m.endsText look
    if ends then pure (.done (stop, head))
    else do
      let head ← head.eatBlanks
      pure (.again (stop, head))
  else pure (.done (stop, head))

def text (m : Machine) : Checked Machine := do
  let first := m.head.pos
  let (stop, head) ← loop m.textRound m.head.rounds (first, m.head)
  (m.move head).emit .text first stop

/-- One round of reading text in parentheses: a line of it, or the parenthesis
that closes it. -/
def parenRound (state : Option (Nat × Nat) × Head) :
    Checked (Checked.Round (Option (Nat × Nat) × Head) (Option (Nat × Nat) × Head)) := do
  let (range, head) := state
  let head ← head.eatBlanks
  if head.atEnd then pure (.done (range, head))
  else do
    let b ← head.current
    if b = Byte.closeParen then pure (.done (range, head))
    else do
      let first := head.pos
      let head ← head.eatLine
      let stop ← head.trimmedEnd first
      let (_, head) ← head.eatBreak
      pure (.again (Scan.widen range first stop, head))

def parenText (m : Machine) : Checked Machine := do
  let (range, head) ← loop parenRound m.head.rounds (none, m.head)
  let m := m.move head
  if head.atEnd then m.unexpected "" "\")\""
  else do
    let m ←
      match range with
      | some (first, stop) => m.emit .text first stop
      | none => pure m
    let head ← m.head.advance
    pure ((m.move head).push (.lineEnd .paren))

/-! ## Turns -/

def run (limit : Nat) (m : Machine) : Phase → Checked Machine
  | .lineStart => m.lineStart
  | .keyword => m.keyword
  | .directiveTail => m.directiveTail limit
  | .quotedParameter => m.quotedParameter
  | .bareParameter => m.bareParameter
  | .note => m.linePart .note
  | .body => m.body
  | .schema => m.schema
  | .text => m.text
  | .parenText => m.parenText
  | .lineComment => m.linePart .comment
  | .blockComment => m.blockComment
  | .lineEnd ending => m.lineEnd ending

/-- One turn, and what it gives. -/
def turn (limit : Nat) (m : Machine) : Checked (Option (Except Fault Event) × Machine) :=
  match m.pending with
  | event :: later => pure (some (.ok event), { m with pending := later })
  | [] =>
    match m.fault with
    | some fault => pure (some (.error fault), { m with fault := none })
    | none =>
      match m.stack with
      | [] => pure (none, m)
      | phase :: below => do
        let m ← { m with stack := below }.run limit phase
        pure (none, m)

/-- All that the first turns give, and the machine behind them. -/
def turns (limit : Nat) : Nat → Machine → Checked (List (Except Fault Event) × Machine)
  | 0, m => pure ([], m)
  | n + 1, m => do
    let (answer, m) ← m.turn limit
    let (later, m) ← m.turns limit n
    pure (answer.toList ++ later, m)

end Machine

end ApiDoc
