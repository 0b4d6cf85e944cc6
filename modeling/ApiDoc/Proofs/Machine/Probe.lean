import ApiDoc.Proofs.Machine.Program

/-!
# The probe of schemas

Here the extent of a schema is found by a probe that keeps a position in the bytes and moves
it from loop to loop. Nothing holds the position back: a byte is looked up wherever it
stands, and past the end there is none.

* The open braces of rules are counted in 32 bits, and the count is checked before it goes up
  and before it goes down.
* Loops have rounds, and `trailing` has calls, after which they must have ended.
* Beside its position a probe keeps the record of its run: how far it has been, how deep the
  rules were, and from where `trailing` was called.
* Offsets are given in 32 bits (`narrow`).
-/

namespace ApiDoc.Schema

open Checked (loop sum difference)

/-- A position in the bytes of a schema, and the record of how it got there. -/
structure Probe where
  bytes : List UInt8
  pos : Nat := 0
  /-- The greatest position so far. -/
  reach : Nat := 0
  /-- The greatest count of open braces so far. -/
  deepest : Nat := 0
  /-- The positions from which `trailing` was called, in order. -/
  calls : List Nat := []
  deriving DecidableEq, Repr

namespace Probe

/-- What a part of the probe gives, and the probe behind it. -/
abbrev Answer (α : Type) : Type :=
  Except Fault α × Probe

/-- A round of a loop that ends with an answer. -/
abbrev Round (σ : Type) : Type :=
  Checked.Round σ (Answer Unit)

/-! ## Looking and moving -/

def current (p : Probe) : Option UInt8 :=
  p.bytes[p.pos]?

def peek (p : Probe) : Option UInt8 :=
  p.bytes[p.pos + 1]?

/-- The bytes from the position on. -/
def rest (p : Probe) : List UInt8 :=
  p.bytes.drop p.pos

def moveTo (p : Probe) (pos : Nat) : Probe :=
  { p with pos, reach := max p.reach pos }

def move (p : Probe) (n : Nat) : Probe :=
  p.moveTo (p.pos + n)

/-- Records the count of open braces. -/
def deepen (p : Probe) (depth : Nat) : Probe :=
  { p with deepest := max p.deepest depth }

/-- Records a call of `trailing`. -/
def called (p : Probe) : Probe :=
  { p with calls := p.calls ++ [p.pos] }

/-- More rounds than a loop can have. -/
def rounds (p : Probe) : Nat :=
  p.bytes.length + 1

/-- The fault at the position, or at the last byte if there is none. -/
def fail {α : Type} (p : Probe) (complaint : Complaint) : Answer α :=
  (.error ⟨complaint, narrow (min p.pos (p.bytes.length - 1))⟩, p)

/-- One round of `eatWhile`. -/
def eatRound (wanted : UInt8 → Bool) (p : Probe) : Checked (Checked.Round Probe Probe) :=
  match p.current with
  | some b => pure (if wanted b then .again (p.move 1) else .done p)
  | none => pure (.done p)

/-- Moves past the bytes that are wanted. -/
def eatWhile (wanted : UInt8 → Bool) (p : Probe) : Checked Probe :=
  loop (eatRound wanted) p.rounds p

def eatBlanks (p : Probe) : Checked Probe :=
  p.eatWhile Byte.isBlank

/-- Moves to the end of the line. -/
def eatLine (p : Probe) : Probe :=
  p.move ((p.rest.findIdx? Byte.isBreak).getD p.rest.length)

/-! ## Strings and expressions -/

/-- One round between delimiters. A backslash takes the next byte along, also where there is
none. -/
def quotedRound (d : Delimiter) (p : Probe) : Checked (Round Probe) :=
  match p.current with
  | none => pure (.done (p.fail (.endOfFile d.expected)))
  | some b =>
    if Byte.isBreak b then pure (.done (p.fail (.plain d.unterminated)))
    else if b = Byte.backslash then pure (.again (p.move 2))
    else if b = d.close then pure (.done (.ok (), p.move 1))
    else pure (.again (p.move 1))

/-- Moves from the opening delimiter to behind the closing one. -/
def quoted (d : Delimiter) (p : Probe) : Checked (Answer Unit) :=
  let p := p.move 1
  loop (quotedRound d) p.rounds p

def regex (p : Probe) : Checked (Answer Unit) :=
  match p.current with
  | none => pure (p.fail (.endOfFile "\"/\""))
  | some b =>
    if b = Byte.slash then p.quoted .regex
    else pure (p.fail (.invalidByte b "at regex start" "\"/\""))

/-! ## Remarks -/

def blockComment (p : Probe) : Answer Unit :=
  let p := p.move 2
  match Machine.closeIndex? p.rest with
  | some n => (.ok (), p.move (n + 2))
  | none => (p.moveTo p.bytes.length).fail (.endOfFile "\"#/\" to close the comment")

/-- One round of reading rules, with the count of open braces. -/
def rulesRound (state : Nat × Probe) : Checked (Round (Nat × Probe)) := do
  let (depth, p) := state
  match p.current with
  | none => pure (.done (p.fail (.endOfFile "\"\x7d\" to close the rules")))
  | some b =>
    if b = Byte.openBrace then do
      let depth ← sum depth 1
      pure (.again (depth, (p.deepen depth).move 1))
    else if b = Byte.closeBrace then do
      let depth ← difference depth 1
      let p := p.move 1
      pure (if depth = 0 then .done (.ok (), p) else .again (depth, p))
    else if b = Byte.quote then do
      match ← p.quoted .string with
      | (.ok (), p) => pure (.again (depth, p))
      | (.error fault, p) => pure (.done (.error fault, p))
    else pure (.again (depth, p.move 1))

def note (p : Probe) : Checked (Answer Unit) := do
  let p ← (p.move 2).eatBlanks
  if p.current = some Byte.openBrace then do
    match ← loop rulesRound p.rounds (0, p) with
    | (.ok (), p) => pure (.ok (), p.eatLine)
    | (.error fault, p) => pure (.error fault, p)
  else pure (.ok (), p.eatLine)

/-- Moves past the remark that starts with `b`; `none` if none does. -/
def remark? (p : Probe) (b : UInt8) : Option (Checked (Answer Unit)) :=
  if b = Byte.hash then some (pure (.ok (), p.eatLine))
  else if b = Byte.slash ∧ p.peek = some Byte.slash then some p.note
  else if b = Byte.slash ∧ p.peek = some Byte.hash then some (pure p.blockComment)
  else none

/-! ## Example values -/

/-- One round of passing over white space and remarks. -/
def triviaRound (p : Probe) : Checked (Round Probe) :=
  match p.current with
  | none => pure (.done (.ok (), p))
  | some b =>
    if Byte.isWhite b then pure (.again (p.move 1))
    else
      match p.remark? b with
      | some passed => do
        match ← passed with
        | (.ok (), p) => pure (.again p)
        | (.error fault, p) => pure (.done (.error fault, p))
      | none => pure (.done (.ok (), p))

def trivia (p : Probe) : Checked (Answer Unit) :=
  loop triviaRound p.rounds p

/-- A value may end here, which it does if no closing bracket is owed. -/
def settle (closers : List UInt8) (p : Probe) : Round (List UInt8 × Probe) :=
  if closers.isEmpty then .done (.ok (), p) else .again (closers, p)

/-- What stands at the position, if it is not white space and no remark. -/
def valueToken (closers : List UInt8) (p : Probe) : Checked (Round (List UInt8 × Probe)) :=
  match p.current with
  | none => pure (.done (p.fail (.endOfFile (missing closers))))
  | some b =>
    if b = Byte.openBrace then pure (.again (Byte.closeBrace :: closers, p.move 1))
    else if b = Byte.openBracket then pure (.again (Byte.closeBracket :: closers, p.move 1))
    else if (b = Byte.closeBrace ∨ b = Byte.closeBracket) ∧ closers.head? = some b then
      pure (settle closers.tail (p.move 1))
    else if (b = Byte.comma ∨ b = Byte.colon) ∧ closers.isEmpty = false then
      pure (.again (closers, p.move 1))
    else if b = Byte.quote then do
      match ← p.quoted .string with
      | (.ok (), p) => pure (settle closers p)
      | (.error fault, p) => pure (.done (.error fault, p))
    else if isScalarByte b then do
      let p ← p.eatWhile isScalarByte
      pure (settle closers p)
    else pure (.done (p.fail (misfit b closers)))

/-- One round of reading a value, with the closing brackets still owed. -/
def valueRound (state : List UInt8 × Probe) : Checked (Round (List UInt8 × Probe)) := do
  let (closers, p) := state
  if closers.isEmpty then valueToken closers p
  else
    match ← p.trivia with
    | (.ok (), p) => valueToken closers p
    | (.error fault, p) => pure (.done (.error fault, p))

def value (p : Probe) : Checked (Answer Unit) :=
  loop valueRound p.rounds ([], p)

/-! ## The rest of the line -/

/-- Whether nothing more stands on the line. -/
def atLineEnd (p : Probe) : Bool :=
  p.current.all Byte.isBreak

/-- Moves past the remarks on the rest of the line, and gives the position behind the last of
them. -/
def trailing : Nat → Probe → Checked (Answer Nat)
  | 0, _ => .error .endless
  | calls + 1, p => do
    let p := p.called
    let stop := p.pos
    let p ← p.eatBlanks
    match p.current with
    | none => pure (.ok stop, p)
    | some b =>
      if Byte.isBreak b then pure (.ok stop, p)
      else
        match p.remark? b with
        | none => pure (p.fail (.invalidByte b "after schema" "end of line or annotation"))
        | some passed => do
          match ← passed with
          | (.error fault, p) => pure (.error fault, p)
          | (.ok (), p) => do
            let stop := p.pos
            let p ← p.eatBlanks
            if p.atLineEnd then pure (.ok stop, p) else trailing calls p

/-! ## Whole bodies -/

def bare (p : Probe) : Grammar → Checked (Answer Unit)
  | .jsight => p.value
  | .regex => p.regex

/-- Measures the body at the start of `bytes`. -/
def measure (grammar : Grammar) (bytes : List UInt8) : Checked (Answer Nat) := do
  let p : Probe := { bytes }
  match ← p.bare grammar with
  | (.error fault, p) => pure (.error fault, p)
  | (.ok (), p) => do
    match ← p.trailing p.rounds with
    | (.error fault, p) => pure (.error fault, p)
    | (.ok stop, p) => pure (.ok (narrow stop), p)

end Probe

/-- What the probe answers about the body at the start of `bytes`. -/
def probe (grammar : Grammar) (bytes : List UInt8) : Checked (Except Fault Nat) := do
  let (answer, _) ← Probe.measure grammar bytes
  pure answer

end ApiDoc.Schema
