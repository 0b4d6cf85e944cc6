/-!
# Bytes of a document

A document is read byte by byte; only a handful of ASCII bytes mean anything
to the outer language. This module names them and gives the classes the
reader works with.

* A *blank* is a space or a tab; a *break* is a line feed or a carriage
  return, in any order and number.
* `describe` is the printable form of a byte in messages.
-/

namespace ApiDoc.Byte

/-! ## The bytes with a meaning -/

abbrev tab : UInt8 := 0x09
abbrev lineFeed : UInt8 := 0x0A
abbrev carriageReturn : UInt8 := 0x0D
abbrev space : UInt8 := 0x20
abbrev quote : UInt8 := 0x22
abbrev hash : UInt8 := 0x23
abbrev openParen : UInt8 := 0x28
abbrev closeParen : UInt8 := 0x29
abbrev comma : UInt8 := 0x2C
abbrev slash : UInt8 := 0x2F
abbrev colon : UInt8 := 0x3A
abbrev atSign : UInt8 := 0x40
abbrev openBracket : UInt8 := 0x5B
abbrev backslash : UInt8 := 0x5C
abbrev closeBracket : UInt8 := 0x5D
abbrev openBrace : UInt8 := 0x7B
abbrev closeBrace : UInt8 := 0x7D

/-! ## Classes -/

/-- Horizontal white space. -/
def isBlank (b : UInt8) : Bool :=
  b == space || b == tab

/-- A byte that ends a line. -/
def isBreak (b : UInt8) : Bool :=
  b == lineFeed || b == carriageReturn

/-- A blank or a break. -/
def isWhite (b : UInt8) : Bool :=
  isBlank b || isBreak b

def isDigit (b : UInt8) : Bool :=
  0x30 ≤ b && b ≤ 0x39

def isAlphanumeric (b : UInt8) : Bool :=
  isDigit b || (0x41 ≤ b && b ≤ 0x5A) || (0x61 ≤ b && b ≤ 0x7A)

/-- The break that forms a two-byte line end together with `b`. -/
def pairedBreak (b : UInt8) : UInt8 :=
  if b == carriageReturn then lineFeed else carriageReturn

/-! ## Printable form -/

/-- The character of an ASCII byte. -/
def toChar (b : UInt8) : Char :=
  Char.ofNat b.toNat

/-- The two upper-case hexadecimal digits of a byte. -/
def hexPair (b : UInt8) : List Char :=
  [(Nat.digitChar (b.toNat / 16)).toUpper, (Nat.digitChar (b.toNat % 16)).toUpper]

/-- A byte as a message shows it: printable ASCII stands for itself, a tab or
a break is escaped by its letter, and any other byte by its value. -/
def describe (b : UInt8) : String :=
  if b = lineFeed then "\\n"
  else if b = carriageReturn then "\\r"
  else if b = tab then "\\t"
  else if 0x20 ≤ b ∧ b ≤ 0x7E then String.singleton (toChar b)
  else String.ofList ('\\' :: 'x' :: hexPair b)

end ApiDoc.Byte
