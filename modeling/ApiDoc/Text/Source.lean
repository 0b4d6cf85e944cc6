import ApiDoc.Text.Byte
import ApiDoc.Text.Printable
import ApiDoc.Text.Span
import ApiDoc.Text.Utf8

/-!
# Sources

A source is a named list of bytes, short enough that every offset into it
and the two bytes of padding behind it can be counted within `maxOffset`.

* `ofBytes` is the only check; a source that exists fits.
* `dominantBreak` is the break that counts lines: the first one in the
  source, or a line feed if it has none.
* `covered` gives the bytes of a span, none if the span is unset or leaves
  the source.
-/

namespace ApiDoc

/-- Zero bytes behind the content, so that looking at the end of a source
and just past it sees zeros. -/
def padding : List UInt8 := [0, 0]

/-- The greatest length of a source. -/
def maxLength : Nat := maxOffset - padding.length

/-- A named document. -/
structure Source where
  name : String
  bytes : List UInt8
  fits : bytes.length ≤ maxLength
  deriving DecidableEq

/-- A document refused for its length. -/
structure TooLarge where
  name : String
  length : Nat
  deriving DecidableEq, Repr

/-- Why the document is refused. -/
def TooLarge.message (e : TooLarge) : String :=
  "file " ++ e.name ++ " is " ++ toString e.length
    ++ " bytes, which exceeds the maximum of " ++ toString maxLength ++ " bytes"

namespace Source

/-- The source with this name and content, if it fits. -/
def ofBytes (name : String) (bytes : List UInt8) : Except TooLarge Source :=
  if h : bytes.length ≤ maxLength then .ok ⟨name, bytes, h⟩
  else .error ⟨name, bytes.length⟩

def length (s : Source) : Nat :=
  s.bytes.length

def isEmpty (s : Source) : Bool :=
  s.bytes.isEmpty

/-- The content and the padding behind it. -/
def padded (s : Source) : List UInt8 :=
  s.bytes ++ padding

/-- The byte at `offset`. -/
def byte? (s : Source) (offset : Nat) : Option UInt8 :=
  s.bytes[offset]?

/-- The break whose occurrences count lines. -/
def dominantBreak (s : Source) : UInt8 :=
  (s.bytes.find? Byte.isBreak).getD Byte.lineFeed

/-- The source as shown to a developer: its name and its length. -/
def summary (s : Source) : String :=
  "SourceText \x7b name: " ++ Printable.quoted s.name ++ ", len: " ++ toString s.length
    ++ ", .. \x7d"

/-- The bytes from `start` up to `stop`, `stop` itself left out. -/
def slice (s : Source) (start stop : Nat) : List UInt8 :=
  (s.bytes.drop start).take (stop - start)

/-- The bytes a span covers. -/
def covered (s : Source) (span : Span) : List UInt8 :=
  match span.get? with
  | some (first, last) => if last < s.length then s.slice first (last + 1) else []
  | none => []

/-- The text a span covers. -/
def text (s : Source) (span : Span) : String :=
  Utf8.lossy (s.covered span)

end Source

end ApiDoc
