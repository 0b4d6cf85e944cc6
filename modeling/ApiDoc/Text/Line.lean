import ApiDoc.Text.Source

/-!
# Lines

Lines are counted by the dominant break of a source. The other break is
content, except directly beside a dominant one or at the end of the source,
where it is trimmed off with it.

* Lines are numbered from one; an offset past the end belongs to the last
  line.
* `quote` is the line an offset stands on, without its indentation and, if
  it is long, cut short with an ellipsis between two characters.
-/

namespace ApiDoc

/-- The bytes of a line from `first` up to `stop`, `stop` itself left out. -/
structure LineBounds where
  first : Nat
  stop : Nat
  deriving DecidableEq, Repr

/-- The greatest number of bytes of a line that are quoted. -/
def quoteLimit : Nat := 200

/-- What stands for the part of a line that is not quoted. -/
def ellipsis : String := "..."

namespace Source

/-- The number of the line on which `offset` stands. -/
def lineNumber (s : Source) (offset : Nat) : Nat :=
  (s.bytes.take offset).count s.dominantBreak + 1

/-- The offset behind the last dominant break before `offset`. -/
def lineStart (s : Source) (offset : Nat) : Nat :=
  let newline := s.dominantBreak
  let before := s.bytes.take offset
  before.length - (before.reverse.takeWhile (· != newline)).length

/-- The offset of the first dominant break from `offset` on, or the end. -/
def lineStop (s : Source) (offset : Nat) : Nat :=
  let newline := s.dominantBreak
  min offset s.length + ((s.bytes.drop offset).takeWhile (· != newline)).length

/-- Whether the break that pairs with the dominant one stands at `offset`. -/
def pairedAt (s : Source) (offset : Nat) : Bool :=
  s.byte? offset == some (Byte.pairedBreak s.dominantBreak)

/-- The bounds of the line on which `offset` stands: from one dominant break
to the next, without the paired break at either side. -/
def lineBounds (s : Source) (offset : Nat) : LineBounds :=
  let start := s.lineStart offset
  let finish := s.lineStop offset
  let first := if s.pairedAt start then start + 1 else start
  let stop := if first < finish ∧ s.pairedAt (finish - 1) = true then finish - 1 else finish
  ⟨first, max stop first⟩

/-- The last offset up to `n` at which a character may start. -/
def characterStart (bytes : List UInt8) : Nat → Nat
  | 0 => 0
  | n + 1 =>
    if (bytes[n + 1]?).any Utf8.isContinuation then characterStart bytes n else n + 1

/-- A line as shown in a message: at most `quoteLimit` bytes of it. -/
def quoteOf (line : List UInt8) : String :=
  if line.length ≤ quoteLimit then Utf8.lossy line
  else
    let cut := characterStart line (quoteLimit - ellipsis.length)
    Utf8.lossy (line.take cut) ++ ellipsis

/-- The line on which `offset` stands, as shown in a message. -/
def quote (s : Source) (offset : Nat) : String :=
  let bounds := s.lineBounds offset
  quoteOf ((s.slice bounds.first bounds.stop).dropWhile Byte.isBlank)

end Source

end ApiDoc
