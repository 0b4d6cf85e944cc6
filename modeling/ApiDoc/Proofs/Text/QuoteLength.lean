import ApiDoc.Proofs.Text.Decoding
import ApiDoc.Text.Line

/-!
# The length of a quote

The limit on quotes counts bytes of the source. A quote is text decoded from them, in
which a gap takes three bytes, whatever it stands for.

* **Parts** (`quote_eq`): a quote is the text of the shown bytes and the mark of what is
  not shown; both together keep to the limit (`room`).
* **Lengths** (`quote_length_le`): the limit holds for the characters of every quote, and
  for its bytes but for two more with each gap.
-/

namespace ApiDoc

namespace Source

/-- The bytes of a line that are quoted. -/
def shownOf (line : List UInt8) : List UInt8 :=
  if line.length ≤ quoteLimit then line
  else line.take (characterStart line (quoteLimit - ellipsis.length))

/-- What stands for the bytes of a line that are not quoted. -/
def markOf (line : List UInt8) : String :=
  if line.length ≤ quoteLimit then "" else ellipsis

/-- The line on which `offset` stands, without its indentation. -/
def quotedLine (s : Source) (offset : Nat) : List UInt8 :=
  (s.slice (s.lineBounds offset).first (s.lineBounds offset).stop).dropWhile Byte.isBlank

/-- The bytes of the source that the quote for `offset` shows. -/
def shown (s : Source) (offset : Nat) : List UInt8 :=
  shownOf (s.quotedLine offset)

theorem characterStart_le (bytes : List UInt8) (n : Nat) : characterStart bytes n ≤ n := by
  induction n with
  | zero => exact Nat.le_refl 0
  | succ n ih =>
    rw [characterStart]
    split
    · exact Nat.le_succ_of_le ih
    · exact Nat.le_refl _

theorem quoteOf_eq (line : List UInt8) :
    quoteOf line = Utf8.lossy (shownOf line) ++ markOf line := by
  rw [quoteOf, shownOf, markOf]
  by_cases hlength : line.length ≤ quoteLimit
  · rw [if_pos hlength, if_pos hlength, if_pos hlength, String.append_empty]
  · rw [if_neg hlength, if_neg hlength, if_neg hlength]

theorem quote_eq (s : Source) (offset : Nat) :
    s.quote offset = Utf8.lossy (s.shown offset) ++ markOf (s.quotedLine offset) :=
  quoteOf_eq (s.quotedLine offset)

/-- Room is left for the mark. -/
theorem room (line : List UInt8) : (shownOf line).length + (markOf line).length ≤ quoteLimit := by
  rw [shownOf, markOf]
  by_cases hlength : line.length ≤ quoteLimit
  · rw [if_pos hlength, if_pos hlength]
    exact hlength
  · rw [if_neg hlength, if_neg hlength, List.length_take]
    have hcut := characterStart_le line (quoteLimit - ellipsis.length)
    have hmark : ellipsis.length ≤ quoteLimit := by decide
    omega

/-- The mark is spelled in as many bytes as it has characters. -/
theorem length_bytes_markOf (line : List UInt8) :
    (Utf8.bytes (markOf line)).length = (markOf line).length := by
  rw [markOf]
  split <;> rfl

end Source

/-- No quote has more characters than the limit. Its bytes keep to the limit too, but for two
more with each gap in what is shown, and so to three times the limit in any case. -/
theorem quote_length_le (s : Source) (offset : Nat) :
    (s.quote offset).length ≤ quoteLimit ∧
      (Utf8.bytes (s.quote offset)).length ≤ quoteLimit + 2 * Utf8.gaps (s.shown offset) ∧
      (Utf8.bytes (s.quote offset)).length ≤ 3 * quoteLimit := by
  have hroom : (s.shown offset).length + (Source.markOf (s.quotedLine offset)).length
      ≤ quoteLimit := Source.room (s.quotedLine offset)
  have hchars := Utf8.length_lossy_le (s.shown offset)
  have hbytes := Utf8.length_bytes_lossy_le (s.shown offset)
  have hgaps := Utf8.gaps_le_length (s.shown offset)
  have hlength : (Utf8.bytes (s.quote offset)).length
      = (Utf8.bytes (Utf8.lossy (s.shown offset))).length
        + (Source.markOf (s.quotedLine offset)).length := by
    rw [s.quote_eq, Utf8.bytes_append, List.length_append, Source.length_bytes_markOf]
  refine ⟨?_, ?_, ?_⟩
  · rw [s.quote_eq, String.length_append]
    omega
  · omega
  · omega

/-- The bytes of a quote do not keep to the limit: each of these is a gap of its own. -/
theorem quote_exceeds_limit :
    let source : Source := ⟨"", List.replicate 67 0xFF, by decide⟩
    (source.shown 0).length = 67 ∧ (Utf8.bytes (source.quote 0)).length = 201 ∧
      ¬ (Utf8.bytes (source.quote 0)).length ≤ quoteLimit := by
  decide +kernel

end ApiDoc
