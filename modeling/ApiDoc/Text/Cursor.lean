import ApiDoc.Text.Source

/-!
# Cursors

A cursor is an offset into a document together with the bytes from there on.
It only moves forward, and every move is a number of bytes dropped from
`rest` and added to `pos`.

* `current` and `peek` read the next two bytes, zero past the end.
* `eatBreak` takes one line end: one break, or two that differ.
* The lemmas of the last section say that a move drops bytes, so that a
  reader that moves can be shown to stop.
-/

namespace ApiDoc

structure Cursor where
  pos : Nat
  rest : List UInt8
  deriving DecidableEq, Repr

/-- The start of a source. -/
def Source.cursor (s : Source) : Cursor :=
  ⟨0, s.bytes⟩

namespace Cursor

/-! ## Looking -/

def atEnd (c : Cursor) : Bool :=
  c.rest.isEmpty

/-- The byte under the cursor. -/
def current (c : Cursor) : UInt8 :=
  c.rest.headD 0

/-- The byte after the one under the cursor. -/
def peek (c : Cursor) : UInt8 :=
  c.rest.tail.headD 0

/-- Whether the document goes on with `bytes`. -/
def startsWith (c : Cursor) (bytes : List UInt8) : Bool :=
  bytes.isPrefixOf c.rest

/-- Whether nothing more stands on the line. -/
def atLineEnd (c : Cursor) : Bool :=
  match c.rest with
  | [] => true
  | b :: _ => Byte.isBreak b

/-- The rest of the line. -/
def line (c : Cursor) : List UInt8 :=
  c.rest.takeWhile (! Byte.isBreak ·)

/-- The bytes without the blanks at their end. -/
def trimEnd (bytes : List UInt8) : List UInt8 :=
  (bytes.reverse.dropWhile Byte.isBlank).reverse

/-- The offset behind the last byte of the line that is not a blank. -/
def textEnd (c : Cursor) : Nat :=
  c.pos + (trimEnd c.line).length

/-! ## Moving -/

/-- Moves `n` bytes on, or to the end. -/
def advance (c : Cursor) (n : Nat := 1) : Cursor :=
  ⟨c.pos + min n c.rest.length, c.rest.drop n⟩

/-- Moves past the bytes that satisfy `p`. -/
def eatWhile (p : UInt8 → Bool) (c : Cursor) : Cursor :=
  ⟨c.pos + (c.rest.takeWhile p).length, c.rest.dropWhile p⟩

/-- Moves to where only `rest` is left. -/
def moveTo (c : Cursor) (rest : List UInt8) : Cursor :=
  ⟨c.pos + (c.rest.length - rest.length), rest⟩

/-- Moves past blanks and breaks. -/
def eatWhite (c : Cursor) : Cursor :=
  c.eatWhile Byte.isWhite

/-- Moves past blanks. -/
def eatBlanks (c : Cursor) : Cursor :=
  c.eatWhile Byte.isBlank

/-- Moves to the end of the line. -/
def eatLine (c : Cursor) : Cursor :=
  c.eatWhile (! Byte.isBreak ·)

/-- The number of bytes in the line end that `bytes` starts with. -/
def breakLength : List UInt8 → Nat
  | [] => 0
  | [a] => if Byte.isBreak a then 1 else 0
  | a :: b :: _ =>
    if Byte.isBreak a then (if Byte.isBreak b && b != a then 2 else 1) else 0

/-- Moves past one line end, if there is one. -/
def eatBreak (c : Cursor) : Cursor :=
  c.advance (breakLength c.rest)

/-- Whether `eatBreak` moves. -/
def atBreak (c : Cursor) : Bool :=
  breakLength c.rest != 0

/-! ## Moves drop bytes -/

theorem length_advance (c : Cursor) (n : Nat) :
    (c.advance n).rest.length = c.rest.length - n := by
  simp [advance]

theorem length_dropWhile_le (p : UInt8 → Bool) (l : List UInt8) :
    (l.dropWhile p).length ≤ l.length := by
  have h := congrArg List.length (List.takeWhile_append_dropWhile (p := p) (l := l))
  simp only [List.length_append] at h
  omega

theorem length_eatWhile_le (p : UInt8 → Bool) (c : Cursor) :
    (c.eatWhile p).rest.length ≤ c.rest.length :=
  length_dropWhile_le p c.rest

theorem length_eatBlanks_le (c : Cursor) :
    c.eatBlanks.rest.length ≤ c.rest.length :=
  length_eatWhile_le _ c

theorem length_eatLine_le (c : Cursor) :
    c.eatLine.rest.length ≤ c.rest.length :=
  length_eatWhile_le _ c

theorem length_eatWhite_le (c : Cursor) :
    c.eatWhite.rest.length ≤ c.rest.length :=
  length_eatWhile_le _ c

/-- A byte that satisfies `p` is passed over. -/
theorem length_eatWhile_lt {p : UInt8 → Bool} {c : Cursor} {b : UInt8} {tail : List UInt8}
    (hr : c.rest = b :: tail) (hp : p b = true) :
    (c.eatWhile p).rest.length < c.rest.length := by
  have := length_dropWhile_le p tail
  simp only [eatWhile, hr, List.dropWhile_cons, hp, if_true, List.length_cons]
  omega

theorem length_advance_lt {c : Cursor} {n : Nat} (hn : 0 < n) (hr : c.rest ≠ []) :
    (c.advance n).rest.length < c.rest.length := by
  have := List.length_pos_iff.mpr hr
  rw [length_advance]
  omega

theorem length_eatBreak_le (c : Cursor) :
    c.eatBreak.rest.length ≤ c.rest.length := by
  rw [eatBreak, length_advance]
  omega

/-- A line end has at least one byte. -/
theorem length_eatBreak_lt {c : Cursor} (h : c.atBreak = true) :
    c.eatBreak.rest.length < c.rest.length := by
  have hb : breakLength c.rest ≠ 0 := by simpa [atBreak] using h
  refine length_advance_lt (Nat.pos_of_ne_zero hb) fun hnil => hb ?_
  simp [hnil, breakLength]

theorem atBreak_of_isBreak {c : Cursor} {b : UInt8} {tail : List UInt8}
    (hr : c.rest = b :: tail) (hb : Byte.isBreak b = true) : c.atBreak = true := by
  cases tail with
  | nil => simp [atBreak, hr, breakLength, hb]
  | cons d more =>
    simp only [atBreak, hr, breakLength, hb, if_true]
    split <;> rfl

/-- Behind the bytes that satisfy `p` stands one that does not. -/
theorem head_eatWhile {p : UInt8 → Bool} {c : Cursor} {b : UInt8} {tail : List UInt8}
    (h : (c.eatWhile p).rest = b :: tail) : p b = false := by
  have := List.head?_dropWhile_not p c.rest
  simp only [eatWhile] at h
  simpa [h] using this

/-- A line with its line end has at least one byte, unless nothing is left. -/
theorem length_eatLine_eatBreak_lt {c : Cursor} (hr : c.rest ≠ []) :
    c.eatLine.eatBreak.rest.length < c.rest.length := by
  obtain ⟨b, tail, hbt⟩ := List.exists_cons_of_ne_nil hr
  cases hb : Byte.isBreak b with
  | true =>
    have hl : c.eatLine.rest = b :: tail := by
      simp [eatLine, eatWhile, hbt, hb]
    have := length_eatBreak_lt (atBreak_of_isBreak hl hb)
    have := length_eatLine_le c
    omega
  | false =>
    have := length_eatBreak_le c.eatLine
    have : c.eatLine.rest.length < c.rest.length := length_eatWhile_lt hbt (by simp [hb])
    omega

end Cursor

end ApiDoc
