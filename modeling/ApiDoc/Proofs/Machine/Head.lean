import ApiDoc.Proofs.Machine.Checked
import ApiDoc.Proofs.Scan.Coverage

/-!
# Reading heads

A reading head is an offset into the buffer of a source, which holds the content
and the padding behind it. Unlike a cursor it carries no list of what is left:
each byte is read from the buffer by its offset, and every read, slice and sum
is checked.

* **Heads are cursors** (`Source.Holds.current` and the lemmas beside it): where
  a cursor stands in the source, every operation of the head comes to a value,
  which is that of the operation of the cursor.
* Two bytes of padding are what `current` and `peek` need at the end of the
  content.
-/

namespace ApiDoc

open Checked (sum loop)

/-- A place in a buffer. -/
structure Head where
  buffer : List UInt8
  /-- The length of the content. -/
  length : Nat
  pos : Nat
  deriving DecidableEq, Repr

namespace Head

/-- The head at the start of a source. -/
def start (source : Source) : Checked Head :=
  if source.length + 1 < source.padded.length ∧ source.padded[source.length]? = some 0 then
    .ok ⟨source.padded, source.length, 0⟩
  else .error .padding

/-! ## Looking -/

def byte (h : Head) (offset : Nat) : Checked UInt8 :=
  match h.buffer[offset]? with
  | some b => .ok b
  | none => .error (.index offset)

/-- The byte under the head. -/
def current (h : Head) : Checked UInt8 :=
  h.byte h.pos

/-- The byte after the one under the head. -/
def peek (h : Head) : Checked UInt8 := do
  let next ← sum h.pos 1
  h.byte next

def atEnd (h : Head) : Bool :=
  decide (h.length ≤ h.pos)

/-- Whether nothing more stands on the line. -/
def atLineEnd (h : Head) : Checked Bool :=
  if h.atEnd then pure true
  else do
    let b ← h.current
    pure (Byte.isBreak b)

/-- The bytes from `first` up to `stop`. -/
def slice (h : Head) (first stop : Nat) : Checked (List UInt8) :=
  if first ≤ stop ∧ stop ≤ h.length then .ok ((h.buffer.take stop).drop first)
  else .error (.slice first stop)

/-- The bytes from `first` up to the head. -/
def sliceFrom (h : Head) (first : Nat) : Checked (List UInt8) :=
  h.slice first h.pos

/-- The bytes from the head to the end. -/
def rest (h : Head) : Checked (List UInt8) :=
  h.slice h.pos h.length

def startsWith (h : Head) (bytes : List UInt8) : Checked Bool := do
  let rest ← h.rest
  pure (bytes.isPrefixOf rest)

/-- The offset behind the last byte from `first` up to the head that is not a
blank. -/
def trimmedEnd (h : Head) (first : Nat) : Checked Nat := do
  let content ← h.sliceFrom first
  let kept := (Cursor.trimEnd content).length
  sum first (if kept ≤ maxOffset then kept else 0)

/-! ## Moving -/

/-- Moves one byte on, but not past the end. -/
def advance (h : Head) : Checked Head :=
  if h.pos < h.length then do
    let pos ← sum h.pos 1
    pure { h with pos }
  else pure h

/-- Moves `n` bytes on, or to the end. A sum too great for an offset counts as
the greatest one. -/
def advanceBy (h : Head) (n : Nat) : Head :=
  { h with pos := min (min (h.pos + n) maxOffset) h.length }

/-- More rounds than a loop can have that moves on in each. -/
def rounds (h : Head) : Nat :=
  h.length + 1

/-- One round of `eatWhile`. -/
def eatRound (p : UInt8 → Bool) (h : Head) : Checked (Checked.Round Head Head) :=
  if h.pos < h.length then do
    let b ← h.byte h.pos
    if p b then do
      let pos ← sum h.pos 1
      pure (.again { h with pos })
    else pure (.done h)
  else pure (.done h)

/-- Moves past the bytes that satisfy `p`. -/
def eatWhile (p : UInt8 → Bool) (h : Head) : Checked Head :=
  loop (eatRound p) h.rounds h

/-- Moves past blanks. -/
def eatBlanks (h : Head) : Checked Head :=
  h.eatWhile Byte.isBlank

/-- Moves to the next break, or to the end. -/
def eatLine (h : Head) : Checked Head := do
  let rest ← h.rest
  match rest.findIdx? Byte.isBreak with
  | some offset => do
    let pos ← sum h.pos offset
    pure { h with pos }
  | none => pure { h with pos := h.length }

/-- Moves past one line end, if there is one, and tells whether there is. -/
def eatBreak (h : Head) : Checked (Bool × Head) := do
  let first ← h.current
  if Byte.isBreak first && !h.atEnd then do
    let behind ← h.advance
    let second ← behind.current
    if Byte.isBreak second && second != first && !behind.atEnd then do
      let behind ← behind.advance
      pure (true, behind)
    else pure (true, behind)
  else pure (false, h)

/-- One round of `nextContent`. -/
def contentRound (h : Head) : Checked (Checked.Round Head Head) := do
  let h ← h.eatBlanks
  let (moved, h) ← h.eatBreak
  pure (if moved then .again h else .done h)

/-- Moves past blank lines to the next byte that is not white. -/
def nextContent (h : Head) : Checked Head :=
  loop contentRound h.rounds h

end Head

/-- The head at an offset. -/
def Source.headAt (source : Source) (pos : Nat) : Head :=
  ⟨source.padded, source.length, pos⟩

/-! ## The buffer of a source -/

namespace Source

theorem length_lt_maxOffset (source : Source) : source.length + 1 < maxOffset := by
  have hfits : source.bytes.length ≤ maxOffset - 2 := source.fits
  have hmax : maxOffset = 4294967295 := rfl
  rw [length]
  omega

theorem length_padded (source : Source) : source.padded.length = source.length + 2 :=
  List.length_append

/-- Every source has its padding. -/
theorem start_eq (source : Source) : Head.start source = .ok (source.headAt 0) := by
  refine if_pos ⟨?_, ?_⟩
  · rw [length_padded]
    exact Nat.lt_succ_self _
  · rw [padded, length, List.getElem?_append_right (Nat.le_refl _), Nat.sub_self]
    rfl

variable (source : Source) (pos : Nat)

@[simp]
theorem pos_headAt : (source.headAt pos).pos = pos := rfl

@[simp]
theorem length_headAt : (source.headAt pos).length = source.length := rfl

@[simp]
theorem rounds_headAt : (source.headAt pos).rounds = source.length + 1 := rfl

end Source

namespace Cursor

variable {c : Cursor} {b : UInt8} {tail : List UInt8}

theorem current_eq (hr : c.rest = b :: tail) : c.current = b := by
  rw [current, hr, List.headD_cons]

theorem rest_advance (hr : c.rest = b :: tail) : c.advance.rest = tail := by
  rw [advance, hr]
  rfl

theorem eatBreak_of_not_atBreak (h : c.atBreak = false) : c.eatBreak = c := by
  have hlength : breakLength c.rest = 0 := by simpa [atBreak] using h
  have hsplit : c.rest = [] ++ c.rest := rfl
  exact eatBreak_of_length hsplit hlength

theorem atBreak_eq_false (hr : c.rest = b :: tail) (hb : Byte.isBreak b = false) :
    c.atBreak = false := by
  cases tail <;> simp [atBreak, breakLength, hr, hb]

theorem length_line (c : Cursor) : c.line.length = c.rest.findIdx Byte.isBreak := by
  rw [line, List.takeWhile_eq_take_findIdx_not, List.length_take]
  simp only [Bool.not_not]
  exact Nat.min_eq_left List.findIdx_le_length

end Cursor

/-! ## A head where a cursor stands -/

namespace Source.Holds

variable {source : Source} {c d : Cursor} {taken : List UInt8}

theorem pos_le (h : source.Holds c) : c.pos ≤ source.length := by
  have := h.stop
  omega

theorem length_rest_le (h : source.Holds c) : c.rest.length ≤ source.length := by
  have := h.stop
  omega

theorem pos_of_nil (h : source.Holds c) (hr : c.rest = []) : c.pos = source.length := by
  have hstop := h.stop
  rwa [hr] at hstop

theorem pos_lt_length {b : UInt8} {tail : List UInt8} (h : source.Holds c)
    (hr : c.rest = b :: tail) : c.pos < source.length := by
  have hstop := h.stop
  rw [hr, List.length_cons] at hstop
  omega

/-- A loop with a head in its state comes to `value` if every round that goes on
takes bytes. -/
theorem loop_eq {α σ γ : Type} {body : σ → Checked (Checked.Round σ α)} (cursor : γ → Cursor)
    (embed : γ → σ) (value : γ → α)
    (hround : ∀ g, source.Holds (cursor g) → body (embed g) = .ok (.done (value g)) ∨
      ∃ next, body (embed g) = .ok (.again (embed next)) ∧ source.Holds (cursor next) ∧
        (cursor next).rest.length < (cursor g).rest.length ∧ value next = value g)
    {g : γ} (h : source.Holds (cursor g)) :
    loop body (source.length + 1) (embed g) = .ok (value g) :=
  Checked.loop_eq embed value (fun g => source.Holds (cursor g)) (fun g => (cursor g).rest.length)
    hround h (Nat.lt_succ_of_le h.length_rest_le)

/-- The content from a cursor on, and the padding, are the buffer from there. -/
theorem drop_padded (h : source.Holds c) : source.padded.drop c.pos = c.rest ++ padding := by
  rw [padded, List.drop_append_of_le_length h.pos_le, h.drop_pos]

theorem byte_eq (h : source.Holds c) {i : Nat} (hi : i < 2) :
    (source.headAt c.pos).byte (c.pos + i) = .ok ((c.rest.drop i).headD 0) := by
  have hread : source.padded[c.pos + i]? = (c.rest ++ padding)[i]? := by
    rw [← h.drop_padded, List.getElem?_drop]
  have hbyte : (c.rest ++ padding)[i]? = some ((c.rest.drop i).headD 0) := by
    match i, c.rest, hi with
    | 0, [], _ | 1, [], _ | 1, [_], _ => rfl
    | 0, _ :: _, _ | 1, _ :: _ :: _, _ => rfl
  rw [Head.byte]
  show (match source.padded[c.pos + i]? with
    | some b => Except.ok b
    | none => Except.error (Breach.index (c.pos + i))) = _
  rw [hread, hbyte]

theorem current (h : source.Holds c) : (source.headAt c.pos).current = .ok c.current := by
  have hb := h.byte_eq (i := 0) (by decide)
  rwa [Nat.add_zero, List.drop_zero] at hb

theorem peek (h : source.Holds c) : (source.headAt c.pos).peek = .ok c.peek := by
  have hb := h.byte_eq (i := 1) (by decide)
  have := source.length_lt_maxOffset
  have := h.pos_le
  rw [Head.peek, pos_headAt, Checked.sum_eq (by omega), Checked.ok_bind, hb, List.drop_one,
    Cursor.peek]

-- with one byte of padding a look past the last byte would leave the buffer
example : (Head.mk [0x41, 0] 1 1).peek = .error (.index 2) := rfl

theorem atEnd (h : source.Holds c) : (source.headAt c.pos).atEnd = c.rest.isEmpty := by
  have hstop := h.stop
  rw [Head.atEnd, pos_headAt, length_headAt, Bool.eq_iff_iff, decide_eq_true_eq,
    List.isEmpty_iff_length_eq_zero]
  omega

theorem atLineEnd (h : source.Holds c) :
    (source.headAt c.pos).atLineEnd = .ok c.atLineEnd := by
  rw [Head.atLineEnd, h.atEnd, h.current, Cursor.current, Cursor.atLineEnd]
  cases c.rest <;> rfl

/-- What is taken between two cursors is the slice between their offsets. -/
theorem slice (h : source.Holds c) (k : c.Takes taken d) (pos : Nat) :
    (source.headAt pos).slice c.pos d.pos = .ok taken := by
  have hd := (h.move k).pos_le
  have hpos := k.pos
  rw [Head.slice, length_headAt, if_pos ⟨by omega, hd⟩, Except.ok.injEq]
  show (source.padded.take d.pos).drop c.pos = taken
  rw [List.drop_take, h.drop_padded, k.rest, List.append_assoc, hpos, Nat.add_sub_cancel_left,
    List.take_left]

theorem sliceFrom (h : source.Holds c) (k : c.Takes taken d) :
    (source.headAt d.pos).sliceFrom c.pos = .ok taken :=
  h.slice k d.pos

theorem rest (h : source.Holds c) : (source.headAt c.pos).rest = .ok c.rest := by
  have k : c.Takes c.rest ⟨c.pos + c.rest.length, []⟩ := ⟨(List.append_nil _).symm, rfl⟩
  have hslice := h.slice k c.pos
  rwa [h.stop] at hslice

theorem startsWith (h : source.Holds c) (bytes : List UInt8) :
    (source.headAt c.pos).startsWith bytes = .ok (c.startsWith bytes) := by
  rw [Head.startsWith, h.rest, Checked.ok_bind, Checked.pure_eq, Cursor.startsWith]

/-! ### Moves -/

theorem advance (h : source.Holds c) :
    (source.headAt c.pos).advance = .ok (source.headAt c.advance.pos) := by
  have hstop := h.stop
  have hmax := source.length_lt_maxOffset
  have hpos : c.advance.pos = c.pos + min 1 c.rest.length := rfl
  rw [Head.advance, pos_headAt, length_headAt]
  split
  · rw [Checked.sum_eq (by omega), hpos, Nat.min_eq_left (by omega)]
    rfl
  · rw [hpos, Nat.min_eq_right (by omega)]
    congr 2
    omega

theorem advanceBy (h : source.Holds c) (n : Nat) :
    (source.headAt c.pos).advanceBy n = source.headAt (c.advance n).pos := by
  have hstop := h.stop
  have hmax := source.length_lt_maxOffset
  rw [Head.advanceBy, pos_headAt, length_headAt]
  show source.headAt _ = source.headAt (c.pos + min n c.rest.length)
  congr 1
  omega

theorem eatWhile (h : source.Holds c) (p : UInt8 → Bool) :
    (source.headAt c.pos).eatWhile p = .ok (source.headAt (c.eatWhile p).pos) := by
  refine loop_eq (fun c => c) (fun c => source.headAt c.pos)
    (fun c => source.headAt (c.eatWhile p).pos) ?_ h
  intro c h
  have hmax := source.length_lt_maxOffset
  have hbyte : (source.headAt c.pos).byte c.pos = .ok c.current := h.current
  simp only [Head.eatRound, pos_headAt, length_headAt, hbyte, Checked.ok_bind]
  cases hr : c.rest with
  | nil =>
    left
    rw [if_neg (Nat.not_lt.mpr (Nat.le_of_eq (h.pos_of_nil hr).symm)), Cursor.eatWhile_of_nil hr]
    rfl
  | cons b tail =>
    have hlt := h.pos_lt_length hr
    rw [if_pos hlt, Cursor.current_eq hr]
    cases hp : p b with
    | true =>
      have hne : c.rest ≠ [] := hr ▸ List.cons_ne_nil b tail
      have htakes := Cursor.takes_advance_one hr
      have hsame : c.eatWhile p = c.advance.eatWhile p :=
        Cursor.eatWhile_of_takes htakes fun _ hmem => List.mem_singleton.mp hmem ▸ hp
      refine .inr ⟨c.advance, ?_, h.move htakes, ?_, ?_⟩
      · rw [if_pos rfl, Checked.sum_eq (by omega), Checked.ok_bind, htakes.pos]
        rfl
      · have hshort := Cursor.length_advance_lt Nat.one_pos hne
        rwa [hr] at hshort
      · rw [hsame]
    | false =>
      have hstay : c.eatWhile p = c := by
        refine Cursor.eatWhile_of_head fun d more hd => ?_
        rw [← (List.cons.inj (hr.symm.trans hd)).1, hp]
      left
      rw [if_neg Bool.false_ne_true, hstay]
      rfl

theorem eatBlanks (h : source.Holds c) :
    (source.headAt c.pos).eatBlanks = .ok (source.headAt c.eatBlanks.pos) :=
  h.eatWhile Byte.isBlank

theorem eatLine (h : source.Holds c) :
    (source.headAt c.pos).eatLine = .ok (source.headAt c.eatLine.pos) := by
  have hend := (h.move c.takes_eatLine).pos_le
  have hmax := source.length_lt_maxOffset
  have hpos : c.eatLine.pos = c.pos + c.rest.findIdx Byte.isBreak := by
    rw [c.takes_eatLine.pos, Cursor.length_line]
  rw [Head.eatLine, h.rest, Checked.ok_bind, List.findIdx?_eq_guard_findIdx_lt, hpos]
  by_cases hlt : c.rest.findIdx Byte.isBreak < c.rest.length
  · rw [Option.guard_pos (by simpa using hlt)]
    show (sum c.pos _ >>= _) = _
    rw [Checked.sum_eq (by omega)]
    rfl
  · have hall : c.rest.findIdx Byte.isBreak ≤ c.rest.length := List.findIdx_le_length
    have hstop := h.stop
    rw [Option.guard_eq_none_iff.mpr (by simpa using hlt)]
    show Except.ok (source.headAt source.length) = _
    congr 2
    omega

theorem eatBreak (h : source.Holds c) :
    (source.headAt c.pos).eatBreak = .ok (c.atBreak, source.headAt c.eatBreak.pos) := by
  have hnext := h.move (c.takes_advance 1)
  -- what is read past the end is padding, and padding is no break
  rw [Head.eatBreak, h.current, Checked.ok_bind, h.atEnd, h.advance, Checked.ok_bind,
    hnext.current, Checked.ok_bind, hnext.atEnd, hnext.advance, Checked.ok_bind, Cursor.eatBreak,
    Cursor.atBreak]
  cases hr : c.rest with
  | nil => simp [Cursor.breakLength, Cursor.advance, hr]
  | cons a tail =>
    cases ha : Byte.isBreak a with
    | false => cases tail <;> simp [Cursor.breakLength, Cursor.advance, Cursor.current, hr, ha]
    | true =>
      cases tail with
      | nil => simp [Cursor.breakLength, Cursor.advance, Cursor.current, hr, ha]
      | cons b tail =>
        cases hb : Byte.isBreak b && b != a <;>
          simp [Cursor.breakLength, Cursor.advance, Cursor.current, hr, ha, hb]

theorem nextContent (h : source.Holds c) :
    (source.headAt c.pos).nextContent = .ok (source.headAt c.eatWhite.pos) := by
  refine loop_eq (fun c => c) (fun c => source.headAt c.pos)
    (fun c => source.headAt c.eatWhite.pos) ?_ h
  intro c h
  have hblanks := h.move c.takes_eatBlanks
  have hskip : c.eatWhite = c.eatBlanks.eatWhite :=
    Cursor.eatWhite_of_takes c.takes_eatBlanks fun _ hb =>
      Byte.isWhite_of_isBlank (List.mem_takeWhile_imp hb)
  rw [Head.contentRound, h.eatBlanks, Checked.ok_bind, hblanks.eatBreak, Checked.ok_bind]
  cases hbreak : c.eatBlanks.atBreak with
  | true =>
    refine .inr ⟨c.eatBlanks.eatBreak, rfl, hblanks.move (Cursor.takes_eatBreak _), ?_, ?_⟩
    · exact Nat.lt_of_lt_of_le (Cursor.length_eatBreak_lt hbreak) c.length_eatBlanks_le
    · have hpast : c.eatBlanks.eatWhite = c.eatBlanks.eatBreak.eatWhite :=
        Cursor.eatWhite_of_takes (Cursor.takes_eatBreak _) fun _ hb =>
          Byte.isWhite_of_isBreak (Cursor.isBreak_of_mem_take_breakLength hb)
      rw [hskip, hpast]
  | false =>
    have hstay : c.eatBlanks.eatWhite = c.eatBlanks := by
      refine Cursor.eatWhile_of_head fun b tail hr => ?_
      refine Byte.isWhite_eq_false_iff.mpr ⟨Cursor.head_eatBlanks hr, ?_⟩
      exact Bool.eq_false_iff.mpr fun hb =>
        absurd (Cursor.atBreak_of_isBreak hr hb) (by simp [hbreak])
    left
    rw [hskip, hstay, Cursor.eatBreak_of_not_atBreak hbreak]
    rfl

/-- At the end of its line the head finds where the text of the line ends. -/
theorem trimmedEnd (h : source.Holds c) :
    (source.headAt c.eatLine.pos).trimmedEnd c.pos = .ok c.textEnd := by
  have hend := (h.move c.takes_eatLine).pos_le
  have hpos := c.takes_eatLine.pos
  have hmax := source.length_lt_maxOffset
  have hkept : (Cursor.trimEnd c.line).length ≤ c.line.length := by
    have hline := congrArg List.length c.line_eq
    rw [List.length_append] at hline
    omega
  rw [Head.trimmedEnd, h.sliceFrom c.takes_eatLine, Checked.ok_bind]
  dsimp only
  rw [if_pos (by omega), Checked.sum_eq (by omega), Cursor.textEnd]

end Source.Holds

end ApiDoc
