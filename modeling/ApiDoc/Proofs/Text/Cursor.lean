import ApiDoc.Text.Cursor
import Mathlib.Data.List.DropRight
import Mathlib.Data.List.TakeWhile

/-!
# What a cursor passes over

Every move of a cursor drops a known run of bytes and counts them. The
relation `Takes` keeps that run, so that a reader can be described by the
bytes it took and not by how it moved.

* **Moves compose** (`Takes.trans`): the runs are appended.
* **Lines** (`line_eq`): what stands on a line is its trimmed text and then
  blanks.
* **Heads** (`head_eatBlanks`, `atLineEnd_eatLine`): where a move stops.
-/

namespace ApiDoc

namespace Byte

theorem isBreak_iff {b : UInt8} : isBreak b = true ↔ b = lineFeed ∨ b = carriageReturn := by
  simp [isBreak]

theorem isWhite_of_isBlank {b : UInt8} (h : isBlank b = true) : isWhite b = true := by
  simp [isWhite, h]

theorem isWhite_of_isBreak {b : UInt8} (h : isBreak b = true) : isWhite b = true := by
  simp [isWhite, h]

theorem isWhite_eq_false_iff {b : UInt8} :
    isWhite b = false ↔ isBlank b = false ∧ isBreak b = false := by
  simp [isWhite]

/-- A blank does not end a line. -/
theorem isBreak_eq_false_of_isBlank {b : UInt8} (h : isBlank b = true) : isBreak b = false := by
  simp only [isBlank, Bool.or_eq_true, beq_iff_eq] at h
  rcases h with rfl | rfl <;> decide

/-- Bytes without a break, as a line is read. -/
theorem all_not_isBreak {bytes : List UInt8} (h : ∀ b ∈ bytes, isBreak b = false) :
    ∀ b ∈ bytes, (! isBreak b) = true := by
  intro b hb
  rw [h b hb]
  rfl

end Byte

/-! ## How bytes end -/

/-- Whether the last byte is a break. -/
def endsLine (bytes : List UInt8) : Bool :=
  bytes.getLast?.any Byte.isBreak

@[simp]
theorem endsLine_singleton (b : UInt8) : endsLine [b] = Byte.isBreak b := rfl

/-- Only what comes last counts. -/
theorem endsLine_append_of_ne_nil {bytes : List UInt8} (hne : bytes ≠ []) (front : List UInt8) :
    endsLine (front ++ bytes) = endsLine bytes := by
  rw [endsLine, List.getLast?_append, List.getLast?_eq_some_getLast hne, Option.some_or, endsLine,
    List.getLast?_eq_some_getLast hne]

theorem endsLine_append {front bytes : List UInt8} (hfront : endsLine front = false)
    (h : endsLine bytes = false) : endsLine (front ++ bytes) = false := by
  by_cases hne : bytes = []
  · rwa [hne, List.append_nil]
  · rwa [endsLine_append_of_ne_nil hne]

theorem endsLine_of_forall {bytes : List UInt8} (h : ∀ b ∈ bytes, Byte.isBreak b = false) :
    endsLine bytes = false := by
  unfold endsLine
  cases hlast : bytes.getLast? with
  | none => rfl
  | some b => exact h b (List.mem_of_getLast? hlast)

theorem ne_nil_of_endsLine {bytes : List UInt8} (h : endsLine bytes = true) : bytes ≠ [] := by
  rintro rfl
  cases h

/-- A break at the end stands behind whatever does not end with one. -/
theorem endsLine_behind {front bytes : List UInt8} (h : endsLine (front ++ bytes) = true)
    (hfront : endsLine front = false) : endsLine bytes = true := by
  by_cases hne : bytes = []
  · rw [hne, List.append_nil, hfront] at h
    cases h
  · rwa [endsLine_append_of_ne_nil hne] at h

namespace Cursor

/-- `d` stands behind the bytes `taken`, which `c` stands before. -/
structure Takes (c : Cursor) (taken : List UInt8) (d : Cursor) : Prop where
  rest : c.rest = taken ++ d.rest
  pos : d.pos = c.pos + taken.length

namespace Takes

variable {c d e : Cursor} {taken more : List UInt8}

theorem refl (c : Cursor) : c.Takes [] c :=
  ⟨rfl, rfl⟩

theorem trans (h : c.Takes taken d) (k : d.Takes more e) : c.Takes (taken ++ more) e := by
  refine ⟨?_, ?_⟩
  · rw [h.rest, k.rest, List.append_assoc]
  · rw [k.pos, h.pos, List.length_append, Nat.add_assoc]

/-- A move over two parts passes the place between them. -/
theorem split (h : c.Takes (taken ++ more) e) : ∃ d, c.Takes taken d ∧ d.Takes more e := by
  refine ⟨⟨c.pos + taken.length, more ++ e.rest⟩, ⟨?_, rfl⟩, ⟨rfl, ?_⟩⟩
  · rw [h.rest, List.append_assoc]
  · rw [h.pos, List.length_append, Nat.add_assoc]

/-- A move ends where it is said to end. -/
theorem unique (h : c.Takes taken d) (k : c.Takes taken e) : d = e := by
  have hr : d.rest = e.rest := List.append_cancel_left (h.rest.symm.trans k.rest)
  have hp : d.pos = e.pos := h.pos.trans k.pos.symm
  cases d
  cases e
  simp_all

/-- A move does not change where the document ends. -/
theorem stop (h : c.Takes taken d) : d.pos + d.rest.length = c.pos + c.rest.length := by
  rw [h.pos, h.rest, List.length_append, Nat.add_assoc]

/-- The byte at a distance from `c` is the byte there in what is taken. -/
theorem getElem? (h : c.Takes taken d) {i : Nat} (hi : i < taken.length) :
    c.rest[i]? = taken[i]? := by
  rw [h.rest, List.getElem?_append_left hi]

end Takes

/-! ## Moves -/

theorem takes_eatWhile (p : UInt8 → Bool) (c : Cursor) :
    c.Takes (c.rest.takeWhile p) (c.eatWhile p) :=
  ⟨List.takeWhile_append_dropWhile.symm, rfl⟩

theorem takes_eatBlanks (c : Cursor) : c.Takes (c.rest.takeWhile Byte.isBlank) c.eatBlanks :=
  takes_eatWhile _ c

theorem takes_eatWhite (c : Cursor) : c.Takes (c.rest.takeWhile Byte.isWhite) c.eatWhite :=
  takes_eatWhile _ c

theorem takes_eatLine (c : Cursor) : c.Takes c.line c.eatLine :=
  takes_eatWhile _ c

theorem takes_advance (c : Cursor) (n : Nat) : c.Takes (c.rest.take n) (c.advance n) :=
  ⟨(List.take_append_drop n c.rest).symm, by rw [advance, List.length_take]⟩

theorem takes_advance_one {c : Cursor} {b : UInt8} {tail : List UInt8} (hr : c.rest = b :: tail) :
    c.Takes [b] c.advance := by
  have h := c.takes_advance 1
  rwa [hr, List.take_succ_cons, List.take_zero] at h

theorem takes_moveTo {c : Cursor} {taken rest : List UInt8} (hr : c.rest = taken ++ rest) :
    c.Takes taken (c.moveTo rest) := by
  refine ⟨hr, ?_⟩
  show c.pos + (c.rest.length - rest.length) = _
  rw [hr, List.length_append, Nat.add_sub_cancel]

theorem takes_eatBreak (c : Cursor) :
    c.Takes (c.rest.take (breakLength c.rest)) c.eatBreak :=
  c.takes_advance _

/-- A line end of known length is passed over. -/
theorem eatBreak_of_length {c : Cursor} {ending rest : List UInt8} (hr : c.rest = ending ++ rest)
    (hlength : breakLength c.rest = ending.length) : c.eatBreak = ⟨c.pos + ending.length, rest⟩ := by
  have htakes := c.takes_eatBreak
  rw [hlength, hr, List.take_left] at htakes
  exact htakes.unique ⟨hr, rfl⟩

theorem breakLength_le (bytes : List UInt8) : breakLength bytes ≤ bytes.length := by
  match bytes with
  | [] => exact Nat.le_refl _
  | [a] =>
    rw [breakLength]
    split <;> simp
  | a :: d :: rest =>
    rw [breakLength]
    split
    · split <;> simp
    · simp

/-- Only breaks belong to a line end. -/
theorem isBreak_of_mem_take_breakLength {bytes : List UInt8} {b : UInt8}
    (h : b ∈ bytes.take (breakLength bytes)) : Byte.isBreak b = true := by
  match bytes with
  | [] => simp at h
  | [a] =>
    cases ha : Byte.isBreak a with
    | true =>
      rw [List.mem_singleton.mp (List.mem_of_mem_take h)]
      exact ha
    | false => simp [breakLength, ha] at h
  | a :: d :: rest =>
    cases ha : Byte.isBreak a with
    | false => simp [breakLength, ha] at h
    | true =>
      by_cases hd : (Byte.isBreak d && d != a) = true
      · simp only [breakLength, ha, hd, if_true, List.take_succ_cons, List.take_zero,
          List.mem_cons, List.not_mem_nil, or_false] at h
        rcases h with rfl | rfl
        · exact ha
        · exact ((Bool.and_eq_true _ _).mp hd).1
      · simp only [breakLength, ha, if_true, if_neg hd, List.take_succ_cons, List.take_zero,
          List.mem_singleton] at h
        rwa [h]

/-- At a break, `eatBreak` takes at least that break. -/
theorem take_breakLength_ne_nil {b : UInt8} {tail : List UInt8} (hb : Byte.isBreak b = true) :
    (b :: tail).take (breakLength (b :: tail)) ≠ [] := by
  have h : (⟨0, b :: tail⟩ : Cursor).atBreak = true := atBreak_of_isBreak rfl hb
  simp only [atBreak, bne_iff_ne] at h
  simp [h]

@[simp]
theorem eatBreak_of_nil {c : Cursor} (hr : c.rest = []) : c.eatBreak = c := by
  simp [eatBreak, advance, hr, breakLength]
  rw [← hr]

/-- Bytes that would be passed over may be passed over first. -/
theorem eatWhile_of_takes {p : UInt8 → Bool} {c d : Cursor} {taken : List UInt8}
    (h : c.Takes taken d) (hall : ∀ b ∈ taken, p b = true) : c.eatWhile p = d.eatWhile p := by
  have hc := c.takes_eatWhile p
  rw [h.rest, List.takeWhile_append_of_pos hall] at hc
  exact hc.unique (h.trans (d.takes_eatWhile p))

/-- White bytes that have been passed over need not be eaten again. -/
theorem eatWhite_of_takes {c d : Cursor} {taken : List UInt8} (h : c.Takes taken d)
    (hall : ∀ b ∈ taken, Byte.isWhite b = true) : c.eatWhite = d.eatWhite :=
  eatWhile_of_takes h hall

theorem eatWhite_eatWhite (c : Cursor) : c.eatWhite.eatWhite = c.eatWhite :=
  (eatWhite_of_takes c.takes_eatWhite fun _ hb => List.mem_takeWhile_imp hb).symm

/-! ## Heads -/

theorem head_eatBlanks {c : Cursor} {b : UInt8} {tail : List UInt8}
    (h : c.eatBlanks.rest = b :: tail) : Byte.isBlank b = false :=
  head_eatWhile h

theorem head_eatLine {c : Cursor} {b : UInt8} {tail : List UInt8}
    (h : c.eatLine.rest = b :: tail) : Byte.isBreak b = true := by
  simpa using head_eatWhile (p := (! Byte.isBreak ·)) h

/-- Behind a line the line is over. -/
theorem atLineEnd_eatLine (c : Cursor) : c.eatLine.atLineEnd = true := by
  unfold atLineEnd
  split
  · rfl
  · rename_i b tail hr
    exact head_eatLine hr

theorem atLineEnd_iff {c : Cursor} :
    c.atLineEnd = true ↔ c.rest = [] ∨ ∃ b tail, c.rest = b :: tail ∧ Byte.isBreak b = true := by
  unfold atLineEnd
  cases c.rest with
  | nil => simp
  | cons b tail => simp

/-- Nothing is passed over where the first byte does not satisfy `p`. -/
theorem eatWhile_of_head {p : UInt8 → Bool} {c : Cursor}
    (h : ∀ b tail, c.rest = b :: tail → p b = false) : c.eatWhile p = c := by
  have htakes := c.takes_eatWhile p
  cases hr : c.rest with
  | nil =>
    rw [hr, List.takeWhile_nil] at htakes
    exact htakes.unique (.refl c)
  | cons b tail =>
    rw [hr, List.takeWhile_cons_of_neg (by simp [h b tail hr])] at htakes
    exact htakes.unique (.refl c)

/-- A word of bytes that satisfy `p` is passed over up to the first that does not. -/
theorem eatWhile_of_word {p : UInt8 → Bool} {pos : Nat} {word rest : List UInt8}
    (hword : ∀ b ∈ word, p b = true) (hstop : ∀ b tail, rest = b :: tail → p b = false) :
    (⟨pos, word ++ rest⟩ : Cursor).eatWhile p = ⟨pos + word.length, rest⟩ := by
  have htakes := (⟨pos, word ++ rest⟩ : Cursor).takes_eatWhile p
  have hall : (word ++ rest).takeWhile p = word := by
    rw [List.takeWhile_append_of_pos hword]
    cases rest with
    | nil => exact List.append_nil word
    | cons b tail =>
      rw [List.takeWhile_cons_of_neg (by simp [hstop b tail rfl]), List.append_nil]
  rw [hall] at htakes
  exact htakes.unique ⟨rfl, rfl⟩

theorem dropWhile_of_word {p : UInt8 → Bool} {word rest : List UInt8}
    (hword : ∀ b ∈ word, p b = true) (hstop : ∀ b tail, rest = b :: tail → p b = false) :
    (word ++ rest).dropWhile p = rest := by
  have heat : (⟨0, word ++ rest⟩ : Cursor).eatWhile p = _ := eatWhile_of_word hword hstop
  exact congrArg Cursor.rest heat

/-- At the end of the document nothing is passed over. -/
theorem eatWhile_of_nil {p : UInt8 → Bool} {c : Cursor} (hr : c.rest = []) : c.eatWhile p = c := by
  apply eatWhile_of_head
  intro b tail hcons
  rw [hr] at hcons
  cases hcons

theorem rest_eatBlanks_of_nil {c : Cursor} (hr : c.rest = []) : c.eatBlanks.rest = [] := by
  rw [eatBlanks, eatWhile_of_nil hr, hr]

theorem rest_eatWhite_of_nil {c : Cursor} (hr : c.rest = []) : c.eatWhite.rest = [] := by
  rw [eatWhite, eatWhile_of_nil hr, hr]

/-- No blanks stand before the end of a line that has been reached. -/
theorem eatBlanks_of_atLineEnd {c : Cursor} (h : c.atLineEnd = true) : c.eatBlanks = c := by
  apply eatWhile_of_head
  intro b tail hr
  rw [atLineEnd, hr] at h
  cases hblank : Byte.isBlank b with
  | false => rfl
  | true => exact absurd (Byte.isBreak_eq_false_of_isBlank hblank) (by simp [h])

/-- One line feed, before something else than a break. -/
theorem eatBreak_lineFeed {pos : Nat} {rest : List UInt8}
    (h : ∀ b tail, rest = b :: tail → Byte.isBreak b = false) :
    (⟨pos, Byte.lineFeed :: rest⟩ : Cursor).eatBreak = ⟨pos + 1, rest⟩ := by
  have hlength : breakLength (Byte.lineFeed :: rest) = 1 := by
    cases rest with
    | nil => rfl
    | cons b tail =>
      rw [breakLength, if_pos (by decide), h b tail rfl, Bool.false_and,
        if_neg Bool.false_ne_true]
  rw [eatBreak]
  show (⟨pos, Byte.lineFeed :: rest⟩ : Cursor).advance (breakLength (Byte.lineFeed :: rest)) = _
  rw [hlength]
  simp [advance]

/-- Before something else than a line end the line is not over. -/
theorem not_atLineEnd {c : Cursor} {b : UInt8} {tail : List UInt8}
    (hr : c.eatBlanks.rest = b :: tail) (hb : Byte.isBreak b = false) : c.atLineEnd ≠ true := by
  intro hend
  rw [eatBlanks_of_atLineEnd hend] at hr
  rw [atLineEnd, hr] at hend
  exact absurd (hb.symm.trans hend) Bool.false_ne_true

theorem peek_of_rest {c : Cursor} {b d : UInt8} {tail : List UInt8}
    (hr : c.rest = b :: d :: tail) : c.peek = d := by
  rw [peek, hr]
  rfl

/-- The second byte is there if it is not zero, for a missing one counts as
zero. -/
theorem rest_of_peek {c : Cursor} {b d : UInt8} {tail : List UInt8} (hr : c.rest = b :: tail)
    (h : c.peek = d) (hd : d ≠ 0) : ∃ more, c.rest = b :: d :: more := by
  rw [peek, hr] at h
  cases tail with
  | nil => exact absurd h.symm hd
  | cons e more =>
    obtain rfl : e = d := h
    exact ⟨more, hr⟩

/-! ## Lines -/

theorem trimEnd_eq_rdropWhile (bytes : List UInt8) :
    trimEnd bytes = bytes.rdropWhile Byte.isBlank := rfl

/-- A line is its trimmed text and then blanks. -/
theorem line_eq (c : Cursor) :
    c.line = trimEnd c.line ++ c.line.rtakeWhile Byte.isBlank :=
  List.rdropWhile_append_rtakeWhile.symm

theorem isBlank_of_mem_rtakeWhile {bytes : List UInt8} {b : UInt8}
    (h : b ∈ bytes.rtakeWhile Byte.isBlank) : Byte.isBlank b = true :=
  List.mem_rtakeWhile_imp h

theorem isBreak_of_mem_line {c : Cursor} {b : UInt8} (h : b ∈ c.line) :
    Byte.isBreak b = false := by
  simpa using List.mem_takeWhile_imp h

theorem line_cons {c : Cursor} {b : UInt8} {tail : List UInt8} (hr : c.rest = b :: tail)
    (hb : Byte.isBreak b = false) : c.line = b :: (⟨c.pos, tail⟩ : Cursor).line := by
  simp [line, hr, hb]

theorem line_eq_nil {c : Cursor} (h : c.atLineEnd = true) : c.line = [] := by
  rcases atLineEnd_iff.mp h with hr | ⟨b, tail, hr, hb⟩
  · simp [line, hr]
  · simp [line, hr, hb]

/-- A line that does not start with a blank has text on it. -/
theorem trimEnd_ne_nil {b : UInt8} {rest : List UInt8} (hb : Byte.isBlank b = false) :
    trimEnd (b :: rest) ≠ [] := by
  rw [trimEnd_eq_rdropWhile, Ne, List.rdropWhile_eq_nil_iff]
  intro h
  have := h b List.mem_cons_self
  rw [hb] at this
  cases this

/-- Text ends behind its start, on a line that starts with a byte of it. -/
theorem pos_lt_textEnd {c : Cursor} {b : UInt8} {tail : List UInt8} (hr : c.rest = b :: tail)
    (hb : Byte.isWhite b = false) : c.pos < c.textEnd := by
  obtain ⟨hblank, hbreak⟩ := Byte.isWhite_eq_false_iff.mp hb
  have hne : trimEnd c.line ≠ [] := by
    rw [line_cons hr hbreak]
    exact trimEnd_ne_nil hblank
  have := List.length_pos_iff.mpr hne
  unfold textEnd
  omega

end Cursor

end ApiDoc
