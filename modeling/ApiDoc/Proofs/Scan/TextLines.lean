import ApiDoc.Proofs.Scan.Reading
import ApiDoc.Proofs.Scan.Rules

/-!
# Lines of text

Text without parentheses is read line by line, until a line interrupts it. Whether a
line does is asked of all that stands behind it; the answer depends on the line alone.

* **Interruptions** (`interrupts`): a directive, or a closing parenthesis where a
  context is open. A line that interrupts does so whatever stands behind its end
  (`interrupts_append`).
* **Lines** (`splitLines`): a text is split as line ends are taken, one break or two
  that differ at a time.
* **Reading** (`textLines_reads`): text is taken with white bytes behind it. None of
  its lines interrupts it, it ends with a byte that is not white, and the next content
  interrupts it or the document ends.
-/

namespace ApiDoc

/-! ## Interruptions -/

namespace Scan

/-- Whether bytes that go on so are no text: they open a directive, or close a
context. -/
def interrupts (inContext : Bool) (bytes : List UInt8) : Bool :=
  Keyword.opensDirective bytes || (inContext && bytes.head? == some Byte.closeParen)

variable {inContext : Bool} {bytes line more : List UInt8} {c : Cursor}

theorem interrupts_nil (inContext : Bool) : interrupts inContext [] = false := by
  rw [interrupts, Bool.or_eq_false_iff]
  refine ⟨by decide, ?_⟩
  rw [List.head?_nil]
  exact Bool.and_false inContext

/-- Text ends with the document, or where it is interrupted. -/
theorem endsText_iff :
    endsText inContext bytes = true ↔ bytes = [] ∨ interrupts inContext bytes = true := by
  cases bytes with
  | nil => simp [endsText]
  | cons b tail => simp [endsText, interrupts]

/-- What interrupts text does not start with white space. -/
theorem isWhite_of_interrupts {b : UInt8} {tail : List UInt8}
    (h : interrupts inContext (b :: tail) = true) : Byte.isWhite b = false := by
  simp only [interrupts, Bool.or_eq_true, Bool.and_eq_true, List.head?_cons, beq_iff_eq,
    Option.some.injEq] at h
  rcases h with hopens | ⟨-, rfl⟩
  · exact isWhite_of_opensDirective hopens
  · decide

/-- A line that interrupts text does so in front of white space too. -/
theorem interrupts_append (hmore : atWhite more = true)
    (h : interrupts inContext line = true) : interrupts inContext (line ++ more) = true := by
  have hends : Keyword.endsWord more = true := by
    cases more with
    | nil => rfl
    | cons b tail =>
      have hwhite : (Byte.isBlank b || Byte.isBreak b) = true := hmore
      rw [Keyword.endsWord, hwhite, Bool.true_or]
  rw [interrupts, Bool.or_eq_true] at h ⊢
  rcases h with hopens | hclose
  · left
    obtain ⟨word, kind, rest, rfl, hspells, hword⟩ := Keyword.opensDirective_iff.mp hopens
    rw [List.append_assoc]
    refine Keyword.opensDirective_iff.mpr ⟨word, kind, rest ++ more, rfl, hspells, ?_⟩
    cases rest with
    | nil => exact hends
    | cons b tail => exact hword
  · right
    cases line with
    | nil =>
      rw [List.head?_nil] at hclose
      simp at hclose
    | cons b tail => exact hclose

/-- Where text goes on, the line that comes next does not interrupt it. -/
theorem interrupts_line (hgo : endsText inContext c.eatWhite.rest = false)
    (hr : c.rest = line ++ more) (hmore : atWhite more = true) :
    interrupts inContext (line.dropWhile Byte.isBlank) = false := by
  cases hline : line.dropWhile Byte.isBlank with
  | nil => exact interrupts_nil inContext
  | cons b tail =>
    apply Bool.eq_false_iff.mpr
    intro hinterrupts
    have hsplit : line = line.takeWhile Byte.isBlank ++ b :: tail := by
      rw [← hline, List.takeWhile_append_dropWhile]
    have hcursor : c.Takes (line.takeWhile Byte.isBlank)
        ⟨c.pos + (line.takeWhile Byte.isBlank).length, b :: tail ++ more⟩ := by
      refine ⟨?_, rfl⟩
      rw [hr, ← List.append_assoc, ← hsplit]
    -- the line has content, and that comes next
    have hnext : c.eatWhite.rest = b :: tail ++ more := by
      rw [Cursor.eatWhite_of_takes hcursor (white_blanks line)]
      refine congrArg Cursor.rest (Cursor.eatWhile_of_head ?_)
      intro d rest hd
      cases hd
      exact isWhite_of_interrupts hinterrupts
    have hends := endsText_iff.mpr (.inr (interrupts_append hmore hinterrupts))
    rw [hnext, hends] at hgo
    cases hgo

end Scan

/-! ## Lines -/

namespace Cursor

/-- A line end starts with a break. -/
theorem isBreak_of_breakLength {b : UInt8} {tail : List UInt8}
    (h : breakLength (b :: tail) ≠ 0) : Byte.isBreak b = true := by
  have hmem : b ∈ (b :: tail).take (breakLength (b :: tail)) := by
    obtain ⟨n, hn⟩ := Nat.exists_eq_succ_of_ne_zero h
    rw [hn, List.take_succ_cons]
    exact List.mem_cons_self
  exact isBreak_of_mem_take_breakLength hmem

/-- Two bytes tell how long a line end is. -/
theorem breakLength_append_of_two {bytes : List UInt8} (h : 2 ≤ bytes.length)
    (more : List UInt8) : breakLength (bytes ++ more) = breakLength bytes := by
  match bytes with
  | [] => cases h
  | [a] => exact absurd h (by simp)
  | a :: b :: rest => rfl

end Cursor

/-- The lines of a text. -/
def splitLines (bytes : List UInt8) : List (List UInt8) :=
  if Cursor.breakLength (bytes.dropWhile (! Byte.isBreak ·)) = 0 then
    [bytes.takeWhile (! Byte.isBreak ·)]
  else
    bytes.takeWhile (! Byte.isBreak ·) :: splitLines ((bytes.dropWhile (! Byte.isBreak ·)).drop
      (Cursor.breakLength (bytes.dropWhile (! Byte.isBreak ·))))
termination_by bytes.length
decreasing_by
  have := Cursor.breakLength_le (bytes.dropWhile (! Byte.isBreak ·))
  have := Cursor.length_dropWhile_le (! Byte.isBreak ·) bytes
  rw [List.length_drop]
  omega

section

variable {line ending bytes blanks : List UInt8}

theorem splitLines_line (hline : ∀ b ∈ line, Byte.isBreak b = false) :
    splitLines line = [line] := by
  have hline := Byte.all_not_isBreak hline
  rw [splitLines.eq_def, List.dropWhile_eq_nil_iff.mpr hline, List.takeWhile_eq_self_iff.mpr hline]
  rfl

/-- A line and its end are split off. -/
theorem splitLines_append (hline : ∀ b ∈ line, Byte.isBreak b = false) (hne : ending ≠ [])
    (hending : Cursor.breakLength (ending ++ bytes) = ending.length) :
    splitLines (line ++ (ending ++ bytes)) = line :: splitLines bytes := by
  have hpos : ending.length ≠ 0 := by
    rw [Ne, List.length_eq_zero_iff]
    exact hne
  have hstop : ∀ b tail, ending ++ bytes = b :: tail → (! Byte.isBreak b) = false := by
    intro b tail h
    rw [h] at hending
    rw [Cursor.isBreak_of_breakLength (hending ▸ hpos)]
    rfl
  have hdrop : (line ++ (ending ++ bytes)).dropWhile (! Byte.isBreak ·) = ending ++ bytes :=
    Cursor.dropWhile_of_word (Byte.all_not_isBreak hline) hstop
  have htake : (line ++ (ending ++ bytes)).takeWhile (! Byte.isBreak ·) = line := by
    have hsplit := (line ++ (ending ++ bytes)).takeWhile_append_dropWhile (p := (! Byte.isBreak ·))
    rw [hdrop] at hsplit
    exact List.append_cancel_right hsplit
  rw [splitLines.eq_def, hdrop, htake, hending, if_neg hpos, List.drop_left]

/-- Blanks before a text stand on its first line. -/
theorem splitLines_blanks (hblanks : ∀ b ∈ blanks, Byte.isBlank b = true)
    (bytes : List UInt8) : ∃ line later,
      splitLines bytes = line :: later ∧
        splitLines (blanks ++ bytes) = (blanks ++ line) :: later := by
  have hall : ∀ b ∈ blanks, (! Byte.isBreak b) = true :=
    Byte.all_not_isBreak fun b hb => Byte.isBreak_eq_false_of_isBlank (hblanks b hb)
  rw [splitLines.eq_def bytes, splitLines.eq_def (blanks ++ bytes),
    List.dropWhile_append_of_pos hall, List.takeWhile_append_of_pos hall]
  by_cases hend : Cursor.breakLength (bytes.dropWhile (! Byte.isBreak ·)) = 0
  · rw [if_pos hend, if_pos hend]
    exact ⟨_, [], rfl, rfl⟩
  · rw [if_neg hend, if_neg hend]
    exact ⟨_, _, rfl, rfl⟩

end

/-! ## Reading -/

namespace Scan

/-- The bytes from `c` up to `behind` are a text that ends before `stop`, and white
bytes. -/
structure ReadsText (inContext : Bool) (c : Cursor) (stop : Nat) (behind : Cursor)
    (text back : List UInt8) : Prop where
  takes : c.Takes (text ++ back) behind
  stop : stop = c.pos + text.length
  white : White back
  last : ∃ b, text.getLast? = some b ∧ Byte.isWhite b = false
  /-- No line of the text interrupts it. -/
  lines : ∀ line ∈ splitLines text, interrupts inContext (line.dropWhile Byte.isBlank) = false
  ends : endsText inContext behind.eatWhite.rest = true

theorem ReadsText.ne_nil {inContext : Bool} {c behind : Cursor} {stop : Nat}
    {text back : List UInt8} (h : ReadsText inContext c stop behind text back) : text ≠ [] := by
  obtain ⟨b, hb, -⟩ := h.last
  rintro rfl
  cases hb

theorem ReadsText.endsLine {inContext : Bool} {c behind : Cursor} {stop : Nat}
    {text back : List UInt8} (h : ReadsText inContext c stop behind text back) :
    endsLine text = false := by
  obtain ⟨b, hb, hwhite⟩ := h.last
  rw [ApiDoc.endsLine, hb]
  exact (Byte.isWhite_eq_false_iff.mp hwhite).2

/-- The text of a line ends with a byte that is not white. -/
theorem last_trimEnd {c : Cursor} (h : Cursor.trimEnd c.line ≠ []) :
    ∃ b, (Cursor.trimEnd c.line).getLast? = some b ∧ Byte.isWhite b = false := by
  refine ⟨_, List.getLast?_eq_some_getLast h, Byte.isWhite_eq_false_iff.mpr ⟨?_, ?_⟩⟩
  · exact Bool.eq_false_iff.mpr (List.rdropWhile_last_not Byte.isBlank c.line h)
  · exact Cursor.isBreak_of_mem_line
      ((List.rdropWhile_prefix Byte.isBlank c.line).subset (List.getLast_mem h))

/-- The last line of a text, if the document ends behind it or an interruption comes
next. -/
theorem readsText_line {inContext : Bool} {c behind : Cursor} {back : List UInt8}
    (htakes : c.Takes (Cursor.trimEnd c.line ++ back) behind) (hback : White back)
    (hgo : endsText inContext c.eatWhite.rest = false)
    (hends : endsText inContext behind.eatWhite.rest = true) :
    ReadsText inContext c c.textEnd behind (Cursor.trimEnd c.line) back where
  takes := htakes
  stop := rfl
  white := hback
  last := by
    apply last_trimEnd
    intro hnil
    -- a white line would leave the next content where it is
    rw [hnil, List.nil_append] at htakes
    rw [Cursor.eatWhite_of_takes htakes hback, hends] at hgo
    cases hgo
  lines := by
    have hline : ∀ b ∈ Cursor.trimEnd c.line, Byte.isBreak b = false := fun b hb =>
      Cursor.isBreak_of_mem_line ((List.rdropWhile_prefix Byte.isBlank c.line).subset hb)
    have hsplit : c.rest = Cursor.trimEnd c.line
        ++ (c.line.rtakeWhile Byte.isBlank ++ c.eatLine.rest) := by
      rw [← List.append_assoc, ← c.line_eq]
      exact c.takes_eatLine.rest
    have hwhite : atWhite (c.line.rtakeWhile Byte.isBlank ++ c.eatLine.rest) = true :=
      atWhite_append (fun b hb => Byte.isWhite_of_isBlank (Cursor.isBlank_of_mem_rtakeWhile hb))
        (atWhite_eatLine c)
    intro line hmem
    rw [splitLines_line hline, List.mem_singleton] at hmem
    rw [hmem]
    exact interrupts_line hgo hsplit hwhite
  ends := hends

/-- A line with its end before more of the text, and the blanks between them. -/
theorem ReadsText.behind_line {inContext : Bool} {c behind : Cursor} {stop : Nat}
    {text back : List UInt8}
    (h : ReadsText inContext c.eatLine.eatBreak.eatBlanks stop behind text back)
    (hbreak : c.eatLine.atBreak = true) (hgo : endsText inContext c.eatWhite.rest = false) :
    ∃ text, ReadsText inContext c stop behind text back := by
  let ending := c.eatLine.rest.take (Cursor.breakLength c.eatLine.rest)
  let blanks := c.eatLine.eatBreak.rest.takeWhile Byte.isBlank
  have hfront : c.Takes (c.line ++ ending ++ blanks) c.eatLine.eatBreak.eatBlanks :=
    (c.takes_eatLine.trans c.eatLine.takes_eatBreak).trans c.eatLine.eatBreak.takes_eatBlanks
  have hlength : ending.length = Cursor.breakLength c.eatLine.rest := by
    rw [List.length_take, Nat.min_eq_left (Cursor.breakLength_le _)]
  have hpos : 0 < ending.length := by
    rw [hlength]
    exact Nat.pos_of_ne_zero (bne_iff_ne.mp hbreak)
  -- the line end is told by two bytes, and the text has at least one
  have hending : Cursor.breakLength (ending ++ (blanks ++ text)) = ending.length := by
    have hrest : c.eatLine.rest = ending ++ (blanks ++ text) ++ (back ++ behind.rest) := by
      have htakes := (c.eatLine.takes_eatBreak.trans c.eatLine.eatBreak.takes_eatBlanks).trans
        h.takes
      rw [htakes.rest]
      simp only [List.append_assoc, ending, blanks]
    have htwo : 2 ≤ (ending ++ (blanks ++ text)).length := by
      have := List.length_pos_iff.mpr h.ne_nil
      rw [List.length_append, List.length_append]
      omega
    rw [hlength, hrest, Cursor.breakLength_append_of_two htwo]
  refine ⟨c.line ++ (ending ++ (blanks ++ text)), ?_, ?_, h.white, ?_, ?_, h.ends⟩
  · have htakes := hfront.trans h.takes
    simp only [List.append_assoc] at htakes ⊢
    exact htakes
  · rw [h.stop, hfront.pos]
    simp only [List.length_append]
    omega
  · obtain ⟨b, hb, hwhite⟩ := h.last
    refine ⟨b, ?_, hwhite⟩
    rw [← List.append_assoc, ← List.append_assoc, List.getLast?_append, hb, Option.some_or]
  · have hline : ∀ b ∈ c.line, Byte.isBreak b = false :=
      fun b hb => Cursor.isBreak_of_mem_line hb
    have hblanks : ∀ b ∈ blanks, Byte.isBlank b = true := fun _ hb => List.mem_takeWhile_imp hb
    obtain ⟨first, later, htext, hall⟩ := splitLines_blanks hblanks text
    rw [splitLines_append hline (List.length_pos_iff.mp hpos) hending, hall]
    intro line hmem
    rcases List.mem_cons.mp hmem with rfl | hmem
    · exact interrupts_line hgo c.takes_eatLine.rest (atWhite_eatLine c)
    · rcases List.mem_cons.mp hmem with rfl | hmem
      · rw [List.dropWhile_append_of_pos hblanks]
        exact h.lines first (htext ▸ List.mem_cons_self)
      · exact h.lines line (htext ▸ List.mem_cons_of_mem first hmem)

/-- Text is taken with white bytes behind it. -/
theorem textLines_reads {inContext : Bool} {c : Cursor} {stop : Nat} (hstop : stop ≤ c.pos)
    (hgo : endsText inContext c.eatWhite.rest = false) :
    ∃ text back, ReadsText inContext c (textLines inContext c stop).1
      (textLines inContext c stop).2 text back := by
  have hmax : ∀ {c : Cursor} {stop : Nat}, stop ≤ c.pos → max c.textEnd stop = c.textEnd := by
    intro c stop hle
    have : c.pos ≤ c.textEnd := Nat.le_add_right _ _
    omega
  fun_induction textLines inContext c stop with
  | case1 c stop _ hends =>
    obtain ⟨back, htakes, hback⟩ := takes_eatBreak_text c
    rw [hmax hstop]
    exact ⟨_, back, readsText_line htakes hback hgo hends⟩
  | case2 c stop hbreak hends ih =>
    have hsame := Cursor.eatWhite_of_takes c.eatLine.eatBreak.takes_eatBlanks (white_blanks _)
    rw [Bool.not_eq_true, hsame] at hends
    have hle : max c.textEnd stop ≤ c.eatLine.eatBreak.eatBlanks.pos := by
      obtain ⟨back, htakes, -⟩ := takes_nextLine_text c
      rw [hmax hstop, htakes.pos, Cursor.textEnd, List.length_append]
      omega
    obtain ⟨text, back, hreads⟩ := ih hle hends
    obtain ⟨text', hreads'⟩ := hreads.behind_line hbreak hgo
    exact ⟨text', back, hreads'⟩
  | case3 c stop hbreak =>
    obtain ⟨back, htakes, hback⟩ := takes_eatLine_text c
    have hrest : c.eatLine.rest = [] := by
      rcases Cursor.atLineEnd_iff.mp c.atLineEnd_eatLine with hr | ⟨b, tail, hr, hb⟩
      · exact hr
      · exact absurd (Cursor.atBreak_of_isBreak hr hb) hbreak
    have hends : endsText inContext c.eatLine.eatWhite.rest = true := by
      rw [Cursor.rest_eatWhite_of_nil hrest]
      rfl
    rw [hmax hstop]
    exact ⟨_, back, readsText_line htakes hback hgo hends⟩

end Scan

end ApiDoc
