import ApiDoc.Proofs.Text.Characters
import ApiDoc.Proofs.Text.LinePartition
import ApiDoc.Proofs.Text.QuoteLength

/-!
# Quotes of text

The lines of a text are text, and so is what a quote shows of one.

* **Lines** (`quotedLine_of_text`): a line stands between breaks, and its indentation is of
  ASCII bytes, so a text may be cut on either side of what is quoted.
* **Limits** (`startsFresh_characterStart`, `le_characterStart`): the search from the limit
  downward finds the last place at which a character may start.
* **Quotes** (`quote_exact`): a line within the limit is quoted in full, and of a longer one
  the longest front that leaves room for the mark.
-/

namespace ApiDoc

theorem Byte.lt_of_isBreak {b : UInt8} (h : isBreak b = true) : b < 0x80 := by
  simp only [isBreak, Bool.or_eq_true, beq_iff_eq] at h
  rcases h with rfl | rfl <;> decide

theorem Byte.lt_of_isBlank {b : UInt8} (h : isBlank b = true) : b < 0x80 := by
  simp only [isBlank, Bool.or_eq_true, beq_iff_eq] at h
  rcases h with rfl | rfl <;> decide

namespace Source

variable {s : Source} {content : String} {bytes : List UInt8} {k n : Nat}

/-! ## Lines -/

theorem byte?_isBreak_of_pairedAt {i : Nat} (h : s.pairedAt i = true) :
    (s.byte? i).any Byte.isBreak = true := by
  rw [pairedAt_iff.mp h]
  exact Byte.isBreak_pairedBreak _

/-- Before the bounds of a line stands a break, unless the source starts there, and behind
them stands one, unless it ends there. -/
theorem lineBounds_beside (s : Source) (offset : Nat) :
    ((s.lineBounds offset).first = 0 ∨
      ∃ j, (s.lineBounds offset).first = j + 1 ∧ (s.byte? j).any Byte.isBreak = true) ∧
    ((s.lineBounds offset).stop = s.length ∨
      (s.byte? (s.lineBounds offset).stop).any Byte.isBreak = true) := by
  obtain ⟨start, stop, hline, -, -, htrims⟩ := s.lineBounds_trims offset
  refine ⟨?_, ?_⟩
  · rcases htrims.first with ⟨hfirst, -⟩ | ⟨hfirst, hpaired⟩
    · rw [hfirst]
      rcases hline.opens with hzero | ⟨j, hj, hbreak⟩
      · exact .inl hzero
      · exact .inr ⟨j, hj, by rw [hbreak]; exact s.isBreak_dominantBreak⟩
    · exact .inr ⟨start, hfirst, byte?_isBreak_of_pairedAt hpaired⟩
  · rcases htrims.stop with hstop | ⟨-, hpaired⟩
    · rw [hstop]
      rcases hline.closes with hend | hbreak
      · exact .inl hend
      · exact .inr (by rw [hbreak]; exact s.isBreak_dominantBreak)
    · exact .inr (byte?_isBreak_of_pairedAt hpaired)

/-- The bytes of a text between breaks are text. -/
theorem slice_of_text (h : s.bytes = Utf8.bytes content) {first stop : Nat} (hle : first ≤ stop)
    (hfirst : first = 0 ∨ ∃ j, first = j + 1 ∧ (s.byte? j).any Byte.isBreak = true)
    (hstop : stop = s.length ∨ (s.byte? stop).any Byte.isBreak = true) :
    ∃ line, Utf8.bytes line = s.slice first stop := by
  have hfresh : Utf8.startsFresh (s.bytes.drop stop) = true := by
    rcases hstop with rfl | hbreak
    · rw [length, List.drop_length]
      rfl
    · obtain ⟨b, hb, hbreak⟩ := (Option.any_eq_true ..).mp hbreak
      have hfresh := Utf8.isContinuation_of_ascii (Byte.lt_of_isBreak hbreak)
      rw [byte?] at hb
      simp [Utf8.startsFresh, List.head?_drop, hb, hfresh]
  have hcut : Utf8.bytes content = s.bytes.take stop ++ s.bytes.drop stop := by
    rw [List.take_append_drop, h]
  obtain ⟨before, -, -, hbefore, -⟩ := Utf8.cut hcut hfresh
  have hsplit : Utf8.bytes before = s.bytes.take first ++ s.slice first stop := by
    rw [hbefore, slice, ← List.take_add, Nat.add_sub_cancel' hle]
  apply Utf8.cut_behind hsplit
  rcases hfirst with rfl | ⟨j, rfl, hbreak⟩
  · rfl
  · obtain ⟨b, hb, hbreak⟩ := (Option.any_eq_true ..).mp hbreak
    rw [byte?] at hb
    simp [List.getLast?_take, hb, Byte.lt_of_isBreak hbreak]

/-- What is quoted of a text is text. -/
theorem quotedLine_of_text (h : s.bytes = Utf8.bytes content) (offset : Nat) :
    ∃ line, Utf8.bytes line = s.quotedLine offset := by
  obtain ⟨hfirst, hstop⟩ := s.lineBounds_beside offset
  obtain ⟨line, hline⟩ := slice_of_text h (s.lineBounds_first_le offset) hfirst hstop
  rw [← List.takeWhile_append_dropWhile (p := Byte.isBlank)
    (l := s.slice (s.lineBounds offset).first (s.lineBounds offset).stop)] at hline
  apply Utf8.cut_behind hline
  rw [Option.all_eq_true]
  intro b hlast
  exact decide_eq_true (Byte.lt_of_isBlank (List.mem_takeWhile_imp (List.mem_of_getLast? hlast)))

/-! ## Limits -/

theorem startsFresh_drop_succ : Utf8.startsFresh (bytes.drop (n + 1)) =
    ! (bytes[n + 1]?).any Utf8.isContinuation := by
  rw [Utf8.startsFresh, List.head?_drop]
  cases bytes[n + 1]? <;> rfl

theorem startsFresh_characterStart (h : Utf8.startsFresh bytes = true) (n : Nat) :
    Utf8.startsFresh (bytes.drop (characterStart bytes n)) = true := by
  induction n with
  | zero => exact h
  | succ n ih =>
    rw [characterStart]
    split
    · exact ih
    · rename_i hnot
      rwa [startsFresh_drop_succ, Bool.not_eq_true', ← Bool.not_eq_true]

/-- No later place up to the limit is one at which a character may start. -/
theorem le_characterStart (hk : k ≤ n) (hfresh : Utf8.startsFresh (bytes.drop k) = true) :
    k ≤ characterStart bytes n := by
  induction n with
  | zero => exact hk
  | succ n ih =>
    rw [characterStart]
    split
    · rename_i hcontinues
      refine ih (Nat.le_of_lt_succ (Nat.lt_of_le_of_ne hk ?_))
      rintro rfl
      rw [startsFresh_drop_succ, hcontinues] at hfresh
      cases hfresh
    · exact hk

/-- Of the fronts of a text that fit into some room, the longest one. -/
structure LongestFront (text front : String) (room : Nat) : Prop where
  isFront : ∃ back, text = front ++ back
  fits : (Utf8.bytes front).length ≤ room
  longest : ∀ other back, text = other ++ back → (Utf8.bytes other).length ≤ room →
    (Utf8.bytes other).length ≤ (Utf8.bytes front).length

/-- The search finds the longest front of a text that does not fit. -/
theorem longestFront_characterStart {text : String} (hlong : n < (Utf8.bytes text).length) :
    ∃ front, Utf8.bytes front = (Utf8.bytes text).take (characterStart (Utf8.bytes text) n) ∧
      LongestFront text front n := by
  have hle := characterStart_le (Utf8.bytes text) n
  have hfresh := startsFresh_characterStart (Utf8.startsFresh_bytes text) n
  obtain ⟨front, back, hsplit, hfront, -⟩ := Utf8.cut (List.take_append_drop _ _).symm hfresh
  have hlength : (Utf8.bytes front).length = characterStart (Utf8.bytes text) n := by
    rw [hfront, List.length_take]
    omega
  refine ⟨front, hfront, ⟨back, hsplit⟩, hlength ▸ hle, ?_⟩
  intro other behind hother hfits
  rw [hlength]
  apply le_characterStart hfits
  rw [hother, Utf8.bytes_append, List.drop_left]
  exact Utf8.startsFresh_bytes behind

end Source

/-! ## Quotes -/

/-- Quotes of text are exact. What is quoted of a line of a text is text. Within the limit it
is shown as it is; of a longer one the longest front is shown that leaves room for the mark,
and then the mark. The replacement character is shown only where the line has it. -/
theorem quote_exact {s : Source} {content : String} (h : s.bytes = Utf8.bytes content)
    (offset : Nat) :
    ∃ line : String, Utf8.bytes line = s.quotedLine offset ∧
      ((Utf8.bytes line).length ≤ quoteLimit → s.quote offset = line) ∧
      (quoteLimit < (Utf8.bytes line).length →
        ∃ front, Source.LongestFront line front (quoteLimit - ellipsis.length) ∧
          s.quote offset = front ++ ellipsis) ∧
      ('\uFFFD' ∈ (s.quote offset).toList → '\uFFFD' ∈ line.toList) := by
  obtain ⟨line, hline⟩ := Source.quotedLine_of_text h offset
  have hquote : s.quote offset
      = Utf8.lossy (Source.shownOf (Utf8.bytes line)) ++ Source.markOf (Utf8.bytes line) := by
    rw [hline]
    exact s.quote_eq offset
  refine ⟨line, hline, ?_⟩
  by_cases hlength : (Utf8.bytes line).length ≤ quoteLimit
  · have hfull : s.quote offset = line := by
      rw [hquote, Source.shownOf, Source.markOf, if_pos hlength, if_pos hlength, Utf8.lossy_bytes,
        String.append_empty]
    refine ⟨fun _ => hfull, fun hlong => absurd hlength (Nat.not_le_of_lt hlong), ?_⟩
    rw [hfull]
    exact id
  · have hlong : quoteLimit - ellipsis.length < (Utf8.bytes line).length :=
      Nat.lt_of_le_of_lt (Nat.sub_le _ _) (Nat.lt_of_not_le hlength)
    obtain ⟨front, hfront, hlongest⟩ := Source.longestFront_characterStart hlong
    have hcut : s.quote offset = front ++ ellipsis := by
      rw [hquote, Source.shownOf, Source.markOf, if_neg hlength, if_neg hlength, ← hfront,
        Utf8.lossy_bytes]
    refine ⟨fun hle => absurd hle hlength, fun _ => ⟨front, hlongest, hcut⟩, ?_⟩
    obtain ⟨back, hback⟩ := hlongest.isFront
    rw [hcut, hback, String.toList_append, String.toList_append]
    intro hmem
    rcases List.mem_append.mp hmem with hshown | hmark
    · exact List.mem_append_left _ hshown
    · exact absurd hmark (by decide)

/-- The limit falls between the two bytes of a character, and so does the offset. -/
theorem quote_exact_straddled :
    let content := String.ofList (List.replicate 196 'a' ++ List.replicate 3 'é')
    let source : Source :=
      ⟨"", List.replicate 196 0x61 ++ [0xC3, 0xA9, 0xC3, 0xA9, 0xC3, 0xA9], by decide +kernel⟩
    source.bytes = Utf8.bytes content ∧ (source.quotedLine 197).length = 202 ∧
      (source.shown 197).length = 196 ∧ ∃ front, source.quote 197 = front ++ ellipsis := by
  intro content source
  have hbytes : source.bytes = Utf8.bytes content := by
    rw [Utf8.bytes, String.toList_ofList]
    decide +kernel
  have hlength : (source.quotedLine 197).length = 202 := by decide +kernel
  obtain ⟨line, hline, -, hcut, -⟩ := quote_exact hbytes 197
  obtain ⟨front, -, hquote⟩ := hcut (by rw [hline, hlength]; decide)
  exact ⟨hbytes, hlength, by decide +kernel, front, hquote⟩

end ApiDoc
