import ApiDoc.Proofs.Scan.DirectiveLine
import Mathlib.Data.List.DropRight
import Mathlib.Data.List.TakeWhile

/-!
# Text in parentheses is opaque

Text in parentheses is read up to a line that starts with a closing one. Nothing else
is looked at, so that directives, comments, quotes and parentheses are text like any
other.

* **Lines** (`Unclosed`): no line of the text starts with a closing parenthesis. This
  is kept behind breaks and blanks, however they are taken.
* **Ranges** (`cover_append`): the range of a text is widened part by part.
* **Reading** (`parenLines_unclosed`): the lines are read to the parenthesis behind the
  text, and the range covers the text from its first byte to its last one that are not
  white.
* **Documents** (`parenthesised_opaque`): a description in parentheses gives the event
  pairs of its keyword and of its text, and no others.
-/

namespace ApiDoc

namespace Scan

variable {bytes text line more after : List UInt8} {b : UInt8} {c : Cursor}
  {pos limit : Nat}

/-! ## Lines -/

/-- No line starts with a closing parenthesis behind its blanks. Every break ends a
line. -/
def Unclosed (bytes : List UInt8) : Prop :=
  ∀ line ∈ bytes.splitOnP Byte.isBreak,
    (line.dropWhile Byte.isBlank).head? ≠ some Byte.closeParen

instance (bytes : List UInt8) : Decidable (Unclosed bytes) :=
  inferInstanceAs (Decidable (∀ line ∈ bytes.splitOnP Byte.isBreak, _))

theorem unclosed_nil : Unclosed [] := by
  intro line hline
  rw [List.mem_singleton.mp hline]
  exact nofun

/-- A byte that is no break stands on the first line. -/
theorem splitOnP_cons_line (hb : Byte.isBreak b = false) (bytes : List UInt8) :
    ∃ line later, bytes.splitOnP Byte.isBreak = line :: later ∧
      (b :: bytes).splitOnP Byte.isBreak = (b :: line) :: later := by
  obtain ⟨line, later, hlines⟩ :=
    List.exists_cons_of_ne_nil (List.splitOnP_ne_nil Byte.isBreak bytes)
  refine ⟨line, later, hlines, ?_⟩
  rw [List.splitOnP_cons_eq_if_modifyHead, if_neg (by simp [hb]), hlines, List.modifyHead_cons]

namespace Unclosed

theorem head (h : Unclosed (b :: bytes)) : b ≠ Byte.closeParen := by
  rintro rfl
  obtain ⟨line, later, -, hlines⟩ := splitOnP_cons_line (b := Byte.closeParen) rfl bytes
  exact h _ (hlines ▸ List.mem_cons_self) rfl

theorem behind_break (h : Unclosed (b :: bytes)) (hb : Byte.isBreak b = true) :
    Unclosed bytes := by
  intro line hline
  refine h line ?_
  rw [List.splitOnP_cons_eq_if_modifyHead, if_pos hb]
  exact List.mem_cons_of_mem _ hline

theorem before_break (h : Unclosed bytes) (hb : Byte.isBreak b = true) :
    Unclosed (b :: bytes) := by
  intro line hline
  rw [List.splitOnP_cons_eq_if_modifyHead, if_pos hb] at hline
  rcases List.mem_cons.mp hline with rfl | hline
  · exact nofun
  · exact h line hline

theorem behind_blank (h : Unclosed (b :: bytes)) (hb : Byte.isBlank b = true) :
    Unclosed bytes := by
  obtain ⟨first, later, hbytes, hlines⟩ :=
    splitOnP_cons_line (Byte.isBreak_eq_false_of_isBlank hb) bytes
  intro line hline
  rw [hbytes] at hline
  rcases List.mem_cons.mp hline with rfl | hline
  · have hfirst := h _ (hlines ▸ List.mem_cons_self)
    rwa [List.dropWhile_cons_of_pos hb] at hfirst
  · exact h line (hlines ▸ List.mem_cons_of_mem _ hline)

theorem behind_blanks (h : Unclosed bytes) : Unclosed (bytes.dropWhile Byte.isBlank) := by
  induction bytes with
  | nil => exact h
  | cons b bytes ih =>
    cases hb : Byte.isBlank b with
    | true =>
      rw [List.dropWhile_cons_of_pos hb]
      exact ih (h.behind_blank hb)
    | false => rwa [List.dropWhile_cons_of_neg (by simp [hb])]

/-- Behind a line its line end and the lines below it are left. -/
theorem behind_line (h : Unclosed bytes) :
    Unclosed (bytes.dropWhile (! Byte.isBreak ·)) := by
  cases hrest : bytes.dropWhile (! Byte.isBreak ·) with
  | nil => exact unclosed_nil
  | cons x more =>
    have hx : Byte.isBreak x = true := by
      simpa [hrest] using List.head?_dropWhile_not (! Byte.isBreak ·) bytes
    have hline : ∀ b ∈ bytes.takeWhile (! Byte.isBreak ·), Byte.isBreak b = false := by
      intro b hb
      simpa using List.mem_takeWhile_imp hb
    refine before_break ?_ hx
    intro line hmem
    refine h line ?_
    rw [← List.takeWhile_append_dropWhile (p := (! Byte.isBreak ·)) (l := bytes), hrest,
      List.splitOnP_append_cons_of_forall_mem hline x hx]
    exact List.mem_cons_of_mem _ hmem

end Unclosed

/-! ## Ranges -/

/-- The range widened by the bytes at `pos`, from the first to the last that is not
white. -/
def cover (range : Option (Nat × Nat)) (pos : Nat) (bytes : List UInt8) : Option (Nat × Nat) :=
  widen range (pos + (bytes.takeWhile Byte.isWhite).length)
    (pos + (bytes.rdropWhile Byte.isWhite).length)

theorem takeWhile_white (h : White bytes) : bytes.takeWhile Byte.isWhite = bytes :=
  List.takeWhile_eq_self_iff.mpr h

theorem rdropWhile_white (h : White bytes) : bytes.rdropWhile Byte.isWhite = [] :=
  List.rdropWhile_eq_nil_iff.mpr h

theorem cover_white (h : White bytes) (range : Option (Nat × Nat)) (pos : Nat) :
    cover range pos bytes = range := by
  rw [cover, takeWhile_white h, rdropWhile_white h, List.length_nil]
  exact if_neg (by omega)

theorem rdropWhile_append (front back : List UInt8) :
    (front ++ back).rdropWhile Byte.isWhite
      = if back.all Byte.isWhite then front.rdropWhile Byte.isWhite
        else front ++ back.rdropWhile Byte.isWhite := by
  have hall : (back.reverse.dropWhile Byte.isWhite).isEmpty = back.all Byte.isWhite := by
    rw [Bool.eq_iff_iff, List.isEmpty_iff, List.dropWhile_eq_nil_iff, List.all_eq_true]
    simp only [List.mem_reverse]
  rw [List.rdropWhile, List.reverse_append, List.dropWhile_append, hall]
  split
  · rfl
  · rw [List.reverse_append, List.reverse_reverse, List.rdropWhile]

/-- Bytes that are not all white have a first one before the end of the last one. -/
theorem cover_of_not_white (h : ¬ White bytes) (range : Option (Nat × Nat)) (pos : Nat) :
    cover range pos bytes
      = some ((range.map (·.1)).getD (pos + (bytes.takeWhile Byte.isWhite).length),
          pos + (bytes.rdropWhile Byte.isWhite).length) := by
  have hback : bytes.dropWhile Byte.isWhite ≠ [] := by
    rwa [Ne, List.dropWhile_eq_nil_iff]
  have hnot : ¬ White (bytes.dropWhile Byte.isWhite) := by
    obtain ⟨b, tail, hcons⟩ := List.exists_cons_of_ne_nil hback
    have hb : Byte.isWhite b = false := by
      simpa [hcons] using List.head?_dropWhile_not Byte.isWhite bytes
    intro hall
    rw [hall b (hcons ▸ List.mem_cons_self)] at hb
    cases hb
  have hlength : (bytes.rdropWhile Byte.isWhite).length
      = (bytes.takeWhile Byte.isWhite).length
        + ((bytes.dropWhile Byte.isWhite).rdropWhile Byte.isWhite).length := by
    conv_lhs => rw [← List.takeWhile_append_dropWhile (p := Byte.isWhite) (l := bytes)]
    rw [rdropWhile_append, if_neg (by simpa using hnot), List.length_append]
  have hpos : 0 < ((bytes.dropWhile Byte.isWhite).rdropWhile Byte.isWhite).length := by
    rw [List.length_pos_iff, Ne, List.rdropWhile_eq_nil_iff]
    exact hnot
  exact if_pos (by omega)

/-- Two parts widen the range one after the other. -/
theorem cover_append (range : Option (Nat × Nat)) (pos : Nat) (front back : List UInt8) :
    cover range pos (front ++ back) = cover (cover range pos front) (pos + front.length) back := by
  by_cases hfront : White front
  · rw [cover_white hfront, cover, cover, List.takeWhile_append_of_pos hfront, rdropWhile_append]
    by_cases hback : White back
    · rw [if_pos (List.all_eq_true.mpr hback), takeWhile_white hback, rdropWhile_white hback,
        rdropWhile_white hfront, List.length_append, List.length_nil]
      exact (if_neg (by omega)).trans (if_neg (by omega)).symm
    · rw [if_neg (by simpa using hback), List.length_append, List.length_append, Nat.add_assoc,
        Nat.add_assoc]
  · have htake : (front ++ back).takeWhile Byte.isWhite = front.takeWhile Byte.isWhite := by
      have hne : (front.takeWhile Byte.isWhite).length ≠ front.length := by
        intro heq
        have hself := (List.takeWhile_prefix (p := Byte.isWhite) (l := front)).eq_of_length heq
        exact hfront (List.takeWhile_eq_self_iff.mp hself)
      rw [List.takeWhile_append, if_neg hne]
    have hboth : ¬ White (front ++ back) := fun h => hfront fun b hb => h b (by simp [hb])
    rw [cover_of_not_white hboth, htake, rdropWhile_append, cover_of_not_white hfront]
    by_cases hback : White back
    · rw [if_pos (List.all_eq_true.mpr hback), cover_white hback]
    · rw [if_neg (by simpa using hback), cover_of_not_white hback, List.length_append,
        ← Nat.add_assoc]
      rfl

/-- On a line only blanks are white. -/
theorem dropWhile_blank_of_line (hline : ∀ b ∈ line, Byte.isBreak b = false) :
    line.dropWhile Byte.isBlank = line.dropWhile Byte.isWhite := by
  induction line with
  | nil => rfl
  | cons b line ih =>
    have hb : Byte.isWhite b = Byte.isBlank b := by
      rw [Byte.isWhite, hline b List.mem_cons_self, Bool.or_false]
    rw [List.dropWhile_cons, List.dropWhile_cons, hb,
      ih fun d hd => hline d (List.mem_cons_of_mem b hd)]

/-- A line that does not start with a blank is covered from its start. -/
theorem cover_line (hline : ∀ b ∈ line, Byte.isBreak b = false)
    (hfirst : ∀ b tail, line = b :: tail → Byte.isBlank b = false)
    (range : Option (Nat × Nat)) (pos : Nat) :
    widen range pos (pos + (Cursor.trimEnd line).length) = cover range pos line := by
  have htake : line.takeWhile Byte.isWhite = [] := by
    cases line with
    | nil => rfl
    | cons b tail =>
      have hb : Byte.isWhite b = false :=
        Byte.isWhite_eq_false_iff.mpr ⟨hfirst b tail rfl, hline b List.mem_cons_self⟩
      rw [List.takeWhile_cons_of_neg (by simp [hb])]
  have hdrop : Cursor.trimEnd line = line.rdropWhile Byte.isWhite := by
    rw [Cursor.trimEnd_eq_rdropWhile, List.rdropWhile, List.rdropWhile,
      dropWhile_blank_of_line fun b hb => hline b (List.mem_reverse.mp hb)]
  rw [cover, htake, ← hdrop]
  rfl

/-! ## Reading -/

/-- What stands behind a text in parentheses: the line that closes it. -/
abbrev closing (after : List UInt8) : List UInt8 :=
  Byte.lineFeed :: Byte.closeParen :: after

theorem parenLines_close (range : Option (Nat × Nat)) (pos : Nat) (after : List UInt8) :
    parenLines range ⟨pos, Byte.closeParen :: after⟩
      = (range, ⟨pos, Byte.closeParen :: after⟩) := by
  rw [parenLines_cons rfl]
  exact if_pos rfl

/-- What does not take line feeds stops in the text. -/
theorem eatWhile_closing {p : UInt8 → Bool} (hp : p Byte.lineFeed = false) (pos : Nat)
    (text after : List UInt8) :
    (⟨pos, text ++ closing after⟩ : Cursor).eatWhile p
      = ⟨pos + (text.takeWhile p).length, text.dropWhile p ++ closing after⟩ := by
  have hstop : ∀ b tail, text.dropWhile p ++ closing after = b :: tail → p b = false := by
    intro b tail hcons
    have hfirst := List.head?_dropWhile_not p text
    cases hcontent : text.dropWhile p with
    | nil =>
      rw [hcontent] at hcons
      cases hcons
      exact hp
    | cons d tail =>
      rw [hcontent] at hcons hfirst
      cases hcons
      simpa using hfirst
  conv_lhs => rw [← List.takeWhile_append_dropWhile (p := p) (l := text), List.append_assoc]
  exact Cursor.eatWhile_of_word (fun b hb => List.mem_takeWhile_imp hb) hstop

theorem eatLine_closing (pos : Nat) (text after : List UInt8) :
    (⟨pos, text ++ closing after⟩ : Cursor).eatLine
      = ⟨pos + (text.takeWhile (! Byte.isBreak ·)).length,
          text.dropWhile (! Byte.isBreak ·) ++ closing after⟩ :=
  eatWhile_closing rfl pos text after

theorem line_closing (pos : Nat) (text after : List UInt8) :
    (⟨pos, text ++ closing after⟩ : Cursor).line = text.takeWhile (! Byte.isBreak ·) := by
  have hrest := (⟨pos, text ++ closing after⟩ : Cursor).takes_eatLine.rest
  rw [eatLine_closing, ← List.append_assoc] at hrest
  have hline := List.append_cancel_right hrest
  conv_lhs at hline => rw [← List.takeWhile_append_dropWhile (p := (! Byte.isBreak ·)) (l := text)]
  exact (List.append_cancel_right hline).symm

/-- A line end of the text is white, or takes the line feed behind the text too. -/
theorem lineEnd_unclosed (hb : Byte.isBreak b = true) (h : Unclosed (b :: more))
    (after : List UInt8) :
    (more = [] ∧ Cursor.breakLength (b :: more ++ closing after) = 2) ∨
    ∃ ending back, b :: more = ending ++ back ∧ ending ≠ [] ∧ White ending ∧ Unclosed back ∧
      Cursor.breakLength (b :: more ++ closing after) = ending.length := by
  have hwhite := Byte.isWhite_of_isBreak hb
  have hone : White [b] := List.forall_mem_singleton.mpr hwhite
  have htail := h.behind_break hb
  cases more with
  | nil =>
    rcases Byte.isBreak_iff.mp hb with rfl | rfl
    · exact .inr ⟨_, [], rfl, List.cons_ne_nil _ _, hone, unclosed_nil, rfl⟩
    · exact .inl ⟨rfl, rfl⟩
  | cons d more =>
    right
    by_cases hd : (Byte.isBreak d && d != b) = true
    · have hbreak := ((Bool.and_eq_true _ _).mp hd).1
      refine ⟨[b, d], more, rfl, List.cons_ne_nil _ _, ?_, htail.behind_break hbreak, ?_⟩
      · exact List.forall_mem_cons.mpr
          ⟨hwhite, List.forall_mem_singleton.mpr (Byte.isWhite_of_isBreak hbreak)⟩
      · simp only [List.cons_append, Cursor.breakLength, hb, hd, if_true]
        rfl
    · refine ⟨[b], d :: more, rfl, List.cons_ne_nil _ _, hone, htail, ?_⟩
      simp only [List.cons_append, Cursor.breakLength, hb, if_true, if_neg hd]
      rfl

/-- The parenthesis that closes the text is no blank. -/
theorem eatBlanks_close (pos : Nat) (after : List UInt8) :
    (⟨pos, Byte.closeParen :: after⟩ : Cursor).eatBlanks = ⟨pos, Byte.closeParen :: after⟩ := by
  apply Cursor.eatWhile_of_head
  rintro b tail ⟨⟩
  rfl

/-- Behind a line end and blanks stands the parenthesis that closes the text, if the
text has been white, or its next line. -/
theorem nextLine_unclosed (hr : c.rest = text ++ closing after) (hend : c.atLineEnd = true)
    (h : Unclosed text) :
    (White text ∧
      c.eatBreak.eatBlanks = ⟨c.pos + text.length + 1, Byte.closeParen :: after⟩) ∨
    ∃ front content, text = front ++ content ∧ front ≠ [] ∧ White front ∧ Unclosed content ∧
      (∀ b tail, content = b :: tail → Byte.isBlank b = false) ∧
      c.eatBreak.eatBlanks = ⟨c.pos + front.length, content ++ closing after⟩ := by
  cases text with
  | nil =>
    left
    have hrest : c.rest = [Byte.lineFeed] ++ Byte.closeParen :: after := hr
    rw [Cursor.eatBreak_of_length hrest (by rw [hr]; rfl), eatBlanks_close]
    exact ⟨white_nil, rfl⟩
  | cons b more =>
    have hb : Byte.isBreak b = true := by
      rw [Cursor.atLineEnd, hr] at hend
      exact hend
    rcases lineEnd_unclosed hb h after with
      ⟨rfl, hlength⟩ | ⟨ending, back, htext, hne, hwhite, hback, hlength⟩
    · -- the last break of the text and the line feed behind it are one line end
      left
      have hrest : c.rest = [b, Byte.lineFeed] ++ Byte.closeParen :: after := hr
      rw [Cursor.eatBreak_of_length hrest (by rw [hr, hlength]; rfl), eatBlanks_close]
      exact ⟨List.forall_mem_singleton.mpr (Byte.isWhite_of_isBreak hb), rfl⟩
    · right
      refine ⟨ending ++ back.takeWhile Byte.isBlank, back.dropWhile Byte.isBlank, ?_,
        List.append_ne_nil_of_left_ne_nil hne _, hwhite.append (white_blanks back),
        hback.behind_blanks, ?_, ?_⟩
      · rw [List.append_assoc, List.takeWhile_append_dropWhile, htext]
      · intro b tail hcons
        simpa [hcons] using List.head?_dropWhile_not Byte.isBlank back
      · have hrest : c.rest = ending ++ (back ++ closing after) := by
          rw [hr, htext, List.append_assoc]
        rw [Cursor.eatBreak_of_length hrest (by rw [hr, hlength]), Cursor.eatBlanks,
          eatWhile_closing rfl, List.length_append, Nat.add_assoc]

/-- A line of the text that does not start with a blank is covered, and then the lines
below it. -/
theorem parenLines_line (range : Option (Nat × Nat)) (pos : Nat) (h : Unclosed text)
    (hfirst : ∀ b tail, text = b :: tail → Byte.isBlank b = false) (after : List UInt8) :
    parenLines range ⟨pos, text ++ closing after⟩
      = parenLines (cover range pos (text.takeWhile (! Byte.isBreak ·)))
          (⟨pos + (text.takeWhile (! Byte.isBreak ·)).length,
            text.dropWhile (! Byte.isBreak ·) ++ closing after⟩ : Cursor).eatBreak.eatBlanks := by
  obtain ⟨b, tail, hcons, hb⟩ : ∃ b tail, text ++ closing after = b :: tail ∧
      b ≠ Byte.closeParen := by
    cases text with
    | nil => exact ⟨Byte.lineFeed, _, rfl, by decide⟩
    | cons b more => exact ⟨b, _, rfl, h.head⟩
  let c : Cursor := ⟨pos, text ++ closing after⟩
  have hcover : widen range pos c.textEnd = cover range pos c.line := by
    refine cover_line (fun b hb => Cursor.isBreak_of_mem_line hb) ?_ range pos
    intro b tail hline
    rw [line_closing] at hline
    refine hfirst b (tail ++ text.dropWhile (! Byte.isBreak ·)) ?_
    rw [← List.cons_append, ← hline, List.takeWhile_append_dropWhile]
  rw [parenLines_cons hcons, if_neg hb, hcover, line_closing, eatLine_closing]

/-- Below a line end the text is read to the parenthesis that closes it, and covered. -/
theorem parenLines_unclosed (range : Option (Nat × Nat)) (hr : c.rest = text ++ closing after)
    (hend : c.atLineEnd = true) (h : Unclosed text) :
    parenLines range c.eatBreak.eatBlanks
      = (cover range c.pos text, ⟨c.pos + text.length + 1, Byte.closeParen :: after⟩) := by
  induction hn : text.length using Nat.strong_induction_on generalizing text c range with
  | _ n ih =>
    rcases nextLine_unclosed hr hend h with
      ⟨hwhite, hnext⟩ | ⟨front, content, htext, hne, hwhite, hcontent, hfirst, hnext⟩
    · rw [hnext, parenLines_close, cover_white hwhite, hn]
    · have hline := parenLines_line range (c.pos + front.length) hcontent hfirst after
      have hrest := hcontent.behind_line
      have hdend := (⟨c.pos + front.length, content ++ closing after⟩ : Cursor).atLineEnd_eatLine
      rw [eatLine_closing] at hdend
      have hsplit : content = content.takeWhile (! Byte.isBreak ·)
          ++ content.dropWhile (! Byte.isBreak ·) := List.takeWhile_append_dropWhile.symm
      generalize content.takeWhile (! Byte.isBreak ·) = line at *
      generalize content.dropWhile (! Byte.isBreak ·) = rest at *
      have hlength : n = front.length + (line.length + rest.length) := by
        rw [← hn, htext, hsplit, List.length_append, List.length_append]
      have hlt : rest.length < n := by
        have := List.length_pos_iff.mpr hne
        omega
      have hcover : cover range c.pos text
          = cover (cover range (c.pos + front.length) line)
            (c.pos + front.length + line.length) rest := by
        rw [htext, hsplit, cover_append, cover_white hwhite, cover_append]
      rw [hnext, hline, ih rest.length hlt _ rfl hdend hrest rfl, hcover, hlength]
      simp only [Nat.add_assoc]

/-! ## Documents -/

/-- The event pair of the text at `pos`, from its first byte to its last one that are
not white; none if all are white. -/
def textEvents (pos : Nat) (text : List UInt8) : List Event :=
  if text.all Byte.isWhite then []
  else Part.text.events (pos + (text.takeWhile Byte.isWhite).length)
    (pos + (text.rdropWhile Byte.isWhite).length)

theorem events_cover (pos : Nat) (text : List UInt8) :
    ((cover none pos text).map fun (start, stop) => Part.text.events start stop).getD []
      = textEvents pos text := by
  rw [textEvents]
  by_cases h : White text
  · rw [cover_white h, if_pos (List.all_eq_true.mpr h)]
    rfl
  · rw [cover_of_not_white h, if_neg (by simpa using h)]
    rfl

/-- A directive that bears text opens a parenthesis, and the text is read to the one that
closes it. -/
theorem run_parenText {line : Line} {contexts : List Nat} (hopen : line.opened = false)
    (htext : line.kind.hasTextBody = true) (h : Unclosed text) :
    Run limit ⟨⟨pos, Byte.space :: Byte.openParen :: Byte.lineFeed :: (text ++ closing after)⟩,
        [.tail line, .items], contexts⟩
      (textEvents (pos + 3) text)
      ⟨⟨pos + 3 + text.length + 2, after⟩, [.lineEnd .paren, .items], contexts⟩ := by
  have hspace : ∀ b ∈ [Byte.space], Byte.isBlank b = true := List.forall_mem_singleton.mpr rfl
  have hparen : Run limit
      ⟨⟨pos, [Byte.space] ++ Byte.openParen :: Byte.lineFeed :: (text ++ closing after)⟩,
        [.tail line, .items], contexts⟩ []
      ⟨⟨pos + 2, Byte.lineFeed :: (text ++ closing after)⟩,
        [.tail { line with opened := true }, .items], contexts⟩ :=
    .of_rule_behind hspace (by simp) (.textParen hopen rfl rfl htext)
  let c : Cursor := ⟨pos + 2, Byte.lineFeed :: text ++ closing after⟩
  have hline : Run limit ⟨c, [.tail { line with opened := true }, .items], contexts⟩ []
      ⟨c.eatBreak, [.body { line with opened := true }, .items], contexts⟩ :=
    .of_rule (.lineOver rfl)
  have hlines : parenLines none c.eatBreak.eatBlanks
      = (cover none (pos + 3) text, ⟨pos + 3 + text.length + 1, Byte.closeParen :: after⟩) := by
    have hfeed : White [Byte.lineFeed] := List.forall_mem_singleton.mpr rfl
    have hcover : cover none (pos + 2) ([Byte.lineFeed] ++ text) = cover none (pos + 3) text := by
      rw [cover_append, cover_white hfeed]
      rfl
    have hstop : pos + 2 + ([Byte.lineFeed] ++ text).length + 1 = pos + 3 + text.length + 1 := by
      rw [List.length_append, List.length_singleton]
      omega
    have hread := parenLines_unclosed none (c := c) rfl rfl (h.before_break rfl)
    rwa [← List.singleton_append, hcover, hstop] at hread
  have hbody : Run limit ⟨c.eatBreak, [.body { line with opened := true }, .items], contexts⟩
      (textEvents (pos + 3) text)
      ⟨⟨pos + 3 + text.length + 2, after⟩, [.lineEnd .paren, .items], contexts⟩ := by
    have hrule : Performs limit ⟨c.eatBreak, [.items], contexts⟩
        (.body { line with opened := true }) _ := .parenText rfl htext hlines rfl
    rw [events_cover] at hrule
    exact .of_rule hrule
  exact hparen.trans (hline.trans hbody)

end Scan

/-- Whatever stands in parentheses below a description is its text, if no line of it
starts with a closing parenthesis. -/
theorem parenthesised_opaque {limit : Nat} {text : List UInt8} {source : Source}
    (hbytes : source.bytes = Utf8.bytes "Description (\n" ++ (text ++ Utf8.bytes "\n)\n"))
    (htext : Scan.Unclosed text) :
    source.scan limit = .ok (Part.keyword.events 0 11 ++ Scan.textEvents 14 text) := by
  let word := Utf8.bytes "Description"
  have hspells : Keyword.Spells word .description := .inl (by decide)
  have hsource : source.bytes = word ++ Byte.space :: Byte.openParen :: Byte.lineFeed
      :: (text ++ Scan.closing [Byte.lineFeed]) := by
    rw [hbytes]
    rfl
  have hkeyword : Scan.Run limit (.start source.bytes) (Part.keyword.events 0 11)
      ⟨⟨11, Byte.space :: Byte.openParen :: Byte.lineFeed
        :: (text ++ Scan.closing [Byte.lineFeed])⟩,
        [.tail { kind := .description }, .items], []⟩ := by
    rw [hsource]
    exact Scan.run_keyword hspells rfl
  have hend : Scan.Run limit
      ⟨⟨14 + text.length + 2, [Byte.lineFeed]⟩, [.lineEnd .paren, .items], []⟩ []
      ⟨⟨14 + text.length + 3, []⟩, [.items], []⟩ := Scan.run_lineEnd (by rintro b tail ⟨⟩)
  have hrun := hkeyword.trans ((Scan.run_parenText rfl rfl htext).trans hend)
  rw [List.append_nil] at hrun
  exact hrun.scan_eq

/-- A text with a directive that opens a context, the marks of comments, a quote and
parentheses, between line ends of three kinds. -/
theorem parenthesised_opaque_marks :
    let text := Utf8.bytes "\r\n GET /a (\n\r/# b \"c\r\r \t( )# d\nDescription (\t\n \r"
    let source : Source :=
      ⟨"", Utf8.bytes "Description (\n" ++ (text ++ Utf8.bytes "\n)\n"), by decide⟩
    Scan.Unclosed text ∧
      source.scan 0 = .ok (Part.keyword.events 0 11 ++ Part.text.events 17 58) := by
  intro text source
  have htext : Scan.Unclosed text := by
    decide +kernel
  have hevents : Scan.textEvents 14 text = Part.text.events 17 58 := by
    decide +kernel
  exact ⟨htext, hevents ▸ parenthesised_opaque rfl htext⟩

end ApiDoc
