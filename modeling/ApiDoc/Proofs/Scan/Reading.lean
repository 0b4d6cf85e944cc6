import ApiDoc.Proofs.Text.Cursor
import ApiDoc.Scan.Tail
import ApiDoc.Text.Comment

/-!
# What the readers of the scanner take

A reader that runs over many bytes is described by the bytes it takes.

* **Comments and quotes** (`afterClose?_split`, `quotedRest_split`): the
  reader stops at the first closing mark and looks at nothing behind it, so
  the bytes behind may be exchanged.
* **Text** (`takes_eatLine_text`, `takes_parenLines`): what is taken is the text
  with white bytes around it, and the offsets returned are those of the text.
-/

namespace ApiDoc

/-- A block comment ends at its first `#/`, whatever stands behind. -/
theorem Comment.afterClose?_split {bytes rest : List UInt8} (h : afterClose? bytes = some rest) :
    ∃ inner, bytes = inner ++ Byte.hash :: Byte.slash :: rest ∧
      ∀ rest', afterClose? (inner ++ Byte.hash :: Byte.slash :: rest') = some rest' := by
  fun_induction afterClose? bytes with
  | case1 => cases h
  | case2 => cases h
  | case3 a b tail hab =>
    obtain ⟨rfl, rfl⟩ := hab
    cases h
    exact ⟨[], rfl, fun rest' => by simp [afterClose?]⟩
  | case4 a b tail hab ih =>
    obtain ⟨inner, hsplit, hrest⟩ := ih h
    refine ⟨a :: inner, by rw [hsplit, List.cons_append], ?_⟩
    intro rest'
    -- the byte behind `a` is still `b`, so `a` is passed over as before
    obtain ⟨more, hmore⟩ : ∃ more, inner ++ Byte.hash :: Byte.slash :: rest' = b :: more := by
      cases inner with
      | nil => exact ⟨_, by rw [(List.cons.inj hsplit).1, List.nil_append]⟩
      | cons c inner => exact ⟨_, by rw [(List.cons.inj hsplit).1, List.cons_append]⟩
    have := hrest rest'
    rw [hmore] at this
    rw [List.cons_append, hmore, afterClose?, if_neg hab, this]

namespace Scan

/-- A quoted parameter ends on its line at the first quote that counts,
whatever stands behind. -/
theorem quotedRest_split {escaped : Bool} {bytes rest : List UInt8}
    (h : quotedRest escaped bytes = Byte.quote :: rest) :
    ∃ inner, bytes = inner ++ Byte.quote :: rest ∧ (∀ b ∈ inner, Byte.isBreak b = false) ∧
      ∀ rest', quotedRest escaped (inner ++ Byte.quote :: rest') = Byte.quote :: rest' := by
  have step : ∀ {escaped escaped' : Bool} {b : UInt8} {tail : List UInt8},
      Byte.isBreak b = false →
      (∀ more, quotedRest escaped (b :: more) = quotedRest escaped' more) →
      (∃ inner, tail = inner ++ Byte.quote :: rest ∧ (∀ b ∈ inner, Byte.isBreak b = false) ∧
        ∀ rest', quotedRest escaped' (inner ++ Byte.quote :: rest') = Byte.quote :: rest') →
      ∃ inner, b :: tail = inner ++ Byte.quote :: rest ∧
        (∀ b ∈ inner, Byte.isBreak b = false) ∧
        ∀ rest', quotedRest escaped (inner ++ Byte.quote :: rest') = Byte.quote :: rest' := by
    rintro escaped escaped' b tail hb hnext ⟨inner, rfl, hline, hrest⟩
    refine ⟨b :: inner, rfl, ?_, ?_⟩
    · intro d hd
      rcases List.mem_cons.mp hd with rfl | hd
      · exact hb
      · exact hline d hd
    · intro rest'
      rw [List.cons_append, hnext, hrest]
  fun_induction quotedRest escaped bytes with
  | case1 => cases h
  | case2 escaped b tail hbreak =>
    obtain ⟨rfl, -⟩ := List.cons.inj h
    cases hbreak
  | case3 b tail hbreak ih =>
    rw [Bool.not_eq_true] at hbreak
    exact step hbreak (fun more => by simp [quotedRest, hbreak]) (ih h)
  | case4 escaped tail hesc hbreak ih =>
    obtain rfl : escaped = false := by simpa using hesc
    rw [Bool.not_eq_true] at hbreak
    exact step hbreak (fun more => by simp [quotedRest, hbreak]) (ih h)
  | case5 escaped tail hesc hbreak hback =>
    obtain rfl : escaped = false := by simpa using hesc
    rw [Bool.not_eq_true] at hbreak
    obtain ⟨-, rfl⟩ := List.cons.inj h
    exact ⟨[], rfl, by simp, fun rest' => by simp [quotedRest, hbreak, hback]⟩
  | case6 escaped b tail hbreak hesc hback hquote ih =>
    obtain rfl : escaped = false := by simpa using hesc
    rw [Bool.not_eq_true] at hbreak
    exact step hbreak (fun more => by simp [quotedRest, hbreak, hback, hquote]) (ih h)

/-- A quoted parameter is taken with its quotes, on one line. -/
theorem takes_quoted {c : Cursor} {tail rest : List UInt8} (hr : c.rest = Byte.quote :: tail)
    (h : quotedRest false tail = Byte.quote :: rest) :
    ∃ word, c.Takes word (c.moveTo (Byte.quote :: rest)).advance ∧ word ≠ [] ∧
      ∀ b ∈ word, Byte.isBreak b = false := by
  obtain ⟨inner, rfl, hline, -⟩ := quotedRest_split h
  have htakes : c.Takes (Byte.quote :: inner) (c.moveTo (Byte.quote :: rest)) :=
    Cursor.takes_moveTo hr
  refine ⟨_, htakes.trans (Cursor.takes_advance_one rfl), List.cons_ne_nil _ _, ?_⟩
  intro b hb
  rcases List.mem_append.mp hb with hb | hb
  · rcases List.mem_cons.mp hb with rfl | hb
    · decide
    · exact hline b hb
  · rw [List.mem_singleton.mp hb]
    decide

/-! ## Text -/

/-- The bytes are blanks and breaks. -/
abbrev White (bytes : List UInt8) : Prop :=
  ∀ b ∈ bytes, Byte.isWhite b = true

theorem white_nil : White [] :=
  fun _ hb => absurd hb List.not_mem_nil

theorem White.append {bytes more : List UInt8} (h : White bytes) (k : White more) :
    White (bytes ++ more) := by
  intro b hb
  rcases List.mem_append.mp hb with hb | hb
  · exact h b hb
  · exact k b hb

theorem white_blanks (bytes : List UInt8) : White (bytes.takeWhile Byte.isBlank) :=
  fun _ hb => Byte.isWhite_of_isBlank (List.mem_takeWhile_imp hb)

theorem white_break (bytes : List UInt8) : White (bytes.take (Cursor.breakLength bytes)) :=
  fun _ hb => Byte.isWhite_of_isBreak (Cursor.isBreak_of_mem_take_breakLength hb)

/-- A line is its text and white bytes. -/
theorem takes_eatLine_text (c : Cursor) :
    ∃ back, c.Takes (Cursor.trimEnd c.line ++ back) c.eatLine ∧ White back := by
  refine ⟨c.line.rtakeWhile Byte.isBlank, ?_, ?_⟩
  · rw [← c.line_eq]
    exact c.takes_eatLine
  · intro b hb
    exact Byte.isWhite_of_isBlank (Cursor.isBlank_of_mem_rtakeWhile hb)

/-- The text of a line does not end with a break. -/
theorem endsLine_trimEnd (c : Cursor) : endsLine (Cursor.trimEnd c.line) = false := by
  apply endsLine_of_forall
  intro b hb
  rw [Cursor.trimEnd_eq_rdropWhile] at hb
  exact Cursor.isBreak_of_mem_line ((List.rdropWhile_prefix _ _).subset hb)

theorem takes_eatBreak_text (c : Cursor) :
    ∃ back, c.Takes (Cursor.trimEnd c.line ++ back) c.eatLine.eatBreak ∧ White back := by
  obtain ⟨back, htakes, hback⟩ := takes_eatLine_text c
  refine ⟨_, ?_, hback.append (white_break c.eatLine.rest)⟩
  rw [← List.append_assoc]
  exact htakes.trans c.eatLine.takes_eatBreak

theorem takes_nextLine_text (c : Cursor) :
    ∃ back, c.Takes (Cursor.trimEnd c.line ++ back) c.eatLine.eatBreak.eatBlanks ∧
      White back := by
  obtain ⟨back, htakes, hback⟩ := takes_eatBreak_text c
  refine ⟨_, ?_, hback.append (white_blanks c.eatLine.eatBreak.rest)⟩
  rw [← List.append_assoc]
  exact htakes.trans c.eatLine.eatBreak.takes_eatBlanks

/-- Text in parentheses is taken with white bytes on both sides, or there are
only white bytes. -/
theorem takes_parenLines (range : Option (Nat × Nat)) (c : Cursor) :
    ∃ taken, c.Takes taken (parenLines range c).2 ∧
      ((parenLines range c).1 = range ∧ White taken ∨
        ∃ front text back, taken = front ++ text ++ back ∧ text ≠ [] ∧
          endsLine text = false ∧ White front ∧ White back ∧ (parenLines range c).1 =
            some ((range.map (·.1)).getD (c.pos + front.length),
              c.pos + front.length + text.length)) := by
  fun_induction parenLines range c with
  | case1 range c _ => exact ⟨[], .refl c, .inl ⟨rfl, white_nil⟩⟩
  | case2 range c _ _ => exact ⟨[], .refl c, .inl ⟨rfl, white_nil⟩⟩
  | case3 range c b tail hr hclose ih =>
    obtain ⟨taken, htakes, hrange⟩ := ih
    obtain ⟨white, hline, hwhite⟩ := takes_nextLine_text c
    refine ⟨_, hline.trans htakes, ?_⟩
    by_cases hnil : Cursor.trimEnd c.line = []
    · -- a white line leaves the range as it is
      have hsame : widen range c.pos c.textEnd = range := by
        simp [widen, Cursor.textEnd, hnil]
      rw [hnil, List.nil_append] at hline ⊢
      rw [hsame] at hrange ⊢
      rcases hrange with
        ⟨hkeep, hall⟩ | ⟨front, text, back, rfl, hne, hlast, hfront, hback, hsome⟩
      · exact .inl ⟨hkeep, hwhite.append hall⟩
      · refine .inr ⟨white ++ front, text, back, ?_, hne, hlast, hwhite.append hfront, hback, ?_⟩
        · rw [← List.append_assoc, ← List.append_assoc]
        · rw [hsome, hline.pos, List.length_append, Nat.add_assoc c.pos]
    · -- the text starts on this line, unless it started before
      have hlt : c.pos < c.textEnd := by
        have := List.length_pos_iff.mpr hnil
        rw [Cursor.textEnd]
        omega
      have hwiden : widen range c.pos c.textEnd = some ((range.map (·.1)).getD c.pos, c.textEnd) :=
        if_pos hlt
      rw [hwiden] at hrange ⊢
      rcases hrange with ⟨hkeep, hall⟩ | ⟨front, text, back, rfl, hne, hlast, -, hback, hsome⟩
      · refine .inr ⟨[], Cursor.trimEnd c.line, white ++ taken, ?_, hnil, endsLine_trimEnd c,
          white_nil, hwhite.append hall, ?_⟩
        · rw [List.nil_append, List.append_assoc]
        · rw [hkeep, List.length_nil, Nat.add_zero]
          rfl
      · refine .inr ⟨[], Cursor.trimEnd c.line ++ white ++ front ++ text, back, ?_, ?_, ?_,
          white_nil, hback, ?_⟩
        · rw [List.nil_append, ← List.append_assoc, ← List.append_assoc]
        · exact List.append_ne_nil_of_right_ne_nil _ hne
        · rwa [endsLine_append_of_ne_nil hne]
        · rw [hsome, hline.pos, List.length_nil, Nat.add_zero]
          simp only [Option.map_some, Option.getD_some, List.length_append, Option.some.injEq,
            Prod.mk.injEq, true_and]
          omega

end Scan

end ApiDoc
