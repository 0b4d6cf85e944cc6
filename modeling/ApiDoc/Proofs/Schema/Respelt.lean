import ApiDoc.Proofs.Schema.Locality
import ApiDoc.Proofs.Schema.Stops
import ApiDoc.Proofs.Text.Respelling

/-!
# Schemas in a respelt text

A reader of schemas does the same in a text and in its respelling: it takes the
same word, respelt, or stops at the same place with the same complaint
(`body_text`). Between brackets and in rules breaks are passed over one by one,
so that their number does not matter; in a string a break is an error, unless a
backslash hides it, and it hides no more than one byte.
-/

namespace ApiDoc

/-- The result of a reader in the respelt text. -/
def Respelling.reading (r : Respelling) {α : Type} (g : α → α) :
    Except Schema.Stop α → Except Schema.Stop α
  | .ok a => .ok (g a)
  | .error stop => .error ⟨stop.complaint, r.text stop.rest⟩

namespace Schema

open Respelling

variable {r : Respelling} {bytes : List UInt8}

/-- A break is none of the marks of a schema. -/
theorem ne_of_isBreak {b x : UInt8} (hb : Byte.isBreak b = true) (hx : Byte.isBreak x = false) :
    b ≠ x := by
  rintro rfl
  rw [hx] at hb
  cases hb

/-! ## Strings and remarks -/

theorem quoted_text {d : Delimiter} (hd : Byte.isBreak d.close = false) {escaped : Bool}
    (hs : r.Suits bytes)
    (hescaped : escaped = true → ∀ b tail, bytes = b :: tail → ∃ x, r.spell b = [x]) :
    quoted d escaped (r.text bytes) = r.reading r.text (quoted d escaped bytes) := by
  fun_induction quoted d escaped bytes with
  | case1 => rfl
  | case2 b tail ih =>
    obtain ⟨x, hx⟩ := hescaped rfl b tail rfl
    rw [text_cons, hx]
    exact ih hs.tail fun hfalse => absurd hfalse Bool.false_ne_true
  | case3 b tail hbreak =>
    obtain ⟨x, more, htext, hx⟩ := text_break (r := r) hbreak tail
    rw [htext, quoted, if_pos hx, ← htext]
    rfl
  | case4 tail _ ih =>
    rw [text_plain rfl, quoted, if_neg (by decide), if_pos rfl]
    refine ih hs.tail ?_
    rintro - b more rfl
    exact hs.escapes (List.suffix_refl _)
  | case5 tail hbreak hback =>
    rw [text_plain hd, quoted, if_neg hbreak, if_neg hback, if_pos rfl]
    rfl
  | case6 b tail hbreak hback hclose ih =>
    rw [text_plain (by simpa using hbreak), quoted, if_neg hbreak, if_neg hback, if_neg hclose]
    exact ih hs.tail fun hfalse => absurd hfalse Bool.false_ne_true

theorem string_text (hs : r.Suits bytes) :
    quoted .string false (r.text bytes) = r.reading r.text (quoted .string false bytes) :=
  quoted_text rfl hs fun hfalse => absurd hfalse Bool.false_ne_true

theorem comment_text (bytes : List UInt8) :
    comment (r.text bytes) = r.reading r.text (comment bytes) := by
  rw [comment, comment, afterClose?_text]
  cases Comment.afterClose? bytes with
  | none => rfl
  | some rest => rfl

/-- A string in rules is passed over. -/
theorem rules_string (depth : Nat) (bytes : List UInt8) :
    rules depth (Byte.quote :: bytes) = quoted .string false bytes >>= rules depth := by
  cases hq : quoted .string false bytes with
  | ok behind => exact rules_quote hq
  | error stop =>
    rw [rules.eq_def]
    simp only [if_neg (show Byte.quote ≠ Byte.openBrace by decide),
      if_neg (show Byte.quote ≠ Byte.closeBrace by decide), if_true]
    split
    · rename_i hy
      rw [hq] at hy
      cases hy
    · rename_i hstop
      rw [hq] at hstop
      cases hstop
      rfl

theorem rules_breaks {breaks : List UInt8} (h : ∀ b ∈ breaks, Byte.isBreak b = true)
    (depth : Nat) (bytes : List UInt8) : rules depth (breaks ++ bytes) = rules depth bytes := by
  induction breaks with
  | nil => rfl
  | cons b breaks ih =>
    have hb := h b List.mem_cons_self
    rw [List.cons_append, rules_cons (ne_of_isBreak hb rfl) (ne_of_isBreak hb rfl)
      (ne_of_isBreak hb rfl), ih fun d hd => h d (List.mem_cons_of_mem b hd)]

theorem rules_text {depth : Nat} (hs : r.Suits bytes) :
    rules depth (r.text bytes) = r.reading r.text (rules depth bytes) := by
  fun_induction rules depth bytes with
  | case1 =>
    rw [text_nil, rules.eq_def]
    rfl
  | case2 depth tail ih =>
    rw [text_plain rfl, rules.eq_def]
    exact ih hs.tail
  | case3 tail =>
    rw [text_plain rfl, rules.eq_def]
    rfl
  | case4 tail depth _ ih =>
    rw [text_plain rfl, rules.eq_def]
    exact ih hs.tail
  | case5 depth tail behind hq _ _ ih =>
    have hbehind : Keeps tail (.ok behind) := hq ▸ keeps_string tail
    rw [text_plain rfl, rules_string, string_text hs.tail, hq]
    exact ih (hs.tail.of_suffix hbehind)
  | case6 depth tail stop hq =>
    rw [text_plain rfl, rules_string, string_text hs.tail, hq]
    rfl
  | case7 depth b tail hopen hclose hquote ih =>
    rw [← ih hs.tail]
    cases hb : Byte.isBreak b with
    | false => rw [text_plain hb, rules_cons hopen hclose hquote]
    | true => rw [text_cons, rules_breaks (r.breaks hb).2]

theorem note_text (hs : r.Suits bytes) : note (r.text bytes) = r.reading r.text (note bytes) := by
  have hsuffix : bytes.dropWhile Byte.isBlank <:+ bytes := List.dropWhile_suffix _
  unfold note
  rw [dropWhile_text uniform_isBlank]
  generalize bytes.dropWhile Byte.isBlank = rest at hsuffix
  rcases r.head_cases rest with
    ⟨rfl, -⟩ | ⟨b, tail, rfl, hb, htext⟩ | ⟨b, tail, d, more, rfl, hb, htext, hd⟩
  · rfl
  · rw [htext]
    dsimp only
    by_cases hopen : b = Byte.openBrace
    · rw [if_pos hopen, if_pos hopen, rules_text (hs.of_suffix hsuffix).tail]
      cases rules 0 tail with
      | ok behind => exact congrArg Except.ok (toLineEnd_text behind)
      | error stop => rfl
    · rw [if_neg hopen, if_neg hopen, ← htext, toLineEnd_text]
      rfl
  · rw [htext]
    dsimp only
    rw [if_neg (ne_of_isBreak hd rfl), if_neg (ne_of_isBreak hb rfl), ← htext, toLineEnd_text]
    rfl

theorem remark?_text (hs : r.Suits bytes) :
    remark? (r.text bytes) = (remark? bytes).map (r.reading r.text) := by
  cases hr : remark? bytes with
  | some result =>
    rw [Option.map_some, remark?_eq_some_iff]
    rcases remark?_eq_some_iff.mp hr with ⟨x, rfl, rfl⟩ | ⟨x, rfl, rfl⟩ | ⟨x, rfl, rfl⟩
    · refine .inl ⟨r.text x, text_plain rfl x, ?_⟩
      rw [toLineEnd_text]
      rfl
    · refine .inr (.inl ⟨r.text x, ?_, (note_text hs.tail.tail).symm⟩)
      rw [text_plain rfl, text_plain rfl]
    · refine .inr (.inr ⟨r.text x, ?_, (comment_text x).symm⟩)
      rw [text_plain rfl, text_plain rfl]
  | none =>
    -- a remark in the respelt text opens with bytes that are kept
    have hnone : ∀ word {rest : List UInt8}, (∀ b ∈ word, Byte.isBreak b = false) →
        (∀ tail, ∃ result, remark? (word ++ tail) = some result) → r.text bytes ≠ word ++ rest := by
      intro word rest hword hopens heq
      obtain ⟨tail, rfl, -⟩ := of_text_eq_append hword heq
      obtain ⟨result, hresult⟩ := hopens tail
      rw [hr] at hresult
      cases hresult
    cases htext : remark? (r.text bytes) with
    | none => rfl
    | some result =>
      exfalso
      rcases remark?_eq_some_iff.mp htext with ⟨x, hx, -⟩ | ⟨x, hx, -⟩ | ⟨x, hx, -⟩
      · exact hnone [Byte.hash] (List.forall_mem_singleton.mpr rfl)
          (fun tail => ⟨_, remark?_eq_some_iff.mpr (.inl ⟨tail, rfl, rfl⟩)⟩) hx
      · exact hnone [Byte.slash, Byte.slash]
          (List.forall_mem_cons.mpr ⟨rfl, List.forall_mem_singleton.mpr rfl⟩)
          (fun tail => ⟨_, remark?_eq_some_iff.mpr (.inr (.inl ⟨tail, rfl, rfl⟩))⟩) hx
      · exact hnone [Byte.slash, Byte.hash]
          (List.forall_mem_cons.mpr ⟨rfl, List.forall_mem_singleton.mpr rfl⟩)
          (fun tail => ⟨_, remark?_eq_some_iff.mpr (.inr (.inr ⟨tail, rfl, rfl⟩))⟩) hx

/-! ## Values -/

/-- Trivia that cannot be read stop the reader. -/
theorem trivia_stop {stop : Stop} (h : remark? bytes = some (.error stop)) :
    trivia bytes = .error stop := by
  cases bytes with
  | nil => cases h
  | cons b tail =>
    rw [trivia.eq_def]
    simp only [not_isWhite_of_remark? h, if_neg Bool.false_ne_true]
    split
    · rename_i hr
      rw [h] at hr
      cases hr
    · rename_i hr
      rw [h] at hr
      cases hr
      rfl
    · rename_i hr
      rw [h] at hr
      cases hr

theorem trivia_text (hs : r.Suits bytes) :
    trivia (r.text bytes) = r.reading r.text (trivia bytes) := by
  fun_induction trivia bytes with
  | case1 => rw [text_nil, trivia.eq_def]; rfl
  | case2 b tail hwhite ih =>
    rw [text_cons, trivia_whites fun d hd => (spell_uniform uniform_isWhite b d hd).trans hwhite]
    exact ih hs.tail
  | case3 b tail hwhite behind hr ih =>
    have hbehind : Keeps (b :: tail) (.ok behind) := keeps_remark? hr
    have htext : remark? (r.text (b :: tail)) = some (.ok (r.text behind)) := by
      rw [remark?_text hs, hr]
      rfl
    rw [trivia_remark htext]
    exact ih (hs.of_suffix hbehind)
  | case4 b tail hwhite stop hr =>
    exact trivia_stop (by rw [remark?_text hs, hr]; rfl)
  | case5 b tail hwhite hr =>
    have hb : Byte.isBreak b = false :=
      (Byte.isWhite_eq_false_iff.mp (by simpa using hwhite)).2
    have hnone : remark? (r.text (b :: tail)) = none := by
      rw [remark?_text hs, hr]
      rfl
    rw [text_plain hb] at hnone ⊢
    rw [trivia_none hwhite hnone]
    exact congrArg Except.ok (text_plain hb tail).symm

theorem seek_text {closers : List UInt8} (hs : r.Suits bytes) :
    seek closers (r.text bytes) = r.reading r.text (seek closers bytes) := by
  cases closers with
  | nil => rfl
  | cons closer outer => exact trivia_text hs

/-- Trivia end before a byte that is not white. -/
theorem trivia_head {b : UInt8} {rest : List UInt8} (h : trivia bytes = .ok (b :: rest)) :
    Byte.isWhite b = false := by
  fun_induction trivia bytes with
  | case1 => cases h
  | case2 _ _ _ ih => exact ih h
  | case3 _ _ _ _ _ ih => exact ih h
  | case4 => cases h
  | case5 _ _ hwhite =>
    cases h
    simpa using hwhite

variable (bytes) in
/-- The text does not start with a break. -/
def Headed : Prop :=
  ∀ b tail, bytes = b :: tail → Byte.isBreak b = false

theorem seek_head {closers rest : List UInt8} {b : UInt8} (hhead : closers = [] → Headed bytes)
    (h : seek closers bytes = .ok (b :: rest)) : Byte.isBreak b = false := by
  cases closers with
  | nil =>
    cases h
    exact hhead rfl b rest rfl
  | cons closer outer => exact (Byte.isWhite_eq_false_iff.mp (trivia_head h)).2

theorem token_text {closers rest : List UInt8} {b : UInt8} (hb : Byte.isBreak b = false)
    (hs : r.Suits rest) :
    token closers b (r.text rest)
      = r.reading (fun x => (x.1, r.text x.2)) (token closers b rest) := by
  unfold token
  split
  · rfl
  · split
    · rfl
    · split
      · rfl
      · split
        · rfl
        · split
          · rw [string_text hs]
            cases quoted .string false rest with
            | ok behind => rfl
            | error stop => rfl
          · split
            · have huniform : Uniform isScalarByte := uniform_of_eq (v := false) fun d hd => by
                by_contra hscalar
                rw [Bool.not_eq_false] at hscalar
                rw [(Byte.isWhite_eq_false_iff.mp (not_isWhite_of_isScalarByte hscalar)).2] at hd
                cases hd
              rw [dropWhile_text huniform]
              rfl
            · rw [← text_plain hb]
              rfl

/-- The token behind the trivia, in the respelt text. -/
theorem value_text_of_seek {closers tail : List UInt8} {b : UInt8} (hs : r.Suits bytes)
    (hhead : closers = [] → Headed bytes) (hsought : seek closers bytes = .ok (b :: tail)) :
    value closers (r.text bytes) =
      match r.reading (fun x => (x.1, r.text x.2)) (token closers b tail) with
      | .error stop => .error stop
      | .ok ([], behind) => .ok behind
      | .ok (closer :: outer, behind) => value (closer :: outer) behind := by
  have hb := seek_head hhead hsought
  have hkeeps : Keeps bytes (.ok (b :: tail)) := hsought ▸ keeps_seek closers bytes
  have hplain : r.reading r.text (.ok (b :: tail)) = .ok (b :: r.text tail) :=
    congrArg Except.ok (text_plain hb tail)
  have hvalue := value_eq closers (r.text bytes)
  rw [seek_text hs, hsought, hplain] at hvalue
  dsimp only at hvalue
  rw [token_text hb (hs.of_suffix hkeeps).tail] at hvalue
  exact hvalue

theorem value_text {closers : List UInt8} (hs : r.Suits bytes)
    (hhead : closers = [] → Headed bytes) :
    value closers (r.text bytes) = r.reading r.text (value closers bytes) := by
  fun_induction value closers bytes with
  | case1 closers bytes stop hsought =>
    rw [value_eq, seek_text hs, hsought]
    rfl
  | case2 closers bytes hsought =>
    rw [value_eq, seek_text hs, hsought]
    rfl
  | case3 closers bytes b tail hsought stop htoken =>
    rw [value_text_of_seek hs hhead hsought, htoken]
    rfl
  | case4 closers bytes b tail hsought behind htoken =>
    rw [value_text_of_seek hs hhead hsought, htoken]
    rfl
  | case5 closers bytes b tail hsought closer outer behind htoken ih =>
    have hkeeps : Keeps bytes (.ok (b :: tail)) := hsought ▸ keeps_seek closers bytes
    have hbehind := keeps_token closers b tail
    rw [htoken] at hbehind
    rw [value_text_of_seek hs hhead hsought, htoken]
    exact ih ((hs.of_suffix hkeeps).of_suffix hbehind) fun hnil =>
      absurd hnil (List.cons_ne_nil closer outer)

/-! ## Whole bodies -/

theorem regex_text (hs : r.Suits bytes) (hhead : Headed bytes) :
    regex (r.text bytes) = r.reading r.text (regex bytes) := by
  cases bytes with
  | nil => rfl
  | cons b tail =>
    have hb := hhead b tail rfl
    rw [text_plain hb, regex, regex]
    split
    · exact quoted_text rfl hs.tail fun hfalse => absurd hfalse Bool.false_ne_true
    · rw [← text_plain hb]
      rfl

/-- The rest of a line is read remark by remark. -/
theorem trailing_eq (bytes : List UInt8) :
    trailing bytes =
      match bytes.dropWhile Byte.isBlank with
      | [] => .ok bytes
      | b :: rest =>
        if Byte.isBreak b then .ok bytes
        else
          match remark? (b :: rest) with
          | some (.ok behind) => trailing behind
          | some (.error stop) => .error stop
          | none =>
            .error ⟨.invalidByte b "after schema" "end of line or annotation", b :: rest⟩ := by
  rw [trailing.eq_def]
  split
  · rename_i hb
    rw [hb]
  · rename_i hb
    rw [hb]
    dsimp only
    split
    · rfl
    · split
      · rename_i hr
        rw [hr]
      · rename_i hr
        rw [hr]
      · rename_i hr
        rw [hr]

/-- The next remark on the line, in the respelt text. -/
theorem trailing_text_of_head {b : UInt8} {tail : List UInt8} (hs : r.Suits (b :: tail))
    (hb : bytes.dropWhile Byte.isBlank = b :: tail) (hbreak : ¬ Byte.isBreak b = true) :
    trailing (r.text bytes) =
      match (remark? (b :: tail)).map (r.reading r.text) with
      | some (.ok behind) => trailing behind
      | some (.error stop) => .error stop
      | none => .error ⟨.invalidByte b "after schema" "end of line or annotation",
          r.text (b :: tail)⟩ := by
  have htext : r.text (b :: tail) = b :: r.text tail := text_plain (by simpa using hbreak) tail
  rw [trailing_eq, dropWhile_text uniform_isBlank, hb, ← remark?_text hs, htext]
  exact if_neg hbreak

theorem trailing_text (hs : r.Suits bytes) :
    trailing (r.text bytes) = r.reading r.text (trailing bytes) := by
  have hsuits : ∀ {bytes b tail}, r.Suits bytes → bytes.dropWhile Byte.isBlank = b :: tail →
      r.Suits (b :: tail) := by
    intro bytes b tail hs h
    rw [← h]
    exact hs.of_suffix (List.dropWhile_suffix _)
  fun_induction trailing bytes with
  | case1 bytes hnil =>
    rw [trailing_eq, dropWhile_text uniform_isBlank, hnil]
    rfl
  | case2 bytes b tail hb hbreak =>
    obtain ⟨d, more, htext, hd⟩ := text_break (r := r) hbreak tail
    rw [trailing_eq, dropWhile_text uniform_isBlank, hb, htext]
    exact if_pos hd
  | case3 bytes b tail hb hbreak behind hr ih =>
    have hbehind : Keeps (b :: tail) (.ok behind) := keeps_remark? hr
    rw [trailing_text_of_head (hsuits hs hb) hb hbreak, hr]
    exact ih ((hsuits hs hb).of_suffix hbehind)
  | case4 bytes b tail hb hbreak stop hr =>
    rw [trailing_text_of_head (hsuits hs hb) hb hbreak, hr]
    rfl
  | case5 bytes b tail hb hbreak hr =>
    rw [trailing_text_of_head (hsuits hs hb) hb hbreak, hr]
    rfl

theorem body_text {grammar : Grammar} (hs : r.Suits bytes) (hhead : Headed bytes) :
    body grammar (r.text bytes) = r.reading r.text (body grammar bytes) := by
  have hbare : bare grammar (r.text bytes) = r.reading r.text (bare grammar bytes) := by
    cases grammar with
    | jsight => exact value_text hs fun _ => hhead
    | regex => exact regex_text hs hhead
  have hkeeps : Keeps bytes (bare grammar bytes) := by
    cases grammar with
    | jsight => exact keeps_value [] bytes
    | regex => exact keeps_regex bytes
  rw [body, body, hbare]
  cases hrest : bare grammar bytes with
  | error stop => rfl
  | ok rest =>
    rw [hrest] at hkeeps
    exact trailing_text (hs.of_suffix hkeeps)

/-! ## Extent -/

/-- A body that is read has the extent of its word, respelt or not. -/
theorem extent_text {grammar : Grammar} {n : Nat} (hs : r.Suits bytes) (hhead : Headed bytes)
    (h : extent grammar bytes = .ok n) :
    ∃ word rest, bytes = word ++ rest ∧ Solid word ∧ n = word.length ∧
      extent grammar (r.text bytes) = .ok (r.text word).length := by
  rw [extent] at h ⊢
  rw [body_text hs hhead]
  cases hbody : body grammar bytes with
  | error stop =>
    rw [hbody] at h
    cases h
  | ok rest =>
    rw [hbody] at h
    cases h
    obtain ⟨⟨word, rfl, hword, -⟩, -⟩ := body_local hbody
    refine ⟨word, rest, rfl, hword, ?_, ?_⟩
    · rw [List.length_append, Nat.add_sub_cancel]
    · show Except.ok _ = Except.ok _
      rw [text_append, List.length_append, Nat.add_sub_cancel]

/-- A body that is not read has its fault in the same place, or at the last
byte. -/
theorem extent_text_error {grammar : Grammar} {fault : Fault} (hs : r.Suits bytes)
    (hhead : Headed bytes) (h : extent grammar bytes = .error fault) :
    ∃ front, ∃ stop : Stop, bytes = front ++ stop.rest ∧ fault = stop.fault bytes.length ∧
      extent grammar (r.text bytes)
        = .error (Stop.fault (r.text bytes).length ⟨stop.complaint, r.text stop.rest⟩) := by
  have hkeeps := keeps_body grammar bytes
  rw [extent] at h ⊢
  rw [body_text hs hhead]
  cases hbody : body grammar bytes with
  | ok rest =>
    rw [hbody] at h
    cases h
  | error stop =>
    rw [hbody] at h hkeeps
    cases h
    obtain ⟨⟨front, hfront⟩, -⟩ := hkeeps
    exact ⟨front, stop, hfront.symm, rfl, rfl⟩

end Schema

end ApiDoc
