import ApiDoc.Proofs.Scan.Reading
import ApiDoc.Schema.Extent

/-!
# Schemas are read locally

What a reader of schemas takes depends on what it takes and on little behind
it. `Local` says so of one reading: the bytes are a word and a rest, and the
same word is read before any other rest that will do.

* **Strings, comments, rules** stop at their closing mark: any rest will do.
* **Remarks** that run to the end of the line need a rest that ends it.
* **Values** end with a byte that is no part of a scalar, if they end with a
  scalar.
* **Bodies** (`body_local`) end their line: behind them stand blanks and a line
  end, and any such rest will do, as long as a line end is kept in its place.
-/

namespace ApiDoc.Schema

/-- Whether nothing more stands on the line. -/
def lineOver : List UInt8 → Bool
  | [] => true
  | b :: _ => Byte.isBreak b

/-- Whether only blanks stand on the rest of the line. -/
def quiet (bytes : List UInt8) : Bool :=
  lineOver (bytes.dropWhile Byte.isBlank)

/-- A line is over at a break and at the end of the document. -/
theorem lineOver_iff {bytes : List UInt8} :
    lineOver bytes = true ↔
      bytes = [] ∨ ∃ b tail, bytes = b :: tail ∧ Byte.isBreak b = true := by
  cases bytes with
  | nil => simp [lineOver]
  | cons b tail => simp [lineOver]

/-- A reading of `bytes` that leaves `rest`: the word taken satisfies `W`, and
before any rest that satisfies `C` the same word is taken. -/
def Local (Reads : List UInt8 → List UInt8 → Prop) (W C : List UInt8 → Prop)
    (bytes rest : List UInt8) : Prop :=
  ∃ word, bytes = word ++ rest ∧ W word ∧ ∀ rest', C rest' → Reads (word ++ rest') rest'

/-- A word that is there and does not end with a break. -/
def Solid (word : List UInt8) : Prop :=
  word ≠ [] ∧ endsLine word = false

section

variable {R R₁ R₂ : List UInt8 → List UInt8 → Prop} {W W₁ W₂ C C₁ : List UInt8 → Prop}
  {bytes behind rest : List UInt8} {b : UInt8}

/-- A reading that takes nothing. -/
theorem Local.empty (hW : W []) (h : ∀ rest', C rest' → R rest' rest') : Local R W C rest rest :=
  ⟨[], rfl, hW, h⟩

/-- One more byte before a reading. -/
theorem Local.cons (h : Local R₁ W₁ C bytes rest) (hW : ∀ word, W₁ word → W (b :: word))
    (hR : ∀ {x y}, R₁ x y → R (b :: x) y) : Local R W C (b :: bytes) rest := by
  obtain ⟨word, rfl, hword, hread⟩ := h
  exact ⟨b :: word, rfl, hW word hword, fun rest' hrest' => hR (hread rest' hrest')⟩

/-- Two readings, one behind the other. -/
theorem Local.bind (h₁ : Local R₁ W₁ C₁ bytes behind) (h₂ : Local R₂ W₂ C behind rest)
    (hW : ∀ v w, W₁ v → W₂ w → W (v ++ w))
    (hC : ∀ word rest', behind = word ++ rest → C rest' → C₁ (word ++ rest'))
    (hR : ∀ {x y z}, R₁ x y → R₂ y z → R x z) : Local R W C bytes rest := by
  obtain ⟨v, rfl, hv, hread⟩ := h₁
  obtain ⟨w, rfl, hw, hmore⟩ := h₂
  refine ⟨v ++ w, (List.append_assoc v w rest).symm, hW v w hv hw, ?_⟩
  intro rest' hrest'
  rw [List.append_assoc]
  exact hR (hread _ (hC w rest' rfl hrest')) (hmore rest' hrest')

theorem Local.imp (h : Local R₁ W₁ C bytes rest) (hW : ∀ word, W₁ word → W word)
    (hR : ∀ {x y}, R₁ x y → R x y) : Local R W C bytes rest := by
  obtain ⟨word, rfl, hword, hread⟩ := h
  exact ⟨word, rfl, hW word hword, fun rest' hrest' => hR (hread rest' hrest')⟩

end

/-! ## Solid words -/

theorem Solid.cons {word : List UInt8} (h : Solid word) (b : UInt8) : Solid (b :: word) := by
  refine ⟨List.cons_ne_nil b word, ?_⟩
  rw [← List.singleton_append, endsLine_append_of_ne_nil h.1]
  exact h.2

theorem Solid.append_left {word : List UInt8} (h : Solid word) (front : List UInt8) :
    Solid (front ++ word) := by
  refine ⟨List.append_ne_nil_of_right_ne_nil front h.1, ?_⟩
  rw [endsLine_append_of_ne_nil h.1]
  exact h.2

theorem Solid.append {word more : List UInt8} (h : Solid word) (hmore : endsLine more = false) :
    Solid (word ++ more) :=
  ⟨List.append_ne_nil_of_left_ne_nil h.1 more, endsLine_append h.2 hmore⟩

theorem solid_cons {b : UInt8} {word : List UInt8} (hb : Byte.isBreak b = false)
    (h : endsLine word = false) : Solid (b :: word) :=
  ⟨List.cons_ne_nil b word, endsLine_append (endsLine_singleton b ▸ hb) h⟩

/-! ## Strings and expressions -/

theorem quoted_local {d : Delimiter} {escaped : Bool} {bytes rest : List UInt8}
    (h : quoted d escaped bytes = .ok rest) :
    Local (fun x y => quoted d escaped x = .ok y) Solid (fun _ => True) bytes rest := by
  fun_induction quoted d escaped bytes with
  | case1 => cases h
  | case2 b tail ih =>
    refine (ih h).cons (fun word hword => hword.cons b) ?_
    intro x y hread
    rw [quoted]
    exact hread
  | case3 => cases h
  | case4 tail hbreak ih =>
    refine (ih h).cons (fun word hword => hword.cons _) ?_
    intro x y hread
    rw [quoted, if_neg hbreak, if_pos rfl]
    exact hread
  | case5 tail hbreak hback =>
    cases h
    rw [Bool.not_eq_true] at hbreak
    refine ⟨[d.close], rfl, solid_cons hbreak rfl, ?_⟩
    intro rest' _
    rw [List.singleton_append, quoted, if_neg (by simp [hbreak]), if_neg hback, if_pos rfl]
  | case6 b tail hbreak hback hclose ih =>
    refine (ih h).cons (fun word hword => hword.cons b) ?_
    intro x y hread
    rw [quoted, if_neg hbreak, if_neg hback, if_neg hclose]
    exact hread

/-! ## Remarks -/

theorem comment_local {bytes rest : List UInt8} (h : comment bytes = .ok rest) :
    Local (fun x y => comment x = .ok y) Solid (fun _ => True) bytes rest := by
  unfold comment at h
  split at h
  · rename_i behind hclose
    cases h
    obtain ⟨inner, rfl, hread⟩ := Comment.afterClose?_split hclose
    refine ⟨inner ++ [Byte.hash, Byte.slash], by simp, ?_, ?_⟩
    · exact Solid.append_left (solid_cons rfl rfl) inner
    · intro rest' _
      have := hread rest'
      simp only [comment, List.append_assoc, List.cons_append, List.nil_append, this]
  · cases h

/-- The rules behind a string. -/
theorem rules_quote {depth : Nat} {bytes behind : List UInt8}
    (h : quoted .string false bytes = .ok behind) :
    rules depth (Byte.quote :: bytes) = rules depth behind := by
  rw [rules.eq_def]
  simp only [if_neg (show Byte.quote ≠ Byte.openBrace by decide),
    if_neg (show Byte.quote ≠ Byte.closeBrace by decide), if_true]
  split
  · rename_i y hy
    rw [h] at hy
    cases hy
    rfl
  · rename_i stop hstop
    rw [h] at hstop
    cases hstop

/-- A byte that is no mark of the rules is passed over. -/
theorem rules_cons {b : UInt8} (hopen : b ≠ Byte.openBrace) (hclose : b ≠ Byte.closeBrace)
    (hquote : b ≠ Byte.quote) (depth : Nat) (bytes : List UInt8) :
    rules depth (b :: bytes) = rules depth bytes := by
  rw [rules.eq_def]
  simp only [if_neg hopen, if_neg hclose, if_neg hquote]

theorem rules_local {depth : Nat} {bytes rest : List UInt8} (h : rules depth bytes = .ok rest) :
    Local (fun x y => rules depth x = .ok y) Solid (fun _ => True) bytes rest := by
  fun_induction rules depth bytes with
  | case1 => cases h
  | case2 depth tail ih =>
    refine (ih h).cons (fun word hword => hword.cons _) ?_
    intro x y hread
    rw [rules.eq_def]
    simpa using hread
  | case3 tail hbrace =>
    cases h
    refine ⟨[Byte.closeBrace], rfl, solid_cons rfl rfl, ?_⟩
    intro rest' _
    rw [List.singleton_append, rules, if_neg hbrace, if_pos rfl]
  | case4 tail depth hbrace ih =>
    refine (ih h).cons (fun word hword => hword.cons _) ?_
    intro x y hread
    rw [rules, if_neg hbrace, if_pos rfl]
    exact hread
  | case5 depth tail behind hq hbrace hclose ih =>
    have hbehind : Local (fun x y => rules depth (Byte.quote :: x) = .ok y) Solid (fun _ => True)
        tail rest := by
      refine (quoted_local hq).bind (ih h) (fun v w _ hw => hw.append_left v)
        (fun _ _ _ _ => trivial) ?_
      intro x y z hx hy
      rw [rules_quote hx]
      exact hy
    exact hbehind.cons (fun word hword => hword.cons _) fun hread => hread
  | case6 => cases h
  | case7 depth b tail hbrace hclose hquote ih =>
    refine (ih h).cons (fun word hword => hword.cons b) ?_
    intro x y hread
    rw [rules.eq_def]
    simpa [hbrace, hclose, hquote] using hread

/-- Up to the end of the line. -/
theorem toLineEnd_local (bytes : List UInt8) :
    Local (fun x y => Comment.toLineEnd x = y) (endsLine · = false) (lineOver · = true) bytes
      (Comment.toLineEnd bytes) := by
  have hline : ∀ b ∈ bytes.takeWhile (! Byte.isBreak ·), (! Byte.isBreak b) = true :=
    fun b hb => List.mem_takeWhile_imp (p := (! Byte.isBreak ·)) hb
  refine ⟨bytes.takeWhile (! Byte.isBreak ·), List.takeWhile_append_dropWhile.symm, ?_, ?_⟩
  · apply endsLine_of_forall
    intro b hb
    simpa using hline b hb
  · intro rest' hover
    rw [Comment.toLineEnd, List.dropWhile_append_of_pos hline]
    cases rest' with
    | nil => rfl
    | cons b tail =>
      have hb : Byte.isBreak b = true := hover
      rw [List.dropWhile_cons_of_neg (by simp [hb])]

theorem lineOver_toLineEnd (bytes : List UInt8) : lineOver (Comment.toLineEnd bytes) = true := by
  cases hrest : Comment.toLineEnd bytes with
  | nil => rfl
  | cons b tail => exact Cursor.head_eatLine (c := ⟨0, bytes⟩) hrest

/-- At the end of a line an annotation is over. -/
theorem note_of_lineOver {bytes : List UInt8} (h : lineOver bytes = true) :
    note bytes = .ok bytes := by
  cases bytes with
  | nil => rfl
  | cons b tail =>
    have hb : Byte.isBreak b = true := h
    have hblank : ¬ Byte.isBlank b = true := by
      intro hblank
      rw [Byte.isBreak_eq_false_of_isBlank hblank] at hb
      cases hb
    have hbrace : b ≠ Byte.openBrace := by
      rintro rfl
      cases hb
    simp [note, List.dropWhile_cons_of_neg hblank, hbrace, Comment.toLineEnd, hb]

theorem note_local {bytes rest : List UInt8} (h : note bytes = .ok rest) :
    Local (fun x y => note x = .ok y) (endsLine · = false) (lineOver · = true) bytes rest ∧
      lineOver rest = true := by
  have hempty : ∀ rest, Local (fun x y => note x = .ok y) (endsLine · = false)
      (lineOver · = true) rest rest :=
    fun rest => .empty rfl fun rest' hover => note_of_lineOver hover
  induction bytes with
  | nil =>
    cases h
    exact ⟨hempty [], rfl⟩
  | cons b tail ih =>
    by_cases hblank : Byte.isBlank b = true
    · have hskip : ∀ x, note (b :: x) = note x := by
        intro x
        rw [note, List.dropWhile_cons_of_pos hblank, note]
      rw [hskip] at h
      obtain ⟨hlocal, hover⟩ := ih h
      refine ⟨hlocal.cons ?_ fun hread => (hskip _).trans hread, hover⟩
      intro word hword
      exact (solid_cons (Byte.isBreak_eq_false_of_isBlank hblank) hword).2
    · by_cases hbrace : b = Byte.openBrace
      · have hrules : ∀ x, note (b :: x) = (rules 0 x).map Comment.toLineEnd := by
          intro x
          rw [note, List.dropWhile_cons_of_neg hblank]
          simp [hbrace]
        rw [hrules] at h
        cases hr : rules 0 tail with
        | error stop =>
          rw [hr] at h
          cases h
        | ok behind =>
          rw [hr] at h
          cases h
          refine ⟨?_, lineOver_toLineEnd behind⟩
          have hbehind : Local (fun x y => note (b :: x) = .ok y) Solid (lineOver · = true) tail
              (Comment.toLineEnd behind) := by
            refine (rules_local hr).bind (toLineEnd_local behind) (fun v w hv hw => hv.append hw)
              (fun _ _ _ _ => trivial) ?_
            intro x y z hx hy
            rw [hrules, hx]
            exact congrArg Except.ok hy
          exact hbehind.cons (fun word hword => (hword.cons b).2) fun hread => hread
      · have hline : ∀ x, note (b :: x) = .ok (Comment.toLineEnd (b :: x)) := by
          intro x
          rw [note, List.dropWhile_cons_of_neg hblank]
          simp [hbrace]
        rw [hline] at h
        cases h
        refine ⟨?_, lineOver_toLineEnd _⟩
        cases hbreak : Byte.isBreak b with
        | true =>
          rw [show Comment.toLineEnd (b :: tail) = b :: tail by simp [Comment.toLineEnd, hbreak]]
          exact hempty _
        | false =>
          rw [show Comment.toLineEnd (b :: tail) = Comment.toLineEnd tail by
            simp [Comment.toLineEnd, hbreak]]
          refine (toLineEnd_local tail).cons (fun word hword => (solid_cons hbreak hword).2) ?_
          intro x y hread
          rw [hline, ← hread]
          simp [Comment.toLineEnd, hbreak]

/-- The three kinds of remarks. -/
theorem remark?_eq_some_iff {bytes : List UInt8} {result : Except Stop (List UInt8)} :
    remark? bytes = some result ↔
      (∃ x, bytes = Byte.hash :: x ∧ result = .ok (Comment.toLineEnd x)) ∨
      (∃ x, bytes = Byte.slash :: Byte.slash :: x ∧ result = note x) ∨
      ∃ x, bytes = Byte.slash :: Byte.hash :: x ∧ result = comment x := by
  constructor
  · intro h
    unfold remark? at h
    split at h
    · cases h
    · split at h
      · rename_i ha
        cases h
        exact .inl ⟨[], by rw [ha], rfl⟩
      · cases h
    · rename_i a b tail
      split at h
      · rename_i ha
        cases h
        exact .inl ⟨b :: tail, by rw [ha], rfl⟩
      · split at h
        · rename_i hab
          cases h
          exact .inr (.inl ⟨tail, by rw [hab.1, hab.2], rfl⟩)
        · split at h
          · rename_i hab
            cases h
            exact .inr (.inr ⟨tail, by rw [hab.1, hab.2], rfl⟩)
          · cases h
  · rintro (⟨x, rfl, rfl⟩ | ⟨x, rfl, rfl⟩ | ⟨x, rfl, rfl⟩)
    · cases x with
      | nil => rfl
      | cons b tail => rfl
    · rfl
    · rfl

/-- A remark that runs to the end of its line leaves a line end; any other may
be followed by anything. -/
theorem remark?_local {bytes rest : List UInt8} (h : remark? bytes = some (.ok rest)) :
    Local (fun x y => remark? x = some (.ok y)) Solid
      (fun rest' => lineOver rest = true → lineOver rest' = true) bytes rest := by
  -- before a line remark the condition says that the rest ends its line
  have hover : ∀ {R W bytes}, lineOver rest = true → Local R W (lineOver · = true) bytes rest →
      Local R W (fun rest' => lineOver rest = true → lineOver rest' = true) bytes rest := by
    rintro R W bytes hrest ⟨word, rfl, hword, hread⟩
    exact ⟨word, rfl, hword, fun rest' hrest' => hread rest' (hrest' hrest)⟩
  rcases remark?_eq_some_iff.mp h with ⟨x, rfl, hx⟩ | ⟨x, rfl, hx⟩ | ⟨x, rfl, hx⟩
  · cases hx
    refine (hover (lineOver_toLineEnd x) (toLineEnd_local x)).cons
      (fun word hword => solid_cons rfl hword) ?_
    rintro y z rfl
    exact remark?_eq_some_iff.mpr (.inl ⟨y, rfl, rfl⟩)
  · obtain ⟨hlocal, hrest⟩ := note_local hx.symm
    have hone := (hover hrest hlocal).cons (W := Solid)
      (R := fun y z => remark? (Byte.slash :: y) = some (.ok z))
      (fun word hword => solid_cons rfl hword)
      fun hread => remark?_eq_some_iff.mpr (.inr (.inl ⟨_, rfl, hread.symm⟩))
    exact hone.cons (fun word hword => hword.cons _) fun hread => hread
  · obtain ⟨word, rfl, hword, hread⟩ := comment_local hx.symm
    refine ⟨Byte.slash :: Byte.hash :: word, rfl, (hword.cons _).cons _, ?_⟩
    intro rest' _
    exact remark?_eq_some_iff.mpr (.inr (.inr ⟨_, rfl, (hread rest' trivial).symm⟩))

/-! ## Example values -/

/-- Remarks and white space are told by their first byte, but for a slash. -/
theorem remark?_eq_none {b : UInt8} {tail : List UInt8} (h : remark? (b :: tail) = none)
    (hb : b ≠ Byte.slash) (tail' : List UInt8) : remark? (b :: tail') = none := by
  cases hr : remark? (b :: tail') with
  | none => rfl
  | some result =>
    rcases remark?_eq_some_iff.mp hr with ⟨x, hx, -⟩ | ⟨x, hx, -⟩ | ⟨x, hx, -⟩
    · rw [(List.cons.inj hx).1, remark?_eq_some_iff.mpr (.inl ⟨tail, rfl, rfl⟩)] at h
      cases h
    · exact absurd (List.cons.inj hx).1 hb
    · exact absurd (List.cons.inj hx).1 hb

/-- Whether a line is over shows in the first byte. -/
theorem lineOver_append_cons (word : List UInt8) (b : UInt8) (tail tail' : List UInt8) :
    lineOver (word ++ b :: tail) = lineOver (word ++ b :: tail') := by
  cases word with
  | nil => rfl
  | cons d word => rfl

/-- A remark starts with a byte that is not white. -/
theorem not_isWhite_of_remark? {b : UInt8} {tail : List UInt8}
    {result : Except Stop (List UInt8)} (h : remark? (b :: tail) = some result) :
    Byte.isWhite b = false := by
  rcases remark?_eq_some_iff.mp h with ⟨x, hx, -⟩ | ⟨x, hx, -⟩ | ⟨x, hx, -⟩ <;>
    rw [(List.cons.inj hx).1] <;> rfl

theorem trivia_whites {whites : List UInt8} (h : ∀ b ∈ whites, Byte.isWhite b = true)
    (bytes : List UInt8) : trivia (whites ++ bytes) = trivia bytes := by
  induction whites with
  | nil => rfl
  | cons b whites ih =>
    rw [List.cons_append, trivia.eq_def]
    simp only [h b List.mem_cons_self, if_true]
    exact ih fun d hd => h d (List.mem_cons_of_mem b hd)

theorem trivia_remark {bytes behind : List UInt8} (h : remark? bytes = some (.ok behind)) :
    trivia bytes = trivia behind := by
  cases bytes with
  | nil => cases h
  | cons b tail =>
    rw [trivia.eq_def]
    simp only [not_isWhite_of_remark? h, if_neg Bool.false_ne_true]
    split
    · rename_i hr
      rw [h] at hr
      cases hr
      rfl
    · rename_i hr
      rw [h] at hr
      cases hr
    · rename_i hr
      rw [h] at hr
      cases hr

theorem trivia_none {b : UInt8} {tail : List UInt8} (hwhite : ¬ Byte.isWhite b = true)
    (h : remark? (b :: tail) = none) : trivia (b :: tail) = .ok (b :: tail) := by
  rw [trivia.eq_def]
  simp only [if_neg hwhite]
  split
  · rename_i hr
    rw [h] at hr
    cases hr
  · rename_i hr
    rw [h] at hr
    cases hr
  · rfl

theorem trivia_local {bytes tail : List UInt8} {b : UInt8} (h : trivia bytes = .ok (b :: tail))
    (hb : b ≠ Byte.slash) :
    Local (fun x y => trivia x = .ok y) (fun _ => True) (fun rest' => ∃ tail', rest' = b :: tail')
      bytes (b :: tail) := by
  fun_induction trivia bytes with
  | case1 => cases h
  | case2 d more hwhite ih =>
    refine (ih h).cons (fun _ _ => trivial) ?_
    intro x y hread
    rw [trivia.eq_def]
    simpa [hwhite] using hread
  | case3 d more hwhite behind hr ih =>
    refine (remark?_local hr).bind (ih h) (fun _ _ _ _ => trivial) ?_ ?_
    · rintro word rest' rfl ⟨tail', rfl⟩ hover
      rwa [lineOver_append_cons word b tail' tail]
    · intro x y z hx hy
      rw [trivia_remark hx]
      exact hy
  | case4 => cases h
  | case5 d more hwhite hr =>
    cases h
    refine .empty trivial ?_
    rintro rest' ⟨tail', rfl⟩
    exact trivia_none hwhite (remark?_eq_none hr hb tail')

theorem seek_local {closers bytes tail : List UInt8} {b : UInt8}
    (h : seek closers bytes = .ok (b :: tail)) (hb : b ≠ Byte.slash) :
    Local (fun x y => seek closers x = .ok y) (fun _ => True)
      (fun rest' => ∃ tail', rest' = b :: tail') bytes (b :: tail) := by
  cases closers with
  | nil =>
    cases h
    exact .empty trivial fun rest' _ => rfl
  | cons closer outer => exact trivia_local h hb

/-- If `rest'` goes on with a byte of a scalar, so does `rest`, with the same
one. -/
def SameScalar (rest rest' : List UInt8) : Prop :=
  ∀ b, rest'.head? = some b → isScalarByte b = true → rest.head? = some b

/-- The closing brackets owed are brackets. -/
def Brackets (closers : List UInt8) : Prop :=
  ∀ b ∈ closers, b = Byte.closeBrace ∨ b = Byte.closeBracket

theorem brackets_nil : Brackets [] :=
  fun _ hb => absurd hb List.not_mem_nil

theorem not_isWhite_of_isScalarByte {b : UInt8} (h : isScalarByte b = true) :
    Byte.isWhite b = false := by
  by_contra hwhite
  simp only [Byte.isWhite, Byte.isBlank, Byte.isBreak, Bool.not_eq_false, Bool.or_eq_true,
    beq_iff_eq] at hwhite
  rcases hwhite with (rfl | rfl) | rfl | rfl <;> revert h <;> decide

/-- The tokens: a bracket or separator, a string, a scalar. -/
theorem token_cases {closers rest owed behind : List UInt8} {b : UInt8}
    (h : token closers b rest = .ok (owed, behind)) :
    (behind = rest ∧ (∀ x, token closers b x = .ok (owed, x)) ∧
      (b = Byte.openBrace ∧ owed = Byte.closeBrace :: closers ∨
        b = Byte.openBracket ∧ owed = Byte.closeBracket :: closers ∨
        closers = b :: owed ∨ (b = Byte.comma ∨ b = Byte.colon) ∧ owed = closers)) ∨
    (b = Byte.quote ∧ owed = closers ∧ quoted .string false rest = .ok behind ∧
      ∀ x, token closers b x = (quoted .string false x).map (closers, ·)) ∨
    (isScalarByte b = true ∧ owed = closers ∧ behind = rest.dropWhile isScalarByte ∧
      ∀ x, token closers b x = .ok (closers, x.dropWhile isScalarByte)) := by
  unfold token at h
  split at h
  · rename_i hbrace
    cases h
    exact .inl ⟨rfl, fun x => by simp [token, hbrace], .inl ⟨hbrace, rfl⟩⟩
  · rename_i hbrace
    split at h
    · rename_i hbracket
      cases h
      refine .inl ⟨rfl, ?_, .inr (.inl ⟨hbracket, rfl⟩)⟩
      intro x
      rw [token, if_neg hbrace, if_pos hbracket]
    · rename_i hbracket
      split at h
      · rename_i hclose
        cases h
        refine .inl ⟨rfl, fun x => by simp [token, hbrace, hbracket, hclose], ?_⟩
        exact .inr (.inr (.inl (List.eq_cons_of_mem_head? hclose)))
      · rename_i hclose
        split at h
        · rename_i hsep
          cases h
          refine .inl ⟨rfl, ?_, .inr (.inr (.inr ⟨hsep.1, rfl⟩))⟩
          intro x
          rw [token, if_neg hbrace, if_neg hbracket, if_neg hclose, if_pos hsep]
        · rename_i hsep
          split at h
          · rename_i hquote
            refine .inr (.inl ?_)
            cases hq : quoted .string false rest with
            | error stop =>
              rw [hq] at h
              cases h
            | ok more =>
              rw [hq] at h
              cases h
              refine ⟨hquote, rfl, rfl, ?_⟩
              intro x
              rw [token, if_neg hbrace, if_neg hbracket, if_neg hclose, if_neg hsep,
                if_pos hquote]
          · rename_i hquote
            split at h
            · rename_i hscalar
              cases h
              refine .inr (.inr ⟨hscalar, rfl, rfl, ?_⟩)
              intro x
              rw [token, if_neg hbrace, if_neg hbracket, if_neg hclose, if_neg hsep,
                if_neg hquote, if_pos hscalar]
            · cases h

/-- A token starts with a byte that is neither a break nor a slash. -/
theorem token_head {closers rest owed behind : List UInt8} {b : UInt8} (hc : Brackets closers)
    (h : token closers b rest = .ok (owed, behind)) :
    Byte.isBreak b = false ∧ b ≠ Byte.slash ∧ Brackets owed := by
  have hcons : ∀ d, d = Byte.closeBrace ∨ d = Byte.closeBracket → Brackets (d :: closers) := by
    intro d hd e he
    rcases List.mem_cons.mp he with rfl | he
    · exact hd
    · exact hc e he
  rcases token_cases h with ⟨-, -, hsimple⟩ | ⟨rfl, rfl, -⟩ | ⟨hscalar, rfl, -⟩
  · rcases hsimple with ⟨rfl, rfl⟩ | ⟨rfl, rfl⟩ | rfl | ⟨rfl | rfl, rfl⟩
    · exact ⟨rfl, by decide, hcons _ (.inl rfl)⟩
    · exact ⟨rfl, by decide, hcons _ (.inr rfl)⟩
    · have howed : Brackets owed := fun d hd => hc d (List.mem_cons_of_mem _ hd)
      rcases hc b List.mem_cons_self with rfl | rfl
      · exact ⟨rfl, by decide, howed⟩
      · exact ⟨rfl, by decide, howed⟩
    · exact ⟨rfl, by decide, hc⟩
    · exact ⟨rfl, by decide, hc⟩
  · exact ⟨rfl, by decide, hc⟩
  · refine ⟨(Byte.isWhite_eq_false_iff.mp (not_isWhite_of_isScalarByte hscalar)).2, ?_, hc⟩
    rintro rfl
    cases hscalar

theorem token_local {closers rest owed behind : List UInt8} {b : UInt8}
    (h : token closers b rest = .ok (owed, behind)) :
    Local (fun x y => token closers b x = .ok (owed, y)) (endsLine · = false) (SameScalar behind)
      rest behind := by
  rcases token_cases h with ⟨rfl, hread, -⟩ | ⟨-, rfl, hq, hread⟩ | ⟨-, rfl, rfl, hread⟩
  · exact .empty rfl fun rest' _ => hread rest'
  · obtain ⟨word, rfl, hword, hmore⟩ := quoted_local hq
    refine ⟨word, rfl, hword.2, ?_⟩
    intro rest' _
    show token owed b (word ++ rest') = _
    rw [hread, hmore rest' trivial]
    rfl
  · refine ⟨rest.takeWhile isScalarByte, List.takeWhile_append_dropWhile.symm, ?_, ?_⟩
    · apply endsLine_of_forall
      intro d hd
      exact (Byte.isWhite_eq_false_iff.mp
        (not_isWhite_of_isScalarByte (List.mem_takeWhile_imp hd))).2
    · intro rest' hsame
      show token owed b _ = _
      rw [hread, List.dropWhile_append_of_pos fun d hd => List.mem_takeWhile_imp hd]
      cases rest' with
      | nil => rfl
      | cons d tail =>
        -- a scalar would have gone on with `d` there too
        have hd : ¬ isScalarByte d = true := by
          intro hd
          have hhead := hsame d rfl hd
          have := List.head?_dropWhile_not isScalarByte rest
          simp [hhead, hd] at this
        rw [List.dropWhile_cons_of_neg hd]

theorem sameScalar_append {word rest rest' : List UInt8} (h : SameScalar rest rest') :
    SameScalar (word ++ rest) (word ++ rest') := by
  cases word with
  | nil => exact h
  | cons b word => exact fun d hd _ => hd

/-- A value is read token by token. -/
theorem value_eq (closers bytes : List UInt8) :
    value closers bytes =
      match seek closers bytes with
      | .error stop => .error stop
      | .ok [] => .error ⟨.endOfFile (missing closers), []⟩
      | .ok (b :: rest) =>
        match token closers b rest with
        | .error stop => .error stop
        | .ok ([], behind) => .ok behind
        | .ok (closer :: outer, behind) => value (closer :: outer) behind := by
  rw [value.eq_def]
  split
  · rename_i hs
    rw [hs]
  · rename_i hs
    rw [hs]
  · rename_i hs
    rw [hs]
    dsimp only
    split
    · rename_i ht
      rw [ht]
    · rename_i ht
      rw [ht]
    · rename_i ht
      rw [ht]

/-- One token behind the trivia before it. -/
theorem value_token {closers bytes rest owed behind : List UInt8} {b : UInt8}
    (hs : seek closers bytes = .ok (b :: rest)) (ht : token closers b rest = .ok (owed, behind)) :
    value closers bytes = if owed = [] then .ok behind else value owed behind := by
  rw [value_eq, hs]
  dsimp only
  rw [ht]
  cases owed with
  | nil => rw [if_pos rfl]
  | cons closer outer => rw [if_neg (List.cons_ne_nil closer outer)]

theorem value_local {closers bytes rest : List UInt8} (hc : Brackets closers)
    (h : value closers bytes = .ok rest) :
    Local (fun x y => value closers x = .ok y) Solid (SameScalar rest) bytes rest := by
  -- what a token is before: nothing more, or the rest of the value
  have htoken : ∀ {closers bytes tail owed behind} {b : UInt8}, Brackets closers →
      seek closers bytes = .ok (b :: tail) → token closers b tail = .ok (owed, behind) →
      Local (fun x y => (if owed = [] then .ok x else value owed x) = (Except.ok y : Except Stop _))
        (endsLine · = false) (SameScalar rest) behind rest →
      Local (fun x y => value closers x = .ok y) Solid (SameScalar rest) bytes rest := by
    intro closers bytes tail owed behind b hc hs ht hmore
    obtain ⟨hbreak, hslash, -⟩ := token_head hc ht
    have hbehind : Local (fun x y => ∃ z, token closers b x = .ok (owed, z) ∧
        (if owed = [] then .ok z else value owed z) = (Except.ok y : Except Stop _))
        (endsLine · = false) (SameScalar rest) tail rest := by
      refine (token_local ht).bind hmore (fun v w hv hw => endsLine_append hv hw) ?_ ?_
      · rintro word rest' rfl hsame
        exact sameScalar_append hsame
      · intro x y z hx hy
        exact ⟨y, hx, hy⟩
    obtain ⟨v, rfl, -, hread⟩ := seek_local hs hslash
    obtain ⟨w, rfl, hw, hmore⟩ := hbehind
    refine ⟨v ++ b :: w, by simp, (solid_cons hbreak hw).append_left v, ?_⟩
    intro rest' hsame
    obtain ⟨z, hz, hy⟩ := hmore rest' hsame
    show value closers (v ++ b :: w ++ rest') = _
    rw [List.append_assoc, List.cons_append, value_token (hread _ ⟨_, rfl⟩) hz]
    exact hy
  fun_induction value closers bytes with
  | case1 => cases h
  | case2 => cases h
  | case3 => cases h
  | case4 closers bytes b tail hs behind ht =>
    cases h
    exact htoken hc hs ht (.empty rfl fun rest' _ => if_pos rfl)
  | case5 closers bytes b tail hs closer outer behind ht ih =>
    refine htoken hc hs ht ((ih (token_head hc ht).2.2 h).imp (fun word hword => hword.2) ?_)
    intro x y hread
    rw [if_neg (List.cons_ne_nil _ _)]
    exact hread

/-! ## Whole bodies -/

/-- A regular expression is read from its slash on. -/
theorem regex_eq_ok_iff {bytes rest : List UInt8} :
    regex bytes = .ok rest ↔
      ∃ tail, bytes = Byte.slash :: tail ∧ quoted .regex false tail = .ok rest := by
  cases bytes with
  | nil => simp [regex]
  | cons b tail =>
    by_cases hb : b = Byte.slash
    · simp [regex, hb]
    · simp [regex, hb]

theorem regex_local {bytes rest : List UInt8} (h : regex bytes = .ok rest) :
    Local (fun x y => regex x = .ok y) Solid (fun _ => True) bytes rest := by
  obtain ⟨tail, rfl, hquoted⟩ := regex_eq_ok_iff.mp h
  refine (quoted_local hquoted).cons (fun word hword => hword.cons _) ?_
  intro x y hread
  exact regex_eq_ok_iff.mpr ⟨x, rfl, hread⟩

theorem trailing_of_quiet {bytes : List UInt8} (h : quiet bytes = true) :
    trailing bytes = .ok bytes := by
  unfold quiet at h
  rw [trailing.eq_def]
  split
  · rfl
  · rename_i b tail hb
    rw [hb] at h
    have hbreak : Byte.isBreak b = true := h
    rw [if_pos hbreak]

/-- Blanks before a remark are passed over. -/
theorem trailing_remark {blanks bytes behind : List UInt8}
    (hblanks : ∀ b ∈ blanks, Byte.isBlank b = true) (h : remark? bytes = some (.ok behind)) :
    trailing (blanks ++ bytes) = trailing behind := by
  cases bytes with
  | nil => cases h
  | cons b tail =>
    obtain ⟨hblank, hbreak⟩ := Byte.isWhite_eq_false_iff.mp (not_isWhite_of_remark? h)
    have hdrop : (blanks ++ b :: tail).dropWhile Byte.isBlank = b :: tail := by
      rw [List.dropWhile_append_of_pos hblanks, List.dropWhile_cons_of_neg (by simp [hblank])]
    rw [trailing.eq_def]
    split
    · rename_i hnil
      rw [hdrop] at hnil
      cases hnil
    · rename_i heq
      rw [hdrop] at heq
      cases heq
      rw [if_neg (by simp [hbreak])]
      split
      · rename_i hr
        rw [h] at hr
        cases hr
        rfl
      · rename_i hr
        rw [h] at hr
        cases hr
      · rename_i hr
        rw [h] at hr
        cases hr

/-- Behind the remarks of a line the line is over, up to blanks. -/
theorem trailing_local {bytes rest : List UInt8} (h : trailing bytes = .ok rest) :
    Local (fun x y => trailing x = .ok y) (endsLine · = false)
        (fun rest' => quiet rest' = true ∧ (lineOver rest = true → lineOver rest' = true))
        bytes rest ∧
      quiet rest = true := by
  have hempty : Local (fun x y => trailing x = .ok y) (endsLine · = false)
      (fun rest' => quiet rest' = true ∧ (lineOver rest = true → lineOver rest' = true))
      rest rest :=
    .empty rfl fun rest' hrest' => trailing_of_quiet hrest'.1
  fun_induction trailing bytes with
  | case1 bytes hnil =>
    cases h
    exact ⟨hempty, by rw [quiet, hnil]; rfl⟩
  | case2 bytes b tail hb hbreak =>
    cases h
    exact ⟨hempty, by rw [quiet, hb]; exact hbreak⟩
  | case3 bytes b tail hb hbreak behind hr ih =>
    obtain ⟨hlocal, hquiet⟩ := ih h
    refine ⟨?_, hquiet⟩
    have hblanks : ∀ d ∈ bytes.takeWhile Byte.isBlank, Byte.isBlank d = true :=
      fun d hd => List.mem_takeWhile_imp hd
    have hsplit : bytes = bytes.takeWhile Byte.isBlank ++ b :: tail := by
      rw [← hb]
      exact List.takeWhile_append_dropWhile.symm
    obtain ⟨v, hv, hvsolid, hread⟩ := remark?_local hr
    obtain ⟨w, rfl, hw, hmore⟩ := hlocal
    refine ⟨bytes.takeWhile Byte.isBlank ++ (v ++ w), ?_, ?_, ?_⟩
    · rw [List.append_assoc, List.append_assoc, ← hv]
      exact hsplit
    · exact ((hvsolid.append hw).append_left _).2
    · intro rest' hrest'
      show trailing _ = _
      rw [List.append_assoc, List.append_assoc, trailing_remark hblanks (hread (w ++ rest') ?_)]
      · exact hmore rest' hrest'
      · cases w with
        | nil => exact hrest'.2
        | cons d w => exact fun hover => hover
  | case4 => cases h
  | case5 => cases h

/-- A line that is over up to blanks does not go on with a scalar. -/
theorem sameScalar_of_quiet {rest' : List UInt8} (h : quiet rest' = true) (rest : List UInt8) :
    SameScalar rest rest' := by
  intro b hhead hscalar
  cases rest' with
  | nil => cases hhead
  | cons d tail =>
    cases hhead
    obtain ⟨hblank, hbreak⟩ :=
      Byte.isWhite_eq_false_iff.mp (not_isWhite_of_isScalarByte hscalar)
    rw [quiet, List.dropWhile_cons_of_neg (by simp [hblank])] at h
    exact absurd (hbreak.symm.trans h) Bool.false_ne_true

theorem bare_local {grammar : Grammar} {bytes rest : List UInt8}
    (h : bare grammar bytes = .ok rest) :
    Local (fun x y => bare grammar x = .ok y) Solid (SameScalar rest) bytes rest := by
  cases grammar with
  | jsight => exact value_local brackets_nil h
  | regex =>
    obtain ⟨word, hsplit, hword, hread⟩ := regex_local h
    exact ⟨word, hsplit, hword, fun rest' _ => hread rest' trivial⟩

/-- A body is read locally, and behind it the line is over, up to blanks. -/
theorem body_local {grammar : Grammar} {bytes rest : List UInt8}
    (h : body grammar bytes = .ok rest) :
    Local (fun x y => body grammar x = .ok y) Solid
        (fun rest' => quiet rest' = true ∧ (lineOver rest = true → lineOver rest' = true))
        bytes rest ∧
      quiet rest = true := by
  unfold body at h
  cases hb : bare grammar bytes with
  | error stop =>
    rw [hb] at h
    cases h
  | ok behind =>
    rw [hb] at h
    obtain ⟨hlocal, hquiet⟩ := trailing_local h
    refine ⟨?_, hquiet⟩
    refine (bare_local hb).bind hlocal (fun v w hv hw => hv.append hw) ?_ ?_
    · rintro word rest' rfl ⟨hrest', -⟩
      exact sameScalar_append (sameScalar_of_quiet hrest' rest)
    · intro x y z hx hy
      rw [body, hx]
      exact hy

/-- What a body takes is its extent. -/
theorem extent_of_body {grammar : Grammar} {word rest : List UInt8}
    (h : body grammar (word ++ rest) = .ok rest) :
    extent grammar (word ++ rest) = .ok word.length := by
  rw [extent, h, List.length_append]
  exact congrArg Except.ok (Nat.add_sub_cancel _ _)

/-- An extent is that of a body, and the body is read locally. -/
theorem body_of_extent {grammar : Grammar} {bytes : List UInt8} {n : Nat}
    (h : extent grammar bytes = .ok n) :
    ∃ word rest, bytes = word ++ rest ∧ word.length = n ∧ Solid word ∧ quiet rest = true ∧
      ∀ rest', quiet rest' = true → (lineOver rest = true → lineOver rest' = true) →
        body grammar (word ++ rest') = .ok rest' := by
  unfold extent at h
  split at h
  · rename_i rest hbody
    cases h
    obtain ⟨⟨word, rfl, hword, hread⟩, hquiet⟩ := body_local hbody
    refine ⟨word, rest, rfl, ?_, hword, hquiet, ?_⟩
    · rw [List.length_append, Nat.add_sub_cancel]
    · intro rest' hrest' hover
      exact hread rest' ⟨hrest', hover⟩
  · cases h

end ApiDoc.Schema
