import ApiDoc.Proofs.Schema.Locality

/-!
# The words of a schema

What the readers of strings, comments and annotations take, told as words and
without the readers.

* **Strings** (`StringInner`, `quoted_string_iff`): a backslash takes the next
  byte with it, and no other break or quote stands inside.
* **Rules** (`Balanced`, `rules_zero_iff`): the reader counts open braces; what it
  takes is a word in which the braces outside strings are in pairs.
* **Remarks** (`IsBlockComment`, `IsLineRemark`, `remark?_iff`): a block comment
  ends where it says, and any other remark at the end of its line.
* **Lines** (`Trails`, `trailing_iff`): behind a schema stand block comments, and a
  remark of the other kind at most once.
-/

namespace ApiDoc

/-! ## Comments -/

/-- A block comment with its marks. -/
def IsBlockComment (word : List UInt8) : Prop :=
  ∃ text, ¬ [Byte.hash, Byte.slash] <:+: text ∧
    word = Byte.slash :: Byte.hash :: (text ++ [Byte.hash, Byte.slash])

/-- A comment is over at the first closing mark. -/
theorem Comment.afterClose?_eq_some_iff {bytes rest : List UInt8} :
    afterClose? bytes = some rest ↔ ∃ text, ¬ [Byte.hash, Byte.slash] <:+: text ∧
      bytes = text ++ Byte.hash :: Byte.slash :: rest := by
  constructor
  · intro h
    fun_induction afterClose? bytes with
    | case1 => cases h
    | case2 => cases h
    | case3 a b tail hab =>
      cases h
      exact ⟨[], by simp, by rw [hab.1, hab.2]; rfl⟩
    | case4 a b tail hab ih =>
      obtain ⟨text, htext, hsplit⟩ := ih h
      refine ⟨a :: text, ?_, by rw [hsplit]; rfl⟩
      rw [List.infix_cons_iff]
      rintro (⟨more, hmore⟩ | hinfix)
      · obtain ⟨ha, hslash⟩ := List.cons.inj hmore
        rw [← hslash] at hsplit
        exact hab ⟨ha.symm, (List.cons.inj hsplit).1⟩
      · exact htext hinfix
  · rintro ⟨text, htext, rfl⟩
    induction text with
    | nil => simp [afterClose?]
    | cons a text ih =>
      rw [List.infix_cons_iff, not_or] at htext
      have hmore := ih htext.2
      cases text with
      | nil =>
        rw [List.nil_append] at hmore
        rw [List.singleton_append, afterClose?, if_neg (fun h => absurd h.2 (by decide)), hmore]
      | cons b text =>
        rw [List.cons_append] at hmore
        rw [List.cons_append, List.cons_append, afterClose?, if_neg ?_, hmore]
        rintro ⟨rfl, rfl⟩
        exact htext.1 ⟨text, rfl⟩

namespace Schema

theorem comment_iff {bytes rest : List UInt8} :
    comment bytes = .ok rest ↔ ∃ text, ¬ [Byte.hash, Byte.slash] <:+: text ∧
      bytes = text ++ Byte.hash :: Byte.slash :: rest := by
  rw [← Comment.afterClose?_eq_some_iff, comment]
  cases Comment.afterClose? bytes with
  | none => simp
  | some behind => simp

/-! ## Strings -/

/-- What stands between the quotes of a string. -/
inductive StringInner : List UInt8 → Prop
  | nil : StringInner []
  | plain {b : UInt8} {rest : List UInt8} (hbreak : Byte.isBreak b = false)
      (hback : b ≠ Byte.backslash) (hquote : b ≠ Byte.quote) (h : StringInner rest) :
      StringInner (b :: rest)
  | escape (b : UInt8) {rest : List UInt8} (h : StringInner rest) :
      StringInner (Byte.backslash :: b :: rest)

/-- A string with its quotes. -/
def IsString (word : List UInt8) : Prop :=
  ∃ inner, StringInner inner ∧ word = Byte.quote :: (inner ++ [Byte.quote])

theorem quoted_of_stringInner {inner : List UInt8} (h : StringInner inner) (rest : List UInt8) :
    quoted .string false (inner ++ Byte.quote :: rest) = .ok rest := by
  induction h with
  | nil =>
    rw [List.nil_append, quoted, if_neg (by decide), if_neg (by decide),
      if_pos (show Byte.quote = Delimiter.string.close from rfl)]
  | plain hbreak hback hquote _ ih =>
    rw [List.cons_append, quoted, if_neg (by simp [hbreak]), if_neg hback,
      if_neg (show _ ≠ Delimiter.string.close from hquote), ih]
  | escape b _ ih =>
    rw [List.cons_append, List.cons_append, quoted, if_neg (by decide), if_pos rfl, quoted, ih]

theorem quoted_string_iff {bytes rest : List UInt8} :
    quoted .string false bytes = .ok rest ↔
      ∃ inner, StringInner inner ∧ bytes = inner ++ Byte.quote :: rest := by
  constructor
  · -- behind a backslash the word is read as if the backslash stood before it
    have hread : ∀ {escaped bytes}, quoted .string escaped bytes = .ok rest →
        ∃ inner, StringInner (if escaped then Byte.backslash :: inner else inner) ∧
          bytes = inner ++ Byte.quote :: rest := by
      intro escaped bytes h
      fun_induction quoted .string escaped bytes with
      | case1 => cases h
      | case2 b tail ih =>
        obtain ⟨inner, hinner, rfl⟩ := ih h
        exact ⟨b :: inner, .escape b hinner, rfl⟩
      | case3 => cases h
      | case4 tail hbreak ih =>
        obtain ⟨inner, hinner, rfl⟩ := ih h
        exact ⟨Byte.backslash :: inner, hinner, rfl⟩
      | case5 tail hbreak hback =>
        cases h
        exact ⟨[], .nil, rfl⟩
      | case6 b tail hbreak hback hclose ih =>
        obtain ⟨inner, hinner, rfl⟩ := ih h
        exact ⟨b :: inner, .plain (by simpa using hbreak) hback hclose hinner, rfl⟩
    exact hread
  · rintro ⟨inner, hinner, rfl⟩
    exact quoted_of_stringInner hinner rest

/-! ## Rules -/

/-- A word in which the braces outside strings are in pairs. -/
inductive Balanced : List UInt8 → Prop
  | nil : Balanced []
  | byte {b : UInt8} {rest : List UInt8} (hopen : b ≠ Byte.openBrace)
      (hclose : b ≠ Byte.closeBrace) (hquote : b ≠ Byte.quote) (h : Balanced rest) :
      Balanced (b :: rest)
  | string {inner rest : List UInt8} (hinner : StringInner inner) (h : Balanced rest) :
      Balanced (Byte.quote :: (inner ++ Byte.quote :: rest))
  | braces {inner rest : List UInt8} (hinner : Balanced inner) (h : Balanced rest) :
      Balanced (Byte.openBrace :: (inner ++ Byte.closeBrace :: rest))

theorem rules_open (depth : Nat) (bytes : List UInt8) :
    rules depth (Byte.openBrace :: bytes) = rules (depth + 1) bytes := by
  rw [rules.eq_def]
  simp only [if_true]

theorem rules_close (depth : Nat) (bytes : List UInt8) :
    rules (depth + 1) (Byte.closeBrace :: bytes) = rules depth bytes := by
  rw [rules, if_neg (by decide), if_pos rfl]

/-- A balanced word leaves the number of open braces as it is. -/
theorem rules_balanced {word : List UInt8} (h : Balanced word) (depth : Nat)
    (rest : List UInt8) : rules depth (word ++ rest) = rules depth rest := by
  induction h generalizing depth rest with
  | nil => rfl
  | byte hopen hclose hquote _ ih =>
    rw [List.cons_append, rules_cons hopen hclose hquote, ih]
  | string hinner _ ih =>
    rw [List.cons_append, List.append_assoc, List.cons_append,
      rules_quote (quoted_of_stringInner hinner _), ih]
  | braces _ _ ihinner ih =>
    rw [List.cons_append, List.append_assoc, List.cons_append, rules_open, ihinner, rules_close,
      ih]

/-- What `depth + 1` open braces still ask for. -/
def Unbraces : Nat → List UInt8 → List UInt8 → Prop
  | 0, bytes, rest => ∃ inner, Balanced inner ∧ bytes = inner ++ Byte.closeBrace :: rest
  | depth + 1, bytes, rest =>
    ∃ inner behind, Balanced inner ∧ bytes = inner ++ Byte.closeBrace :: behind ∧
      Unbraces depth behind rest

/-- A word that leaves balanced words balanced may stand first. -/
theorem Unbraces.append {word : List UInt8}
    (hword : ∀ inner, Balanced inner → Balanced (word ++ inner)) {depth : Nat}
    {bytes rest : List UInt8} (h : Unbraces depth bytes rest) :
    Unbraces depth (word ++ bytes) rest := by
  cases depth with
  | zero =>
    obtain ⟨inner, hinner, rfl⟩ := h
    exact ⟨word ++ inner, hword inner hinner, by rw [List.append_assoc]⟩
  | succ depth =>
    obtain ⟨inner, behind, hinner, rfl, hmore⟩ := h
    exact ⟨word ++ inner, behind, hword inner hinner, by rw [List.append_assoc], hmore⟩

theorem unbraces_of_rules {depth : Nat} {bytes rest : List UInt8}
    (h : rules depth bytes = .ok rest) : Unbraces depth bytes rest := by
  fun_induction rules depth bytes with
  | case1 => cases h
  | case2 depth tail ih =>
    -- the inner brace is closed first, and all of it stands before the rest
    obtain ⟨inner, behind, hinner, rfl, hmore⟩ := ih h
    have hword : ∀ more, Balanced more →
        Balanced (Byte.openBrace :: (inner ++ [Byte.closeBrace]) ++ more) := by
      intro more hmore
      simpa using Balanced.braces hinner hmore
    simpa using hmore.append hword
  | case3 tail hbrace =>
    cases h
    exact ⟨[], .nil, rfl⟩
  | case4 tail depth hbrace ih => exact ⟨[], tail, .nil, rfl, ih h⟩
  | case5 depth tail behind hq hbrace hclose ih =>
    obtain ⟨inner, hinner, rfl⟩ := quoted_string_iff.mp hq
    have hword : ∀ more, Balanced more →
        Balanced (Byte.quote :: (inner ++ [Byte.quote]) ++ more) := by
      intro more hmore
      simpa using Balanced.string hinner hmore
    simpa using (ih h).append hword
  | case6 => cases h
  | case7 depth b tail hbrace hclose hquote ih =>
    have hword : ∀ more, Balanced more → Balanced ([b] ++ more) :=
      fun more hmore => .byte hbrace hclose hquote hmore
    exact (ih h).append hword

theorem rules_zero_iff {bytes rest : List UInt8} :
    rules 0 bytes = .ok rest ↔
      ∃ inner, Balanced inner ∧ bytes = inner ++ Byte.closeBrace :: rest := by
  constructor
  · exact unbraces_of_rules
  · rintro ⟨inner, hinner, rfl⟩
    rw [rules_balanced hinner, rules, if_neg (by decide), if_pos rfl]

/-! ## Remarks -/

/-- A word without a line end. -/
def OneLine (word : List UInt8) : Prop :=
  ∀ b ∈ word, Byte.isBreak b = false

/-- A remark that runs to the end of its line: a comment, or an annotation with
or without rules. -/
inductive IsLineRemark : List UInt8 → Prop
  | comment {text : List UInt8} (htext : OneLine text) : IsLineRemark (Byte.hash :: text)
  | note {text : List UInt8} (htext : OneLine text)
      (hplain : (text.dropWhile Byte.isBlank).head? ≠ some Byte.openBrace) :
      IsLineRemark (Byte.slash :: Byte.slash :: text)
  | rules {blanks inner text : List UInt8} (hblanks : ∀ b ∈ blanks, Byte.isBlank b = true)
      (hinner : Balanced inner) (htext : OneLine text) :
      IsLineRemark (Byte.slash :: Byte.slash ::
        (blanks ++ Byte.openBrace :: (inner ++ Byte.closeBrace :: text)))

/-- A remark at the start of some bytes, and what stands behind it. -/
inductive Remark : List UInt8 → List UInt8 → Prop
  | block {word rest : List UInt8} (hword : IsBlockComment word) : Remark (word ++ rest) rest
  | line {word rest : List UInt8} (hword : IsLineRemark word) (hover : lineOver rest = true) :
      Remark (word ++ rest) rest

theorem toLineEnd_append {text rest : List UInt8} (htext : OneLine text)
    (hover : lineOver rest = true) : Comment.toLineEnd (text ++ rest) = rest := by
  refine Cursor.dropWhile_of_word (by simpa [OneLine] using htext) ?_
  rintro b tail rfl
  have hb : Byte.isBreak b = true := hover
  simp [hb]

theorem toLineEnd_split (bytes : List UInt8) :
    ∃ text, OneLine text ∧ bytes = text ++ Comment.toLineEnd bytes := by
  refine ⟨bytes.takeWhile (! Byte.isBreak ·), ?_, List.takeWhile_append_dropWhile.symm⟩
  intro b hb
  simpa using List.mem_takeWhile_imp (p := (! Byte.isBreak ·)) hb

theorem note_blanks {blanks : List UInt8} (h : ∀ b ∈ blanks, Byte.isBlank b = true)
    (bytes : List UInt8) : note (blanks ++ bytes) = note bytes := by
  rw [note, List.dropWhile_append_of_pos h, note]

theorem note_brace (bytes : List UInt8) :
    note (Byte.openBrace :: bytes) = (rules 0 bytes).map Comment.toLineEnd := by
  rw [note, List.dropWhile_cons_of_neg (by decide)]
  exact if_pos rfl

theorem note_byte {b : UInt8} (hblank : Byte.isBlank b = false) (hbrace : b ≠ Byte.openBrace)
    (bytes : List UInt8) : note (b :: bytes) = .ok (Comment.toLineEnd (b :: bytes)) := by
  rw [note, List.dropWhile_cons_of_neg (by simp [hblank])]
  exact if_neg hbrace

/-- A list is its leading blanks and what stands behind them. -/
theorem blanks_split (bytes : List UInt8) :
    ∃ blanks, (∀ b ∈ blanks, Byte.isBlank b = true) ∧
      bytes = blanks ++ bytes.dropWhile Byte.isBlank :=
  ⟨bytes.takeWhile Byte.isBlank, fun _ hb => List.mem_takeWhile_imp hb,
    List.takeWhile_append_dropWhile.symm⟩

theorem oneLine_of_blanks {blanks : List UInt8} (h : ∀ b ∈ blanks, Byte.isBlank b = true) :
    OneLine blanks :=
  fun b hb => Byte.isBreak_eq_false_of_isBlank (h b hb)

theorem OneLine.append {word more : List UInt8} (h : OneLine word) (k : OneLine more) :
    OneLine (word ++ more) := by
  intro b hb
  rcases List.mem_append.mp hb with hb | hb
  · exact h b hb
  · exact k b hb

/-- An annotation takes a remark that runs to the end of its line. -/
theorem lineRemark_of_note {bytes rest : List UInt8} (h : note bytes = .ok rest) :
    ∃ text, IsLineRemark (Byte.slash :: Byte.slash :: text) ∧ bytes = text ++ rest ∧
      lineOver rest = true := by
  obtain ⟨blanks, hblanks, hsplit⟩ := blanks_split bytes
  rw [hsplit, note_blanks hblanks] at h
  cases hbytes : bytes.dropWhile Byte.isBlank with
  | nil =>
    rw [hbytes] at h hsplit
    cases h
    have hnil : blanks.dropWhile Byte.isBlank = [] := List.dropWhile_eq_nil_iff.mpr hblanks
    exact ⟨blanks, .note (oneLine_of_blanks hblanks) (by rw [hnil]; simp), hsplit, rfl⟩
  | cons b tail =>
    rw [hbytes] at h hsplit
    have hblank : Byte.isBlank b = false := Cursor.head_eatBlanks (c := ⟨0, bytes⟩) hbytes
    by_cases hbrace : b = Byte.openBrace
    · subst hbrace
      rw [note_brace] at h
      cases hrules : rules 0 tail with
      | error stop =>
        rw [hrules] at h
        cases h
      | ok behind =>
        rw [hrules] at h
        cases h
        obtain ⟨inner, hinner, rfl⟩ := rules_zero_iff.mp hrules
        obtain ⟨text, htext, hbehind⟩ := toLineEnd_split behind
        refine ⟨_, .rules hblanks hinner htext, ?_, lineOver_toLineEnd behind⟩
        rw [hsplit]
        nth_rewrite 1 [hbehind]
        simp
    · rw [note_byte hblank hbrace] at h
      cases h
      obtain ⟨text, htext, hline⟩ := toLineEnd_split (b :: tail)
      refine ⟨blanks ++ text, .note ((oneLine_of_blanks hblanks).append htext) ?_, ?_,
        lineOver_toLineEnd _⟩
      · rw [List.dropWhile_append_of_pos hblanks]
        cases text with
        | nil => simp
        | cons d text =>
          rw [← (List.cons.inj hline).1, List.dropWhile_cons_of_neg (by simp [hblank])]
          simpa using hbrace
      · rw [List.append_assoc, ← hline]
        exact hsplit

theorem note_of_lineRemark {text rest : List UInt8}
    (hword : IsLineRemark (Byte.slash :: Byte.slash :: text)) (hover : lineOver rest = true) :
    note (text ++ rest) = .ok rest := by
  generalize hwhole : Byte.slash :: Byte.slash :: text = word at hword
  cases hword with
  | comment => cases hwhole
  | note htext hplain =>
    cases hwhole
    obtain ⟨blanks, hblanks, hsplit⟩ := blanks_split text
    rw [hsplit, List.append_assoc, note_blanks hblanks]
    cases hbytes : text.dropWhile Byte.isBlank with
    | nil => exact note_of_lineOver hover
    | cons b tail =>
      have hblank : Byte.isBlank b = false := Cursor.head_eatBlanks (c := ⟨0, text⟩) hbytes
      have hbrace : b ≠ Byte.openBrace := by
        rintro rfl
        rw [hbytes] at hplain
        exact hplain rfl
      have hline : OneLine (b :: tail) := by
        intro d hd
        exact htext d (List.dropWhile_sublist _ |>.subset (hbytes ▸ hd))
      rw [List.cons_append, note_byte hblank hbrace, ← List.cons_append,
        toLineEnd_append hline hover]
  | @rules blanks inner text hblanks hinner htext =>
    cases hwhole
    have hrules : rules 0 (inner ++ Byte.closeBrace :: (text ++ rest)) = .ok (text ++ rest) :=
      rules_zero_iff.mpr ⟨inner, hinner, rfl⟩
    rw [List.append_assoc, note_blanks hblanks, List.cons_append, note_brace, List.append_assoc,
      List.cons_append, hrules]
    exact congrArg Except.ok (toLineEnd_append htext hover)

/-- The reader of remarks takes the remarks. -/
theorem remark?_iff {bytes rest : List UInt8} :
    remark? bytes = some (.ok rest) ↔ Remark bytes rest := by
  rw [remark?_eq_some_iff]
  constructor
  · rintro (⟨x, rfl, hx⟩ | ⟨x, rfl, hx⟩ | ⟨x, rfl, hx⟩)
    · cases hx
      obtain ⟨text, htext, hline⟩ := toLineEnd_split x
      have hremark := Remark.line (.comment htext) (lineOver_toLineEnd x)
      rwa [List.cons_append, ← hline] at hremark
    · obtain ⟨text, hword, rfl, hover⟩ := lineRemark_of_note hx.symm
      exact .line hword hover
    · obtain ⟨text, htext, rfl⟩ := comment_iff.mp hx.symm
      have hremark : Remark (_ ++ rest) rest := .block ⟨text, htext, rfl⟩
      simpa using hremark
  · rintro (⟨text, htext, rfl⟩ | ⟨hword, hover⟩)
    · refine .inr (.inr ⟨_, rfl, (comment_iff.mpr ⟨text, htext, ?_⟩).symm⟩)
      simp
    · cases hword with
      | comment htext => exact .inl ⟨_, rfl, congrArg Except.ok (toLineEnd_append htext hover).symm⟩
      | note htext hplain =>
        exact .inr (.inl ⟨_, rfl, (note_of_lineRemark (.note htext hplain) hover).symm⟩)
      | rules hblanks hinner htext =>
        exact .inr (.inl ⟨_, rfl, (note_of_lineRemark (.rules hblanks hinner htext) hover).symm⟩)

/-! ## The rest of a line -/

/-- `Trails bytes rest`: behind a schema stand block comments, then a remark that
runs to the end of the line or none, and `rest` behind them. -/
inductive Trails : List UInt8 → List UInt8 → Prop
  | nothing {rest : List UInt8} (hquiet : quiet rest = true) : Trails rest rest
  | line {blanks word rest : List UInt8} (hblanks : ∀ b ∈ blanks, Byte.isBlank b = true)
      (hword : IsLineRemark word) (hover : lineOver rest = true) :
      Trails (blanks ++ (word ++ rest)) rest
  | block {blanks word behind rest : List UInt8} (hblanks : ∀ b ∈ blanks, Byte.isBlank b = true)
      (hword : IsBlockComment word) (h : Trails behind rest) :
      Trails (blanks ++ (word ++ behind)) rest

theorem quiet_of_lineOver {bytes : List UInt8} (h : lineOver bytes = true) :
    quiet bytes = true := by
  have hend : (⟨0, bytes⟩ : Cursor).atLineEnd = true :=
    Cursor.atLineEnd_iff.mpr (lineOver_iff.mp h)
  have hblanks : bytes.dropWhile Byte.isBlank = bytes :=
    congrArg Cursor.rest (Cursor.eatBlanks_of_atLineEnd hend)
  rwa [quiet, hblanks]

/-- The reader of the rest of a line takes block comments, and a remark behind
them if there is one. -/
theorem trailing_iff {bytes rest : List UInt8} :
    trailing bytes = .ok rest ↔ Trails bytes rest := by
  constructor
  · intro h
    fun_induction trailing bytes with
    | case1 bytes hnil =>
      cases h
      exact .nothing (by rw [quiet, hnil]; rfl)
    | case2 bytes b tail hb hbreak =>
      cases h
      exact .nothing (by rw [quiet, hb]; exact hbreak)
    | case3 bytes b tail hb hbreak behind hr ih =>
      obtain ⟨blanks, hblanks, hsplit⟩ := blanks_split bytes
      rw [hsplit, hb]
      have hremark := remark?_iff.mp hr
      generalize b :: tail = remarked at hremark
      cases hremark with
      | block hword => exact .block hblanks hword (ih h)
      | line hword hover =>
        -- the remark ended the line, so nothing was read behind it
        rw [trailing_of_quiet (quiet_of_lineOver hover)] at h
        cases h
        exact .line hblanks hword hover
    | case4 => cases h
    | case5 => cases h
  · intro h
    induction h with
    | nothing hquiet => exact trailing_of_quiet hquiet
    | line hblanks hword hover =>
      rw [trailing_remark hblanks (remark?_iff.mpr (.line hword hover)),
        trailing_of_quiet (quiet_of_lineOver hover)]
    | block hblanks hword _ ih =>
      rw [trailing_remark hblanks (remark?_iff.mpr (.block hword)), ih]

end Schema

end ApiDoc
