import ApiDoc.Proofs.Text.Cursor
import ApiDoc.Text.Comment
import Mathlib.Data.List.Infix

/-!
# Other spellings of line ends

A document may be respelt: every break is written as one or more breaks, and
every other byte is kept. Where the text is read by classes of bytes that hold
all breaks or none, a respelling goes unnoticed.

* **Heads** (`Respelling.head_cases`): a respelt text starts with the same byte,
  or with a break as before.
* **Classes** (`takeWhile_text`, `dropWhile_text`): runs of bytes of a class are
  respelt by themselves.
* **Documents** (`Respelling.Suits`): two things are not read by classes. A line
  end may take two breaks, and a backslash hides one byte of what follows. A
  document suits a respelling if neither makes a difference.
-/

namespace ApiDoc

/-- A way to spell breaks. -/
structure Respelling where
  spell : UInt8 → List UInt8
  plain : ∀ {b}, Byte.isBreak b = false → spell b = [b]
  breaks : ∀ {b}, Byte.isBreak b = true →
    spell b ≠ [] ∧ ∀ d ∈ spell b, Byte.isBreak d = true

/-- The class holds all breaks or none. -/
def Uniform (p : UInt8 → Bool) : Prop :=
  ∀ b d, Byte.isBreak b = true → Byte.isBreak d = true → p b = p d

theorem uniform_of_eq {p : UInt8 → Bool} {v : Bool}
    (h : ∀ b, Byte.isBreak b = true → p b = v) : Uniform p :=
  fun b d hb hd => (h b hb).trans (h d hd).symm

theorem uniform_isBlank : Uniform Byte.isBlank := by
  apply uniform_of_eq (v := false)
  intro b hb
  by_contra hblank
  rw [Bool.not_eq_false] at hblank
  rw [Byte.isBreak_eq_false_of_isBlank hblank] at hb
  cases hb

theorem uniform_isWhite : Uniform Byte.isWhite :=
  uniform_of_eq fun _ hb => Byte.isWhite_of_isBreak hb

theorem Uniform.not {p : UInt8 → Bool} (h : Uniform p) : Uniform (! p ·) :=
  fun b d hb hd => congrArg Bool.not (h b d hb hd)

theorem uniform_isBreak : Uniform Byte.isBreak :=
  uniform_of_eq fun _ hb => hb

namespace Respelling

variable (r : Respelling)

/-- The text, respelt. -/
def text (bytes : List UInt8) : List UInt8 :=
  bytes.flatMap r.spell

variable {r} {bytes more word : List UInt8} {b x : UInt8} {p : UInt8 → Bool}

@[simp]
theorem text_nil : r.text [] = [] := rfl

theorem text_cons (b : UInt8) (bytes : List UInt8) :
    r.text (b :: bytes) = r.spell b ++ r.text bytes :=
  List.flatMap_cons

theorem text_append (bytes more : List UInt8) :
    r.text (bytes ++ more) = r.text bytes ++ r.text more :=
  List.flatMap_append

theorem text_plain (hb : Byte.isBreak b = false) (bytes : List UInt8) :
    r.text (b :: bytes) = b :: r.text bytes := by
  rw [text_cons, r.plain hb]
  rfl

/-- A line is kept as it is. -/
theorem text_line (h : ∀ b ∈ word, Byte.isBreak b = false) : r.text word = word := by
  induction word with
  | nil => rfl
  | cons b word ih =>
    rw [text_plain (h b List.mem_cons_self), ih fun d hd => h d (List.mem_cons_of_mem b hd)]

theorem text_line_append (h : ∀ b ∈ word, Byte.isBreak b = false) (bytes : List UInt8) :
    r.text (word ++ bytes) = word ++ r.text bytes := by
  rw [text_append, text_line h]

/-! ## Heads -/

/-- A break is respelt as a break, and maybe more of them. -/
theorem text_break (hb : Byte.isBreak b = true) (bytes : List UInt8) :
    ∃ d more, r.text (b :: bytes) = d :: more ∧ Byte.isBreak d = true := by
  obtain ⟨hne, hall⟩ := r.breaks hb
  obtain ⟨d, rest, hspell⟩ := List.exists_cons_of_ne_nil hne
  refine ⟨d, rest ++ r.text bytes, ?_, hall d (hspell ▸ List.mem_cons_self)⟩
  rw [text_cons, hspell, List.cons_append]

/-- How the text starts, before and behind. -/
theorem head_cases (r : Respelling) (bytes : List UInt8) :
    (bytes = [] ∧ r.text bytes = []) ∨
    (∃ b tail, bytes = b :: tail ∧ Byte.isBreak b = false ∧ r.text bytes = b :: r.text tail) ∨
    ∃ b tail d more, bytes = b :: tail ∧ Byte.isBreak b = true ∧ r.text bytes = d :: more ∧
      Byte.isBreak d = true := by
  cases bytes with
  | nil => exact .inl ⟨rfl, rfl⟩
  | cons b tail =>
    cases hb : Byte.isBreak b with
    | false => exact .inr (.inl ⟨b, tail, rfl, hb, text_plain hb tail⟩)
    | true =>
      obtain ⟨d, more, htext, hd⟩ := text_break (r := r) hb tail
      exact .inr (.inr ⟨b, tail, d, more, rfl, hb, htext, hd⟩)

theorem text_eq_nil_iff : r.text bytes = [] ↔ bytes = [] := by
  rcases r.head_cases bytes with ⟨rfl, h⟩ | ⟨b, tail, rfl, -, h⟩ | ⟨b, tail, d, more, rfl, -, h, -⟩
  · exact ⟨fun _ => rfl, fun _ => rfl⟩
  · rw [h]
    exact ⟨nofun, nofun⟩
  · rw [h]
    exact ⟨nofun, nofun⟩

/-- The byte at the front, zero past the end, is a given one as before. -/
theorem headD_text (hx : Byte.isBreak x = false) :
    (r.text bytes).headD 0 = x ↔ bytes.headD 0 = x := by
  have hne : ∀ {b}, Byte.isBreak b = true → b ≠ x := by
    rintro b hb rfl
    rw [hx] at hb
    cases hb
  rcases r.head_cases bytes with
    ⟨rfl, h⟩ | ⟨b, tail, rfl, -, h⟩ | ⟨b, tail, d, more, rfl, hb, h, hd⟩
  · rw [h]
  · rw [h]
    exact Iff.rfl
  · rw [h]
    exact iff_of_false (hne hd) (hne hb)

/-- A respelt text that starts with a word of no breaks did so before. -/
theorem of_text_eq_append (hword : ∀ b ∈ word, Byte.isBreak b = false) {rest : List UInt8}
    (h : r.text bytes = word ++ rest) : ∃ tail, bytes = word ++ tail ∧ rest = r.text tail := by
  induction word generalizing bytes with
  | nil => exact ⟨bytes, rfl, h.symm⟩
  | cons x word ih =>
    have hx := hword x List.mem_cons_self
    rcases r.head_cases bytes with
      ⟨rfl, -⟩ | ⟨b, tail, rfl, -, htext⟩ | ⟨b, tail, d, more, rfl, -, htext, hd⟩
    · cases h
    · rw [htext, List.cons_append, List.cons.injEq] at h
      obtain ⟨rfl, h⟩ := h
      obtain ⟨tail, rfl, rfl⟩ := ih (fun d hd => hword d (List.mem_cons_of_mem b hd)) h
      exact ⟨tail, rfl, rfl⟩
    · rw [htext, List.cons_append, List.cons.injEq] at h
      rw [h.1, hx] at hd
      cases hd

/-! ## Classes -/

theorem spell_uniform (hp : Uniform p) (b : UInt8) : ∀ d ∈ r.spell b, p d = p b := by
  intro d hd
  cases hb : Byte.isBreak b with
  | false =>
    rw [r.plain hb] at hd
    rw [List.mem_singleton.mp hd]
  | true => exact hp d b ((r.breaks hb).2 d hd) hb

theorem head_uniform (hp : Uniform p) (b : UInt8) (bytes : List UInt8) :
    ∃ d more, r.text (b :: bytes) = d :: more ∧ p d = p b := by
  rcases r.head_cases (b :: bytes) with
    ⟨h, -⟩ | ⟨_, tail, h, -, htext⟩ | ⟨_, tail, d, more, h, hb, htext, hd⟩
  · cases h
  · cases h
    exact ⟨b, _, htext, rfl⟩
  · cases h
    exact ⟨d, more, htext, hp d b hd hb⟩

theorem takeWhile_text (hp : Uniform p) (bytes : List UInt8) :
    (r.text bytes).takeWhile p = r.text (bytes.takeWhile p) := by
  induction bytes with
  | nil => rfl
  | cons b bytes ih =>
    cases hb : p b with
    | true =>
      rw [List.takeWhile_cons_of_pos hb, text_cons, text_cons, ← ih,
        List.takeWhile_append_of_pos fun d hd => (spell_uniform hp b d hd).trans hb]
    | false =>
      obtain ⟨d, more, htext, hd⟩ := head_uniform (r := r) hp b bytes
      rw [htext, List.takeWhile_cons_of_neg (by simp [hd, hb]),
        List.takeWhile_cons_of_neg (by simp [hb]), text_nil]

theorem dropWhile_text (hp : Uniform p) (bytes : List UInt8) :
    (r.text bytes).dropWhile p = r.text (bytes.dropWhile p) := by
  have hsplit := congrArg r.text (List.takeWhile_append_dropWhile (p := p) (l := bytes))
  have htext := List.takeWhile_append_dropWhile (p := p) (l := r.text bytes)
  rw [text_append, ← htext, takeWhile_text hp] at hsplit
  exact (List.append_cancel_left hsplit).symm

/-! ## Documents -/

variable (r) in
/-- The line ends of a text are kept, and its escapes. -/
structure Suits (bytes : List UInt8) : Prop where
  lineEnds : ∀ {back}, back <:+ bytes →
    Cursor.breakLength (r.text back) = (r.text (back.take (Cursor.breakLength back))).length
  escapes : ∀ {b back}, Byte.backslash :: b :: back <:+ bytes → ∃ d, r.spell b = [d]

theorem Suits.of_suffix (h : r.Suits bytes) (hsuffix : more <:+ bytes) : r.Suits more :=
  ⟨fun hback => h.lineEnds (hback.trans hsuffix), fun hback => h.escapes (hback.trans hsuffix)⟩

theorem Suits.tail (h : r.Suits (b :: bytes)) : r.Suits bytes :=
  h.of_suffix (List.suffix_cons b bytes)

/-! ## Comments -/

/-- A byte that is no `#` does not close a block comment. -/
theorem afterClose?_cons (hb : b ≠ Byte.hash) (bytes : List UInt8) :
    Comment.afterClose? (b :: bytes) = Comment.afterClose? bytes := by
  cases bytes with
  | nil => rfl
  | cons d tail => rw [Comment.afterClose?, if_neg fun h => hb h.1]

theorem afterClose?_append (h : ∀ d ∈ word, d ≠ Byte.hash) (bytes : List UInt8) :
    Comment.afterClose? (word ++ bytes) = Comment.afterClose? bytes := by
  induction word with
  | nil => rfl
  | cons d word ih =>
    rw [List.cons_append, afterClose?_cons (h d List.mem_cons_self),
      ih fun e he => h e (List.mem_cons_of_mem d he)]

theorem afterClose?_text (bytes : List UInt8) :
    Comment.afterClose? (r.text bytes) = (Comment.afterClose? bytes).map r.text := by
  induction bytes with
  | nil => rfl
  | cons a tail ih =>
    by_cases ha : a = Byte.hash
    · subst ha
      rw [text_plain rfl]
      rcases r.head_cases tail with
        ⟨rfl, htext⟩ | ⟨b, rest, rfl, hb, htext⟩ | ⟨b, rest, d, more, rfl, hb, htext, hd⟩
      · rfl
      · by_cases hslash : b = Byte.slash
        · rw [htext, Comment.afterClose?, if_pos ⟨rfl, hslash⟩, Comment.afterClose?,
            if_pos ⟨rfl, hslash⟩]
          rfl
        · rw [htext, Comment.afterClose?, if_neg fun h => hslash h.2, ← htext, ih,
            Comment.afterClose?, if_neg fun h => hslash h.2]
      · have hslash : ∀ {b}, Byte.isBreak b = true → b ≠ Byte.slash := by
          rintro _ hbreak rfl
          cases hbreak
        rw [htext, Comment.afterClose?, if_neg fun h => hslash hd h.2, ← htext, ih,
          Comment.afterClose?, if_neg fun h => hslash hb h.2]
    · have hspell : ∀ d ∈ r.spell a, d ≠ Byte.hash := by
        rintro _ hd rfl
        cases hbreak : Byte.isBreak a with
        | false =>
          rw [r.plain hbreak] at hd
          exact ha (List.mem_singleton.mp hd).symm
        | true => cases (r.breaks hbreak).2 _ hd
      rw [text_cons, afterClose?_append hspell, ih, afterClose?_cons ha]

theorem toLineEnd_text (bytes : List UInt8) :
    Comment.toLineEnd (r.text bytes) = r.text (Comment.toLineEnd bytes) :=
  dropWhile_text uniform_isBreak.not bytes

end Respelling

end ApiDoc
