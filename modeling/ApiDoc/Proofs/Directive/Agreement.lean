import ApiDoc.Proofs.Directive.Spelling

/-!
# Agreement of the keyword readers

A keyword is read in three ways: byte by byte by the recogniser, as a whole
word by bisection and the pattern of response codes, and at the start of a
line by `opensDirective`.

* **Words** (`recognise_append_iff`, `names_iff_spells`): on a word without
  boundaries that a boundary follows, the recogniser finds the kind that the
  look-up gives to the whole word.
* **Look-up** (`lookup?_eq_lookup`): bisection finds what a search from the
  front finds.
* **Lines** (`opensDirective_iff_recognise`): a line opens a directive iff a
  keyword is recognised there, save that the recogniser also takes a zero byte
  of the document for its end.
-/

namespace ApiDoc.Keyword

variable {word rest behind : List UInt8} {kind : Kind}

/-! ## Whole words -/

/-- What a word names: the kind of an equal spelling, or else a response
code. -/
def Names (word : List UInt8) (kind : Kind) : Prop :=
  lookup? word = some kind ∨ lookup? word = none ∧ isCode word = true ∧ kind = .responseCode

theorem names_iff_spells : Names word kind ↔ Spells word kind := by
  constructor
  · rintro (hfound | ⟨-, hcode, hkind⟩)
    · exact .inl (lookup?_eq_some_iff.mp hfound)
    · exact .inr ⟨hkind, hcode⟩
  · rintro (hmem | ⟨hkind, hcode⟩)
    · exact .inl (lookup?_eq_some_iff.mpr hmem)
    · exact .inr ⟨lookup?_of_isCode hcode, hcode, hkind⟩

/-- Bisection finds what a search from the front finds. -/
theorem lookup?_eq_lookup (word : List UInt8) : lookup? word = entries.lookup word := by
  cases hfront : entries.lookup word with
  | none =>
    have hnone := List.lookup_eq_none_iff.mp hfront
    cases hfound : lookup? word with
    | none => rfl
    | some kind => exact absurd (hnone _ (lookup?_eq_some_iff.mp hfound)) (by simp)
  | some kind =>
    obtain ⟨front, back, hsplit, -⟩ := List.lookup_eq_some_iff.mp hfront
    apply lookup?_eq_some_iff.mpr
    rw [hsplit]
    exact List.mem_append_right front List.mem_cons_self

/-- A text is classified by what its bytes name. -/
theorem classify?_eq_some_iff {text : String} :
    classify? text = some kind ↔ Names (Utf8.bytes text) kind := by
  rw [classify?, Names]
  cases lookup? (Utf8.bytes text) with
  | some found => simp
  | none =>
    cases isCode (Utf8.bytes text) with
    | false => simp
    | true => simp [eq_comm]

/-- The words that are classified are the spelled ones; they are all text. -/
theorem spells_iff_exists_classify? :
    Spells word kind ↔ ∃ text, Utf8.bytes text = word ∧ classify? text = some kind := by
  constructor
  · intro hspells
    have hascii : Utf8.bytes (Utf8.lossy word) = word :=
      Utf8.bytes_lossy_of_ascii fun b hb => lt_of_isAlphanumeric (hspells.isAlphanumeric b hb)
    exact ⟨Utf8.lossy word, hascii, hspells.classify?⟩
  · rintro ⟨text, rfl, hclass⟩
    exact names_iff_spells.mp (classify?_eq_some_iff.mp hclass)

/-! ## The recogniser -/

/-- Two ways to cut bytes behind a word without boundaries are the same. -/
theorem append_unique {word' : List UInt8} (h : word ++ rest = word' ++ behind)
    (hword : ∀ b ∈ word, isBoundary b = false) (hword' : ∀ b ∈ word', isBoundary b = false)
    (hrest : atBoundary rest = true) (hbehind : atBoundary behind = true) :
    word' = word ∧ behind = rest := by
  rcases List.append_eq_append_iff.mp h with ⟨more, rfl, rfl⟩ | ⟨more, rfl, rfl⟩
  · cases more with
    | nil => exact ⟨List.append_nil _, rfl⟩
    | cons b more =>
      have hb : isBoundary b = false := hword' b (by simp)
      rw [List.cons_append, atBoundary, hb] at hrest
      cases hrest
  · cases more with
    | nil => exact ⟨(List.append_nil _).symm, rfl⟩
    | cons b more =>
      have hb : isBoundary b = false := hword b (by simp)
      rw [List.cons_append, atBoundary, hb] at hbehind
      cases hbehind

/-- On a word without boundaries the recogniser stops behind it and finds what
it spells. -/
theorem recognise_append_iff (hword : ∀ b ∈ word, isBoundary b = false)
    (hrest : atBoundary rest = true) :
    recognise (word ++ rest) = .found kind behind ↔ behind = rest ∧ Spells word kind := by
  rw [recognise_eq_found_iff]
  constructor
  · rintro ⟨word', hsplit, hspells, hbehind⟩
    have hword' : ∀ b ∈ word', isBoundary b = false :=
      fun b hb => isBoundary_of_isAlphanumeric (hspells.isAlphanumeric b hb)
    obtain ⟨rfl, rfl⟩ := append_unique hsplit hword hword' hrest hbehind
    exact ⟨rfl, hspells⟩
  · rintro ⟨rfl, hspells⟩
    exact ⟨word, rfl, hspells, hrest⟩

/-! ## Lines -/

/-- The recogniser takes one more byte for the end of a word. -/
theorem endsWord_iff : endsWord rest = true ↔ atBoundary rest = true ∧ rest.head? ≠ some 0 := by
  cases rest with
  | nil => simp [endsWord, atBoundary]
  | cons b more =>
    by_cases hzero : b = 0
    · have hends : endsWord (0 :: more) = false := rfl
      simp [hzero, hends]
    · simp [endsWord, atBoundary, isBoundary, hzero]

/-- A line opens a directive iff a keyword is recognised at its start that is
not ended by a zero byte. -/
theorem opensDirective_iff_recognise {line : List UInt8} :
    opensDirective line = true ↔
      ∃ kind rest, recognise line = .found kind rest ∧ rest.head? ≠ some 0 := by
  rw [opensDirective_iff]
  constructor
  · rintro ⟨word, kind, rest, hsplit, hspells, hends⟩
    obtain ⟨hboundary, hzero⟩ := endsWord_iff.mp hends
    exact ⟨kind, rest, recognise_eq_found_iff.mpr ⟨word, hsplit, hspells, hboundary⟩, hzero⟩
  · rintro ⟨kind, rest, hfound, hzero⟩
    obtain ⟨word, hsplit, hspells, hboundary⟩ := recognise_eq_found_iff.mp hfound
    exact ⟨word, kind, rest, hsplit, hspells, endsWord_iff.mpr ⟨hboundary, hzero⟩⟩

/-- A keyword in front of a zero byte is recognised, yet the line opens no
directive. -/
theorem recognise_before_zero :
    recognise (Utf8.bytes "GET" ++ [0]) = .found .get [0] ∧
      opensDirective (Utf8.bytes "GET" ++ [0]) = false := by
  decide +kernel

end ApiDoc.Keyword
