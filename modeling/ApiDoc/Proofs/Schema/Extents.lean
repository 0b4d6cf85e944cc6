import ApiDoc.Proofs.Schema.Descent
import ApiDoc.Proofs.Schema.Escapes

/-!
# What is measured

The extent of a schema depends on the bytes that it covers and on the end of
their line, and it covers few bytes that say nothing.

* **Surroundings** (`extent_take`): what was measured is measured as before when it
  stands alone, and in front of any line end.
* **Last bytes** (`Trimmed`): a value, an expression and a block comment end with
  a byte that is not white.
* **Blanks** (`extent_trimmed`, `measured_trimmed`): only a remark that runs to the end of its line
  takes blanks with it, and the schema before that remark is measured without them.
-/

namespace ApiDoc.Schema

variable {grammar : Grammar} {bytes behind rest word : List UInt8} {n : Nat}

/-! ## Surroundings -/

/-- A word whose last byte is not white. -/
def Trimmed (word : List UInt8) : Prop :=
  ∃ last, word.getLast? = some last ∧ Byte.isWhite last = false

theorem trimmed_concat {last : UInt8} (h : Byte.isWhite last = false) (front : List UInt8) :
    Trimmed (front ++ [last]) :=
  ⟨last, List.getLast?_concat, h⟩

theorem Trimmed.append_left (h : Trimmed word) (front : List UInt8) : Trimmed (front ++ word) := by
  obtain ⟨last, hlast, hwhite⟩ := h
  refine ⟨last, ?_, hwhite⟩
  rw [List.getLast?_append, hlast, Option.some_or]

theorem trimmed_of_isBlockComment (h : IsBlockComment word) : Trimmed word := by
  obtain ⟨text, -, rfl⟩ := h
  have hclose : Trimmed ([Byte.hash] ++ [Byte.slash]) := trimmed_concat rfl _
  exact hclose.append_left (Byte.slash :: Byte.hash :: text)

/-- A word that does not end its line has a last byte. -/
theorem Solid.getLast? (h : Solid word) :
    ∃ last, word.getLast? = some last ∧ Byte.isBreak last = false := by
  obtain ⟨hne, hends⟩ := h
  refine ⟨word.getLast hne, List.getLast?_eq_some_getLast hne, ?_⟩
  rwa [endsLine, List.getLast?_eq_some_getLast hne] at hends

/-- A phrase leaves the end of the bytes. -/
theorem Reads.suffix {phrase : Phrase} (h : Reads phrase bytes rest) : rest <:+ bytes := by
  induction h with
  | scalar => exact List.suffix_append _ _
  | string => exact List.suffix_append _ _
  | brackets _ _ ih => exact ((List.suffix_cons _ _).trans ih).trans (List.suffix_cons _ _)
  | nothing => exact List.suffix_refl _
  | separator _ _ ih => exact ih.trans (List.suffix_cons _ _)
  | white _ _ ih => exact ih.trans (List.suffix_cons _ _)
  | remark hremark _ ih =>
    refine ih.trans ?_
    cases hremark with
    | block => exact List.suffix_append _ _
    | line => exact List.suffix_append _ _
  | inner _ _ ihvalue ih => exact ih.trans ihvalue

/-- A value ends with a byte of a scalar, a quote or a closing bracket. -/
theorem Reads.trimmed (h : Reads .value bytes rest) :
    ∃ word, bytes = word ++ rest ∧ Trimmed word := by
  cases h with
  | @scalar word _ hne hword =>
    have hlast := hword _ (List.getLast_mem hne)
    exact ⟨word, rfl, _, List.getLast?_eq_some_getLast hne, not_isWhite_of_isScalarByte hlast⟩
  | @string word _ hword =>
    obtain ⟨inner, -, rfl⟩ := hword
    exact ⟨_, rfl, trimmed_concat rfl (Byte.quote :: inner)⟩
  | @brackets opener closer bytes _ hpair hitems =>
    obtain ⟨inner, rfl⟩ := hitems.suffix
    have hlast : Byte.isWhite closer = false := by
      rcases hpair.closes with rfl | rfl <;> rfl
    refine ⟨opener :: inner ++ [closer], ?_, trimmed_concat hlast _⟩
    simp

/-- What the grammar describes ends with a byte that is not white. -/
theorem bare_trimmed (h : bare grammar bytes = .ok rest) :
    ∃ word, bytes = word ++ rest ∧ Trimmed word := by
  cases grammar with
  | jsight => exact (value_iff_reads.mp h).trimmed
  | regex =>
    obtain ⟨tail, rfl, hquoted⟩ := regex_eq_ok_iff.mp h
    obtain ⟨inner, rfl, -⟩ := quoted_breaks hquoted
    refine ⟨Byte.slash :: inner ++ [Byte.slash], ?_, trimmed_concat rfl _⟩
    simp [Delimiter.regex]

/-! ## Blanks -/

/-- Blanks and a remark that runs to the end of its line. -/
def IsLastRemark (word : List UInt8) : Prop :=
  ∃ blanks remark, word = blanks ++ remark ∧ (∀ b ∈ blanks, Byte.isBlank b = true) ∧
    IsLineRemark remark

theorem IsLastRemark.ne_nil (h : IsLastRemark word) : word ≠ [] := by
  obtain ⟨blanks, remark, rfl, -, hremark⟩ := h
  apply List.append_ne_nil_of_right_ne_nil
  cases hremark with
  | comment => exact List.cons_ne_nil _ _
  | note => exact List.cons_ne_nil _ _
  | rules => exact List.cons_ne_nil _ _

/-- Behind the block comments of a line stands at most one other remark. -/
theorem Trails.trimmed (h : Trails bytes rest) :
    ∃ front back, bytes = front ++ (back ++ rest) ∧ Trails front [] ∧
      (front = [] ∨ Trimmed front) ∧ (back = [] ∨ IsLastRemark back) := by
  induction h with
  | nothing => exact ⟨[], [], rfl, .nothing rfl, .inl rfl, .inl rfl⟩
  | @line blanks word rest hblanks hword =>
    refine ⟨[], blanks ++ word, ?_, .nothing rfl, .inl rfl, .inr ?_⟩
    · rw [List.nil_append, List.append_assoc]
    · exact ⟨blanks, word, rfl, hblanks, hword⟩
  | @block blanks word behind rest hblanks hword _ ih =>
    -- a block comment belongs to the part in front, which it may well begin
    obtain ⟨front, back, rfl, hfront, htrimmed, hback⟩ := ih
    refine ⟨blanks ++ (word ++ front), back, ?_, .block hblanks hword hfront, .inr ?_, hback⟩
    · simp only [List.append_assoc]
    · apply Trimmed.append_left
      rcases htrimmed with rfl | htrimmed
      · rw [List.append_nil]
        exact trimmed_of_isBlockComment hword
      · exact htrimmed.append_left word

/-- A schema ends with a byte that is not white, and behind it stands at most one
remark that runs to the end of its line. -/
theorem body_trimmed (h : body grammar bytes = .ok rest) :
    ∃ front back, bytes = front ++ (back ++ rest) ∧ body grammar front = .ok [] ∧
      Trimmed front ∧ (back = [] ∨ IsLastRemark back) := by
  unfold body at h
  split at h
  · rename_i behind hbare
    obtain ⟨word, hsplit, htrimmed⟩ := bare_trimmed hbare
    obtain ⟨word', hsplit', -, hread⟩ := bare_local hbare
    obtain rfl : word = word' := List.append_cancel_right (hsplit.symm.trans hsplit')
    obtain ⟨front, back, rfl, hfront, hends, hback⟩ := (trailing_iff.mp h).trimmed
    refine ⟨word ++ front, back, ?_, ?_, ?_, hback⟩
    · rw [hsplit, List.append_assoc]
    · -- the remarks that are left out could not have gone on with a scalar
      have hsame : SameScalar (front ++ (back ++ rest)) (front ++ []) :=
        sameScalar_append fun _ hhead => absurd hhead (by simp)
      rw [List.append_nil] at hsame
      rw [body, hread front hsame]
      exact trailing_iff.mpr hfront
    · rcases hends with rfl | hends
      · rwa [List.append_nil]
      · exact hends.append_left word
  · cases h

/-- The last byte that is measured is no break. If it is a blank it ends a remark
that runs to the end of its line, and the schema without that remark is measured
up to a byte that is not white. -/
theorem extent_trimmed (h : extent grammar bytes = .ok n) :
    ∃ last, bytes[n - 1]? = some last ∧ Byte.isBreak last = false ∧
      (Byte.isBlank last = true → ∃ m back, m < n ∧ bytes.take n = bytes.take m ++ back ∧
        IsLastRemark back ∧ extent grammar (bytes.take m) = .ok m ∧ Trimmed (bytes.take m)) := by
  obtain ⟨word, rest, rfl, rfl, hsolid, hquiet, hread⟩ := body_of_extent h
  obtain ⟨front, back, hsplit, hfront, htrimmed, hback⟩ := body_trimmed (hread rest hquiet id)
  obtain rfl : word = front ++ back := by
    rwa [← List.append_assoc, List.append_cancel_right_eq] at hsplit
  obtain ⟨last, hlast, hbreak⟩ := hsolid.getLast?
  refine ⟨last, ?_, hbreak, ?_⟩
  · have hpos := List.length_pos_iff.mpr hsolid.1
    rw [List.getElem?_append_left (by omega), ← List.getLast?_eq_getElem?, hlast]
  · intro hblank
    rcases hback with rfl | hremark
    · -- the schema itself ends with a byte that is not white
      obtain ⟨last', hlast', hwhite⟩ := htrimmed
      rw [List.append_nil, hlast'] at hlast
      cases hlast
      rw [Byte.isWhite_of_isBlank hblank] at hwhite
      cases hwhite
    · have halone : extent grammar (front ++ []) = .ok front.length :=
        extent_of_body (by rwa [List.append_nil])
      rw [List.append_nil] at halone
      have hback := List.length_pos_iff.mpr hremark.ne_nil
      refine ⟨front.length, back, ?_, ?_, hremark, ?_, ?_⟩
      · rw [List.length_append]
        omega
      · rw [List.take_left, List.append_assoc, List.take_left]
      · rwa [List.append_assoc, List.take_left]
      · rwa [List.append_assoc, List.take_left]

/-- The same of what is measured in 32 bits, which loses nothing where an offset holds the
number of the bytes. -/
theorem measured_trimmed (h : measured grammar bytes = .ok n) :
    ∃ stop, extent grammar bytes = .ok stop ∧ n = narrow stop ∧
      (bytes.length ≤ maxOffset → n = stop) ∧
      ∃ last, bytes[stop - 1]? = some last ∧ Byte.isBreak last = false ∧
        (Byte.isBlank last = true → ∃ m back, m < stop ∧ bytes.take stop = bytes.take m ++ back ∧
          IsLastRemark back ∧ extent grammar (bytes.take m) = .ok m ∧ Trimmed (bytes.take m)) := by
  obtain ⟨stop, hstop, rfl⟩ := measured_eq_ok_iff.mp h
  refine ⟨stop, hstop, rfl, ?_, extent_trimmed hstop⟩
  intro hfits
  exact narrow_of_le (Nat.le_trans (extent_bounds hstop).2 hfits)

/-- A block comment and a comment that ends with a space. -/
theorem measured_trimmed_remarks :
    let bytes := Utf8.bytes "/a/ /# b #/\t# c \n"
    measured .regex bytes = .ok 16 ∧ ∃ last, bytes[15]? = some last ∧ Byte.isBreak last = false ∧
      (Byte.isBlank last = true → ∃ m back, m < 16 ∧ bytes.take 16 = bytes.take m ++ back ∧
        IsLastRemark back ∧ extent .regex (bytes.take m) = .ok m ∧ Trimmed (bytes.take m)) := by
  intro bytes
  have hmeasured : measured .regex bytes = .ok 16 := by
    decide +kernel
  have hfits : bytes.length ≤ maxOffset := by
    decide +kernel
  obtain ⟨stop, -, -, hkept, htrimmed⟩ := measured_trimmed hmeasured
  obtain rfl : 16 = stop := hkept hfits
  exact ⟨hmeasured, htrimmed⟩

/-- The blanks at the end of a comment are measured, and so are those at the end of
an annotation. -/
theorem extent_takes_blanks :
    let commented := Utf8.bytes "1 # a \n"
    let annotated := Utf8.bytes "1 // a \t\n"
    (extent .jsight commented = .ok 6 ∧ commented[5]? = some Byte.space) ∧
      extent .jsight annotated = .ok 8 ∧ annotated[7]? = some Byte.tab := by
  decide +kernel

end ApiDoc.Schema
