import ApiDoc.Proofs.Schema.Words

/-!
# Escapes in schemas

A string and a regular expression run to the mark that closes them, and a line
end before that mark is refused. A backslash takes away the meaning of the byte
behind it, whatever that byte is, and so it hides a line end as it hides a mark.

* **Hidden bytes** (`hidden`): the bytes behind a backslash that counts.
* **Breaks** (`BreaksHidden`, `breaks_hidden`): the breaks between the marks are those
  that are hidden, so that a word is on one line iff none is.
* **Two lines** (`regex_over_lines`): with one, an expression or a string runs
  on to the next line.
-/

namespace ApiDoc.Schema

/-- The bytes that backslashes take. `escaped` tells that the byte before was a
backslash that counts. -/
def hidden : Bool → List UInt8 → List UInt8
  | _, [] => []
  | true, b :: rest => b :: hidden false rest
  | false, b :: rest => hidden (b == Byte.backslash) rest

/-- The breaks of a word are those that backslashes hide. -/
def BreaksHidden (escaped : Bool) (inner : List UInt8) : Prop :=
  inner.filter Byte.isBreak = (hidden escaped inner).filter Byte.isBreak

variable {d : Delimiter} {escaped : Bool} {bytes rest : List UInt8}

/-- What is read up to the closing mark has no other breaks than hidden ones. -/
theorem quoted_breaks (h : quoted d escaped bytes = .ok rest) :
    ∃ inner, bytes = inner ++ d.close :: rest ∧ BreaksHidden escaped inner := by
  fun_induction quoted d escaped bytes with
  | case1 => cases h
  | case2 b tail ih =>
    -- the byte is hidden, so it stands on both sides
    obtain ⟨inner, rfl, hbreaks⟩ := ih h
    refine ⟨b :: inner, rfl, ?_⟩
    rw [BreaksHidden, hidden, List.filter_cons, List.filter_cons, hbreaks]
  | case3 => cases h
  | case4 tail hbreak ih =>
    obtain ⟨inner, rfl, hbreaks⟩ := ih h
    refine ⟨Byte.backslash :: inner, rfl, ?_⟩
    rw [BreaksHidden, List.filter_cons_of_neg hbreak, hbreaks]
    rfl
  | case5 tail =>
    cases h
    exact ⟨[], rfl, rfl⟩
  | case6 b tail hbreak hback hclose ih =>
    -- the byte stands for itself, and it is no break
    obtain ⟨inner, rfl, hbreaks⟩ := ih h
    refine ⟨b :: inner, rfl, ?_⟩
    rw [BreaksHidden, List.filter_cons_of_neg hbreak, hidden, beq_false_of_ne hback, hbreaks]

/-- A word without breaks leaves none when its breaks are picked out. -/
theorem oneLine_iff_filter {word : List UInt8} : OneLine word ↔ word.filter Byte.isBreak = [] := by
  simp [OneLine, List.filter_eq_nil_iff]

/-- Then it is on one line iff no backslash hides a break. -/
theorem BreaksHidden.oneLine_iff {inner : List UInt8} (h : BreaksHidden escaped inner) :
    OneLine inner ↔ OneLine (hidden escaped inner) := by
  rw [oneLine_iff_filter, oneLine_iff_filter, h]

/-- Between its slashes an expression, and between its quotes a string, has the
breaks that are hidden by a backslash and no others: it is on one line iff no
backslash hides a break. -/
theorem breaks_hidden {bytes rest : List UInt8} :
    (regex bytes = .ok rest → ∃ inner, bytes = Byte.slash :: (inner ++ Byte.slash :: rest) ∧
      BreaksHidden false inner ∧ (OneLine inner ↔ OneLine (hidden false inner))) ∧
    (quoted .string false bytes = .ok rest → ∃ inner, bytes = inner ++ Byte.quote :: rest ∧
      BreaksHidden false inner ∧ (OneLine inner ↔ OneLine (hidden false inner))) := by
  refine ⟨?_, ?_⟩
  · intro h
    obtain ⟨tail, rfl, hquoted⟩ := regex_eq_ok_iff.mp h
    obtain ⟨inner, rfl, hbreaks⟩ := quoted_breaks hquoted
    exact ⟨inner, rfl, hbreaks, hbreaks.oneLine_iff⟩
  · intro h
    obtain ⟨inner, rfl, hbreaks⟩ := quoted_breaks h
    exact ⟨inner, rfl, hbreaks, hbreaks.oneLine_iff⟩

/-- A slash, a line end and a backslash in an expression, each behind a
backslash, and a quote and a line end in a string. -/
theorem breaks_hidden_marks :
    let expression := Utf8.bytes "/a\\/\\\r\\\\/\n"
    let string := Utf8.bytes "\\\"\\\n\""
    (regex expression = .ok [Byte.lineFeed] ∧ ∃ inner,
      expression = Byte.slash :: (inner ++ Byte.slash :: [Byte.lineFeed]) ∧
        BreaksHidden false inner ∧ (OneLine inner ↔ OneLine (hidden false inner))) ∧
    quoted .string false string = .ok [] ∧ ∃ inner, string = inner ++ Byte.quote :: [] ∧
      BreaksHidden false inner ∧ (OneLine inner ↔ OneLine (hidden false inner)) := by
  intro expression string
  have hexpression : regex expression = .ok [Byte.lineFeed] := by
    decide
  have hstring : quoted .string false string = .ok [] := by
    decide
  exact ⟨⟨hexpression, breaks_hidden.1 hexpression⟩, hstring, breaks_hidden.2 hstring⟩

/-- An expression of two lines is read and measured, and so is a string. -/
theorem regex_over_lines :
    let expression := Utf8.bytes "/\\\n/"
    let string := Utf8.bytes "\"\\\n\""
    (regex expression = .ok [] ∧ extent .regex expression = .ok 4 ∧
      expression[2]? = some Byte.lineFeed) ∧
    quoted .string false string.tail = .ok [] ∧ extent .jsight string = .ok 4 ∧
      string[2]? = some Byte.lineFeed := by
  decide +kernel

end ApiDoc.Schema
