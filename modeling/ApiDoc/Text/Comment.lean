import ApiDoc.Text.Byte

/-!
# Comments

A line comment runs from `#` to the end of its line, a block comment from
`/#` to the next `#/`. Both may stand between directives and inside an
embedded schema.
-/

namespace ApiDoc.Comment

/-- The bytes from the end of the line on. -/
def toLineEnd (bytes : List UInt8) : List UInt8 :=
  bytes.dropWhile (! Byte.isBreak ·)

/-- The bytes behind the first `#/`. -/
def afterClose? : List UInt8 → Option (List UInt8)
  | [] => none
  | [_] => none
  | a :: b :: rest =>
    if a = Byte.hash ∧ b = Byte.slash then some rest else afterClose? (b :: rest)

theorem length_toLineEnd_le (bytes : List UInt8) :
    (toLineEnd bytes).length ≤ bytes.length :=
  (List.dropWhile_sublist _).length_le

theorem length_afterClose?_le {bytes rest : List UInt8} (h : afterClose? bytes = some rest) :
    rest.length ≤ bytes.length := by
  fun_induction afterClose? bytes with
  | case1 => cases h
  | case2 => cases h
  | case3 a b tail _ =>
    cases h
    simp only [List.length_cons]
    omega
  | case4 a b tail _ ih => exact Nat.le_succ_of_le (ih h)

end ApiDoc.Comment
