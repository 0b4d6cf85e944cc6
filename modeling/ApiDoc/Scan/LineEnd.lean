import ApiDoc.Scan.State

/-!
# Comments and the ends of lines

A line comment runs to the end of its line; the blanks before the line end
are not part of it. Behind a schema, a block comment or a closing
parenthesis nothing else may follow on the line.
-/

namespace ApiDoc.Scan

/-- The events of a part that runs from the cursor to the end of the line. -/
def lineEvents (part : Part) (c : Cursor) : List Event :=
  part.events c.pos c.textEnd

/-- Reads the end of a line; `c` stands behind the blanks. -/
def lineEnd (ending : Ending) (s : State) (c : Cursor) : Except Fault Move :=
  match c.rest with
  | [] => .ok ⟨[], s.proceed c []⟩
  | b :: _ =>
    if b = Byte.hash then .ok ⟨lineEvents .comment c, s.proceed c.eatLine.eatBreak []⟩
    else if Byte.isBreak b then .ok ⟨[], s.proceed c.eatBreak []⟩
    else .error (unexpected c ending.place "end of line")

/-- A finished task leaves less work, even if it takes no byte. -/
theorem State.work_proceed_nil {s : State} {c : Cursor}
    (hle : c.rest.length ≤ s.cursor.rest.length) : (s.proceed c []).work < s.work + 1 := by
  have := s.work_proceed c []
  simp only [Task.weightAll] at this
  omega

theorem work_lineEnd {ending : Ending} {s : State} {c : Cursor} {m : Move}
    (hle : c.rest.length ≤ s.cursor.rest.length) (h : lineEnd ending s c = .ok m) :
    m.next.work < s.work + 1 := by
  unfold lineEnd at h
  split at h
  · cases h
    exact State.work_proceed_nil hle
  · split at h
    · cases h
      exact State.work_proceed_nil (Nat.le_trans (Cursor.length_eatBreak_le _)
        (Nat.le_trans (Cursor.length_eatLine_le _) hle))
    · split at h
      · cases h
        exact State.work_proceed_nil (Nat.le_trans (Cursor.length_eatBreak_le _) hle)
      · cases h

end ApiDoc.Scan
