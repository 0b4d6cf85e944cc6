import ApiDoc.Directive.Recogniser
import ApiDoc.Scan.LineEnd
import ApiDoc.Text.Comment

/-!
# Items

Between directives stand blank lines, comments and the parentheses that
close contexts. Anything else must be a keyword.
-/

namespace ApiDoc.Scan

/-- Reads a block comment. -/
def blockComment (s : State) (c : Cursor) : Except Fault Move :=
  match Comment.afterClose? (c.rest.drop 2) with
  | some rest =>
    let behind := c.moveTo rest
    .ok ⟨Part.comment.events c.pos behind.pos, s.proceed behind [.lineEnd .comment, .items]⟩
  | none => .error (unexpected (c.moveTo []) "" "\"#/\"")

/-- Reads a closing parenthesis. -/
def closeContext (s : State) (c : Cursor) : Except Fault Move :=
  match s.contexts with
  | [] => .error (unexpected c "at directive start" "directive")
  | start :: outer =>
    .ok ⟨[⟨⟨.context, .closing⟩, ⟨start, c.pos⟩⟩],
      { s with contexts := outer }.proceed c.advance [.lineEnd .paren, .items]⟩

/-- The place of a byte that spoils a keyword. -/
def keywordPlace (c : Cursor) (progress : Keyword.Progress) : String :=
  if progress.depth = 0 then "at directive start"
  else "in keyword \"" ++ Utf8.lossy (c.rest.take progress.depth) ++ "\""

/-- Reads a keyword. -/
def keyword (s : State) (c : Cursor) : Except Fault Move :=
  match Keyword.recognise c.rest with
  | .found kind rest =>
    let behind := c.moveTo rest
    .ok ⟨Part.keyword.events c.pos behind.pos,
      s.proceed behind [.tail { kind := kind }, .items]⟩
  | .stuck progress rest =>
    .error (unexpected (c.moveTo rest) (keywordPlace c progress) progress.expected)

/-- Reads the next item; `c` stands behind the blanks. -/
def items (s : State) (c : Cursor) : Except Fault Move :=
  match c.rest with
  | [] =>
    match s.contexts with
    | [] => .ok ⟨[], s.proceed c []⟩
    | _ :: _ => .error (unexpected c "" "\")\"")
  | b :: _ =>
    if Byte.isBreak b then .ok ⟨[], s.proceed c.eatBreak [.items]⟩
    else if b = Byte.hash then .ok ⟨lineEvents .comment c, s.proceed c.eatLine [.items]⟩
    else if b = Byte.slash ∧ c.peek = Byte.hash then blockComment s c
    else if b = Byte.closeParen then closeContext s c
    else keyword s c

/-! ## Every item takes at least one byte -/

theorem work_blockComment {s : State} {c : Cursor} {m : Move}
    (hr : c.rest ≠ []) (hle : c.rest.length ≤ s.cursor.rest.length)
    (h : blockComment s c = .ok m) : m.next.work < s.work + 1 := by
  have hpos := List.length_pos_iff.mpr hr
  unfold blockComment at h
  split at h
  · rename_i rest hcl
    cases h
    have hl := Comment.length_afterClose?_le hcl
    have hw := s.work_proceed (c.moveTo rest) [.lineEnd .comment, .items]
    simp only [Cursor.moveTo, List.length_drop, Task.weightAll, Task.weight] at hl hw ⊢
    omega
  · cases h

theorem work_closeContext {s : State} {c : Cursor} {m : Move}
    (hr : c.rest ≠ []) (hle : c.rest.length ≤ s.cursor.rest.length)
    (h : closeContext s c = .ok m) : m.next.work < s.work + 1 := by
  unfold closeContext at h
  split at h
  · cases h
  · rename_i start outer _
    cases h
    have hl := Cursor.length_advance_lt Nat.one_pos hr
    have hw := { s with contexts := outer }.work_proceed c.advance [.lineEnd .paren, .items]
    simp only [State.work, Task.weightAll, Task.weight] at hw ⊢
    omega

theorem work_keyword {s : State} {c : Cursor} {m : Move}
    (hle : c.rest.length ≤ s.cursor.rest.length)
    (h : keyword s c = .ok m) : m.next.work < s.work + 1 := by
  unfold keyword at h
  split at h
  · rename_i kind rest hk
    cases h
    have hl := Keyword.length_recognise_lt hk
    have hw := s.work_proceed (c.moveTo rest) [.tail { kind := kind }, .items]
    simp only [Cursor.moveTo, Task.weightAll, Task.weight] at hw ⊢
    omega
  · cases h

theorem work_items {s : State} {c : Cursor} {m : Move}
    (hle : c.rest.length ≤ s.cursor.rest.length) (h : items s c = .ok m) :
    m.next.work < s.work + 1 := by
  have key : ∀ d : Cursor, d.rest.length < c.rest.length →
      (s.proceed d [.items]).work < s.work + 1 := by
    intro d hlt
    have hw := s.work_proceed d [.items]
    simp only [Task.weightAll, Task.weight] at hw
    omega
  unfold items at h
  split at h
  · split at h
    · cases h
      exact State.work_proceed_nil hle
    · cases h
  · rename_i b tail hr
    have hne : c.rest ≠ [] := by simp [hr]
    split at h
    · rename_i hb
      cases h
      exact key _ (Cursor.length_eatBreak_lt (Cursor.atBreak_of_isBreak hr hb))
    · rename_i hb
      split at h
      · cases h
        exact key _ (Cursor.length_eatWhile_lt hr (by simp [hb]))
      · split at h
        · exact work_blockComment hne hle h
        · split at h
          · exact work_closeContext hne hle h
          · exact work_keyword hle h

end ApiDoc.Scan
