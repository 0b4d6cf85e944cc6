import ApiDoc.Directive.Keyword
import ApiDoc.Scan.LineEnd
import ApiDoc.Schema.Extent

/-!
# Bodies

Behind its line a directive may have a body: a schema, whose extent is
measured and not looked into, or free text.

* A schema body is there unless the next content is a directive, a comment
  or a parenthesis.
* Text runs until a line opens a directive or closes a context; the blank
  lines and blanks around it are not part of it.
* Text in parentheses runs until a line starts with the closing one, and
  nothing in it is looked at.
-/

namespace ApiDoc.Scan

/-! ## Schemas -/

/-- Whether content that goes on so is an item of its own and no schema. -/
def opensItem : List UInt8 → Bool
  | [] => true
  | b :: rest =>
    Keyword.opensDirective (b :: rest) || b == Byte.hash || b == Byte.closeParen
      || b == Byte.openParen || [Byte.slash, Byte.hash].isPrefixOf (b :: rest)

/-- Reads a schema in the notation of its directive. -/
def schemaBody (line : Line) (s : State) (c : Cursor) : Except Fault Move :=
  match line.declared.grammar? with
  | none =>
    .error (faultAt c
      (.plain ("unexpected schema body for notation \"" ++ line.declared.display ++ "\"")))
  | some grammar =>
    match Schema.extent grammar c.rest with
    | .ok n => .ok ⟨Part.schema.events c.pos (c.pos + n), s.proceed (c.advance n) [.lineEnd .schema]⟩
    | .error fault => .error ⟨.schema fault.complaint, fault.offsetFrom c.pos, c.pos⟩

/-! ## Free text -/

/-- Whether text ends before content that goes on so. -/
def endsText (inContext : Bool) : List UInt8 → Bool
  | [] => true
  | b :: rest => Keyword.opensDirective (b :: rest) || (inContext && b == Byte.closeParen)

/-- Reads lines of text. Returns the offset behind the text, which is at
least `stop`, and the cursor behind the line end. -/
def textLines (inContext : Bool) (c : Cursor) (stop : Nat) : Nat × Cursor :=
  if c.eatLine.atBreak = true then
    if endsText inContext c.eatLine.eatBreak.eatWhite.rest then
      (max c.textEnd stop, c.eatLine.eatBreak)
    else textLines inContext c.eatLine.eatBreak.eatBlanks (max c.textEnd stop)
  else (max c.textEnd stop, c.eatLine)
termination_by c.rest.length
decreasing_by
  have := Cursor.length_eatBreak_lt ‹c.eatLine.atBreak = true›
  have := c.length_eatLine_le
  have := c.eatLine.eatBreak.length_eatBlanks_le
  omega

/-- Reads free text from its first byte on. -/
def textBody (s : State) (c : Cursor) : Move :=
  let (stop, behind) := textLines (! s.contexts.isEmpty) c c.pos
  ⟨Part.text.events c.pos stop, s.proceed behind []⟩

/-! ## Text in parentheses -/

/-- The range from the start of `range` to `stop`, if there is anything from
`start` to `stop`. -/
def widen (range : Option (Nat × Nat)) (start stop : Nat) : Option (Nat × Nat) :=
  if start < stop then some ((range.map (·.1)).getD start, stop) else range

/-- Reads lines up to one that starts with a closing parenthesis, or to the
end. Returns the range of the text in them. -/
def parenLines (range : Option (Nat × Nat)) (c : Cursor) : Option (Nat × Nat) × Cursor :=
  match _ : c.rest with
  | [] => (range, c)
  | b :: _ =>
    if b = Byte.closeParen then (range, c)
    else parenLines (widen range c.pos c.textEnd) c.eatLine.eatBreak.eatBlanks
termination_by c.rest.length
decreasing_by
  have hr : c.rest ≠ [] := by simp [‹c.rest = _›]
  have := Cursor.length_eatLine_eatBreak_lt hr
  have := c.eatLine.eatBreak.length_eatBlanks_le
  omega

/-- Reads text in parentheses behind the opening one; `c` stands behind the
blanks. -/
def parenBody (s : State) (c : Cursor) : Except Fault Move :=
  match parenLines none c with
  | (range, behind) =>
    match behind.rest with
    | [] => .error (unexpected behind "" "\")\"")
    | _ :: _ =>
      let events := (range.map fun (start, stop) => Part.text.events start stop).getD []
      .ok ⟨events, s.proceed behind.advance [.lineEnd .paren]⟩

/-! ## The body of a directive -/

/-- Reads the body of a directive, if it has one. -/
def body (line : Line) (s : State) : Except Fault Move :=
  if line.opened then
    if line.kind.hasTextBody then parenBody s s.cursor.eatBlanks
    else .ok ⟨[], s.proceed s.cursor []⟩
  else
    match line.kind.body? with
    | none => .ok ⟨[], s.proceed s.cursor []⟩
    | some .schema =>
      if opensItem s.cursor.eatWhite.rest then .ok ⟨[], s.proceed s.cursor []⟩
      else schemaBody line s s.cursor.eatWhite
    | some .text =>
      if endsText (! s.contexts.isEmpty) s.cursor.eatWhite.rest then
        .ok ⟨[], s.proceed s.cursor []⟩
      else .ok (textBody s s.cursor.eatWhite)

/-! ## A body leaves less work -/

theorem work_schemaBody {line : Line} {s : State} {c : Cursor} {m : Move}
    (hle : c.rest.length ≤ s.cursor.rest.length) (h : schemaBody line s c = .ok m) :
    m.next.work < s.work + 1 := by
  unfold schemaBody at h
  split at h
  · cases h
  · split at h
    · rename_i n hn
      cases h
      have hb := Schema.extent_bounds hn
      have hl := c.length_advance n
      have hw := s.work_proceed (c.advance n) [.lineEnd .schema]
      simp only [Task.weightAll, Task.weight] at hw ⊢
      omega
    · cases h

theorem length_textLines_le (inContext : Bool) (c : Cursor) (stop : Nat) :
    (textLines inContext c stop).2.rest.length ≤ c.rest.length := by
  fun_induction textLines inContext c stop with
  | case1 c stop _ _ =>
    exact Nat.le_trans (Cursor.length_eatBreak_le _) (Cursor.length_eatLine_le _)
  | case2 c stop _ _ ih =>
    exact Nat.le_trans ih (Nat.le_trans (Cursor.length_eatBlanks_le _)
      (Nat.le_trans (Cursor.length_eatBreak_le _) (Cursor.length_eatLine_le _)))
  | case3 c stop _ => exact Cursor.length_eatLine_le _

theorem length_parenLines_le (range : Option (Nat × Nat)) (c : Cursor) :
    (parenLines range c).2.rest.length ≤ c.rest.length := by
  fun_induction parenLines range c with
  | case1 => exact Nat.le_refl _
  | case2 => exact Nat.le_refl _
  | case3 range c b tail hr _ ih =>
    have hne : c.rest ≠ [] := by simp [hr]
    exact Nat.le_trans ih (Nat.le_trans (Cursor.length_eatBlanks_le _)
      (Nat.le_of_lt (Cursor.length_eatLine_eatBreak_lt hne)))

theorem work_textBody {s : State} {c : Cursor} (hle : c.rest.length ≤ s.cursor.rest.length) :
    (textBody s c).next.work < s.work + 1 :=
  State.work_proceed_nil (Nat.le_trans (length_textLines_le _ _ _) hle)

theorem work_parenBody {s : State} {c : Cursor} {m : Move}
    (hle : c.rest.length ≤ s.cursor.rest.length) (h : parenBody s c = .ok m) :
    m.next.work < s.work + 1 := by
  have hp := length_parenLines_le none c
  unfold parenBody at h
  split at h
  rename_i range behind heq
  rw [heq] at hp
  dsimp only at hp
  split at h
  · cases h
  · rename_i b tail hr
    cases h
    have hl := Cursor.length_advance_lt Nat.one_pos (c := behind) (by simp [hr])
    have hw := s.work_proceed behind.advance [.lineEnd .paren]
    simp only [Task.weightAll, Task.weight] at hw ⊢
    omega

theorem work_body {line : Line} {s : State} {m : Move} (h : body line s = .ok m) :
    m.next.work < s.work + 1 := by
  have skip : (s.proceed s.cursor []).work < s.work + 1 :=
    State.work_proceed_nil (Nat.le_refl _)
  unfold body at h
  split at h
  · split at h
    · exact work_parenBody (Cursor.length_eatBlanks_le _) h
    · cases h
      exact skip
  · split at h
    · cases h
      exact skip
    · split at h
      · cases h
        exact skip
      · exact work_schemaBody (Cursor.length_eatWhite_le _) h
    · split at h
      · cases h
        exact skip
      · cases h
        exact work_textBody (Cursor.length_eatWhite_le _)

end ApiDoc.Scan
