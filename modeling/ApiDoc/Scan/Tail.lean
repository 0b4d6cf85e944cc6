import ApiDoc.Directive.Parameter
import ApiDoc.Scan.Body

/-!
# Directive lines

Behind the keyword a directive line holds parameters, and at its end a
parenthesis, an annotation or a comment, or else a schema.

* A parameter is a run of bytes without white space, or stands in quotes in
  which a backslash takes away the meaning of the next byte.
* A parenthesis must end its line. It opens a context, unless the directive
  has a text body.
* A parameter that names a notation declares the notation of the body; the
  last one counts.
-/

namespace ApiDoc.Scan

/-! ## Parameters -/

/-- The bytes from the quote that closes a parameter on, or from the end of
the line if none does. `escaped` tells that the byte before was a
backslash. -/
def quotedRest : Bool → List UInt8 → List UInt8
  | _, [] => []
  | escaped, b :: rest =>
    if Byte.isBreak b then b :: rest
    else if escaped then quotedRest false rest
    else if b = Byte.backslash then quotedRest true rest
    else if b = Byte.quote then b :: rest
    else quotedRest false rest

/-- The directive after one more parameter. -/
def Line.declare (line : Line) (raw : List UInt8) : Line :=
  if line.kind.hasSchemaBody then
    match Notation.resolve? (Parameter.unquote (Utf8.lossy raw)) with
    | some n => { line with declared := n }
    | none => line
  else line

/-- The parameter that ends before `behind` has been read. -/
def parameter (line : Line) (s : State) (c behind : Cursor) : Move :=
  ⟨Part.parameter.events c.pos behind.pos,
    s.proceed behind [.tail (line.declare (c.rest.take (behind.pos - c.pos)))]⟩

/-- Reads a parameter in quotes. -/
def quotedParameter (line : Line) (s : State) (c : Cursor) : Except Fault Move :=
  let close := c.moveTo (quotedRest false c.rest.tail)
  if close.current = Byte.quote then
    let behind := close.advance
    if behind.atLineEnd || Byte.isBlank behind.current then .ok (parameter line s c behind)
    else .error (unexpected behind "after parameter" "space or end of line")
  else .error (unexpected close "in quoted parameter" "\"\\\"\"")

/-- Reads a parameter without quotes. -/
def bareParameter (line : Line) (s : State) (c : Cursor) : Move :=
  parameter line s c (c.eatWhile (! Byte.isWhite ·))

/-! ## Parentheses -/

/-- Whether only an annotation, a comment or nothing follows on the line. -/
def endsDirectiveLine (c : Cursor) : Bool :=
  c.atLineEnd || c.startsWith [Byte.slash, Byte.slash] || c.current == Byte.hash

/-- Reads the parenthesis at the end of a directive line. -/
def openParen (limit : Nat) (line : Line) (s : State) (c : Cursor) : Except Fault Move :=
  let tail := [Task.tail { line with opened := true }]
  if endsDirectiveLine c.advance.eatBlanks then
    if line.kind.hasTextBody then .ok ⟨[], s.proceed c.advance tail⟩
    else if limit ≤ s.contexts.length then
      .error (faultAt c (.plain ("explicit contexts nested deeper than " ++ toString limit)))
    else
      .ok ⟨[⟨⟨.context, .opening⟩, .point c.pos⟩],
        { s with contexts := c.pos :: s.contexts }.proceed c.advance tail⟩
  else .error (unexpected c.advance.eatBlanks "after \"(\"" "end of line or annotation")

/-! ## The line -/

/-- Whether a schema starts on the directive line with `b` and then
`next`. -/
def opensInlineSchema (line : Line) (b next : UInt8) : Bool :=
  line.kind.hasSchemaBody
    && (b == Byte.openBrace || (b == Byte.openBracket && next != Byte.atSign)
      || (b == Byte.slash && line.declared == .regex))

/-- Reads the next thing on a directive line; `c` stands behind the blanks. -/
def tail (limit : Nat) (line : Line) (s : State) (c : Cursor) : Except Fault Move :=
  match c.rest with
  | [] => .ok ⟨[], s.proceed c [.body line]⟩
  | b :: _ =>
    if Byte.isBreak b then .ok ⟨[], s.proceed c.eatBreak [.body line]⟩
    else if b = Byte.slash ∧ c.peek = Byte.slash then
      .ok ⟨lineEvents .note c, s.proceed c.eatLine [.tail line]⟩
    else if b = Byte.hash then .ok ⟨lineEvents .comment c, s.proceed c.eatLine [.tail line]⟩
    else if line.opened then
      .error (unexpected c "after \"(\"" "end of line or annotation")
    else if b = Byte.openParen then openParen limit line s c
    else if opensInlineSchema line b c.peek then schemaBody line s c
    else if b = Byte.quote then quotedParameter line s c
    else .ok (bareParameter line s c)

/-! ## A directive line leaves less work -/

theorem length_quotedRest_le (escaped : Bool) (bytes : List UInt8) :
    (quotedRest escaped bytes).length ≤ bytes.length := by
  fun_induction quotedRest escaped bytes <;> simp only [List.length_cons, List.length_nil] <;> omega

theorem work_parameter {line : Line} {s : State} {c behind : Cursor}
    (hle : behind.rest.length < s.cursor.rest.length) :
    (parameter line s c behind).next.work < s.work + 2 := by
  have hw := s.work_proceed behind
    [.tail (line.declare (c.rest.take (behind.pos - c.pos)))]
  simp only [parameter, Task.weightAll, Task.weight] at hw ⊢
  omega

theorem work_quotedParameter {line : Line} {s : State} {c : Cursor} {m : Move}
    (hr : c.rest ≠ []) (hle : c.rest.length ≤ s.cursor.rest.length)
    (h : quotedParameter line s c = .ok m) : m.next.work < s.work + 2 := by
  have hpos := List.length_pos_iff.mpr hr
  have hq := length_quotedRest_le false c.rest.tail
  simp only [quotedParameter] at h
  split at h
  · split at h
    · cases h
      refine work_parameter ?_
      simp only [Cursor.length_advance, Cursor.moveTo, List.length_tail] at hq ⊢
      omega
    · cases h
  · cases h

theorem work_bareParameter {line : Line} {s : State} {c : Cursor} {b : UInt8}
    {rest : List UInt8} (hr : c.rest = b :: rest) (hb : Byte.isWhite b = false)
    (hle : c.rest.length ≤ s.cursor.rest.length) :
    (bareParameter line s c).next.work < s.work + 2 :=
  work_parameter (Nat.lt_of_lt_of_le (Cursor.length_eatWhile_lt hr (by simp [hb])) hle)

theorem work_openParen {limit : Nat} {line : Line} {s : State} {c : Cursor} {m : Move}
    (hr : c.rest ≠ []) (hle : c.rest.length ≤ s.cursor.rest.length)
    (h : openParen limit line s c = .ok m) : m.next.work < s.work + 2 := by
  have hl := Cursor.length_advance_lt Nat.one_pos hr
  simp only [openParen] at h
  split at h
  · split at h
    · cases h
      have hw := s.work_proceed c.advance [.tail { line with opened := true }]
      simp only [Task.weightAll, Task.weight] at hw ⊢
      omega
    · split at h
      · cases h
      · cases h
        have hw := { s with contexts := c.pos :: s.contexts }.work_proceed c.advance
          [.tail { line with opened := true }]
        simp only [State.work, Task.weightAll, Task.weight] at hw ⊢
        omega
  · cases h

theorem work_tail {limit : Nat} {line : Line} {s : State} {c : Cursor} {m : Move}
    (hb : ∀ b rest, c.rest = b :: rest → Byte.isBlank b = false)
    (hle : c.rest.length ≤ s.cursor.rest.length) (h : tail limit line s c = .ok m) :
    m.next.work < s.work + 2 := by
  have toBody : ∀ d : Cursor, d.rest.length ≤ c.rest.length →
      (s.proceed d [.body line]).work < s.work + 2 := by
    intro d hd
    have hw := s.work_proceed d [.body line]
    simp only [Task.weightAll, Task.weight] at hw
    omega
  have toTail : ∀ d : Cursor, d.rest.length < c.rest.length →
      (s.proceed d [.tail line]).work < s.work + 2 := by
    intro d hd
    have hw := s.work_proceed d [.tail line]
    simp only [Task.weightAll, Task.weight] at hw
    omega
  unfold tail at h
  split at h
  · cases h
    exact toBody _ (Nat.le_refl _)
  · rename_i b rest hr
    have hne : c.rest ≠ [] := by simp [hr]
    split at h
    · cases h
      exact toBody _ (Cursor.length_eatBreak_le _)
    · rename_i hbreak
      have hline : c.eatLine.rest.length < c.rest.length :=
        Cursor.length_eatWhile_lt hr (by simp [hbreak])
      split at h
      · cases h
        exact toTail _ hline
      · split at h
        · cases h
          exact toTail _ hline
        · split at h
          · cases h
          · split at h
            · exact work_openParen hne hle h
            · split at h
              · exact Nat.lt_succ_of_lt (work_schemaBody hle h)
              · split at h
                · exact work_quotedParameter hne hle h
                · cases h
                  have hw : Byte.isWhite b = false := by
                    simp [Byte.isWhite, hb b rest hr, hbreak]
                  exact work_bareParameter hr hw hle

end ApiDoc.Scan
