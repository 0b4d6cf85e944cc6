import ApiDoc.Proofs.Schema.Locality
import ApiDoc.Proofs.Scan.Tiling

/-!
# Documents that go on

A document that ends with a line end may go on with a line that opens a
directive, a comment or a parenthesis, and the scanner does on it what it did
before:

* **Cursors** (`Cursor.extend`): a move that stops before the end of the
  document stops at the same place if the document goes on.
* **Looking ahead** (`extend_endsText`, `extend_opensItem`): where the document
  ended an item stands now, and both end a schema. Text is ended by a directive
  only, so that it must not have run to the end of the document if something
  else comes (`EndsTexts`).
* **Steps** (`Performs.extend`): every rule but the end of the document is
  taken again.

So the scanner comes to the start of the new line with nothing but items on its
agenda (`Run.extend`). The invariant is that on a directive line and before an
awaited line end the document has not ended yet (`Ready`), because it ends with
a line end.
-/

namespace ApiDoc

/-- A keyword stands on one line. -/
theorem Keyword.Spells.isBreak {word : List UInt8} {kind : Kind} (h : Spells word kind) :
    ∀ b ∈ word, Byte.isBreak b = false :=
  fun b hb => (Scan.not_special_of_isAlphanumeric (h.isAlphanumeric b hb)).2.1

/-- The bytes start with a line that opens a directive. -/
def Opens (bytes : List UInt8) : Prop :=
  ∃ blanks line, bytes = blanks ++ line ∧ (∀ b ∈ blanks, Byte.isBlank b = true) ∧
    Keyword.opensDirective line = true

theorem Opens.head {bytes : List UInt8} (h : Opens bytes) :
    ∃ b tail, bytes = b :: tail ∧ Byte.isBreak b = false := by
  obtain ⟨blanks, line, rfl, hblanks, hopens⟩ := h
  cases blanks with
  | nil =>
    cases line with
    | nil => cases hopens
    | cons b tail =>
      have hwhite := Scan.isWhite_of_opensDirective hopens
      exact ⟨b, tail, rfl, (Byte.isWhite_eq_false_iff.mp hwhite).2⟩
  | cons b blanks =>
    exact ⟨b, _, rfl, Byte.isBreak_eq_false_of_isBlank (hblanks b List.mem_cons_self)⟩

/-- Behind the white space stands the directive. -/
theorem Opens.dropWhite {bytes : List UInt8} (h : Opens bytes) :
    Keyword.opensDirective (bytes.dropWhile Byte.isWhite) = true := by
  obtain ⟨blanks, line, rfl, hblanks, hopens⟩ := h
  rw [List.dropWhile_append_of_pos fun b hb => Byte.isWhite_of_isBlank (hblanks b hb)]
  cases line with
  | nil => exact hopens
  | cons b tail =>
    have hwhite : ¬ Byte.isWhite b = true := by
      rw [Scan.isWhite_of_opensDirective hopens]
      exact Bool.false_ne_true
    rw [List.dropWhile_cons_of_neg hwhite]
    exact hopens

theorem Scan.opensItem_of_opensDirective {bytes : List UInt8}
    (h : Keyword.opensDirective bytes = true) : opensItem bytes = true := by
  cases bytes with
  | nil => rfl
  | cons b tail => simp [opensItem, h]

/-- The bytes start with a line that is no part of a schema. -/
structure Continues (bytes : List UInt8) : Prop where
  head : ∃ b tail, bytes = b :: tail ∧ Byte.isBreak b = false
  item : Scan.opensItem (bytes.dropWhile Byte.isWhite) = true

theorem Opens.continues {bytes : List UInt8} (h : Opens bytes) : Continues bytes :=
  ⟨h.head, Scan.opensItem_of_opensDirective h.dropWhite⟩

/-! ## Cursors -/

/-- The cursor in a document that goes on with `more`. -/
def Cursor.extend (c : Cursor) (more : List UInt8) : Cursor :=
  ⟨c.pos, c.rest ++ more⟩

namespace Cursor

variable {c d : Cursor} {more taken : List UInt8}

theorem Takes.extend (h : c.Takes taken d) (more : List UInt8) :
    (c.extend more).Takes taken (d.extend more) := by
  refine ⟨?_, h.pos⟩
  show c.rest ++ more = taken ++ (d.rest ++ more)
  rw [h.rest, List.append_assoc]

/-- A run of bytes that stops does not see what is added behind. -/
theorem takeWhile_append_of_stops {p : UInt8 → Bool} {bytes : List UInt8}
    (h : bytes.dropWhile p ≠ []) (more : List UInt8) :
    (bytes ++ more).takeWhile p = bytes.takeWhile p := by
  obtain ⟨b, tail, hb⟩ := List.exists_cons_of_ne_nil h
  have hp : ¬ p b = true := by
    have := List.head?_dropWhile_not p bytes
    simpa [hb] using this
  have hsplit : bytes = bytes.takeWhile p ++ b :: tail := by
    rw [← hb]
    exact List.takeWhile_append_dropWhile.symm
  conv_lhs => rw [hsplit, List.append_assoc]
  rw [List.takeWhile_append_of_pos fun d hd => List.mem_takeWhile_imp hd, List.cons_append,
    List.takeWhile_cons_of_neg hp, List.append_nil]

theorem extend_eatWhile {p : UInt8 → Bool} (h : (c.eatWhile p).rest ≠ []) (more : List UInt8) :
    (c.extend more).eatWhile p = (c.eatWhile p).extend more := by
  have hthere := (c.extend more).takes_eatWhile p
  have hrest : (c.extend more).rest = c.rest ++ more := rfl
  rw [hrest, takeWhile_append_of_stops h] at hthere
  exact hthere.unique ((c.takes_eatWhile p).extend more)

theorem extend_line (h : c.eatLine.rest ≠ []) (more : List UInt8) :
    (c.extend more).line = c.line :=
  takeWhile_append_of_stops h more

theorem extend_textEnd (h : c.eatLine.rest ≠ []) (more : List UInt8) :
    (c.extend more).textEnd = c.textEnd := by
  rw [textEnd, extend_line h]
  rfl

/-- A line end is not continued by what is no break. -/
theorem breakLength_append {more : List UInt8} {b : UInt8} {tail : List UInt8}
    (hmore : more = b :: tail) (hb : Byte.isBreak b = false) (bytes : List UInt8) :
    breakLength (bytes ++ more) = breakLength bytes := by
  match bytes with
  | [] =>
    rw [List.nil_append, hmore]
    cases tail with
    | nil => simp [breakLength, hb]
    | cons d tail => simp [breakLength, hb]
  | [a] => simp [breakLength, hmore, hb]
  | a :: d :: rest => rfl

theorem extend_advance {n : Nat} (h : n ≤ c.rest.length) (more : List UInt8) :
    (c.extend more).advance n = (c.advance n).extend more := by
  have hthere := (c.extend more).takes_advance n
  have hrest : (c.extend more).rest = c.rest ++ more := rfl
  rw [hrest, List.take_append_of_le_length h] at hthere
  exact hthere.unique ((c.takes_advance n).extend more)

theorem extend_eatBreak (hmore : Continues more) :
    (c.extend more).eatBreak = c.eatBreak.extend more := by
  obtain ⟨b, tail, hcons, hb⟩ := hmore.head
  rw [eatBreak, show (c.extend more).rest = c.rest ++ more from rfl, breakLength_append hcons hb,
    extend_advance (breakLength_le _), eatBreak]

theorem extend_atBreak (hmore : Continues more) : (c.extend more).atBreak = c.atBreak := by
  obtain ⟨b, tail, hcons, hb⟩ := hmore.head
  rw [atBreak, show (c.extend more).rest = c.rest ++ more from rfl, breakLength_append hcons hb,
    atBreak]

theorem extend_moveTo (c : Cursor) (rest more : List UInt8) :
    (c.extend more).moveTo (rest ++ more) = (c.moveTo rest).extend more := by
  simp [extend, moveTo, Nat.add_sub_add_right]

theorem extend_atLineEnd (h : c.rest ≠ []) (more : List UInt8) :
    (c.extend more).atLineEnd = c.atLineEnd := by
  obtain ⟨b, tail, hr⟩ := List.exists_cons_of_ne_nil h
  simp only [atLineEnd, extend, hr, List.cons_append]

end Cursor

/-! ## Lines that end -/

section

variable {bytes word rest more : List UInt8} {b : UInt8} {tail : List UInt8}

theorem endsLine_tail (h : endsLine (b :: tail) = true) (hb : Byte.isBreak b = false) :
    endsLine tail = true :=
  endsLine_behind (show endsLine ([b] ++ tail) = true from h) hb

theorem endsLine_of_ne_nil (h : endsLine (word ++ rest) = true) (hne : rest ≠ []) :
    endsLine rest = true := by
  rwa [endsLine_append_of_ne_nil hne] at h

/-- A word without breaks stays before the last line end. -/
theorem split_of_endsLine (h : endsLine bytes = true) (hword : ∀ b ∈ word, Byte.isBreak b = false)
    (heq : bytes ++ more = word ++ rest) :
    ∃ behind, bytes = word ++ behind ∧ rest = behind ++ more ∧ endsLine behind = true := by
  rcases List.append_eq_append_iff.mp heq with ⟨extra, rfl, -⟩ | ⟨behind, rfl, rfl⟩
  · have hfalse : endsLine bytes = false :=
      endsLine_of_forall fun b hb => hword b (List.mem_append_left _ hb)
    rw [hfalse] at h
    cases h
  · exact ⟨behind, rfl, rfl, endsLine_behind h (endsLine_of_forall hword)⟩

theorem endsWord_append (h : rest ≠ []) (more : List UInt8) :
    Keyword.endsWord (rest ++ more) = Keyword.endsWord rest := by
  cases rest with
  | nil => exact absurd rfl h
  | cons b tail => rfl

theorem opensDirective_append (h : endsLine bytes = true) (more : List UInt8) :
    Keyword.opensDirective (bytes ++ more) = Keyword.opensDirective bytes := by
  rw [Bool.eq_iff_iff, Keyword.opensDirective_iff, Keyword.opensDirective_iff]
  constructor
  · rintro ⟨word, kind, rest, heq, hspells, hends⟩
    obtain ⟨behind, rfl, rfl, hbehind⟩ := split_of_endsLine h hspells.isBreak heq
    rw [endsWord_append (ne_nil_of_endsLine hbehind)] at hends
    exact ⟨word, kind, behind, rfl, hspells, hends⟩
  · rintro ⟨word, kind, rest, rfl, hspells, hends⟩
    have hrest := endsLine_behind h (endsLine_of_forall hspells.isBreak)
    rw [← endsWord_append (ne_nil_of_endsLine hrest) more] at hends
    exact ⟨word, kind, rest ++ more, List.append_assoc _ _ _, hspells, hends⟩

end

/-! ## Looking ahead -/

namespace Scan

variable {more : List UInt8} {c : Cursor}

/-- Moves that stay before the last line end. -/
theorem extend_eatBlanks (h : endsLine c.rest = true) (more : List UInt8) :
    (c.extend more).eatBlanks = c.eatBlanks.extend more ∧ endsLine c.eatBlanks.rest = true := by
  have hends : endsLine c.eatBlanks.rest = true := by
    have htakes := c.takes_eatBlanks
    rw [htakes.rest] at h
    refine endsLine_behind h (endsLine_of_forall ?_)
    intro b hb
    exact Byte.isBreak_eq_false_of_isBlank (List.mem_takeWhile_imp hb)
  exact ⟨Cursor.extend_eatWhile (ne_nil_of_endsLine hends) more, hends⟩

theorem extend_eatLine (h : endsLine c.rest = true) (more : List UInt8) :
    (c.extend more).eatLine = c.eatLine.extend more ∧ endsLine c.eatLine.rest = true := by
  have hends : endsLine c.eatLine.rest = true := by
    have htakes := c.takes_eatLine
    rw [htakes.rest] at h
    exact endsLine_behind h (endsLine_of_forall fun b hb => Cursor.isBreak_of_mem_line hb)
  exact ⟨Cursor.extend_eatWhile (ne_nil_of_endsLine hends) more, hends⟩

theorem extend_lineEvents (h : endsLine c.rest = true) (more : List UInt8) (part : Part) :
    lineEvents part (c.extend more) = lineEvents part c := by
  rw [lineEvents, Cursor.extend_textEnd (ne_nil_of_endsLine (extend_eatLine h more).2)]
  rfl

/-- Two bytes that a document goes on with, of which the first is no break. -/
theorem isPrefixOf_append {a b : UInt8} {bytes : List UInt8} (h : endsLine bytes = true)
    (ha : Byte.isBreak a = false) (more : List UInt8) :
    [a, b].isPrefixOf (bytes ++ more) = [a, b].isPrefixOf bytes := by
  match bytes, h with
  | [d], h =>
    have hd : (a == d) = false := by
      rw [beq_eq_false_iff_ne]
      rintro rfl
      rw [endsLine_singleton, ha] at h
      cases h
    simp [List.isPrefixOf, hd]
  | d :: e :: rest, h => simp [List.isPrefixOf]

theorem extend_endsDirectiveLine (h : endsLine c.rest = true) (more : List UInt8) :
    endsDirectiveLine (c.extend more) = endsDirectiveLine c := by
  obtain ⟨b, tail, hr⟩ := List.exists_cons_of_ne_nil (ne_nil_of_endsLine h)
  have hcurrent : (c.extend more).current = c.current := by
    simp [Cursor.current, Cursor.extend, hr]
  have hstarts : (c.extend more).startsWith [Byte.slash, Byte.slash]
      = c.startsWith [Byte.slash, Byte.slash] :=
    isPrefixOf_append h (by decide) more
  rw [endsDirectiveLine, endsDirectiveLine, Cursor.extend_atLineEnd (ne_nil_of_endsLine h),
    hcurrent, hstarts]

/-- A predicate on what comes next that holds at the end of a document and
before what is added, and that looks at no more than a line. -/
theorem extend_ahead {p : List UInt8 → Bool} (hnil : p [] = true)
    (happend : ∀ bytes, endsLine bytes = true → p (bytes ++ more) = p bytes)
    (hmore : p (more.dropWhile Byte.isWhite) = true ∨ c.eatWhite.rest ≠ [])
    (h : endsLine c.rest = true ∨ c.rest = []) :
    p (c.extend more).eatWhite.rest = p c.eatWhite.rest := by
  have hends : c.eatWhite.rest = [] ∨ endsLine c.eatWhite.rest = true := by
    by_cases hne : c.eatWhite.rest = []
    · exact .inl hne
    · rcases h with h | h
      · rw [c.takes_eatWhite.rest] at h
        exact .inr (endsLine_of_ne_nil h hne)
      · exact absurd (Cursor.rest_eatWhite_of_nil h) hne
  rcases hends with hend | hends
  · -- the document ended here, and now something else stands there
    have hwhite : (c.extend more).eatWhite.rest = more.dropWhile Byte.isWhite := by
      have hall : ∀ b ∈ c.rest, Byte.isWhite b = true := List.dropWhile_eq_nil_iff.mp hend
      exact List.dropWhile_append_of_pos hall
    rcases hmore with hmore | hne
    · rw [hwhite, hend, hnil, hmore]
    · exact absurd hend hne
  · have hsame := Cursor.extend_eatWhile (c := c) (ne_nil_of_endsLine hends) more
    rw [Cursor.eatWhite, hsame]
    exact happend _ hends

theorem extend_endsText (inContext : Bool) (hmore : Opens more ∨ c.eatWhite.rest ≠ [])
    (h : endsLine c.rest = true ∨ c.rest = []) :
    endsText inContext (c.extend more).eatWhite.rest = endsText inContext c.eatWhite.rest := by
  refine extend_ahead rfl ?_ (hmore.imp ?_ id) h
  · intro bytes hends
    obtain ⟨b, tail, rfl⟩ := List.exists_cons_of_ne_nil (ne_nil_of_endsLine hends)
    have := opensDirective_append hends more
    rw [List.cons_append] at this ⊢
    rw [endsText, endsText, this]
  · intro hopens
    cases hline : more.dropWhile Byte.isWhite with
    | nil => rfl
    | cons b tail => simp [endsText, ← hline, hopens.dropWhite]

theorem extend_opensItem (hmore : Continues more) (h : endsLine c.rest = true ∨ c.rest = []) :
    opensItem (c.extend more).eatWhite.rest = opensItem c.eatWhite.rest := by
  refine extend_ahead rfl ?_ (.inl hmore.item) h
  intro bytes hends
  obtain ⟨b, tail, rfl⟩ := List.exists_cons_of_ne_nil (ne_nil_of_endsLine hends)
  have hopens := opensDirective_append hends more
  have hblock : [Byte.slash, Byte.hash].isPrefixOf (b :: tail ++ more)
      = [Byte.slash, Byte.hash].isPrefixOf (b :: tail) :=
    isPrefixOf_append hends (by decide) more
  rw [List.cons_append] at hopens hblock ⊢
  rw [opensItem, opensItem, hopens, hblock]

/-! ## Readers -/

/-- What a move leaves ends with a line end, unless it leaves nothing. -/
theorem endsLine_or_nil {c d : Cursor} {taken : List UInt8} (h : c.Takes taken d)
    (hends : endsLine c.rest = true) : endsLine d.rest = true ∨ d.rest = [] := by
  by_cases hne : d.rest = []
  · exact .inr hne
  · rw [h.rest] at hends
    exact .inl (endsLine_of_ne_nil hends hne)

/-- A line is followed by a line end. -/
theorem atBreak_eatLine (h : endsLine c.rest = true) : c.eatLine.atBreak = true := by
  obtain ⟨b, tail, hr⟩ := List.exists_cons_of_ne_nil (ne_nil_of_endsLine (extend_eatLine h []).2)
  exact Cursor.atBreak_of_isBreak hr (Cursor.head_eatLine hr)

theorem extend_nextLine (hmore : Continues more) (h : endsLine c.rest = true) :
    (c.extend more).eatLine.eatBreak = c.eatLine.eatBreak.extend more ∧
      (endsLine c.eatLine.eatBreak.rest = true ∨ c.eatLine.eatBreak.rest = []) := by
  obtain ⟨hline, hends⟩ := extend_eatLine h more
  rw [hline, Cursor.extend_eatBreak hmore]
  exact ⟨rfl, endsLine_or_nil c.eatLine.takes_eatBreak hends⟩

theorem extend_textEnd (h : endsLine c.rest = true) (more : List UInt8) :
    (c.extend more).textEnd = c.textEnd :=
  Cursor.extend_textEnd (ne_nil_of_endsLine (extend_eatLine h more).2) more

/-- Text is read as before, unless it ran to the end of the document and no
directive comes. -/
theorem extend_textLines (hmore : Continues more) (inContext : Bool)
    (h : endsLine c.rest = true) (stop : Nat)
    (htext : Opens more ∨ (textLines inContext c stop).2.eatWhite.rest ≠ []) :
    textLines inContext (c.extend more) stop
      = ((textLines inContext c stop).1, (textLines inContext c stop).2.extend more) := by
  fun_induction textLines inContext c stop with
  | case1 c stop hbreak hends =>
    obtain ⟨hnext, hrest⟩ := extend_nextLine hmore h
    have hbreak' : (c.extend more).eatLine.atBreak = true := by
      rw [(extend_eatLine h more).1, Cursor.extend_atBreak hmore]
      exact hbreak
    rw [textLines, if_pos hbreak', hnext, extend_endsText inContext htext hrest, if_pos hends,
      extend_textEnd h]
  | case2 c stop hbreak hends ih =>
    obtain ⟨hnext, hrest⟩ := extend_nextLine hmore h
    have hbreak' : (c.extend more).eatLine.atBreak = true := by
      rw [(extend_eatLine h more).1, Cursor.extend_atBreak hmore]
      exact hbreak
    have hcontent : c.eatLine.eatBreak.eatWhite.rest ≠ [] := by
      intro hnil
      rw [hnil] at hends
      exact hends rfl
    have hgo : endsLine c.eatLine.eatBreak.rest = true := by
      rcases hrest with hrest | hnil
      · exact hrest
      · exact absurd (Cursor.rest_eatWhite_of_nil hnil) hcontent
    obtain ⟨hblanks, hstart⟩ := extend_eatBlanks hgo more
    rw [textLines, if_pos hbreak', hnext, extend_endsText inContext (.inr hcontent) hrest,
      if_neg hends, extend_textEnd h, hblanks]
    exact ih hstart htext
  | case3 c stop hbreak => exact absurd (atBreak_eatLine h) hbreak

/-- Text whose closing parenthesis is there is read as before. -/
theorem extend_parenLines (hmore : Continues more) (h : endsLine c.rest = true ∨ c.rest = [])
    (range : Option (Nat × Nat)) (hclose : (parenLines range c).2.rest ≠ []) :
    parenLines range (c.extend more)
      = ((parenLines range c).1, (parenLines range c).2.extend more) := by
  fun_induction parenLines range c with
  | case1 range c hnil => exact absurd hnil hclose
  | case2 range c tail hr =>
    have hr' : (c.extend more).rest = Byte.closeParen :: (tail ++ more) := by
      rw [Cursor.extend, hr, List.cons_append]
    rw [parenLines_cons hr', if_pos rfl]
  | case3 range c b tail hr hb ih =>
    have hends : endsLine c.rest = true := by
      rcases h with h | h
      · exact h
      · rw [hr] at h
        cases h
    have hr' : (c.extend more).rest = b :: (tail ++ more) := by
      rw [Cursor.extend, hr, List.cons_append]
    obtain ⟨hnext, hrest⟩ := extend_nextLine hmore hends
    have hgo : endsLine c.eatLine.eatBreak.rest = true := by
      rcases hrest with hrest | hnil
      · exact hrest
      · -- without more lines there is no closing parenthesis
        have hstop : c.eatLine.eatBreak.eatBlanks.rest = [] := Cursor.rest_eatBlanks_of_nil hnil
        rw [parenLines.eq_def] at hclose
        split at hclose
        · exact absurd hstop hclose
        · rename_i heq
          rw [hstop] at heq
          cases heq
    obtain ⟨hblanks, hstart⟩ := extend_eatBlanks hgo more
    rw [parenLines_cons hr', if_neg hb, extend_textEnd hends, hnext, hblanks]
    exact ih (.inl hstart) hclose

/-- A line that is over up to blanks stays so. -/
theorem quiet_append {bytes : List UInt8} (h : endsLine bytes = true)
    (hquiet : Schema.quiet bytes = true) (more : List UInt8) :
    Schema.quiet (bytes ++ more) = true := by
  obtain ⟨hblanks, hends⟩ := extend_eatBlanks (c := ⟨0, bytes⟩) h more
  have hdrop : (bytes ++ more).dropWhile Byte.isBlank = bytes.dropWhile Byte.isBlank ++ more :=
    congrArg Cursor.rest hblanks
  obtain ⟨b, tail, hr⟩ := List.exists_cons_of_ne_nil (ne_nil_of_endsLine hends)
  have hr : bytes.dropWhile Byte.isBlank = b :: tail := hr
  rw [Schema.quiet, hr] at hquiet
  rw [Schema.quiet, hdrop, hr]
  exact hquiet

/-- A schema is measured as before, and a line end stands behind it. -/
theorem extend_extent {grammar : Grammar} {n : Nat} (h : endsLine c.rest = true)
    (hn : Schema.extent grammar c.rest = .ok n) (more : List UInt8) :
    Schema.extent grammar (c.rest ++ more) = .ok n ∧ endsLine (c.advance n).rest = true := by
  obtain ⟨word, rest, hsplit, rfl, hword, hquiet, hread⟩ := Schema.body_of_extent hn
  rw [hsplit] at h
  have hends := endsLine_behind h hword.2
  have hover : Schema.lineOver rest = true → Schema.lineOver (rest ++ more) = true := by
    obtain ⟨b, tail, rfl⟩ := List.exists_cons_of_ne_nil (ne_nil_of_endsLine hends)
    exact fun hover => hover
  refine ⟨?_, ?_⟩
  · rw [hsplit, List.append_assoc]
    exact Schema.extent_of_body (hread _ (quiet_append hends hquiet more) hover)
  · rw [Cursor.advance, hsplit, List.drop_left]
    exact hends

/-! ## Steps -/

/-- The state in a document that goes on with `more`. -/
def State.extend (s : State) (more : List UInt8) : State :=
  { s with cursor := s.cursor.extend more }

/-- A move in a document that goes on with `more`. -/
def Move.extend (m : Move) (more : List UInt8) : Move :=
  ⟨m.events, m.next.extend more⟩

/-- Whether a task is done on a line that has not ended. -/
def Task.onLine : Task → Bool
  | .tail _ | .lineEnd _ => true
  | .items | .body _ => false

/-- The document ends with a line end, or it has ended and no line is under
way. -/
def Ready (s : State) : Prop :=
  endsLine s.cursor.rest = true ∨
    s.cursor.rest = [] ∧ ∀ task ∈ s.agenda.head?, task.onLine = false

section

variable {limit : Nat} {s : State} {task : Task} {line : Line} {m : Move}

theorem ready_of_takes {d : Cursor} {taken : List UInt8} {contexts : List Nat} {task : Task}
    {later : List Task} (h : c.Takes taken d) (hends : endsLine c.rest = true)
    (htask : task.onLine = false) : Ready ⟨d, task :: later, contexts⟩ := by
  refine (endsLine_or_nil h hends).imp id fun hnil => ⟨hnil, ?_⟩
  intro next hnext
  cases hnext
  exact htask

theorem extend_cons {d : Cursor} (hd : d = c.extend more) {b : UInt8} {tail : List UInt8}
    (hr : c.rest = b :: tail) : d.rest = b :: (tail ++ more) := by
  rw [hd, Cursor.extend, hr, List.cons_append]

theorem extend_parameter {behind : Cursor} {word : List UInt8} (h : c.Takes word behind) :
    parameter line (s.extend more) (c.extend more) (behind.extend more)
      = (parameter line s c behind).extend more := by
  have hpos := h.pos
  have hlen : behind.pos - c.pos ≤ c.rest.length := by
    rw [h.rest, List.length_append]
    omega
  have htake : (c.extend more).rest.take ((behind.extend more).pos - (c.extend more).pos)
      = c.rest.take (behind.pos - c.pos) :=
    List.take_append_of_le_length hlen
  rw [parameter, htake]
  rfl

theorem Performs.extend_items (hmore : Continues more) (h : Performs limit s .items m)
    (hends : endsLine s.cursor.rest = true) :
    Performs limit (s.extend more) .items (m.extend more) ∧ Ready m.next := by
  obtain ⟨hblanks, hstart⟩ := extend_eatBlanks hends more
  have hb : (s.extend more).cursor.eatBlanks = s.cursor.eatBlanks.extend more := hblanks
  cases h with
  | finish hr =>
    rw [hr] at hstart
    cases hstart
  | @blankLine b tail hr hbreak =>
    refine ⟨?_, ready_of_takes s.cursor.eatBlanks.takes_eatBreak hstart rfl⟩
    have hrule : Performs limit (s.extend more) .items _ :=
      .blankLine (extend_cons hblanks hr) hbreak
    rw [hb, Cursor.extend_eatBreak hmore] at hrule
    exact hrule
  | @lineComment tail hr =>
    obtain ⟨hline, hbehind⟩ := extend_eatLine hstart more
    refine ⟨?_, .inl hbehind⟩
    have hrule : Performs limit (s.extend more) .items _ :=
      .lineComment (extend_cons hblanks hr)
    rw [hb, hline, extend_lineEvents hstart] at hrule
    exact hrule
  | @blockComment tail rest hr hclose =>
    obtain ⟨inner, rfl, hread⟩ := Comment.afterClose?_split hclose
    have hsplit : s.cursor.eatBlanks.rest
        = (Byte.slash :: Byte.hash :: inner ++ [Byte.hash, Byte.slash]) ++ rest := by
      rw [hr]
      simp
    -- the comment ends with a slash, so the last line end stands behind it
    have hbehind : endsLine rest = true := by
      rw [hsplit] at hstart
      refine endsLine_behind hstart ?_
      rw [endsLine_append_of_ne_nil (List.cons_ne_nil _ _)]
      rfl
    refine ⟨?_, .inl hbehind⟩
    have hrule : Performs limit (s.extend more) .items _ :=
      .blockComment (extend_cons hblanks hr) (by simpa using hread (rest ++ more))
    rw [hb, Cursor.extend_moveTo] at hrule
    exact hrule
  | @closeContext tail start outer hr hctx =>
    rw [hr] at hstart
    refine ⟨?_, .inl ?_⟩
    · have hrule : Performs limit (s.extend more) .items _ :=
        .closeContext (extend_cons hblanks hr) hctx
      rw [hb, Cursor.extend_advance (by rw [hr]; simp)] at hrule
      exact hrule
    · show endsLine s.cursor.eatBlanks.advance.rest = true
      rw [Cursor.advance, hr]
      exact endsLine_tail hstart (by decide)
  | @keyword kind rest hk =>
    obtain ⟨word, hsplit, hspells, hboundary⟩ := Keyword.recognise_eq_found_iff.mp hk
    have hbehind : endsLine rest = true := by
      rw [hsplit] at hstart
      exact endsLine_behind hstart (endsLine_of_forall hspells.isBreak)
    refine ⟨?_, .inl hbehind⟩
    have hfound : Keyword.recognise (s.extend more).cursor.eatBlanks.rest
        = .found kind (rest ++ more) := by
      refine Keyword.recognise_eq_found_iff.mpr ⟨word, ?_, hspells, ?_⟩
      · rw [hb, Cursor.extend, hsplit, List.append_assoc]
      · obtain ⟨b, tail, rfl⟩ := List.exists_cons_of_ne_nil (ne_nil_of_endsLine hbehind)
        exact hboundary
    have hrule : Performs limit (s.extend more) .items _ := .keyword hfound
    rw [hb, Cursor.extend_moveTo] at hrule
    exact hrule

/-- On a directive line the second byte is there as well. -/
theorem extend_peek {b : UInt8} {tail : List UInt8} (h : endsLine c.rest = true)
    (hr : c.rest = b :: tail) (hb : Byte.isBreak b = false) (more : List UInt8) :
    (c.extend more).peek = c.peek := by
  rw [hr] at h
  obtain ⟨d, rest, rfl⟩ := List.exists_cons_of_ne_nil (ne_nil_of_endsLine (endsLine_tail h hb))
  rw [Cursor.peek_of_rest hr]
  exact Cursor.peek_of_rest (extend_cons rfl hr)

/-- A parenthesis that ends a directive line. -/
theorem extend_openParen {tail : List UInt8} (h : endsLine c.rest = true)
    (hr : c.rest = Byte.openParen :: tail) (more : List UInt8) :
    (c.extend more).advance = c.advance.extend more ∧ endsLine c.advance.rest = true ∧
      endsDirectiveLine (c.extend more).advance.eatBlanks
        = endsDirectiveLine c.advance.eatBlanks := by
  have hadvance : (c.extend more).advance = c.advance.extend more :=
    Cursor.extend_advance (by rw [hr]; simp) more
  have hends : endsLine c.advance.rest = true := by
    rw [hr] at h
    rw [Cursor.advance, hr]
    exact endsLine_tail h (by decide)
  obtain ⟨hblanks, hstart⟩ := extend_eatBlanks hends more
  rw [hadvance, hblanks, extend_endsDirectiveLine hstart]
  exact ⟨rfl, hends, rfl⟩

theorem Performs.extend_tail (hmore : Continues more) (h : Performs limit s (.tail line) m)
    (hends : endsLine s.cursor.rest = true) :
    Performs limit (s.extend more) (.tail line) (m.extend more) ∧ Ready m.next := by
  obtain ⟨hblanks, hstart⟩ := extend_eatBlanks hends more
  have hb : (s.extend more).cursor.eatBlanks = s.cursor.eatBlanks.extend more := hblanks
  obtain ⟨hline, hbehind⟩ := extend_eatLine hstart more
  cases h with
  | lineOver hend =>
    refine ⟨?_, ready_of_takes s.cursor.eatBlanks.takes_eatBreak hstart rfl⟩
    have hrule : Performs limit (s.extend more) (.tail line) _ :=
      .lineOver (by rw [hb, Cursor.extend_atLineEnd (ne_nil_of_endsLine hstart), hend])
    rw [hb, Cursor.extend_eatBreak hmore] at hrule
    exact hrule
  | note hr =>
    refine ⟨?_, .inl hbehind⟩
    have hrule : Performs limit (s.extend more) (.tail line) _ := .note (extend_cons hblanks hr)
    rw [hb, hline, extend_lineEvents hstart] at hrule
    exact hrule
  | tailComment hr =>
    refine ⟨?_, .inl hbehind⟩
    have hrule : Performs limit (s.extend more) (.tail line) _ :=
      .tailComment (extend_cons hblanks hr)
    rw [hb, hline, extend_lineEvents hstart] at hrule
    exact hrule
  | textParen hopen hr hend htext =>
    obtain ⟨hadvance, hrest, hsame⟩ := extend_openParen hstart hr more
    refine ⟨?_, .inl hrest⟩
    have hrule : Performs limit (s.extend more) (.tail line) _ :=
      .textParen hopen (extend_cons hblanks hr) (by rw [hb, hsame, hend]) htext
    rw [hb, hadvance] at hrule
    exact hrule
  | contextParen hopen hr hend htext hlimit =>
    obtain ⟨hadvance, hrest, hsame⟩ := extend_openParen hstart hr more
    refine ⟨?_, .inl hrest⟩
    have hrule : Performs limit (s.extend more) (.tail line) _ :=
      .contextParen hopen (extend_cons hblanks hr) (by rw [hb, hsame, hend]) htext hlimit
    rw [hb, hadvance] at hrule
    exact hrule
  | @inlineSchema line b tail grammar n hopen hr hnote hschema hgrammar hn =>
    have hbreak : Byte.isBreak b = false := by
      rcases opensInlineSchema_head hschema with rfl | rfl | rfl <;> decide
    have hpeek := extend_peek hstart hr hbreak more
    obtain ⟨hextent, hrest⟩ := extend_extent hstart hn more
    refine ⟨?_, .inl hrest⟩
    have hrule : Performs limit (s.extend more) (.tail line) _ :=
      .inlineSchema hopen (extend_cons hblanks hr) (by rwa [hb, hpeek]) (by rwa [hb, hpeek])
        hgrammar (by rw [hb]; exact hextent)
    rw [hb, Cursor.extend_advance (Schema.extent_bounds hn).2] at hrule
    exact hrule
  | @quoted line tail rest hopen hr hclose hwhite =>
    obtain ⟨word, htakes, -, hword⟩ := takes_quoted hr hclose
    obtain ⟨inner, rfl, -, hread⟩ := quotedRest_split hclose
    have hrest : endsLine rest = true := by
      have := htakes.rest
      rw [this] at hstart
      exact endsLine_behind hstart (endsLine_of_forall hword)
    refine ⟨?_, .inl hrest⟩
    -- the byte that ends the parameter was not the end of the document
    have hwhite' : atWhite (rest ++ more) = true := by
      obtain ⟨b, tail, rfl⟩ := List.exists_cons_of_ne_nil (ne_nil_of_endsLine hrest)
      exact hwhite
    have hclose' : quotedRest false (inner ++ Byte.quote :: rest ++ more)
        = Byte.quote :: (rest ++ more) := by
      rw [List.append_assoc, List.cons_append]
      exact hread (rest ++ more)
    have hrule : Performs limit (s.extend more) (.tail line) _ :=
      .quoted hopen (extend_cons hblanks hr) hclose' hwhite'
    rw [hb, ← List.cons_append, Cursor.extend_moveTo,
      Cursor.extend_advance (by simp [Cursor.moveTo]), extend_parameter htakes] at hrule
    exact hrule
  | @bare line b tail hopen hr hbreak hnote hhash hparen hschema hquote =>
    have htakes := s.cursor.eatBlanks.takes_eatWhile (! Byte.isWhite ·)
    have hrest : endsLine (s.cursor.eatBlanks.eatWhile (! Byte.isWhite ·)).rest = true := by
      have := htakes.rest
      rw [this] at hstart
      refine endsLine_behind hstart (endsLine_of_forall ?_)
      intro d hd
      have hwhite : Byte.isWhite d = false := by simpa using List.mem_takeWhile_imp hd
      exact (Byte.isWhite_eq_false_iff.mp hwhite).2
    refine ⟨?_, .inl hrest⟩
    have hpeek := extend_peek hstart hr hbreak more
    have hrule : Performs limit (s.extend more) (.tail line) _ :=
      .bare hopen (extend_cons hblanks hr) hbreak (by rwa [hb, hpeek]) hhash hparen
        (by rwa [hb, hpeek]) hquote
    rw [hb, bareParameter, Cursor.extend_eatWhile (ne_nil_of_endsLine hrest),
      extend_parameter htakes] at hrule
    exact hrule

/-- Behind a body that is not there the items go on. -/
theorem ready_skip (hready : endsLine s.cursor.rest = true ∨ s.cursor.rest = [])
    (hlater : s.agenda = [.items]) : Ready (s.proceed s.cursor []) := by
  refine hready.imp id fun hnil => ⟨hnil, ?_⟩
  rw [State.proceed, hlater]
  intro next hnext
  cases hnext
  rfl

theorem Performs.extend_body (hmore : Continues more) (h : Performs limit s (.body line) m)
    (hready : endsLine s.cursor.rest = true ∨ s.cursor.rest = [])
    (hlater : s.agenda = [.items])
    (htexts : Opens more ∨ (line.kind.hasTextBody = true → m.next.cursor.eatWhite.rest ≠ [])) :
    Performs limit (s.extend more) (.body line) (m.extend more) ∧ Ready m.next := by
  -- where content stands, the document has not ended
  have hcontent : s.cursor.eatWhite.rest ≠ [] →
      (s.extend more).cursor.eatWhite = s.cursor.eatWhite.extend more ∧
        endsLine s.cursor.eatWhite.rest = true := by
    intro hne
    refine ⟨Cursor.extend_eatWhile hne more, ?_⟩
    rcases hready with hends | hnil
    · rw [s.cursor.takes_eatWhite.rest] at hends
      exact endsLine_of_ne_nil hends hne
    · exact absurd (Cursor.rest_eatWhite_of_nil hnil) hne
  have htextual : line.kind.body? = some .text → line.kind.hasTextBody = true := by
    intro hbody
    rw [Kind.hasTextBody, hbody]
    rfl
  cases h with
  | bodiless hnone => exact ⟨.bodiless hnone, ready_skip hready hlater⟩
  | noSchema hopen hbody hitem =>
    refine ⟨.noSchema hopen hbody ?_, ready_skip hready hlater⟩
    rw [← hitem]
    exact extend_opensItem hmore hready
  | noText hopen hbody hends =>
    refine ⟨.noText hopen hbody ?_, ready_skip hready hlater⟩
    rw [← hends]
    exact extend_endsText _ (htexts.imp id fun hrest => hrest (htextual hbody)) hready
  | @schema line grammar n hopen hbody hitem hgrammar hn =>
    obtain ⟨hwhite, hends⟩ := hcontent (by rintro hnil; rw [hnil] at hitem; cases hitem)
    obtain ⟨hextent, hrest⟩ := extend_extent hends hn more
    refine ⟨?_, .inl hrest⟩
    have hrule : Performs limit (s.extend more) (.body line) _ :=
      .schema hopen hbody ((extend_opensItem hmore hready).trans hitem) hgrammar
        (by rw [hwhite]; exact hextent)
    rw [hwhite, Cursor.extend_advance (Schema.extent_bounds hn).2] at hrule
    exact hrule
  | text hopen hbody hgo =>
    have hne : s.cursor.eatWhite.rest ≠ [] := by
      intro hnil
      rw [hnil] at hgo
      cases hgo
    obtain ⟨hwhite, hends⟩ := hcontent hne
    refine ⟨?_, ?_⟩
    · have hrule : Performs limit (s.extend more) (.body line) _ :=
        .text hopen hbody ((extend_endsText _ (.inr hne) hready).trans hgo)
      have hlines := extend_textLines hmore (! s.contexts.isEmpty) hends s.cursor.eatWhite.pos
        (htexts.imp id fun hrest => hrest (htextual hbody))
      have hbody : textBody (s.extend more) (s.cursor.eatWhite.extend more)
          = (textBody s s.cursor.eatWhite).extend more :=
        congrArg (fun p : Nat × Cursor => (⟨Part.text.events s.cursor.eatWhite.pos p.1,
          (s.extend more).proceed p.2 []⟩ : Move)) hlines
      rw [hwhite, hbody] at hrule
      exact hrule
    · obtain ⟨parens, ⟨taken, htakes, -⟩, -⟩ :=
        (@Performs.text limit s line hopen hbody hgo).tiles
      show Ready ⟨_, [] ++ s.agenda, _⟩
      rw [hlater]
      rcases hready with hready | hnil
      · exact ready_of_takes htakes hready rfl
      · rw [Cursor.rest_eatWhite_of_nil hnil] at hends
        cases hends
  | @parenText line range behind tail hopen htext hlines hr =>
    have hbehind : (parenLines none s.cursor.eatBlanks).2 = behind := by rw [hlines]
    have hends : endsLine s.cursor.rest = true := by
      rcases hready with hends | hnil
      · exact hends
      · have hblank := Cursor.rest_eatBlanks_of_nil hnil
        obtain ⟨taken, htakes, -⟩ := takes_parenLines none s.cursor.eatBlanks
        have := htakes.rest
        rw [hblank, hbehind, hr] at this
        simp at this
    obtain ⟨hblanks, hstart⟩ := extend_eatBlanks hends more
    have hb : (s.extend more).cursor.eatBlanks = s.cursor.eatBlanks.extend more := hblanks
    have hstop := extend_parenLines hmore (.inl hstart) none (by rw [hbehind, hr]; simp)
    rw [hlines] at hstop
    refine ⟨?_, .inl ?_⟩
    · have hrule : Performs limit (s.extend more) (.body line) _ :=
        .parenText hopen htext (by rw [hb]; exact hstop) (extend_cons rfl hr)
      rw [Cursor.extend_advance (by rw [hr]; simp)] at hrule
      exact hrule
    · obtain ⟨taken, htakes, -⟩ := takes_parenLines none s.cursor.eatBlanks
      rw [hlines] at htakes
      rw [htakes.rest] at hstart
      have hrest := endsLine_of_ne_nil hstart (by rw [hr]; simp)
      show endsLine behind.advance.rest = true
      rw [hr] at hrest
      rw [Cursor.advance, hr]
      exact endsLine_tail hrest (by decide)

theorem Performs.extend_lineEnd (hmore : Continues more) {ending : Ending}
    (h : Performs limit s (.lineEnd ending) m) (hends : endsLine s.cursor.rest = true)
    (hlater : s.agenda = [.items]) :
    Performs limit (s.extend more) (.lineEnd ending) (m.extend more) ∧ Ready m.next := by
  obtain ⟨hblanks, hstart⟩ := extend_eatBlanks hends more
  have hb : (s.extend more).cursor.eatBlanks = s.cursor.eatBlanks.extend more := hblanks
  cases h with
  | lineEnd hend =>
    refine ⟨?_, ?_⟩
    · have hrule : Performs limit (s.extend more) (.lineEnd ending) _ :=
        .lineEnd (by rw [hb, Cursor.extend_atLineEnd (ne_nil_of_endsLine hstart), hend])
      rw [hb, Cursor.extend_eatBreak hmore] at hrule
      exact hrule
    · rw [State.proceed, hlater]
      exact ready_of_takes s.cursor.eatBlanks.takes_eatBreak hstart rfl
  | endComment hr =>
    obtain ⟨hline, hbehind⟩ := extend_eatLine hstart more
    refine ⟨?_, ?_⟩
    · have hrule : Performs limit (s.extend more) (.lineEnd ending) _ :=
        .endComment (extend_cons hblanks hr)
      rw [hb, hline, Cursor.extend_eatBreak hmore, extend_lineEvents hstart] at hrule
      exact hrule
    · rw [State.proceed, hlater]
      exact ready_of_takes s.cursor.eatBlanks.eatLine.takes_eatBreak hbehind rfl

/-- Every rule but the end of the document is taken again. -/
theorem Performs.extend (hmore : Continues more) {later : List Task} (ha : s.agenda = task :: later)
    (h : Performs limit (s.drop later) task m) (hreg : Regular s.agenda) (hready : Ready s)
    (hgo : m.next.agenda ≠ []) (htexts : Opens more ∨ ∀ line, task = .body line →
      line.kind.hasTextBody = true → m.next.cursor.eatWhite.rest ≠ []) :
    Performs limit ((s.drop later).extend more) task (m.extend more) ∧ Ready m.next := by
  rw [ha] at hreg
  -- a line under way ends before the document does
  have hstart : task.onLine = true → endsLine s.cursor.rest = true := by
    intro htask
    rcases hready with hends | ⟨-, hoff⟩
    · exact hends
    · rw [hoff task (by rw [ha]; rfl)] at htask
      cases htask
  have hbody : endsLine s.cursor.rest = true ∨ s.cursor.rest = [] := hready.imp id And.left
  cases task with
  | items =>
    rcases hready with hends | ⟨hnil, -⟩
    · exact h.extend_items hmore hends
    · -- nothing is left but the end of the document
      have hblank : s.cursor.eatBlanks.rest = [] := Cursor.rest_eatBlanks_of_nil hnil
      rcases hreg.later with ⟨-, rfl⟩ | ⟨hne, -⟩
      · cases h with
        | finish => exact absurd rfl hgo
        | blankLine hr | lineComment hr | blockComment hr | closeContext hr =>
          rw [hblank] at hr
          cases hr
        | keyword hk =>
          rw [hblank] at hk
          cases hk
      · exact absurd rfl hne
  | tail line => exact h.extend_tail hmore (hstart rfl)
  | body line =>
    rcases hreg.later with ⟨heq, -⟩ | ⟨-, hlater⟩
    · cases heq
    · exact h.extend_body hmore hbody hlater (htexts.imp id fun hrest => hrest line rfl)
  | lineEnd ending =>
    rcases hreg.later with ⟨heq, -⟩ | ⟨-, hlater⟩
    · cases heq
    · exact h.extend_lineEnd hmore (hstart rfl) hlater

end

/-- Behind every text that is read something stands. -/
def EndsTexts (limit : Nat) (s : State) : Prop :=
  ∀ before u later line m, Run limit s before u → u.agenda = .body line :: later →
    line.kind.hasTextBody = true → step limit u = .moved m → m.next.cursor.eatWhite.rest ≠ []

/-- A run to the end of a document leads to the line that is added, with the
same events. -/
theorem Run.extend {limit : Nat} {s t : State} {events : List Event} (hmore : Continues more)
    (h : Run limit s events t) (hdone : t.agenda = []) (hs : s.agenda ≠ [])
    (hreg : Regular s.agenda) (hready : Ready s) (htexts : Opens more ∨ EndsTexts limit s) :
    Run limit (s.extend more) events ⟨⟨t.cursor.pos, more⟩, [.items], []⟩ := by
  induction h with
  | refl s => exact absurd hdone hs
  | @step s t m events hstep hrun ih =>
    obtain ⟨task, later, ha, hperf⟩ := step_eq_moved_iff.mp hstep
    -- only the last step is not taken again
    by_cases hgo : m.next.agenda = []
    · -- the document ended, so it has no more bytes and no open context
      obtain ⟨rfl, hr, hctx, rfl⟩ := hperf.done (ha ▸ hreg) hgo
      obtain ⟨rfl, rfl⟩ := hrun.of_done hgo
      have hnil : s.cursor.rest = [] := by
        rcases hready with hends | ⟨hnil, -⟩
        · have hblank := (extend_eatBlanks hends []).2
          rw [hr] at hblank
          cases hblank
        · exact hnil
      have hpos : s.cursor.eatBlanks.pos = s.cursor.pos := by
        rw [s.cursor.takes_eatBlanks.pos, hnil]
        rfl
      have hitems : s.agenda = [.items] := by
        rcases (ha ▸ hreg : Regular (Task.items :: later)).later with ⟨-, hlater⟩ | ⟨hne, -⟩
        · rw [ha, hlater]
        · exact absurd rfl hne
      have hsame : s.extend more = ⟨⟨s.cursor.eatBlanks.pos, more⟩, [.items], []⟩ := by
        rw [State.extend, Cursor.extend, hnil, hpos, hitems, hctx, List.nil_append]
      rw [hsame]
      exact .refl _
    · have hbody : Opens more ∨ ∀ line, task = .body line → line.kind.hasTextBody = true →
          m.next.cursor.eatWhite.rest ≠ [] := by
        refine htexts.imp id ?_
        rintro hends line rfl htext
        exact hends [] s later line m (.refl s) ha htext hstep
      have hrest : Opens more ∨ EndsTexts limit m.next := by
        refine htexts.imp id ?_
        intro hends before u later line m' hbefore
        exact hends (m.events ++ before) u later line m' (.step hstep hbefore)
      obtain ⟨hperf', hready'⟩ := hperf.extend hmore ha hreg hready hgo hbody
      exact .step (m := m.extend more) (step_eq_moved_iff.mpr ⟨task, later, ha, hperf'⟩)
        (ih hdone hgo (hperf.regular (ha ▸ hreg)) hready' hrest)

end Scan

end ApiDoc
