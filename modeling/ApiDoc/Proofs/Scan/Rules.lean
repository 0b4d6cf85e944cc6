import ApiDoc.Proofs.Directive.Spelling
import ApiDoc.Proofs.Text.Cursor
import ApiDoc.Scan.Transcript

/-!
# The rules of the scanner

`Performs limit s task m` lists all that the scanner can do for a task
without failing, one rule for each way, with what must stand at the cursor.
`perform_eq_ok_iff` says that the rules are exactly the successful moves, so
that what holds of a step is proved rule by rule and never by taking the
scanner apart again.

The state `s` of a rule no longer holds the task on its agenda.
-/

namespace ApiDoc.Scan

/-- Whether white space, or nothing, stands here. -/
def atWhite : List UInt8 → Bool
  | [] => true
  | b :: _ => Byte.isWhite b

theorem atWhite_append {front rest : List UInt8} (hfront : ∀ b ∈ front, Byte.isWhite b = true)
    (hrest : atWhite rest = true) : atWhite (front ++ rest) = true := by
  cases front with
  | nil => exact hrest
  | cons b tail => exact hfront b List.mem_cons_self

/-- Behind a line white space stands, or nothing. -/
theorem atWhite_eatLine (c : Cursor) : atWhite c.eatLine.rest = true := by
  rcases Cursor.atLineEnd_iff.mp c.atLineEnd_eatLine with hr | ⟨b, tail, hr, hb⟩
  · rw [hr]
    rfl
  · rw [hr]
    exact Byte.isWhite_of_isBreak hb

/-- The rules. Where a rule speaks of a byte, it is the first one behind the
blanks. -/
inductive Performs (limit : Nat) (s : State) : Task → Move → Prop
  /-- The document ends and every context is closed. -/
  | finish (hr : s.cursor.eatBlanks.rest = []) (hctx : s.contexts = []) :
      Performs limit s .items ⟨[], s.proceed s.cursor.eatBlanks []⟩
  | blankLine {b : UInt8} {tail : List UInt8} (hr : s.cursor.eatBlanks.rest = b :: tail)
      (hb : Byte.isBreak b = true) :
      Performs limit s .items ⟨[], s.proceed s.cursor.eatBlanks.eatBreak [.items]⟩
  | lineComment {tail : List UInt8} (hr : s.cursor.eatBlanks.rest = Byte.hash :: tail) :
      Performs limit s .items
        ⟨lineEvents .comment s.cursor.eatBlanks, s.proceed s.cursor.eatBlanks.eatLine [.items]⟩
  | blockComment {tail rest : List UInt8}
      (hr : s.cursor.eatBlanks.rest = Byte.slash :: Byte.hash :: tail)
      (hclose : Comment.afterClose? tail = some rest) :
      Performs limit s .items
        ⟨Part.comment.events s.cursor.eatBlanks.pos (s.cursor.eatBlanks.moveTo rest).pos,
          s.proceed (s.cursor.eatBlanks.moveTo rest) [.lineEnd .comment, .items]⟩
  | closeContext {tail : List UInt8} {start : Nat} {outer : List Nat}
      (hr : s.cursor.eatBlanks.rest = Byte.closeParen :: tail)
      (hctx : s.contexts = start :: outer) :
      Performs limit s .items
        ⟨[⟨⟨.context, .closing⟩, ⟨start, s.cursor.eatBlanks.pos⟩⟩],
          { s with contexts := outer }.proceed s.cursor.eatBlanks.advance
            [.lineEnd .paren, .items]⟩
  | keyword {kind : Kind} {rest : List UInt8}
      (hk : Keyword.recognise s.cursor.eatBlanks.rest = .found kind rest) :
      Performs limit s .items
        ⟨Part.keyword.events s.cursor.eatBlanks.pos (s.cursor.eatBlanks.moveTo rest).pos,
          s.proceed (s.cursor.eatBlanks.moveTo rest) [.tail { kind := kind }, .items]⟩
  /-- The directive line ends. -/
  | lineOver {line : Line} (hend : s.cursor.eatBlanks.atLineEnd = true) :
      Performs limit s (.tail line) ⟨[], s.proceed s.cursor.eatBlanks.eatBreak [.body line]⟩
  | note {line : Line} {tail : List UInt8}
      (hr : s.cursor.eatBlanks.rest = Byte.slash :: Byte.slash :: tail) :
      Performs limit s (.tail line)
        ⟨lineEvents .note s.cursor.eatBlanks, s.proceed s.cursor.eatBlanks.eatLine [.tail line]⟩
  | tailComment {line : Line} {tail : List UInt8}
      (hr : s.cursor.eatBlanks.rest = Byte.hash :: tail) :
      Performs limit s (.tail line)
        ⟨lineEvents .comment s.cursor.eatBlanks,
          s.proceed s.cursor.eatBlanks.eatLine [.tail line]⟩
  /-- A parenthesis around text; it gives no event. -/
  | textParen {line : Line} {tail : List UInt8} (hopen : line.opened = false)
      (hr : s.cursor.eatBlanks.rest = Byte.openParen :: tail)
      (hend : endsDirectiveLine s.cursor.eatBlanks.advance.eatBlanks = true)
      (htext : line.kind.hasTextBody = true) :
      Performs limit s (.tail line)
        ⟨[], s.proceed s.cursor.eatBlanks.advance [.tail { line with opened := true }]⟩
  | contextParen {line : Line} {tail : List UInt8} (hopen : line.opened = false)
      (hr : s.cursor.eatBlanks.rest = Byte.openParen :: tail)
      (hend : endsDirectiveLine s.cursor.eatBlanks.advance.eatBlanks = true)
      (htext : line.kind.hasTextBody = false) (hlimit : s.contexts.length < limit) :
      Performs limit s (.tail line)
        ⟨[⟨⟨.context, .opening⟩, .point s.cursor.eatBlanks.pos⟩],
          { s with contexts := s.cursor.eatBlanks.pos :: s.contexts }.proceed
            s.cursor.eatBlanks.advance [.tail { line with opened := true }]⟩
  | inlineSchema {line : Line} {b : UInt8} {tail : List UInt8} {grammar : Grammar} {n : Nat}
      (hopen : line.opened = false) (hr : s.cursor.eatBlanks.rest = b :: tail)
      (hnote : ¬ (b = Byte.slash ∧ s.cursor.eatBlanks.peek = Byte.slash))
      (hschema : opensInlineSchema line b s.cursor.eatBlanks.peek = true)
      (hgrammar : line.declared.grammar? = some grammar)
      (hn : Schema.extent grammar s.cursor.eatBlanks.rest = .ok n) :
      Performs limit s (.tail line)
        ⟨Part.schema.events s.cursor.eatBlanks.pos (s.cursor.eatBlanks.pos + n),
          s.proceed (s.cursor.eatBlanks.advance n) [.lineEnd .schema]⟩
  | quoted {line : Line} {tail rest : List UInt8} (hopen : line.opened = false)
      (hr : s.cursor.eatBlanks.rest = Byte.quote :: tail)
      (hclose : quotedRest false tail = Byte.quote :: rest) (hwhite : atWhite rest = true) :
      Performs limit s (.tail line)
        (parameter line s s.cursor.eatBlanks
          (s.cursor.eatBlanks.moveTo (Byte.quote :: rest)).advance)
  | bare {line : Line} {b : UInt8} {tail : List UInt8} (hopen : line.opened = false)
      (hr : s.cursor.eatBlanks.rest = b :: tail) (hbreak : Byte.isBreak b = false)
      (hnote : ¬ (b = Byte.slash ∧ s.cursor.eatBlanks.peek = Byte.slash))
      (hhash : b ≠ Byte.hash) (hparen : b ≠ Byte.openParen)
      (hschema : opensInlineSchema line b s.cursor.eatBlanks.peek = false)
      (hquote : b ≠ Byte.quote) :
      Performs limit s (.tail line) (bareParameter line s s.cursor.eatBlanks)
  /-- The directive opened a context, or its kind has no body. -/
  | bodiless {line : Line}
      (hnone : line.opened = true ∧ line.kind.hasTextBody = false ∨
        line.opened = false ∧ line.kind.body? = none) :
      Performs limit s (.body line) ⟨[], s.proceed s.cursor []⟩
  | noSchema {line : Line} (hopen : line.opened = false) (hbody : line.kind.body? = some .schema)
      (hitem : opensItem s.cursor.eatWhite.rest = true) :
      Performs limit s (.body line) ⟨[], s.proceed s.cursor []⟩
  | noText {line : Line} (hopen : line.opened = false) (hbody : line.kind.body? = some .text)
      (hends : endsText (! s.contexts.isEmpty) s.cursor.eatWhite.rest = true) :
      Performs limit s (.body line) ⟨[], s.proceed s.cursor []⟩
  | schema {line : Line} {grammar : Grammar} {n : Nat} (hopen : line.opened = false)
      (hbody : line.kind.body? = some .schema) (hitem : opensItem s.cursor.eatWhite.rest = false)
      (hgrammar : line.declared.grammar? = some grammar)
      (hn : Schema.extent grammar s.cursor.eatWhite.rest = .ok n) :
      Performs limit s (.body line)
        ⟨Part.schema.events s.cursor.eatWhite.pos (s.cursor.eatWhite.pos + n),
          s.proceed (s.cursor.eatWhite.advance n) [.lineEnd .schema]⟩
  | text {line : Line} (hopen : line.opened = false) (hbody : line.kind.body? = some .text)
      (hends : endsText (! s.contexts.isEmpty) s.cursor.eatWhite.rest = false) :
      Performs limit s (.body line) (textBody s s.cursor.eatWhite)
  | parenText {line : Line} {range : Option (Nat × Nat)} {behind : Cursor} {tail : List UInt8}
      (hopen : line.opened = true) (htext : line.kind.hasTextBody = true)
      (hlines : parenLines none s.cursor.eatBlanks = (range, behind))
      (hr : behind.rest = Byte.closeParen :: tail) :
      Performs limit s (.body line)
        ⟨(range.map fun (start, stop) => Part.text.events start stop).getD [],
          s.proceed behind.advance [.lineEnd .paren]⟩
  | lineEnd {ending : Ending} (hend : s.cursor.eatBlanks.atLineEnd = true) :
      Performs limit s (.lineEnd ending) ⟨[], s.proceed s.cursor.eatBlanks.eatBreak []⟩
  | endComment {ending : Ending} {tail : List UInt8}
      (hr : s.cursor.eatBlanks.rest = Byte.hash :: tail) :
      Performs limit s (.lineEnd ending)
        ⟨lineEvents .comment s.cursor.eatBlanks,
          s.proceed s.cursor.eatBlanks.eatLine.eatBreak []⟩

/-! ## Lines -/

theorem Line.declare_kind (line : Line) (raw : List UInt8) :
    (line.declare raw).kind = line.kind := by
  unfold declare
  repeat' split
  all_goals rfl

theorem Line.declare_opened (line : Line) (raw : List UInt8) :
    (line.declare raw).opened = line.opened := by
  unfold declare
  repeat' split
  all_goals rfl

/-! ## Successful moves follow the rules -/

theorem parenLines_cons {range : Option (Nat × Nat)} {c : Cursor} {b : UInt8}
    {tail : List UInt8} (hr : c.rest = b :: tail) :
    parenLines range c = if b = Byte.closeParen then (range, c)
      else parenLines (widen range c.pos c.textEnd) c.eatLine.eatBreak.eatBlanks := by
  rw [parenLines.eq_def]
  split
  · rename_i hnil
    rw [hr] at hnil
    cases hnil
  · rename_i heq
    rw [hr] at heq
    cases heq
    rfl

/-- Text in parentheses ends at a closing one, or with the document. -/
theorem parenLines_rest {range range' : Option (Nat × Nat)} {c behind : Cursor}
    (h : parenLines range c = (range', behind)) {b : UInt8} {tail : List UInt8}
    (hr : behind.rest = b :: tail) : b = Byte.closeParen := by
  fun_induction parenLines range c with
  | case1 range c hnil =>
    cases h
    rw [hnil] at hr
    cases hr
  | case2 range c rest' hrest =>
    cases h
    rw [hrest] at hr
    exact (List.cons.inj hr).1.symm
  | case3 range c _ _ _ _ ih => exact ih h

theorem performs_items {limit : Nat} {s : State} {m : Move}
    (h : items s s.cursor.eatBlanks = .ok m) : Performs limit s .items m := by
  unfold items at h
  split at h
  · rename_i hr
    split at h
    · rename_i hctx
      cases h
      exact .finish hr hctx
    · cases h
  · rename_i b tail hr
    split at h
    · rename_i hb
      cases h
      exact .blankLine hr hb
    · split at h
      · rename_i hb
        cases h
        subst hb
        exact .lineComment hr
      · split at h
        · rename_i hb
          obtain ⟨rfl, hpeek⟩ := hb
          obtain ⟨more, hr⟩ := Cursor.rest_of_peek hr hpeek (by decide)
          unfold blockComment at h
          split at h
          · rename_i rest hclose
            cases h
            rw [hr] at hclose
            exact .blockComment hr hclose
          · cases h
        · split at h
          · rename_i hb
            subst hb
            unfold closeContext at h
            split at h
            · cases h
            · rename_i start outer hctx
              cases h
              exact .closeContext hr hctx
          · unfold keyword at h
            split at h
            · rename_i kind rest hk
              cases h
              exact .keyword hk
            · cases h

theorem performs_openParen {limit : Nat} {line : Line} {s : State} {m : Move}
    {tail : List UInt8} (hopen : line.opened = false)
    (hr : s.cursor.eatBlanks.rest = Byte.openParen :: tail)
    (h : openParen limit line s s.cursor.eatBlanks = .ok m) : Performs limit s (.tail line) m := by
  simp only [openParen] at h
  split at h
  · rename_i hend
    split at h
    · rename_i htext
      cases h
      exact .textParen hopen hr hend htext
    · rename_i htext
      split at h
      · cases h
      · rename_i hlimit
        cases h
        exact .contextParen hopen hr hend (by simpa using htext) (Nat.lt_of_not_le hlimit)
  · cases h

theorem performs_quotedParameter {limit : Nat} {line : Line} {s : State} {m : Move}
    {tail : List UInt8} (hopen : line.opened = false)
    (hr : s.cursor.eatBlanks.rest = Byte.quote :: tail)
    (h : quotedParameter line s s.cursor.eatBlanks = .ok m) : Performs limit s (.tail line) m := by
  simp only [quotedParameter, hr, List.tail_cons] at h
  split at h
  · rename_i hcur
    split at h
    · rename_i hwhite
      cases hq : quotedRest false tail with
      | nil =>
        -- past the end a zero is read, and that is no quote
        rw [hq] at hcur
        revert hcur
        show (0 : UInt8) = Byte.quote → _
        intro h0
        cases h0
      | cons b rest =>
        rw [hq] at hcur
        obtain rfl : b = Byte.quote := hcur
        cases h
        rw [hq] at hwhite ⊢
        refine .quoted hopen hr hq ?_
        cases rest with
        | nil => rfl
        | cons d rest =>
          simpa [Cursor.atLineEnd, Cursor.moveTo, Cursor.advance, Cursor.current, atWhite,
            Byte.isWhite, Bool.or_comm] using hwhite
    · cases h
  · cases h

theorem performs_tail {limit : Nat} {line : Line} {s : State} {m : Move}
    (h : tail limit line s s.cursor.eatBlanks = .ok m) : Performs limit s (.tail line) m := by
  unfold tail at h
  split at h
  · rename_i hr
    cases h
    have hover : Performs limit s (.tail line)
        ⟨[], s.proceed s.cursor.eatBlanks.eatBreak [.body line]⟩ :=
      .lineOver (Cursor.atLineEnd_iff.mpr (.inl hr))
    rwa [Cursor.eatBreak_of_nil hr] at hover
  · rename_i b tail hr
    split at h
    · rename_i hb
      cases h
      exact .lineOver (Cursor.atLineEnd_iff.mpr (.inr ⟨b, tail, hr, hb⟩))
    · rename_i hbreak
      split at h
      · rename_i hb
        obtain ⟨rfl, hpeek⟩ := hb
        cases h
        obtain ⟨more, hr⟩ := Cursor.rest_of_peek hr hpeek (by decide)
        exact .note hr
      · rename_i hnote
        split at h
        · rename_i hb
          cases h
          subst hb
          exact .tailComment hr
        · rename_i hhash
          split at h
          · cases h
          · rename_i hopen
            rw [Bool.not_eq_true] at hopen hbreak
            split at h
            · rename_i hb
              subst hb
              exact performs_openParen hopen hr h
            · rename_i hparen
              split at h
              · rename_i hschema
                unfold schemaBody at h
                split at h
                · cases h
                · rename_i grammar hgrammar
                  split at h
                  · rename_i n hn
                    cases h
                    exact .inlineSchema hopen hr hnote hschema hgrammar hn
                  · cases h
              · rename_i hschema
                rw [Bool.not_eq_true] at hschema
                split at h
                · rename_i hb
                  subst hb
                  exact performs_quotedParameter hopen hr h
                · rename_i hquote
                  cases h
                  exact .bare hopen hr hbreak hnote hhash hparen hschema hquote

theorem performs_body {limit : Nat} {line : Line} {s : State} {m : Move}
    (h : body line s = .ok m) : Performs limit s (.body line) m := by
  unfold body at h
  split at h
  · rename_i hopen
    split at h
    · rename_i htext
      unfold parenBody at h
      split at h
      rename_i range behind hlines
      split at h
      · cases h
      · rename_i b tail hr
        cases h
        rw [parenLines_rest hlines hr] at hr
        exact .parenText hopen htext hlines hr
    · rename_i htext
      cases h
      exact .bodiless (.inl ⟨hopen, by simpa using htext⟩)
  · rename_i hopen
    rw [Bool.not_eq_true] at hopen
    split at h
    · rename_i hbody
      cases h
      exact .bodiless (.inr ⟨hopen, hbody⟩)
    · rename_i hbody
      split at h
      · rename_i hitem
        cases h
        exact .noSchema hopen hbody hitem
      · rename_i hitem
        rw [Bool.not_eq_true] at hitem
        unfold schemaBody at h
        split at h
        · cases h
        · rename_i grammar hgrammar
          split at h
          · rename_i n hn
            cases h
            exact .schema hopen hbody hitem hgrammar hn
          · cases h
    · rename_i hbody
      split at h
      · rename_i hends
        cases h
        exact .noText hopen hbody hends
      · rename_i hends
        rw [Bool.not_eq_true] at hends
        cases h
        exact .text hopen hbody hends

theorem performs_lineEnd {limit : Nat} {ending : Ending} {s : State} {m : Move}
    (h : lineEnd ending s s.cursor.eatBlanks = .ok m) : Performs limit s (.lineEnd ending) m := by
  unfold lineEnd at h
  split at h
  · rename_i hr
    cases h
    have hover : Performs limit s (.lineEnd ending)
        ⟨[], s.proceed s.cursor.eatBlanks.eatBreak []⟩ :=
      .lineEnd (Cursor.atLineEnd_iff.mpr (.inl hr))
    rwa [Cursor.eatBreak_of_nil hr] at hover
  · rename_i b tail hr
    split at h
    · rename_i hb
      cases h
      subst hb
      exact .endComment hr
    · split at h
      · rename_i hb
        cases h
        exact .lineEnd (Cursor.atLineEnd_iff.mpr (.inr ⟨b, tail, hr, hb⟩))
      · cases h

/-! ## The rules are successful moves -/

/-- A byte that opens a keyword has no other meaning between items. -/
theorem keyword_head {bytes rest : List UInt8} {kind : Kind}
    (h : Keyword.recognise bytes = .found kind rest) :
    ∃ b tail, bytes = b :: tail ∧ Byte.isAlphanumeric b = true := by
  obtain ⟨word, rfl, hspells, -⟩ := Keyword.recognise_eq_found_iff.mp h
  obtain ⟨b, more, rfl⟩ := List.exists_cons_of_ne_nil hspells.ne_nil
  exact ⟨b, more ++ rest, rfl, hspells.isAlphanumeric b List.mem_cons_self⟩

theorem not_special_of_isAlphanumeric {b : UInt8} (h : Byte.isAlphanumeric b = true) :
    Byte.isBlank b = false ∧ Byte.isBreak b = false ∧ b ≠ Byte.hash ∧ b ≠ Byte.slash
      ∧ b ≠ Byte.closeParen ∧ b ≠ Byte.openParen := by
  have key : ∀ d, Byte.isAlphanumeric d = false → b ≠ d := by
    rintro d hd rfl
    rw [h] at hd
    cases hd
  refine ⟨?_, ?_, key _ (by decide), key _ (by decide), key _ (by decide), key _ (by decide)⟩
  · simp [Byte.isBlank, key Byte.space (by decide), key Byte.tab (by decide)]
  · simp [Byte.isBreak, key Byte.lineFeed (by decide), key Byte.carriageReturn (by decide)]

/-- A directive opens with a letter or a digit. -/
theorem isAlphanumeric_of_opensDirective {b : UInt8} {tail : List UInt8}
    (h : Keyword.opensDirective (b :: tail) = true) : Byte.isAlphanumeric b = true := by
  obtain ⟨word, kind, rest, hsplit, hspells, -⟩ := Keyword.opensDirective_iff.mp h
  obtain ⟨d, word, rfl⟩ := List.exists_cons_of_ne_nil hspells.ne_nil
  obtain ⟨rfl, -⟩ := List.cons.inj hsplit
  exact hspells.isAlphanumeric b List.mem_cons_self

theorem isWhite_of_opensDirective {b : UInt8} {tail : List UInt8}
    (h : Keyword.opensDirective (b :: tail) = true) : Byte.isWhite b = false := by
  obtain ⟨hblank, hbreak, -⟩ :=
    not_special_of_isAlphanumeric (isAlphanumeric_of_opensDirective h)
  exact Byte.isWhite_eq_false_iff.mpr ⟨hblank, hbreak⟩

theorem opensInlineSchema_head {line : Line} {b next : UInt8}
    (h : opensInlineSchema line b next = true) :
    b = Byte.openBrace ∨ b = Byte.openBracket ∨ b = Byte.slash := by
  simp only [opensInlineSchema, Bool.and_eq_true, Bool.or_eq_true, beq_iff_eq] at h
  rcases h.2 with (hb | hb) | hb
  · exact .inl hb
  · exact .inr (.inl hb.1)
  · exact .inr (.inr hb.1)

theorem perform_of_performs {limit : Nat} {s : State} {task : Task} {m : Move}
    (h : Performs limit s task m) : perform limit s task = .ok m := by
  cases h with
  | finish hr hctx => simp [perform, items, hr, hctx]
  | blankLine hr hb => simp [perform, items, hr, hb]
  | lineComment hr =>
    simp only [perform, items, hr]
    rw [if_neg (by decide), if_pos trivial]
  | blockComment hr hclose =>
    simp only [perform, items, hr]
    rw [if_neg (by decide), if_neg (by decide), if_pos ⟨trivial, Cursor.peek_of_rest hr⟩]
    simp [blockComment, hr, hclose]
  | closeContext hr hctx =>
    simp only [perform, items, hr]
    rw [if_neg (by decide), if_neg (by decide), if_neg (fun hb => absurd hb.1 (by decide)),
      if_pos trivial]
    simp [closeContext, hctx]
  | keyword hk =>
    obtain ⟨b, tail, hr, hb⟩ := keyword_head hk
    obtain ⟨-, hbreak, hhash, hslash, hclose, -⟩ := not_special_of_isAlphanumeric hb
    simp only [perform, items, hr]
    rw [if_neg (by simp [hbreak]), if_neg hhash, if_neg (fun hb => hslash hb.1), if_neg hclose]
    simp [keyword, hk]
  | lineOver hend =>
    rcases Cursor.atLineEnd_iff.mp hend with hr | ⟨b, tail, hr, hb⟩
    · simp [perform, tail, hr]
    · simp [perform, Scan.tail, hr, hb]
  | note hr =>
    simp only [perform, tail, hr]
    rw [if_neg (by decide), if_pos ⟨trivial, Cursor.peek_of_rest hr⟩]
  | tailComment hr =>
    simp only [perform, tail, hr]
    rw [if_neg (by decide), if_neg (fun hb => absurd hb.1 (by decide)), if_pos trivial]
  | textParen hopen hr hend htext =>
    simp only [perform, tail, hr]
    rw [if_neg (by decide), if_neg (fun hb => absurd hb.1 (by decide)), if_neg (by decide),
      if_neg (by simp [hopen]), if_pos trivial]
    simp [openParen, hend, htext]
  | contextParen hopen hr hend htext hlimit =>
    simp only [perform, tail, hr]
    rw [if_neg (by decide), if_neg (fun hb => absurd hb.1 (by decide)), if_neg (by decide),
      if_neg (by simp [hopen]), if_pos trivial]
    simp [openParen, hend, htext, Nat.not_le_of_lt hlimit]
  | @inlineSchema line b rest grammar n hopen hr hnote hschema hgrammar hn =>
    have hb : Byte.isBreak b = false ∧ b ≠ Byte.hash ∧ b ≠ Byte.openParen := by
      rcases opensInlineSchema_head hschema with rfl | rfl | rfl <;> decide
    simp only [perform, tail, hr]
    rw [if_neg (by simp [hb.1]), if_neg hnote, if_neg hb.2.1, if_neg (by simp [hopen]),
      if_neg hb.2.2, if_pos hschema]
    simp only [schemaBody, hgrammar, hn]
  | @quoted line rest behind hopen hr hclose hwhite =>
    have hschema : ∀ next, opensInlineSchema line Byte.quote next ≠ true := by
      intro next h
      rcases opensInlineSchema_head h with h | h | h <;> exact absurd h (by decide)
    simp only [perform, tail, hr]
    rw [if_neg (by decide), if_neg (fun hb => absurd hb.1 (by decide)), if_neg (by decide),
      if_neg (by simp [hopen]), if_neg (by decide), if_neg (hschema _), if_pos trivial]
    simp only [quotedParameter, hr, List.tail_cons, hclose]
    have hcur : (s.cursor.eatBlanks.moveTo (Byte.quote :: behind)).current = Byte.quote := rfl
    rw [if_pos hcur, if_pos]
    cases behind with
    | nil => rfl
    | cons d behind =>
      simpa [Cursor.atLineEnd, Cursor.moveTo, Cursor.advance, Cursor.current, atWhite,
        Byte.isWhite, Bool.or_comm] using hwhite
  | bare hopen hr hbreak hnote hhash hparen hschema hquote =>
    simp only [perform, tail, hr]
    rw [if_neg (by simp [hbreak]), if_neg hnote, if_neg hhash, if_neg (by simp [hopen]),
      if_neg hparen, if_neg (by simp [hschema]), if_neg hquote]
  | bodiless hnone =>
    rcases hnone with ⟨hopen, htext⟩ | ⟨hopen, hbody⟩
    · simp [perform, body, hopen, htext]
    · simp [perform, body, hopen, hbody]
  | noSchema hopen hbody hitem => simp [perform, body, hopen, hbody, hitem]
  | noText hopen hbody hends =>
    simp only [perform, body, hopen, hbody]
    rw [if_neg (by decide), if_pos hends]
  | schema hopen hbody hitem hgrammar hn =>
    simp [perform, body, hopen, hbody, hitem, schemaBody, hgrammar, hn]
  | text hopen hbody hends =>
    simp only [perform, body, hopen, hbody]
    rw [if_neg (by decide), if_neg (by rw [hends]; decide)]
  | parenText hopen htext hlines hr =>
    simp [perform, body, hopen, htext, parenBody, hlines, hr]
  | lineEnd hend =>
    rcases Cursor.atLineEnd_iff.mp hend with hr | ⟨b, tail, hr, hb⟩
    · simp [perform, Scan.lineEnd, hr]
    · have hhash : b ≠ Byte.hash := by
        rintro rfl
        cases hb
      simp [perform, Scan.lineEnd, hr, hb, hhash]
  | endComment hr => simp [perform, Scan.lineEnd, hr]

/-- The rules are exactly the successful moves. -/
theorem perform_eq_ok_iff {limit : Nat} {s : State} {task : Task} {m : Move} :
    perform limit s task = .ok m ↔ Performs limit s task m := by
  constructor
  · intro h
    cases task with
    | items => exact performs_items h
    | tail line => exact performs_tail h
    | body line => exact performs_body h
    | lineEnd ending => exact performs_lineEnd h
  · exact perform_of_performs

/-! ## Events and contexts -/

/-- The events of a move and what becomes of the contexts: a part other than a
context comes with both its events at once, and a context opens and closes at
a parenthesis. -/
inductive Gives (s : State) : Move → Prop
  | silent {next : State} (hctx : next.contexts = s.contexts) : Gives s ⟨[], next⟩
  | lexeme {part : Part} {start stop : Nat} {next : State} (hpart : part ≠ .context)
      (hctx : next.contexts = s.contexts) : Gives s ⟨part.events start stop, next⟩
  | opened {tail : List UInt8} {next : State}
      (hr : s.cursor.eatBlanks.rest = Byte.openParen :: tail)
      (hctx : next.contexts = s.cursor.eatBlanks.pos :: s.contexts) :
      Gives s ⟨[⟨⟨.context, .opening⟩, .point s.cursor.eatBlanks.pos⟩], next⟩
  | closed {tail : List UInt8} {start : Nat} {next : State}
      (hr : s.cursor.eatBlanks.rest = Byte.closeParen :: tail)
      (hctx : s.contexts = start :: next.contexts) :
      Gives s ⟨[⟨⟨.context, .closing⟩, ⟨start, s.cursor.eatBlanks.pos⟩⟩], next⟩

theorem Performs.gives {limit : Nat} {s : State} {task : Task} {m : Move}
    (h : Performs limit s task m) : Gives s m := by
  cases h with
  | finish | blankLine | lineOver | textParen | bodiless | noSchema | noText | lineEnd =>
    exact .silent rfl
  | lineComment | blockComment | keyword | note | tailComment | inlineSchema | quoted | bare
  | schema | text | endComment => exact .lexeme (by decide) rfl
  | closeContext hr hctx => exact .closed hr hctx
  | contextParen _ hr => exact .opened hr rfl
  | @parenText _ range =>
    cases range with
    | none => exact .silent rfl
    | some range => exact .lexeme (by decide) rfl

end ApiDoc.Scan
