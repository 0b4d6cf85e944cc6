import ApiDoc.Proofs.Machine.Answers

/-!
# Steps of the scanner, phase by phase

A step of the scanner is one phase of the machine, or two: the first then looks
at what stands next and calls the phase that reads it.

* **Calls** (`Calls`): the machine between the two phases. The list of its cases
  is the list of all calls, and with `Plan` it is all that stacks can look like.
* **Steps** (`Follows.run`): where the machine follows the scanner and the next
  task is on the stack, the phase of this task answers the step, or calls.
-/

namespace ApiDoc

open Scan (State Move Fault Line Task)

namespace Machine

variable {source : Source} {s : State} {c : Cursor} {m : Machine} {line : Line} {limit : Nat}

/-- The machine has called the phase that does the rest of a step. -/
inductive Calls (source : Source) (s : State) (m : Machine) : Except Fault Move → Prop
  | lineComment {c : Cursor} (h : Ready source s c m) (hagenda : s.agenda = [])
      (hstack : m.stack = [.lineComment, .lineStart]) :
      Calls source s m (.ok ⟨Scan.lineEvents .comment c, s.proceed c.eatLine [.items]⟩)
  | blockComment {c : Cursor} (h : Ready source s c m) (hagenda : s.agenda = [])
      (hstack : m.stack = [.blockComment, .lineEnd .comment, .lineStart]) :
      Calls source s m (Scan.blockComment s c)
  | keyword {c : Cursor} (h : Ready source s c m) (hagenda : s.agenda = [])
      (hstack : m.stack = [.keyword, .lineStart]) :
      Calls source s m (Scan.keyword s c)
  | note {c : Cursor} {line : Line} (h : Ready source s c m) (hagenda : s.agenda = [.items])
      (hstack : m.stack = [.note, .directiveTail, .lineStart])
      (hline : m.directive = some { line with }) :
      Calls source s m (.ok ⟨Scan.lineEvents .note c, s.proceed c.eatLine [.tail line]⟩)
  | tailComment {c : Cursor} {line : Line} (h : Ready source s c m)
      (hagenda : s.agenda = [.items])
      (hstack : m.stack = [.lineComment, .directiveTail, .lineStart])
      (hline : m.directive = some { line with }) :
      Calls source s m (.ok ⟨Scan.lineEvents .comment c, s.proceed c.eatLine [.tail line]⟩)
  | quotedParameter {c : Cursor} {line : Line} (h : Ready source s c m)
      (hagenda : s.agenda = [.items])
      (hstack : m.stack = [.quotedParameter, .directiveTail, .lineStart])
      (hline : m.directive = some { line with }) :
      Calls source s m (Scan.quotedParameter line s c)
  | bareParameter {c : Cursor} {line : Line} (h : Ready source s c m)
      (hagenda : s.agenda = [.items])
      (hstack : m.stack = [.bareParameter, .directiveTail, .lineStart])
      (hline : m.directive = some { line with }) :
      Calls source s m (.ok (Scan.bareParameter line s c))
  | schema {c : Cursor} {directive : LineDirective} (h : Ready source s c m)
      (hagenda : s.agenda = [.items]) (hstack : m.stack = [.schema, .lineEnd .schema, .lineStart])
      (hline : m.directive = some directive) :
      Calls source s m (Scan.schemaBody directive.toLine s c)
  | text {c : Cursor} {directive : LineDirective} (h : Ready source s c m)
      (hagenda : s.agenda = [.items]) (hstack : m.stack = [.text, .lineStart])
      (hline : m.directive = some directive) :
      Calls source s m (.ok (Scan.textBody s c))
  | parenText {c : Cursor} {directive : LineDirective} (h : Ready source s c m)
      (hagenda : s.agenda = [.items]) (hstack : m.stack = [.parenText, .lineStart])
      (hline : m.directive = some directive) :
      Calls source s m (Scan.parenBody s c.eatBlanks)

/-- The machine has done what the scanner does, or has called the phase that
does the rest. -/
def Pursues (source : Source) (s : State) (result : Except Fault Move) (m : Machine) : Prop :=
  Answers source result m ∨ Calls source s m result

theorem pursues_of_answers {x : Checked Machine} {result : Except Fault Move}
    (h : x.Yields (Answers source result)) : x.Yields (Pursues source s result) := by
  obtain ⟨m, hm, hanswers⟩ := h
  exact ⟨m, hm, .inl hanswers⟩

theorem Ready.stacked (h : Ready source s c m) (stack : List Phase)
    (directive : Option LineDirective) : Ready source s c { m with stack, directive } :=
  ⟨h.held, h.head, h.contexts, h.pending, h.fault⟩

theorem Calls.ready {result : Except Fault Move} (h : Calls source s m result) :
    ∃ c, Ready source s c m := by
  cases h <;> exact ⟨_, ‹_›⟩

/-- The phase that was called does the rest. -/
theorem Calls.run {result : Except Fault Move} (h : Calls source s m result) (limit : Nat) :
    ∃ phase below, m.stack = phase :: below ∧
      (Machine.run limit { m with stack := below } phase).Yields (Answers source result) := by
  cases h with
  | lineComment h hagenda hstack =>
    refine ⟨_, _, hstack, (h.stacked _ _).linePart .comment ?_⟩
    rw [hagenda]
    exact .items
  | blockComment h hagenda hstack => exact ⟨_, _, hstack, (h.stacked _ _).blockComment hagenda rfl⟩
  | keyword h hagenda hstack => exact ⟨_, _, hstack, (h.stacked _ _).keyword hagenda rfl⟩
  | note h hagenda hstack hline =>
    refine ⟨_, _, hstack, (h.stacked _ _).linePart .note ?_⟩
    rw [hagenda]
    exact hline ▸ .tail
  | tailComment h hagenda hstack hline =>
    refine ⟨_, _, hstack, (h.stacked _ _).linePart .comment ?_⟩
    rw [hagenda]
    exact hline ▸ .tail
  | quotedParameter h hagenda hstack hline =>
    exact ⟨_, _, hstack, (h.stacked _ _).quotedParameter hagenda rfl hline⟩
  | bareParameter h hagenda hstack hline =>
    exact ⟨_, _, hstack, (h.stacked _ _).bareParameter hagenda rfl hline⟩
  | schema h hagenda hstack hline => exact ⟨_, _, hstack, (h.stacked _ _).schema hagenda rfl hline⟩
  | text h hagenda hstack => exact ⟨_, _, hstack, (h.stacked _ _).text hagenda rfl⟩
  | parenText h hagenda hstack => exact ⟨_, _, hstack, (h.stacked _ _).parenText hagenda rfl⟩

namespace Ready

theorem lineStart (h : Ready source s c m) (hagenda : s.agenda = []) (hstack : m.stack = [])
    (hbehind : ∀ first ∈ s.contexts, first ≤ c.pos) :
    m.lineStart.Yields (Pursues source s (Scan.items s c.eatBlanks)) := by
  have hc := h.move c.takes_eatBlanks
  have hle : c.pos ≤ c.eatBlanks.pos := Nat.le.intro c.takes_eatBlanks.pos.symm
  simp only [Machine.lineStart, h.head, h.held.eatBlanks, Checked.ok_bind, hc.held.atEnd,
    hc.held.current, hc.held.peek, hc.held.eatBreak, hc.held.advance, contexts_move, h.contexts,
    Source.pos_headAt]
  rw [Scan.items]
  cases hr : c.eatBlanks.rest with
  | nil =>
    dsimp only
    rw [List.isEmpty_nil, if_pos rfl]
    cases hctx : s.contexts with
    | nil =>
      refine pursues_of_answers (.of_eq rfl (h.answer_nil ?_ _))
      show Plan ([] ++ s.agenda) m.stack m.directive
      rw [hagenda, hstack]
      exact .done
    | cons first outer => exact pursues_of_answers (hc.unexpected _ _)
  | cons b tail =>
    dsimp only
    rw [List.isEmpty_cons, if_neg Bool.false_ne_true, Cursor.current_eq hr]
    by_cases hbreak : Byte.isBreak b = true
    · rw [if_pos hbreak, if_pos hbreak]
      refine pursues_of_answers (.of_eq rfl (h.answer_nil ?_ _))
      show Plan ([.items] ++ s.agenda) (.lineStart :: m.stack) m.directive
      rw [hagenda, hstack]
      exact .items
    rw [if_neg hbreak, if_neg hbreak]
    by_cases hhash : b = Byte.hash
    · rw [if_pos hhash, if_pos hhash]
      refine .of_eq rfl (.inr (.lineComment (hc.stacked _ _) hagenda ?_))
      simp [hstack]
    rw [if_neg hhash, if_neg hhash]
    by_cases hblock : b = Byte.slash ∧ c.eatBlanks.peek = Byte.hash
    · rw [if_pos hblock, if_pos hblock]
      refine .of_eq rfl (.inr (.blockComment (hc.stacked _ _) hagenda ?_))
      simp [hstack]
    rw [if_neg hblock, if_neg hblock]
    by_cases hclose : b = Byte.closeParen
    · rw [if_pos hclose, if_pos hclose, Scan.closeContext]
      cases hctx : s.contexts with
      | nil => exact pursues_of_answers (hc.unexpected _ _)
      | cons first outer =>
        -- the parenthesis that opened the context stands before this one
        have hfirst : first ≤ c.pos := hbehind first (hctx ▸ List.mem_cons_self)
        dsimp only
        rw [Checked.span_eq (Nat.le_trans hfirst hle), Checked.ok_bind]
        refine pursues_of_answers (.of_eq rfl ⟨⟨rfl, rfl, h.fault, ?_⟩, ?_⟩)
        · show Plan (_ ++ s.agenda) (.lineEnd .paren :: .lineStart :: m.stack) m.directive
          rw [hagenda, hstack]
          exact .lineEnd
        · show m.pending ++ _ = _
          rw [h.pending]
          rfl
    · rw [if_neg hclose, if_neg hclose]
      refine .of_eq rfl (.inr (.keyword (hc.stacked _ _) hagenda ?_))
      simp [hstack]

theorem parenEndsLine_eq (h : Ready source s c m) :
    m.parenEndsLine = .ok (Scan.endsDirectiveLine c.advance.eatBlanks) := by
  have hbehind := (h.held.move (c.takes_advance 1)).move (Cursor.takes_eatBlanks _)
  rw [parenEndsLine, h.head, h.held.advance, Checked.ok_bind,
    (h.held.move (c.takes_advance 1)).eatBlanks, Checked.ok_bind, hbehind.atLineEnd,
    Checked.ok_bind, hbehind.startsWith, Checked.ok_bind, hbehind.current, Checked.ok_bind,
    Scan.endsDirectiveLine]
  cases c.advance.eatBlanks.atLineEnd with
  | true => rfl
  | false =>
    cases c.advance.eatBlanks.startsWith [Byte.slash, Byte.slash] <;> rfl

theorem openParen (h : Ready source s c m) (hagenda : s.agenda = [.items])
    (hstack : m.stack = [.lineStart]) (limit : Nat)
    (hends : Scan.endsDirectiveLine c.advance.eatBlanks = true) :
    (m.openParen limit { line with }).Yields
      (Answers source (Scan.openParen limit line s c)) := by
  have hplan : Plan ([.tail { line with opened := true }] ++ s.agenda)
      (.directiveTail :: m.stack) (some { line with opened := true }) := by
    rw [hagenda, hstack]
    exact .tail
  simp only [Machine.openParen, Scan.openParen, h.head, Source.pos_headAt, h.held.advance,
    Checked.ok_bind, hends, if_true, h.contexts]
  by_cases htext : line.kind.hasTextBody = true
  · rw [if_pos htext, if_pos htext]
    exact .of_eq rfl ⟨⟨rfl, rfl, h.fault, hplan⟩, h.pending⟩
  rw [if_neg htext, if_neg htext]
  by_cases hlimit : limit ≤ s.contexts.length
  · rw [if_pos hlimit, if_pos hlimit]
    exact h.fail _ _
  · rw [if_neg hlimit, if_neg hlimit]
    refine .of_eq rfl ⟨⟨rfl, rfl, h.fault, hplan⟩, ?_⟩
    show m.pending ++ _ = _
    rw [h.pending]
    rfl

theorem directiveItem (h : Ready source s c m) (hagenda : s.agenda = [.items])
    (hstack : m.stack = [.lineStart]) (hline : m.directive = some { line with }) (limit : Nat)
    {b : UInt8} {tail : List UInt8} (hr : c.rest = b :: tail) (hbreak : Byte.isBreak b = false) :
    (m.directiveItem limit { line with }).Yields
      (Pursues source s (Scan.tail limit line s c)) := by
  have hbehind := (h.move (c.takes_advance 1)).move (Cursor.takes_eatBlanks _)
  simp only [Machine.directiveItem, Scan.tail, h.head, h.held.current, h.held.peek,
    h.parenEndsLine_eq, h.held.advance, Checked.ok_bind, Cursor.current_eq hr, hr, hbreak]
  rw [if_neg Bool.false_ne_true]
  by_cases hnote : b = Byte.slash ∧ c.peek = Byte.slash
  · rw [if_pos hnote, if_pos hnote]
    refine .of_eq rfl (.inr (.note (h.stacked _ _) hagenda ?_ hline))
    simp [hstack]
  rw [if_neg hnote, if_neg hnote]
  by_cases hhash : b = Byte.hash
  · rw [if_pos hhash, if_pos hhash]
    refine .of_eq rfl (.inr (.tailComment (h.stacked _ _) hagenda ?_ hline))
    simp [hstack]
  rw [if_neg hhash, if_neg hhash]
  by_cases hopened : line.opened = true
  · rw [if_pos hopened, if_pos hopened]
    exact pursues_of_answers (h.unexpected _ _)
  rw [if_neg hopened, if_neg hopened]
  by_cases hparen : b = Byte.openParen
  · rw [if_pos hparen, if_pos hparen]
    by_cases hends : Scan.endsDirectiveLine c.advance.eatBlanks = true
    · rw [if_pos hends]
      exact pursues_of_answers (h.openParen hagenda hstack limit hends)
    · rw [if_neg hends, (h.held.move (c.takes_advance 1)).eatBlanks, Checked.ok_bind,
        Scan.openParen, if_neg hends]
      exact pursues_of_answers (hbehind.unexpected _ _)
  rw [if_neg hparen, if_neg hparen]
  by_cases hschema : Scan.opensInlineSchema line b c.peek = true
  · rw [if_pos hschema, if_pos hschema, ← h.head]
    refine .of_eq rfl (.inr (.schema (h.stacked _ _) hagenda ?_ rfl))
    simp [hstack]
  rw [if_neg hschema, if_neg hschema]
  by_cases hquote : b = Byte.quote
  · rw [if_pos hquote, if_pos hquote]
    refine .of_eq rfl (.inr (.quotedParameter (h.stacked _ _) hagenda ?_ hline))
    simp [hstack]
  · rw [if_neg hquote, if_neg hquote]
    refine .of_eq rfl (.inr (.bareParameter (h.stacked _ _) hagenda ?_ hline))
    simp [hstack]

theorem directiveTail (h : Ready source s c m) (hagenda : s.agenda = [.items])
    (hstack : m.stack = [.lineStart]) (hline : m.directive = some { line with }) (limit : Nat) :
    (m.directiveTail limit).Yields (Pursues source s (Scan.tail limit line s c.eatBlanks)) := by
  have hc := h.move c.takes_eatBlanks
  have hover : c.eatBlanks.atLineEnd = true → (m.directiveTail limit).Yields
      (Pursues source s (.ok ⟨[], s.proceed c.eatBlanks.eatBreak [.body line]⟩)) := by
    intro hend
    rw [Machine.directiveTail, h.head, h.held.eatBlanks, Checked.ok_bind, hc.held.atLineEnd,
      Checked.ok_bind, hend, if_pos rfl, hc.held.eatBreak, Checked.ok_bind]
    refine pursues_of_answers (.of_eq rfl (h.answer_nil ?_ _))
    show Plan (_ ++ s.agenda) (.body :: m.stack) m.directive
    rw [hagenda, hstack, hline]
    exact .body
  cases hr : c.eatBlanks.rest with
  | nil =>
    have hyields := hover (Cursor.atLineEnd_iff.mpr (.inl hr))
    rw [Cursor.eatBreak_of_nil hr] at hyields
    simp only [Scan.tail, hr]
    exact hyields
  | cons b tail =>
    by_cases hbreak : Byte.isBreak b = true
    · simp only [Scan.tail, hr, hbreak]
      exact hover (Cursor.atLineEnd_iff.mpr (.inr ⟨b, tail, hr, hbreak⟩))
    · have hmid := Bool.eq_false_iff.mpr hbreak
      have hinside : c.eatBlanks.atLineEnd = false := by
        rw [Cursor.atLineEnd, hr]
        exact hmid
      rw [Machine.directiveTail, h.head, h.held.eatBlanks, Checked.ok_bind, hc.held.atLineEnd,
        Checked.ok_bind, hinside, if_neg Bool.false_ne_true, hline]
      exact hc.directiveItem hagenda hstack hline limit hr hmid

theorem body (h : Ready source s s.cursor m) (hagenda : s.agenda = [.items])
    (hstack : m.stack = [.lineStart]) (hline : m.directive = some { line with }) :
    m.body.Yields (Pursues source s (Scan.body line s)) := by
  have hlook := h.move s.cursor.takes_eatWhite
  have hskip : Pursues source s (.ok ⟨[], s.proceed s.cursor []⟩) m :=
    .inl ⟨⟨h.head, h.contexts, h.fault, plan_items hagenda hstack⟩, h.pending⟩
  rw [Machine.body, hline, Scan.body]
  dsimp only
  by_cases hopened : line.opened = true
  · rw [if_pos hopened, if_pos hopened]
    by_cases htext : line.kind.hasTextBody = true
    · rw [if_pos htext, if_pos htext]
      refine .of_eq rfl (.inr (.parenText (h.stacked _ _) hagenda ?_ hline))
      simp [hstack]
    · rw [if_neg htext, if_neg htext]
      exact .of_eq rfl hskip
  rw [if_neg hopened, if_neg hopened, if_neg Bool.false_ne_true]
  cases hbody : line.kind.body? with
  | none =>
    simp only [Kind.hasSchemaBody, Kind.hasTextBody, hbody]
    exact .of_eq rfl hskip
  | some content =>
    cases content with
    | schema =>
      simp only [bodyBelow, Kind.hasSchemaBody, hbody, h.head, h.held.nextContent,
        startsItem_eq hlook.held, Checked.ok_bind]
      by_cases hitem : Scan.opensItem s.cursor.eatWhite.rest = true
      · rw [hitem]
        exact .of_eq rfl hskip
      · rw [Bool.eq_false_iff.mpr hitem]
        refine .of_eq rfl (.inr (.schema (hlook.stacked _ _) hagenda ?_ hline))
        simp [hstack]
    | text =>
      simp only [bodyBelow, Kind.hasSchemaBody, Kind.hasTextBody, hbody, h.head,
        h.held.nextContent, endsText_eq hlook.held, Checked.ok_bind, h.contexts]
      by_cases hends : Scan.endsText (! s.contexts.isEmpty) s.cursor.eatWhite.rest = true
      · rw [hends]
        exact .of_eq rfl hskip
      · rw [Bool.eq_false_iff.mpr hends]
        refine .of_eq rfl (.inr (.text (hlook.stacked _ _) hagenda ?_ hline))
        simp [hstack]

end Ready

theorem plan_nil {stack : List Phase} {directive : Option LineDirective}
    (h : Plan [] stack directive) : stack = [] := by
  cases h
  rfl

/-- The phase of the next task is on top of the stack. -/
theorem plan_cons {task : Task} {later : List Task} {stack : List Phase}
    {directive : Option LineDirective} (h : Plan (task :: later) stack directive) :
    task = .items ∧ later = [] ∧ stack = [.lineStart] ∨
      (∃ line, task = .tail line ∧ later = [.items] ∧ stack = [.directiveTail, .lineStart] ∧
        directive = some { line with }) ∨
      (∃ line, task = .body line ∧ later = [.items] ∧ stack = [.body, .lineStart] ∧
        directive = some { line with }) ∨
      ∃ ending, task = .lineEnd ending ∧ later = [.items] ∧
        stack = [.lineEnd ending, .lineStart] := by
  cases h with
  | items => exact .inl ⟨rfl, rfl, rfl⟩
  | tail => exact .inr (.inl ⟨_, rfl, rfl, rfl, rfl⟩)
  | body => exact .inr (.inr (.inl ⟨_, rfl, rfl, rfl, rfl⟩))
  | lineEnd => exact .inr (.inr (.inr ⟨_, rfl, rfl, rfl⟩))

/-- Where the machine follows the scanner, the phase on top of the stack does the
next task. -/
theorem Follows.run (h : Follows source s m) (hheld : source.Holds s.cursor)
    (hpending : m.pending = []) (hbehind : ∀ first ∈ s.contexts, first ≤ s.cursor.pos)
    {task : Task} {later : List Task} (hagenda : s.agenda = task :: later) (limit : Nat) :
    ∃ phase below, m.stack = phase :: below ∧
      (Machine.run limit { m with stack := below } phase).Yields
        (Pursues source (s.drop later) (Scan.perform limit (s.drop later) task)) := by
  have hready : ∀ below, Ready source (s.drop later) s.cursor { m with stack := below } :=
    fun below => ⟨hheld, h.head, h.contexts, hpending, h.fault⟩
  rcases plan_cons (hagenda ▸ h.plan) with ⟨rfl, rfl, hstack⟩ | ⟨line, rfl, rfl, hstack, hline⟩ |
    ⟨line, rfl, rfl, hstack, hline⟩ | ⟨ending, rfl, rfl, hstack⟩
  · exact ⟨_, _, hstack, (hready []).lineStart rfl rfl hbehind⟩
  · exact ⟨_, _, hstack, (hready [.lineStart]).directiveTail rfl rfl hline limit⟩
  · exact ⟨_, _, hstack, (hready [.lineStart]).body rfl rfl hline⟩
  · have hanswers := (hready [.lineStart]).lineEnd ending rfl rfl
    exact ⟨_, _, hstack, pursues_of_answers hanswers⟩

end Machine

end ApiDoc
