import ApiDoc.Proofs.Machine.Loops
import ApiDoc.Proofs.Directive.Spelling
import Mathlib.Data.List.Infix

/-!
# What phases answer

A phase that runs to its end does what one step of the scanner does. The machine
behind it either follows the state behind that step or has stopped with the
fault of it.

* **Plans** (`Plan`): the agenda of the scanner stands on the stack, with the
  directive beside it.
* **Answers** (`Answers`): each phase that reads a part comes to a machine that
  answers the scanner's function for this part.
-/

namespace ApiDoc

open Checked (loop)
open Scan (State Move Fault Line Task)

/-- How an agenda stands on the stack. A directive that is still read has not
met its schema. -/
inductive Plan : List Task → List Phase → Option LineDirective → Prop
  | done {directive : Option LineDirective} : Plan [] [] directive
  | items {directive : Option LineDirective} : Plan [.items] [.lineStart] directive
  | tail {line : Line} :
      Plan [.tail line, .items] [.directiveTail, .lineStart] (some { line with })
  | body {line : Line} : Plan [.body line, .items] [.body, .lineStart] (some { line with })
  | lineEnd {ending : Scan.Ending} {directive : Option LineDirective} :
      Plan [.lineEnd ending, .items] [.lineEnd ending, .lineStart] directive

namespace Machine

/-- The machine stands where the scanner does. -/
structure Follows (source : Source) (s : State) (m : Machine) : Prop where
  head : m.head = source.headAt s.cursor.pos
  contexts : m.contexts = s.contexts
  fault : m.fault = none
  plan : Plan s.agenda m.stack m.directive

/-- The machine has done what the scanner does. -/
def Answers (source : Source) : Except Fault Move → Machine → Prop
  | .ok move, m => m.Follows source move.next ∧ m.pending = move.events
  | .error fault, m =>
    m.head = source.headAt fault.pos ∧ m.stack = [] ∧ m.pending = [] ∧ m.fault = some fault

/-- The machine is about to run a phase at `c`. -/
structure Ready (source : Source) (s : State) (c : Cursor) (m : Machine) : Prop where
  held : source.Holds c
  head : m.head = source.headAt c.pos
  contexts : m.contexts = s.contexts
  pending : m.pending = []
  fault : m.fault = none

theorem emit_eq (m : Machine) (part : Part) (first stop : Nat) :
    m.emit part first stop = .ok { m with pending := m.pending ++ part.events first stop } := by
  rw [emit, Checked.range_eq]
  rfl

/-- Behind the first `#/` stands what is left behind its two bytes. -/
theorem afterClose?_eq (bytes : List UInt8) :
    Comment.afterClose? bytes = (closeIndex? bytes).map fun i => bytes.drop (i + 2) := by
  fun_induction Comment.afterClose? bytes with
  | case1 => rfl
  | case2 a =>
    have hnone : [Byte.hash, Byte.slash].isPrefixOf [a] = false := by simp [List.isPrefixOf]
    rw [closeIndex?, List.tails_cons, List.findIdx?_cons, hnone]
    rfl
  | case3 a b tail hab =>
    obtain ⟨rfl, rfl⟩ := hab
    rfl
  | case4 a b tail hab ih =>
    have hne : [Byte.hash, Byte.slash].isPrefixOf (a :: b :: tail) = false := by
      rw [Bool.eq_false_iff]
      intro hopens
      simp only [List.isPrefixOf_cons_cons, Bool.and_eq_true, beq_iff_eq] at hopens
      exact hab ⟨hopens.1.symm, hopens.2.1.symm⟩
    have hskip : closeIndex? (a :: b :: tail) = (closeIndex? (b :: tail)).map (· + 1) := by
      rw [closeIndex?, List.tails_cons, List.findIdx?_cons, hne]
      rfl
    rw [ih, hskip, Option.map_map]
    rfl

namespace Ready

variable {source : Source} {s : State} {c d : Cursor} {m : Machine} {taken : List UInt8}

theorem move (h : Ready source s c m) (htakes : c.Takes taken d) :
    Ready source s d (m.move (source.headAt d.pos)) where
  held := h.held.move htakes
  head := rfl
  contexts := h.contexts
  pending := h.pending
  fault := h.fault

theorem moveTo (h : Ready source s c m) {rest : List UInt8} (hsuffix : rest <:+ c.rest) :
    Ready source s (c.moveTo rest) (m.move (source.headBefore rest)) := by
  have hat : source.headBefore rest = source.headAt (c.moveTo rest).pos :=
    (h.held.moveTo hsuffix).headBefore
  rw [hat]
  exact h.move (Cursor.takes_moveTo hsuffix.choose_spec.symm)

/-! ## Moves and faults -/

/-- The phase has given `events` and gone on to `d`. -/
theorem answer (h : Ready source s c m) {stack : List Phase} {directive : Option LineDirective}
    {tasks : List Task} (hplan : Plan (tasks ++ s.agenda) stack directive) (d : Cursor)
    (events : List Event) :
    Answers source (.ok ⟨events, s.proceed d tasks⟩)
      { m with head := source.headAt d.pos, stack, directive, pending := m.pending ++ events } := by
  refine ⟨⟨rfl, h.contexts, h.fault, hplan⟩, ?_⟩
  show m.pending ++ events = events
  rw [h.pending, List.nil_append]

/-- The phase has gone on to `d` and given nothing. -/
theorem answer_nil (h : Ready source s c m) {stack : List Phase}
    {directive : Option LineDirective} {tasks : List Task}
    (hplan : Plan (tasks ++ s.agenda) stack directive) (d : Cursor) :
    Answers source (.ok ⟨[], s.proceed d tasks⟩)
      { m with head := source.headAt d.pos, stack, directive } :=
  ⟨⟨rfl, h.contexts, h.fault, hplan⟩, h.pending⟩

/-- Behind the line of a directive the next item comes. -/
theorem plan_items (hagenda : s.agenda = [.items]) (hstack : m.stack = [.lineStart]) :
    Plan ([] ++ s.agenda) m.stack m.directive := by
  rw [hagenda, hstack]
  exact .items

theorem halt (h : Ready source s c m) {fault : Fault} (hpos : fault.pos = c.pos) :
    Answers source (.error fault) (m.halt fault) :=
  ⟨hpos ▸ h.head, rfl, h.pending, rfl⟩

theorem fail (h : Ready source s c m) (cause : Cause) (offset : Nat) :
    (pure (m.fail cause offset) : Checked Machine).Yields
      (Answers source (.error ⟨cause, offset, c.pos⟩)) := by
  have hpos : m.head.pos = c.pos := congrArg Head.pos h.head
  rw [Machine.fail, hpos]
  exact .of_eq rfl (h.halt rfl)

theorem unexpected (h : Ready source s c m) (place expected : String) :
    (m.unexpected place expected).Yields
      (Answers source (.error (Scan.unexpected c place expected))) := by
  rw [Machine.unexpected, h.head, h.held.atEnd, h.held.current, Scan.unexpected]
  cases hr : c.rest with
  | nil => exact h.fail _ _
  | cons b tail =>
    rw [Cursor.current_eq hr]
    exact h.fail _ _

/-! ## Parts of a line -/

theorem linePart_eq (h : Ready source s c m) (part : Part) :
    m.linePart part = .ok { m with
      head := source.headAt c.eatLine.pos, pending := Scan.lineEvents part c } := by
  rw [Machine.linePart, h.head, Source.pos_headAt, h.held.eatLine, Checked.ok_bind,
    h.held.trimmedEnd, Checked.ok_bind, emit_eq]
  show Except.ok { m with head := _, pending := m.pending ++ _ } = _
  rw [h.pending]
  rfl

theorem linePart (h : Ready source s c m) (part : Part) {tasks : List Task}
    (hplan : Plan (tasks ++ s.agenda) m.stack m.directive) :
    (m.linePart part).Yields
      (Answers source (.ok ⟨Scan.lineEvents part c, s.proceed c.eatLine tasks⟩)) :=
  .of_eq (h.linePart_eq part) ⟨⟨rfl, h.contexts, h.fault, hplan⟩, rfl⟩

theorem keyword (h : Ready source s c m) (hagenda : s.agenda = [])
    (hstack : m.stack = [.lineStart]) :
    m.keyword.Yields (Answers source (Scan.keyword s c)) := by
  rw [Machine.keyword, h.head, Source.pos_headAt, Source.rounds_headAt, loop_keyword h.held,
    Checked.ok_bind, Scan.keyword, Keyword.recognise]
  cases hout : Keyword.Progress.start.run c.rest with
  | found kind rest =>
    obtain ⟨word, hsplit, -, -⟩ := Keyword.recognise_eq_found_iff.mp hout
    have hbehind := h.moveTo ⟨word, hsplit.symm⟩
    have hat : source.headBefore rest = source.headAt (c.moveTo rest).pos := hbehind.head
    dsimp only [keywordStop]
    rw [hat, emit_eq, Source.pos_headAt, Checked.ok_bind]
    refine .of_eq rfl (h.answer ?_ _ _)
    show Plan (_ ++ s.agenda) (.directiveTail :: m.stack) _
    rw [hagenda, hstack]
    exact .tail
  | stuck progress rest =>
    obtain ⟨read, hread, hdepth⟩ := Keyword.Progress.depth_of_run_stuck hout
    have hbehind := h.moveTo ⟨read, hread.symm⟩
    have hcount : progress.depth = read.length := hdepth.trans (Nat.zero_add _)
    dsimp only [keywordStop]
    rw [Scan.keywordPlace]
    by_cases hzero : progress.depth = 0
    · rw [if_pos hzero, if_pos hzero]
      exact hbehind.unexpected _ _
    · -- what the recogniser has read is what the fault shows
      have hslice : (source.headBefore rest).sliceFrom c.pos = .ok read := by
        have htakes := Cursor.takes_moveTo hread
        have hat : source.headBefore rest = source.headAt (c.moveTo rest).pos :=
          (h.held.move htakes).headBefore
        rw [hat, h.held.sliceFrom htakes]
      rw [if_neg hzero, if_neg hzero, hslice, Checked.ok_bind, hcount, hread, List.take_left]
      exact hbehind.unexpected _ _

/-! ## Parameters -/

theorem parameter (h : Ready source s c m) (htakes : c.Takes taken d) {line : Line}
    (hagenda : s.agenda = [.items]) (hstack : m.stack = [.directiveTail, .lineStart])
    (hline : m.directive = some { line with }) :
    ((m.move (source.headAt d.pos)).finishParameter c.pos).Yields
      (Answers source (.ok (Scan.parameter line s c d))) := by
  have hraw : c.rest.take (d.pos - c.pos) = taken := by
    rw [htakes.pos, htakes.rest, Nat.add_sub_cancel_left, List.take_left]
  have hslice : (source.headAt d.pos).slice c.pos d.pos = .ok taken := h.held.slice htakes d.pos
  rw [finishParameter, emit_eq, Checked.ok_bind]
  dsimp only [Machine.move]
  rw [Source.pos_headAt, hslice, Checked.ok_bind, Scan.parameter, hraw]
  refine .of_eq rfl (h.answer ?_ d _)
  show Plan (_ ++ s.agenda) m.stack (m.directive.map _)
  rw [hagenda, hstack, hline]
  exact .tail

theorem bareParameter (h : Ready source s c m) {line : Line} (hagenda : s.agenda = [.items])
    (hstack : m.stack = [.directiveTail, .lineStart]) (hline : m.directive = some { line with }) :
    m.bareParameter.Yields (Answers source (.ok (Scan.bareParameter line s c))) := by
  rw [Machine.bareParameter, h.head, Source.pos_headAt, h.held.eatWhile, Checked.ok_bind]
  exact h.parameter (Cursor.takes_eatWhile _ c) hagenda hstack hline

theorem quotedParameter (h : Ready source s c m) {line : Line} (hagenda : s.agenda = [.items])
    (hstack : m.stack = [.directiveTail, .lineStart]) (hline : m.directive = some { line with }) :
    m.quotedParameter.Yields (Answers source (Scan.quotedParameter line s c)) := by
  have hnext := h.held.move (c.takes_advance 1)
  have hrest : c.advance.rest = c.rest.tail := List.drop_one
  have hsuffix : Scan.quotedRest false c.rest.tail <:+ c.rest :=
    (Scan.quotedRest_suffix _ _).trans (List.tail_suffix _)
  have hclose := h.moveTo hsuffix
  simp only [Machine.quotedParameter, h.head, Source.pos_headAt, h.held.advance, Checked.ok_bind,
    Source.rounds_headAt, loop_quoted hnext, hrest, quotedStop]
  rw [Scan.quotedParameter]
  cases hquoted : Scan.quotedRest false c.rest.tail with
  | nil =>
    rw [hquoted] at hclose
    have hcurrent : (c.moveTo []).current ≠ Byte.quote := (by decide : (0 : UInt8) ≠ Byte.quote)
    simp only [if_neg hcurrent]
    exact hclose.unexpected "" "\"\\\"\""
  | cons b rest =>
    rw [hquoted] at hclose hsuffix
    have hcurrent : (c.moveTo (b :: rest)).current = b := rfl
    simp only [hcurrent]
    by_cases hquote : b = Byte.quote
    · have hbehind := hclose.move (Cursor.takes_advance _ 1)
      have hat : source.headBefore rest = source.headAt (c.moveTo (b :: rest)).advance.pos :=
        hbehind.held.headBefore
      simp only [if_pos hquote, hat, hbehind.held.atLineEnd, hbehind.held.current,
        Checked.ok_bind]
      by_cases hend : ((c.moveTo (b :: rest)).advance.atLineEnd
          || Byte.isBlank (c.moveTo (b :: rest)).advance.current) = true
      · rw [if_pos hend, if_pos hend]
        exact h.parameter ((Cursor.takes_moveTo hsuffix.choose_spec.symm).trans
          (Cursor.takes_advance _ 1)) hagenda hstack hline
      · rw [if_neg hend, if_neg hend]
        exact hbehind.unexpected _ _
    · simp only [if_neg hquote]
      exact hclose.unexpected _ _

/-! ## Bodies -/

theorem schema (h : Ready source s c m) {directive : LineDirective} (hagenda : s.agenda = [.items])
    (hstack : m.stack = [.lineEnd .schema, .lineStart]) (hline : m.directive = some directive) :
    m.schema.Yields (Answers source (Scan.schemaBody directive.toLine s c)) := by
  simp only [Machine.schema, hline, h.head, Source.pos_headAt, h.held.rest, Checked.ok_bind]
  rw [Scan.schemaBody]
  cases hgrammar : directive.declared.grammar? with
  | none => exact h.fail _ _
  | some grammar =>
    dsimp only
    cases hn : Schema.extent grammar c.rest with
    | error fault => exact h.fail _ _
    | ok n =>
      have hbounds := Schema.extent_bounds hn
      have hstop := h.held.stop
      have hmax := source.length_lt_maxOffset
      dsimp only
      rw [Checked.sum_eq (by omega), Checked.ok_bind, h.held.advanceBy, emit_eq]
      refine .of_eq rfl (h.answer ?_ _ _)
      show Plan (_ ++ s.agenda) m.stack m.directive
      rw [hagenda, hstack]
      exact .lineEnd

theorem text (h : Ready source s c m) (hagenda : s.agenda = [.items])
    (hstack : m.stack = [.lineStart]) :
    m.text.Yields (Answers source (.ok (Scan.textBody s c))) := by
  simp only [Machine.text, h.head, Source.pos_headAt, Source.rounds_headAt, loop_text h.held,
    Checked.ok_bind, emit_eq, h.contexts]
  exact .of_eq rfl (h.answer (plan_items hagenda hstack) _ _)

theorem parenText (h : Ready source s c m) (hagenda : s.agenda = [.items])
    (hstack : m.stack = [.lineStart]) :
    m.parenText.Yields (Answers source (Scan.parenBody s c.eatBlanks)) := by
  obtain ⟨taken, htakes, -⟩ := Scan.takes_parenLines none c.eatBlanks
  simp only [Machine.parenText, h.head, Source.rounds_headAt, loop_paren h.held, Checked.ok_bind]
  rw [Scan.parenBody]
  cases hlines : Scan.parenLines none c.eatBlanks with
  | mk range behind =>
    rw [hlines] at htakes
    have hbehind := h.move (c.takes_eatBlanks.trans htakes)
    dsimp only
    rw [hbehind.held.atEnd]
    cases hr : behind.rest with
    | nil => exact hbehind.unexpected _ _
    | cons b tail =>
      dsimp only
      rw [List.isEmpty_cons, if_neg Bool.false_ne_true]
      have hplan : Plan ([.lineEnd .paren] ++ s.agenda) (.lineEnd .paren :: m.stack)
          m.directive := by
        rw [hagenda, hstack]
        exact .lineEnd
      have hadvance := hbehind.held.advance
      cases range with
      | none =>
        rw [Checked.pure_eq, Checked.ok_bind]
        dsimp only [Machine.move] at hadvance ⊢
        rw [hadvance, Checked.ok_bind]
        exact .of_eq rfl (h.answer_nil hplan _)
      | some range =>
        dsimp only
        rw [emit_eq, Checked.ok_bind]
        dsimp only [Machine.move] at hadvance ⊢
        rw [hadvance, Checked.ok_bind]
        exact .of_eq rfl (h.answer hplan _ _)

/-! ## Comments and the ends of lines -/

theorem blockComment (h : Ready source s c m) (hagenda : s.agenda = [])
    (hstack : m.stack = [.lineEnd .comment, .lineStart]) :
    m.blockComment.Yields (Answers source (Scan.blockComment s c)) := by
  have hinner := h.move (c.takes_advance 2)
  have hstop := hinner.held.stop
  have hmax := source.length_lt_maxOffset
  have hfar := fun n => hinner.move (Cursor.takes_advance _ n)
  simp only [Machine.blockComment, h.head, Source.pos_headAt, h.held.advanceBy, hinner.held.rest,
    Checked.ok_bind, hinner.held.advanceBy]
  rw [Scan.blockComment, afterClose?_eq]
  have hrest : (c.advance 2).rest = c.rest.drop 2 := rfl
  rw [hrest]
  cases hclose : closeIndex? (c.rest.drop 2) with
  | none =>
    -- no content is longer than the greatest offset
    have hend : ((c.advance 2).advance maxOffset).rest = [] :=
      List.drop_eq_nil_of_le (by omega)
    have hat : source.headBefore [] = source.headAt ((c.advance 2).advance maxOffset).pos :=
      hend ▸ (hfar maxOffset).held.headBefore
    dsimp only [Option.map_none]
    rw [← hat]
    exact (h.moveTo List.nil_suffix).unexpected _ _
  | some index =>
    have hle : index ≤ (c.advance 2).rest.length := by
      obtain ⟨hlt, -⟩ := List.findIdx?_eq_some_iff_getElem.mp hclose
      rw [List.length_tails] at hlt
      exact Nat.le_of_lt_succ hlt
    have hsum : min (min index maxOffset + 2) maxOffset = index + 2 := by omega
    have hsame : (c.advance 2).advance (index + 2)
        = c.moveTo ((c.rest.drop 2).drop (index + 2)) := by
      have htakes := (c.takes_advance 2).trans ((c.advance 2).takes_advance (index + 2))
      exact htakes.unique (Cursor.takes_moveTo htakes.rest)
    dsimp only [Option.map_some]
    rw [hsum, hsame, emit_eq]
    refine .of_eq rfl (h.answer ?_ _ _)
    show Plan (_ ++ s.agenda) m.stack m.directive
    rw [hagenda, hstack]
    exact .lineEnd

/-- At the end of a line nothing is in the way. -/
theorem endLine_eq (hheld : source.Holds c) (hhead : m.head = source.headAt c.pos)
    (hend : c.atLineEnd = true) (ending : Scan.Ending) :
    m.endLine ending = .ok (m.move (source.headAt c.eatBreak.pos)) := by
  rw [endLine, hhead, hheld.atEnd, hheld.eatBreak, Checked.ok_bind]
  rcases Cursor.atLineEnd_iff.mp hend with hr | ⟨b, tail, hr, hb⟩
  · rw [hr, List.isEmpty_nil, if_pos rfl, Cursor.eatBreak_of_nil hr, ← hhead]
    rfl
  · rw [hr, List.isEmpty_cons, if_neg Bool.false_ne_true, Cursor.atBreak_of_isBreak hr hb]
    rfl

/-- Inside a line something is. -/
theorem endLine_unexpected (h : Ready source s c m) {b : UInt8} {tail : List UInt8}
    (hr : c.rest = b :: tail) (hb : Byte.isBreak b = false) (ending : Scan.Ending) :
    (m.endLine ending).Yields
      (Answers source (.error (Scan.unexpected c ending.place "end of line"))) := by
  rw [endLine, h.head, h.held.atEnd, h.held.eatBreak, Checked.ok_bind, hr, List.isEmpty_cons,
    if_neg Bool.false_ne_true, Cursor.atBreak_eq_false hr hb]
  exact h.unexpected _ _

theorem lineEnd (h : Ready source s c m) (ending : Scan.Ending) (hagenda : s.agenda = [.items])
    (hstack : m.stack = [.lineStart]) :
    (m.lineEnd ending).Yields (Answers source (Scan.lineEnd ending s c.eatBlanks)) := by
  have hc := h.move c.takes_eatBlanks
  have hplan := plan_items hagenda hstack
  -- a line without a comment is over at a break or at the end of the content
  have hover : c.eatBlanks.atLineEnd = true → c.eatBlanks.current ≠ Byte.hash →
      (m.lineEnd ending).Yields
        (Answers source (.ok ⟨[], s.proceed c.eatBlanks.eatBreak []⟩)) := by
    intro hend hne
    rw [Machine.lineEnd, h.head, h.held.eatBlanks, Checked.ok_bind, hc.held.current,
      Checked.ok_bind, if_neg fun hb => hne hb.1, Checked.pure_eq, Checked.ok_bind]
    exact .of_eq (endLine_eq hc.held rfl hend ending) (h.answer_nil hplan _)
  rw [Scan.lineEnd]
  cases hr : c.eatBlanks.rest with
  | nil =>
    have hzero : c.eatBlanks.current ≠ Byte.hash := by
      rw [Cursor.current, hr]
      decide
    have hyields := hover (Cursor.atLineEnd_iff.mpr (.inl hr)) hzero
    rwa [Cursor.eatBreak_of_nil hr] at hyields
  | cons b tail =>
    dsimp only
    by_cases hhash : b = Byte.hash
    · have hline := hc.held.move (Cursor.takes_eatLine _)
      rw [if_pos hhash, Machine.lineEnd, h.head, h.held.eatBlanks, Checked.ok_bind,
        hc.held.current, Checked.ok_bind, hc.held.atEnd, Cursor.current_eq hr, hr,
        if_pos ⟨hhash, rfl⟩, hc.linePart_eq, Checked.ok_bind]
      refine .of_eq (endLine_eq hline rfl (Cursor.atLineEnd_eatLine _) ending) ?_
      exact ⟨⟨rfl, h.contexts, h.fault, hplan⟩, rfl⟩
    rw [if_neg hhash]
    by_cases hbreak : Byte.isBreak b = true
    · have hne : c.eatBlanks.current ≠ Byte.hash := by rwa [Cursor.current_eq hr]
      rw [if_pos hbreak]
      exact hover (Cursor.atLineEnd_iff.mpr (.inr ⟨b, tail, hr, hbreak⟩)) hne
    · rw [if_neg hbreak, Machine.lineEnd, h.head, h.held.eatBlanks, Checked.ok_bind,
        hc.held.current, Checked.ok_bind, Cursor.current_eq hr, if_neg fun hb => hhash hb.1,
        Checked.pure_eq, Checked.ok_bind]
      exact hc.endLine_unexpected hr (Bool.eq_false_iff.mpr hbreak) ending

end Ready

end Machine

end ApiDoc
