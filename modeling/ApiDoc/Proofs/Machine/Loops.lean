import ApiDoc.Proofs.Machine.Program
import ApiDoc.Proofs.Scan.Failure

/-!
# Loops of the machine

The scanner reads keywords, quoted parameters and text by recursion on what is
left of the document, the machine by loops over a head. Where a cursor stands in
the source, a loop meets every demand, ends within its rounds, and ends where
the recursion does.

* **Keywords** (`loop_keyword`) and **quotes** (`loop_quoted`) end before what
  the scanner leaves.
* **Text** (`loop_text`, `loop_paren`) ends with the offsets and the cursor that
  the scanner returns.
-/

namespace ApiDoc

open Checked (loop)

/-! ## What is left at the end of a move -/

/-- The head with nothing but `rest` before it. -/
def Source.headBefore (source : Source) (rest : List UInt8) : Head :=
  source.headAt (source.length - rest.length)

namespace Source.Holds

variable {source : Source} {c : Cursor}

theorem headBefore (h : source.Holds c) : source.headBefore c.rest = source.headAt c.pos := by
  have := h.stop
  rw [Source.headBefore]
  congr 1
  omega

theorem moveTo (h : source.Holds c) {rest : List UInt8} (hsuffix : rest <:+ c.rest) :
    source.Holds (c.moveTo rest) := by
  obtain ⟨taken, htaken⟩ := hsuffix
  exact h.move (Cursor.takes_moveTo htaken.symm)

end Source.Holds

/-- The recogniser has read what is no longer left. -/
theorem Keyword.Progress.depth_feed? {p next : Progress} {b : UInt8} (h : p.feed? b = some next) :
    next.depth = p.depth + 1 := by
  cases p with
  | letters lo hi depth =>
    simp only [feed?] at h
    split at h
    · rename_i hlead
      cases h
      show 1 = depth + 1
      rw [hlead.1]
    · split at h
      · cases h
      · cases h
        rfl
  | digits count =>
    simp only [feed?] at h
    split at h
    · cases h
      rfl
    · cases h

theorem Keyword.Progress.depth_of_run_stuck {p q : Progress} {bytes rest : List UInt8}
    (h : p.run bytes = .stuck q rest) :
    ∃ read, bytes = read ++ rest ∧ q.depth = p.depth + read.length := by
  have hfinish : ∀ {p : Progress} {bytes}, p.finish bytes = .stuck q rest →
      ∃ read, bytes = read ++ rest ∧ q.depth = p.depth + read.length := by
    intro p bytes h
    unfold Progress.finish at h
    split at h
    · cases h
    · cases h
      exact ⟨[], rfl, rfl⟩
  induction bytes generalizing p with
  | nil => exact hfinish h
  | cons b tail ih =>
    unfold Progress.run at h
    split at h
    · exact hfinish h
    · split at h
      · rename_i next hfeed
        obtain ⟨read, hread, hdepth⟩ := ih h
        refine ⟨b :: read, by rw [hread, List.cons_append], ?_⟩
        rw [hdepth, depth_feed? hfeed, List.length_cons]
        omega
      · cases h
        exact ⟨[], rfl, rfl⟩

theorem Scan.parenLines_nil {range : Option (Nat × Nat)} {c : Cursor} (hr : c.rest = []) :
    parenLines range c = (range, c) := by
  rw [parenLines.eq_def]
  split
  · rfl
  · rename_i heq
    rw [hr] at heq
    cases heq

namespace Machine

variable {source : Source} {c : Cursor} {m : Machine}

/-! ## Loops -/

/-- Where the recogniser stops, as the machine puts it. -/
def keywordStop (source : Source) : Keyword.Outcome → Except Keyword.Progress Kind × Head
  | .found kind rest => (.ok kind, source.headBefore rest)
  | .stuck progress rest => (.error progress, source.headBefore rest)

theorem loop_keyword (h : source.Holds c) (p : Keyword.Progress) :
    loop keywordRound (source.length + 1) (p, source.headAt c.pos) =
      .ok (keywordStop source (p.run c.rest)) := by
  refine Source.Holds.loop_eq (fun g : Keyword.Progress × Cursor => g.2)
    (fun g => (g.1, source.headAt g.2.pos)) (fun g => keywordStop source (g.1.run g.2.rest)) ?_
    (g := (p, c)) h
  rintro ⟨p, c⟩ h
  have hstop : keywordStop source (p.finish c.rest) =
      (p.complete?.elim (.error p) .ok, source.headAt c.pos) := by
    rw [Keyword.Progress.finish]
    cases p.complete? <;> rw [keywordStop, h.headBefore] <;> rfl
  simp only [keywordRound, h.current, Checked.ok_bind, Checked.pure_eq, h.advance]
  cases hr : c.rest with
  | nil =>
    left
    -- the padding is a boundary, so the loop needs no test for the end
    have hzero : Keyword.isBoundary c.current = true := by rw [Cursor.current, hr]; rfl
    rw [if_pos hzero, Keyword.Progress.run, ← hr, hstop]
    cases p.complete? <;> rfl
  | cons b tail =>
    rw [Cursor.current_eq hr, Keyword.Progress.run]
    by_cases hend : Keyword.isBoundary b = true
    · left
      rw [if_pos hend, if_pos hend, ← hr, hstop]
      cases p.complete? <;> rfl
    · rw [if_neg hend, if_neg hend]
      cases hfeed : p.feed? b with
      | none =>
        left
        simp only [keywordStop, ← hr, h.headBefore]
      | some next =>
        have htakes := Cursor.takes_advance_one hr
        have hrest := Cursor.rest_advance hr
        refine .inr ⟨(next, c.advance), rfl, h.move htakes, ?_, ?_⟩
        · rw [hrest]
          exact Nat.lt_succ_self _
        · rw [hrest]

/-- A backslash at the end of the line takes away nothing. -/
theorem quotedRest_atLineEnd (h : c.atLineEnd = true) :
    Scan.quotedRest true c.rest = Scan.quotedRest false c.rest := by
  rw [Cursor.atLineEnd] at h
  cases hr : c.rest with
  | nil => rfl
  | cons b tail =>
    rw [hr] at h
    have hb : Byte.isBreak b = true := h
    rw [Scan.quotedRest, if_pos hb, Scan.quotedRest, if_pos hb]

theorem quotedRest_escaped (h : c.atLineEnd = false) :
    Scan.quotedRest true c.rest = Scan.quotedRest false c.advance.rest ∧
      c.advance.rest.length < c.rest.length := by
  rw [Cursor.atLineEnd] at h
  cases hr : c.rest with
  | nil =>
    rw [hr] at h
    cases h
  | cons b tail =>
    rw [hr] at h
    have hb : Byte.isBreak b = false := h
    rw [Scan.quotedRest, if_neg (Bool.eq_false_iff.mp hb), if_pos rfl, Cursor.rest_advance hr]
    exact ⟨rfl, Nat.lt_succ_self _⟩

/-- Where a parameter in quotes ends that goes on with `bytes`. -/
def quotedStop (source : Source) (bytes : List UInt8) : Option String × Head :=
  match Scan.quotedRest false bytes with
  | [] => (some "", source.headBefore [])
  | b :: rest =>
    if b = Byte.quote then (none, source.headBefore rest)
    else (some "in quoted parameter", source.headBefore (b :: rest))

theorem loop_quoted (h : source.Holds c) :
    loop quotedRound (source.length + 1) (source.headAt c.pos) =
      .ok (quotedStop source c.rest) := by
  refine Source.Holds.loop_eq (fun c => c) (fun c => source.headAt c.pos)
    (fun c => quotedStop source c.rest) ?_ h
  intro c h
  simp only [quotedRound, h.current, h.atEnd, h.advance, Checked.ok_bind, Checked.pure_eq]
  cases hr : c.rest with
  | nil =>
    left
    rw [List.isEmpty_nil, if_pos rfl, quotedStop, ← h.headBefore, hr]
    rfl
  | cons b tail =>
    have hnext := h.move (Cursor.takes_advance_one hr)
    have hrest := Cursor.rest_advance hr
    have hlt : c.advance.rest.length < (b :: tail).length := hrest ▸ Nat.lt_succ_self _
    rw [List.isEmpty_cons, if_neg Bool.false_ne_true, Cursor.current_eq hr, hnext.atLineEnd,
      Checked.ok_bind, hnext.advance, Checked.ok_bind]
    by_cases hbreak : Byte.isBreak b = true
    · left
      have hquote : b ≠ Byte.quote := by
        rintro rfl
        cases hbreak
      rw [if_pos hbreak, quotedStop, Scan.quotedRest, if_pos hbreak]
      simp only [if_neg hquote, ← hr, h.headBefore]
    · rw [if_neg hbreak, quotedStop, Scan.quotedRest, if_neg hbreak, if_neg Bool.false_ne_true]
      by_cases hslash : b = Byte.backslash
      · right
        rw [if_pos hslash, if_pos hslash, ← hrest]
        cases hend : c.advance.atLineEnd with
        | true =>
          rw [quotedRest_atLineEnd hend]
          exact ⟨c.advance, rfl, hnext, hrest ▸ hlt, rfl⟩
        | false =>
          obtain ⟨hpast, hshort⟩ := quotedRest_escaped hend
          rw [hpast]
          refine ⟨c.advance.advance, rfl, hnext.move (Cursor.takes_advance _ 1), ?_, rfl⟩
          rw [hrest] at hshort ⊢
          exact Nat.lt_succ_of_lt hshort
      · rw [if_neg hslash, if_neg hslash]
        by_cases hquote : b = Byte.quote
        · left
          rw [if_pos hquote, if_pos hquote, ← hrest]
          simp only [if_pos hquote, hnext.headBefore]
        · right
          rw [if_neg hquote, if_neg hquote]
          exact ⟨c.advance, rfl, hnext, hlt, by rw [quotedStop, hrest]⟩

theorem endsText_eq (h : source.Holds c) :
    m.endsText (source.headAt c.pos) = .ok (Scan.endsText (! m.contexts.isEmpty) c.rest) := by
  simp only [endsText, h.atEnd, h.rest, h.current, Checked.ok_bind, Checked.pure_eq]
  cases hr : c.rest with
  | nil => rfl
  | cons b tail =>
    rw [List.isEmpty_cons, if_neg Bool.false_ne_true, Cursor.current_eq hr, Scan.endsText]
    cases Keyword.opensDirective (b :: tail) with
    | true => rfl
    | false => cases m.contexts.isEmpty <;> rfl

theorem startsItem_eq (h : source.Holds c) :
    startsItem (source.headAt c.pos) = .ok (Scan.opensItem c.rest) := by
  simp only [startsItem, h.atEnd, h.rest, Checked.ok_bind, Checked.pure_eq, Except.ok.injEq]
  cases c.rest with
  | nil => rfl
  | cons b tail =>
    rw [List.isEmpty_cons, Bool.false_or, List.head?_cons, Option.any_some, Scan.opensItem]
    simp only [Bool.or_assoc]

theorem loop_text (h : source.Holds c) (stop : Nat) :
    loop m.textRound (source.length + 1) (stop, source.headAt c.pos) =
      .ok ((Scan.textLines (! m.contexts.isEmpty) c stop).1,
        source.headAt (Scan.textLines (! m.contexts.isEmpty) c stop).2.pos) := by
  refine Source.Holds.loop_eq (fun g : Nat × Cursor => g.2)
    (fun g => (g.1, source.headAt g.2.pos))
    (fun g => ((Scan.textLines (! m.contexts.isEmpty) g.2 g.1).1,
      source.headAt (Scan.textLines (! m.contexts.isEmpty) g.2 g.1).2.pos)) ?_ (g := (stop, c)) h
  rintro ⟨stop, c⟩ h
  have hline := h.move c.takes_eatLine
  have hbehind := hline.move (Cursor.takes_eatBreak _)
  simp only [textRound, Source.pos_headAt, h.eatLine, h.trimmedEnd, hline.eatBreak,
    Checked.ok_bind, Checked.pure_eq]
  rw [Scan.textLines]
  by_cases hbreak : c.eatLine.atBreak = true
  · rw [if_pos hbreak, if_pos hbreak, hbehind.nextContent, Checked.ok_bind,
      endsText_eq (hbehind.move (Cursor.takes_eatWhite _)), Checked.ok_bind, hbehind.eatBlanks,
      Checked.ok_bind]
    by_cases hends : Scan.endsText (! m.contexts.isEmpty) c.eatLine.eatBreak.eatWhite.rest = true
    · exact .inl (by rw [if_pos hends, if_pos hends])
    · rw [if_neg hends, if_neg hends]
      refine .inr ⟨(_, c.eatLine.eatBreak.eatBlanks), rfl,
        hbehind.move (Cursor.takes_eatBlanks _), ?_, rfl⟩
      -- the break that ended the line is gone
      have hlt := Cursor.length_eatBreak_lt hbreak
      have hle := c.eatLine.eatBreak.length_eatBlanks_le
      have hle' := c.length_eatLine_le
      exact Nat.lt_of_le_of_lt hle (Nat.lt_of_lt_of_le hlt hle')
  · left
    rw [if_neg hbreak, if_neg hbreak,
      Cursor.eatBreak_of_not_atBreak (Bool.eq_false_iff.mpr hbreak)]

theorem loop_paren (h : source.Holds c) (range : Option (Nat × Nat)) :
    loop parenRound (source.length + 1) (range, source.headAt c.pos) =
      .ok ((Scan.parenLines range c.eatBlanks).1,
        source.headAt (Scan.parenLines range c.eatBlanks).2.pos) := by
  refine Source.Holds.loop_eq (fun g : Option (Nat × Nat) × Cursor => g.2)
    (fun g => (g.1, source.headAt g.2.pos))
    (fun g => ((Scan.parenLines g.1 g.2.eatBlanks).1,
      source.headAt (Scan.parenLines g.1 g.2.eatBlanks).2.pos)) ?_ (g := (range, c)) h
  rintro ⟨range, c⟩ h
  have hc := h.move c.takes_eatBlanks
  have hline := hc.move (Cursor.takes_eatLine _)
  have hbehind := hline.move (Cursor.takes_eatBreak _)
  simp only [parenRound, h.eatBlanks, Source.pos_headAt, hc.atEnd, hc.current, hc.eatLine,
    hc.trimmedEnd, hline.eatBreak, Checked.ok_bind, Checked.pure_eq]
  cases hr : c.eatBlanks.rest with
  | nil =>
    left
    rw [List.isEmpty_nil, if_pos rfl, Scan.parenLines_nil hr]
  | cons b tail =>
    rw [List.isEmpty_cons, if_neg Bool.false_ne_true, Cursor.current_eq hr,
      Scan.parenLines_cons hr]
    by_cases hclose : b = Byte.closeParen
    · exact .inl (by rw [if_pos hclose, if_pos hclose])
    · rw [if_neg hclose, if_neg hclose]
      refine .inr ⟨(_, c.eatBlanks.eatLine.eatBreak), rfl, hbehind, ?_, rfl⟩
      have hne : c.eatBlanks.rest ≠ [] := hr ▸ List.cons_ne_nil b tail
      exact Nat.lt_of_lt_of_le (Cursor.length_eatLine_eatBreak_lt hne) c.length_eatBlanks_le

end Machine

end ApiDoc
