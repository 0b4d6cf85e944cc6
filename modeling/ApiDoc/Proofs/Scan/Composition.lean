import ApiDoc.Proofs.Scan.Coverage
import ApiDoc.Proofs.Scan.Extension

/-!
# Scans put together

The scanner does not know where its document starts: with all offsets moved by
the same distance it does the same (`step_shift`), events and failures moved
alike. Together with `Run.extend` this says how the scan of two documents, one
behind the other, is made of their scans (`scan_append`): the second must start
with a line that opens a directive, the first must end with a line end.
-/

namespace ApiDoc

/-- The event with its span moved by `k`. -/
def Event.shift (k : Nat) (e : Event) : Event :=
  { e with span := e.span.shift k }

theorem Span.shift_point (k offset : Nat) : (point offset).shift k = point (offset + k) := by
  simp [shift, point, isSet]

theorem Span.shift_ofRange (k start stop : Nat) :
    (ofRange start stop).shift k = ofRange (start + k) (stop + k) := by
  by_cases h : start < stop
  · have hset : (⟨start, stop - 1⟩ : Span).isSet = true := decide_eq_true (by dsimp only; omega)
    rw [ofRange_of_lt h, ofRange_of_lt (by omega), shift, if_pos hset, Span.mk.injEq]
    exact ⟨rfl, by dsimp only; omega⟩
  · rw [ofRange, if_neg h, ofRange, if_neg (by omega), shift, isSet_unset,
      if_neg Bool.false_ne_true]

@[simp]
theorem Part.events_shift (part : Part) (k start stop : Nat) :
    part.events (start + k) (stop + k) = (part.events start stop).map (Event.shift k) := by
  simp only [events, List.map_cons, List.map_nil, Event.shift, Span.shift_point,
    Span.shift_ofRange]

/-! ## Cursors -/

/-- The cursor in a document that starts `k` bytes further on. -/
def Cursor.shift (k : Nat) (c : Cursor) : Cursor :=
  ⟨c.pos + k, c.rest⟩

namespace Cursor

variable (k : Nat) (c : Cursor)

@[simp]
theorem shift_rest : (c.shift k).rest = c.rest := rfl

@[simp]
theorem shift_pos : (c.shift k).pos = c.pos + k := rfl

@[simp]
theorem shift_eatWhile (p : UInt8 → Bool) : (c.shift k).eatWhile p = (c.eatWhile p).shift k := by
  simp only [eatWhile, shift, Nat.add_right_comm]

@[simp]
theorem shift_eatBlanks : (c.shift k).eatBlanks = c.eatBlanks.shift k :=
  c.shift_eatWhile k _

@[simp]
theorem shift_eatWhite : (c.shift k).eatWhite = c.eatWhite.shift k :=
  c.shift_eatWhile k _

@[simp]
theorem shift_eatLine : (c.shift k).eatLine = c.eatLine.shift k :=
  c.shift_eatWhile k _

@[simp]
theorem shift_advance (n : Nat) : (c.shift k).advance n = (c.advance n).shift k := by
  simp only [advance, shift, Nat.add_right_comm]

@[simp]
theorem shift_eatBreak : (c.shift k).eatBreak = c.eatBreak.shift k :=
  c.shift_advance k _

@[simp]
theorem shift_moveTo (rest : List UInt8) : (c.shift k).moveTo rest = (c.moveTo rest).shift k := by
  simp only [moveTo, shift, Nat.add_right_comm]

@[simp]
theorem shift_textEnd : (c.shift k).textEnd = c.textEnd + k := by
  simp only [textEnd, line, shift, Nat.add_right_comm]

@[simp]
theorem shift_atLineEnd : (c.shift k).atLineEnd = c.atLineEnd := rfl

@[simp]
theorem shift_atBreak : (c.shift k).atBreak = c.atBreak := rfl

@[simp]
theorem shift_peek : (c.shift k).peek = c.peek := rfl

@[simp]
theorem shift_current : (c.shift k).current = c.current := rfl

end Cursor

namespace Scan

/-! ## States -/

variable {limit : Nat} (k : Nat)

/-- The fault in a document that starts `k` bytes further on. -/
def Fault.shift (f : Fault) : Fault :=
  { f with offset := f.offset + k, pos := f.pos + k }

/-- The state in a document that starts `k` bytes further on. -/
def State.shift (s : State) : State :=
  ⟨s.cursor.shift k, s.agenda, s.contexts.map (· + k)⟩

def Move.shift (m : Move) : Move :=
  ⟨m.events.map (Event.shift k), m.next.shift k⟩

/-- The result of a task in a document that starts `k` bytes further on. -/
def shiftResult : Except Fault Move → Except Fault Move
  | .ok m => .ok (m.shift k)
  | .error fault => .error (fault.shift k)

@[simp]
theorem shift_proceed (s : State) (c : Cursor) (tasks : List Task) :
    (s.shift k).proceed (c.shift k) tasks = (s.proceed c tasks).shift k := rfl

@[simp]
theorem shift_unexpected (c : Cursor) (place expected : String) :
    unexpected (c.shift k) place expected = (unexpected c place expected).shift k := by
  unfold unexpected
  rw [Cursor.shift_rest]
  cases c.rest with
  | nil => rfl
  | cons b tail => rfl

@[simp]
theorem shift_lineEvents (part : Part) (c : Cursor) :
    lineEvents part (c.shift k) = (lineEvents part c).map (Event.shift k) := by
  simp only [lineEvents, Cursor.shift_pos, Cursor.shift_textEnd, Part.events_shift]

@[simp]
theorem shift_endsDirectiveLine (c : Cursor) :
    endsDirectiveLine (c.shift k) = endsDirectiveLine c := rfl

/-! ## Bodies -/

theorem shift_textLines (inContext : Bool) (c : Cursor) (stop : Nat) :
    textLines inContext (c.shift k) (stop + k)
      = ((textLines inContext c stop).1 + k, (textLines inContext c stop).2.shift k) := by
  have hmax : ∀ a b : Nat, max (a + k) (b + k) = max a b + k := by
    intro a b
    omega
  fun_induction textLines inContext c stop with
  | case1 c stop hbreak hends =>
    rw [textLines]
    simp [hbreak, hends, hmax]
  | case2 c stop hbreak hends ih =>
    rw [textLines]
    simp [hbreak, hends, hmax]
    exact ih
  | case3 c stop hbreak =>
    rw [textLines]
    simp [hbreak, hmax]

theorem shift_widen (range : Option (Nat × Nat)) (start stop : Nat) :
    widen (range.map fun (a, b) => (a + k, b + k)) (start + k) (stop + k)
      = (widen range start stop).map fun (a, b) => (a + k, b + k) := by
  unfold widen
  by_cases h : start < stop
  · rw [if_pos (by omega), if_pos h]
    cases range with
    | none => rfl
    | some range => rfl
  · rw [if_neg (by omega), if_neg h]

theorem shift_parenLines (range : Option (Nat × Nat)) (c : Cursor) :
    parenLines (range.map fun (a, b) => (a + k, b + k)) (c.shift k)
      = ((parenLines range c).1.map fun (a, b) => (a + k, b + k),
          (parenLines range c).2.shift k) := by
  fun_induction parenLines range c with
  | case1 range c hnil =>
    rw [parenLines.eq_def]
    split
    · rfl
    · rename_i hr
      rw [Cursor.shift_rest, hnil] at hr
      cases hr
  | case2 range c tail hr =>
    rw [parenLines_cons (c := c.shift k) hr, if_pos rfl]
  | case3 range c b tail hr hb ih =>
    rw [parenLines_cons (c := c.shift k) hr, if_neg hb, Cursor.shift_textEnd, Cursor.shift_pos,
      shift_widen, Cursor.shift_eatLine, Cursor.shift_eatBreak, Cursor.shift_eatBlanks]
    exact ih

/-- A fault in a schema lies in the document. -/
theorem shift_offsetFrom {grammar : Grammar} {bytes : List UInt8} {fault : Schema.Fault}
    (h : Schema.extent grammar bytes = .error fault) {start : Nat}
    (hfits : start + bytes.length + k ≤ maxOffset) :
    fault.offsetFrom (start + k) = fault.offsetFrom start + k := by
  have hoffset : fault.offset ≤ bytes.length := by
    unfold Schema.extent at h
    split at h
    · cases h
    · cases h
      exact Nat.le_trans (Nat.min_le_left _ _) (Nat.sub_le _ _)
  -- so neither offset is cut off
  rw [Schema.Fault.offsetFrom, Schema.Fault.offsetFrom, Nat.min_eq_left (by omega),
    Nat.min_eq_left (by omega)]
  omega

/-! ## Tasks -/

theorem shift_schemaBody (line : Line) (s : State) (c : Cursor)
    (hfits : c.pos + c.rest.length + k ≤ maxOffset) :
    schemaBody line (s.shift k) (c.shift k) = shiftResult k (schemaBody line s c) := by
  unfold schemaBody
  cases line.declared.grammar? with
  | none => rfl
  | some grammar =>
    dsimp only [Cursor.shift_rest]
    cases hn : Schema.extent grammar c.rest with
    | ok n =>
      have hend : c.pos + k + n = c.pos + n + k := Nat.add_right_comm _ _ _
      simp [shiftResult, Move.shift, hend]
    | error fault =>
      simp [shiftResult, Fault.shift, shift_offsetFrom k hn hfits]

theorem shift_body (line : Line) (s : State)
    (hfits : s.cursor.pos + s.cursor.rest.length + k ≤ maxOffset) :
    body line (s.shift k) = shiftResult k (body line s) := by
  have hcursor : (s.shift k).cursor = s.cursor.shift k := rfl
  have hempty : (s.shift k).contexts.isEmpty = s.contexts.isEmpty := List.isEmpty_map
  have hwhite : s.cursor.eatWhite.pos + s.cursor.eatWhite.rest.length + k ≤ maxOffset := by
    rw [s.cursor.takes_eatWhite.stop]
    exact hfits
  unfold body
  by_cases hopen : line.opened = true
  · rw [if_pos hopen, if_pos hopen]
    by_cases htext : line.kind.hasTextBody = true
    · rw [if_pos htext, if_pos htext, hcursor, Cursor.shift_eatBlanks]
      have hlines := shift_parenLines k none s.cursor.eatBlanks
      unfold parenBody
      rw [Option.map_none] at hlines
      rw [hlines]
      generalize parenLines none s.cursor.eatBlanks = lines
      obtain ⟨range, behind⟩ := lines
      dsimp only [Cursor.shift_rest]
      cases behind.rest with
      | nil => simp [shiftResult]
      | cons b tail =>
        cases range with
        | none => simp [shiftResult, Move.shift]
        | some range => simp [shiftResult, Move.shift]
    · rw [if_neg htext, if_neg htext]
      rfl
  · rw [if_neg hopen, if_neg hopen]
    split
    · rfl
    · rw [hcursor, Cursor.shift_eatWhite, Cursor.shift_rest]
      split
      · rfl
      · exact shift_schemaBody k line s _ hwhite
    · rw [hcursor, Cursor.shift_eatWhite, Cursor.shift_rest, hempty]
      split
      · rfl
      · have hlines := shift_textLines k (! s.contexts.isEmpty) s.cursor.eatWhite
          s.cursor.eatWhite.pos
        simp only [textBody, hempty, Cursor.shift_pos, hlines, shiftResult, Move.shift,
          Part.events_shift, shift_proceed]

theorem shift_lineEnd (ending : Ending) (s : State) (c : Cursor) :
    lineEnd ending (s.shift k) (c.shift k) = shiftResult k (lineEnd ending s c) := by
  unfold lineEnd
  rw [Cursor.shift_rest]
  cases c.rest with
  | nil => rfl
  | cons b tail =>
    dsimp only
    split
    · simp [shiftResult, Move.shift]
    · split
      · simp [shiftResult, Move.shift]
      · simp [shiftResult]

theorem shift_closeContext (s : State) (c : Cursor) (hctx : ∀ p ∈ s.contexts, p ≤ c.pos) :
    closeContext (s.shift k) (c.shift k) = shiftResult k (closeContext s c) := by
  unfold closeContext
  cases hs : s.contexts with
  | nil => simp [State.shift, hs, shiftResult]
  | cons start outer =>
    -- only a set span is shifted
    have hset : (⟨start, c.pos⟩ : Span).isSet = true :=
      decide_eq_true (hctx start (hs ▸ List.mem_cons_self))
    simp [State.shift, State.proceed, hs, shiftResult, Move.shift, Event.shift, Span.shift, hset]

theorem shift_items (s : State) (c : Cursor) (hctx : ∀ p ∈ s.contexts, p ≤ c.pos) :
    items (s.shift k) (c.shift k) = shiftResult k (items s c) := by
  unfold items
  rw [Cursor.shift_rest]
  cases hr : c.rest with
  | nil =>
    cases hs : s.contexts with
    | nil => simp [State.shift, hs, shiftResult, Move.shift, State.proceed]
    | cons start outer => simp [State.shift, hs, shiftResult]
  | cons b tail =>
    dsimp only
    split
    · simp [shiftResult, Move.shift]
    · split
      · simp [shiftResult, Move.shift]
      · rw [Cursor.shift_peek]
        split
        · unfold blockComment
          rw [Cursor.shift_rest]
          cases Comment.afterClose? (c.rest.drop 2) with
          | none => simp [shiftResult]
          | some rest => simp [shiftResult, Move.shift]
        · split
          · exact shift_closeContext k s c hctx
          · unfold keyword
            rw [Cursor.shift_rest]
            cases Keyword.recognise c.rest with
            | found kind rest => simp [shiftResult, Move.shift]
            | stuck progress rest => simp [shiftResult, keywordPlace]

theorem shift_parameter (line : Line) (s : State) (c behind : Cursor) :
    parameter line (s.shift k) (c.shift k) (behind.shift k)
      = (parameter line s c behind).shift k := by
  have hlen : behind.pos + k - (c.pos + k) = behind.pos - c.pos := Nat.add_sub_add_right _ _ _
  simp [parameter, Move.shift, hlen]

theorem shift_openParen (line : Line) (s : State) (c : Cursor) :
    openParen limit line (s.shift k) (c.shift k) = shiftResult k (openParen limit line s c) := by
  unfold openParen
  simp only [Cursor.shift_advance, Cursor.shift_eatBlanks, shift_endsDirectiveLine]
  split
  · split
    · rfl
    · have hlen : (s.shift k).contexts.length = s.contexts.length := List.length_map _
      rw [hlen]
      split
      · rfl
      · simp [shiftResult, Move.shift, Event.shift, Span.shift_point, State.shift, State.proceed]
  · simp [shiftResult]

theorem shift_quotedParameter (line : Line) (s : State) (c : Cursor) :
    quotedParameter line (s.shift k) (c.shift k) = shiftResult k (quotedParameter line s c) := by
  unfold quotedParameter
  simp only [Cursor.shift_rest, Cursor.shift_moveTo, Cursor.shift_current, Cursor.shift_advance,
    Cursor.shift_atLineEnd]
  split
  · split
    · simp [shiftResult, shift_parameter]
    · simp [shiftResult]
  · simp [shiftResult]

theorem shift_tail (line : Line) (s : State) (c : Cursor)
    (hfits : c.pos + c.rest.length + k ≤ maxOffset) :
    tail limit line (s.shift k) (c.shift k) = shiftResult k (tail limit line s c) := by
  unfold tail
  rw [Cursor.shift_rest]
  cases c.rest with
  | nil => rfl
  | cons b rest =>
    dsimp only
    rw [Cursor.shift_peek]
    split
    · simp [shiftResult, Move.shift]
    · split
      · simp [shiftResult, Move.shift]
      · split
        · simp [shiftResult, Move.shift]
        · split
          · simp [shiftResult]
          · split
            · exact shift_openParen k line s c
            · split
              · exact shift_schemaBody k line s c hfits
              · split
                · exact shift_quotedParameter k line s c
                · simp [bareParameter, shift_parameter, shiftResult]

/-! ## Scans -/

/-- The document is not too long to start `k` bytes further on. -/
structure Fits (s : State) : Prop where
  contexts : ∀ p ∈ s.contexts, p < s.cursor.pos
  length : s.cursor.pos + s.cursor.rest.length + k ≤ maxOffset

variable {k} {s : State} {task : Task} {m : Move}

theorem Performs.fits (h : Performs limit s task m) (hs : Fits k s) : Fits k m.next := by
  obtain ⟨parens, htiles, -⟩ := h.tiles
  refine ⟨(h.gives.bounds htiles hs.contexts).2, ?_⟩
  obtain ⟨taken, htakes, -⟩ := htiles
  rw [htakes.stop]
  exact hs.length

theorem shift_perform (hs : Fits k s) (task : Task) :
    perform limit (s.shift k) task = shiftResult k (perform limit s task) := by
  have hpos := s.cursor.takes_eatBlanks.pos
  have hstop := s.cursor.takes_eatBlanks.stop
  have hfits := hs.length
  have hblanks : (s.shift k).cursor.eatBlanks = s.cursor.eatBlanks.shift k :=
    s.cursor.shift_eatBlanks k
  cases task with
  | items =>
    rw [perform, perform, hblanks]
    refine shift_items k s s.cursor.eatBlanks ?_
    intro p hp
    have := hs.contexts p hp
    omega
  | tail line =>
    rw [perform, perform, hblanks]
    exact shift_tail k line s s.cursor.eatBlanks (by omega)
  | body line => exact shift_body k line s hfits
  | lineEnd ending =>
    rw [perform, perform, hblanks]
    exact shift_lineEnd k ending s s.cursor.eatBlanks

/-- A step in a document that starts `k` bytes further on. -/
theorem step_shift (hs : Fits k s) :
    step limit (s.shift k) = match step limit s with
      | .finished => .finished
      | .failed fault => .failed (fault.shift k)
      | .moved m => .moved (m.shift k) := by
  unfold step
  rw [show (s.shift k).agenda = s.agenda from rfl]
  cases ha : s.agenda with
  | nil => rfl
  | cons task later =>
    have hfits : Fits k (s.drop later) := ⟨hs.contexts, hs.length⟩
    have hperform : perform limit ((s.drop later).shift k) task
        = shiftResult k (perform limit (s.drop later) task) := shift_perform hfits task
    dsimp only
    rw [show ({ s.shift k with agenda := later } : State) = (s.drop later).shift k from rfl,
      hperform]
    cases perform limit (s.drop later) task with
    | ok m => rfl
    | error fault => rfl

/-- A scan in a document that starts `k` bytes further on. -/
theorem outcome_shift (hs : Fits k s) :
    (s.shift k).outcome limit = match s.outcome limit with
      | .ok events => .ok (events.map (Event.shift k))
      | .error fault => .error (fault.shift k) := by
  -- every step leaves less work
  induction hw : s.work using Nat.strong_induction_on generalizing s with
  | _ work ih =>
    cases hs' : step limit s with
    | finished =>
      have hstep : step limit (s.shift k) = .finished := by rw [step_shift hs, hs']
      rw [State.outcome_finished hstep, State.outcome_finished hs']
      rfl
    | failed fault =>
      have hstep : step limit (s.shift k) = .failed (fault.shift k) := by rw [step_shift hs, hs']
      rw [State.outcome_failed hstep, State.outcome_failed hs']
    | moved m =>
      have hstep : step limit (s.shift k) = .moved (m.shift k) := by rw [step_shift hs, hs']
      obtain ⟨task, later, ha, hperf⟩ := step_eq_moved_iff.mp hs'
      have hnext : Fits k m.next := hperf.fits ⟨hs.contexts, hs.length⟩
      rw [State.outcome_moved hstep, State.outcome_moved hs']
      have hrest := ih _ (hw ▸ work_step hs') hnext rfl
      show Except.map _ ((m.next.shift k).outcome limit) = _
      rw [hrest]
      cases m.next.outcome limit with
      | ok events => exact congrArg Except.ok List.map_append.symm
      | error fault => rfl

end Scan

/-! ## Two documents -/

/-- The scan of a document that goes on comes to what is added. -/
theorem Source.run_extend {limit : Nat} {a : Source} {events : List Event} {more : List UInt8}
    (hends : a.bytes = [] ∨ endsLine a.bytes = true) (ha : a.scan limit = .ok events)
    (hmore : Continues more) (htexts : Opens more ∨ Scan.EndsTexts limit (.start a.bytes)) :
    Scan.Run limit (.start (a.bytes ++ more)) events ⟨⟨a.length, more⟩, [.items], []⟩ := by
  obtain ⟨t, hrun, hdone⟩ := Source.scan_eq_ok_iff.mp ha
  have hready : Scan.Ready (.start a.bytes) := by
    rcases hends with hnil | hends
    · refine .inr ⟨hnil, ?_⟩
      intro task htask
      cases htask
      rfl
    · exact .inl hends
  have hfront := hrun.extend hmore hdone (List.cons_ne_nil _ _) .items hready htexts
  rw [Source.run_end hrun hdone] at hfront
  exact hfront

/-- A scan that comes to what is left of its document goes on as the scan of
that would. -/
theorem Scan.scan_of_run {limit k : Nat} {whole : Source} {events : List Event}
    {rest : List UInt8}
    (h : Run limit (.start whole.bytes) events ⟨⟨k, rest⟩, [.items], []⟩) :
    scan limit whole.bytes = match scan limit rest with
      | .ok more => .ok (events ++ more.map (Event.shift k))
      | .error fault => .error (fault.shift k) := by
  obtain ⟨parens, ⟨taken, htakes, -⟩, -⟩ := (h.accounted (accounted_start whole)).tiled
  have hfits : Fits k (State.start rest) := by
    refine ⟨by simp [State.start], ?_⟩
    have hstop : k + rest.length = 0 + whole.bytes.length := htakes.stop
    have hlen := whole.fits
    rw [maxLength] at hlen
    show 0 + rest.length + k ≤ maxOffset
    omega
  have hback : (⟨⟨k, rest⟩, [.items], []⟩ : State) = (State.start rest).shift k := by
    simp [State.shift, State.start, Cursor.shift]
  rw [scan_eq_outcome, h.outcome_eq, hback, outcome_shift hfits, scan_eq_outcome]
  cases (State.start rest).outcome limit with
  | ok more => rfl
  | error fault => rfl

/-- The scan of a document that goes on is the scan of its first part and then
that of the second, moved behind the first. -/
theorem Scan.scan_append_eq {limit : Nat} {a b whole : Source} {events : List Event}
    (hwhole : whole.bytes = a.bytes ++ b.bytes)
    (hends : a.bytes = [] ∨ endsLine a.bytes = true) (ha : a.scan limit = .ok events)
    (hopens : Opens b.bytes) :
    scan limit whole.bytes = match scan limit b.bytes with
      | .ok more => .ok (events ++ more.map (Event.shift a.length))
      | .error fault => .error (fault.shift a.length) := by
  have hrun := Source.run_extend hends ha hopens.continues (.inl hopens)
  rw [← hwhole] at hrun
  exact scan_of_run hrun

/-- A document of two parts is scanned as its parts are, if the first ends with
a line end and the second starts with a line that opens a directive. -/
theorem scan_append {limit : Nat} {a b whole : Source} {events : List Event}
    (hwhole : whole.bytes = a.bytes ++ b.bytes)
    (hends : a.bytes = [] ∨ endsLine a.bytes = true) (ha : a.scan limit = .ok events)
    {blanks line : List UInt8} (hb : b.bytes = blanks ++ line)
    (hblanks : ∀ x ∈ blanks, Byte.isBlank x = true)
    (hopens : Keyword.opensDirective line = true) :
    (∀ more, b.scan limit = .ok more →
      whole.scan limit = .ok (events ++ more.map (Event.shift a.length))) ∧
    ∀ d, b.scan limit = .error d → ∃ d', whole.scan limit = .error d' ∧ d'.code = d.code ∧
      d'.message = d.message ∧ d'.span? = d.span?.map (Span.shift a.length) := by
  have hscan := Scan.scan_append_eq hwhole hends ha ⟨blanks, line, hb, hblanks, hopens⟩
  unfold Source.scan
  rw [hscan]
  cases Scan.scan limit b.bytes with
  | ok events' =>
    refine ⟨?_, ?_⟩
    · intro more hmore
      cases hmore
      rfl
    · intro d hd
      cases hd
  | error fault =>
    refine ⟨?_, ?_⟩
    · intro more hmore
      cases hmore
    · intro d hd
      cases hd
      refine ⟨_, rfl, rfl, rfl, ?_⟩
      exact congrArg some (Span.shift_point a.length fault.offset).symm

/-- A directive with a schema, and an indented directive behind it. -/
theorem scan_append_indented :
    let a : Source := ⟨"", Utf8.bytes "Body\n[1]\n", by decide⟩
    let b : Source := ⟨"", Utf8.bytes " GET", by decide⟩
    let whole : Source := ⟨"", Utf8.bytes "Body\n[1]\n GET", by decide⟩
    let events := Part.keyword.events 0 4 ++ Part.schema.events 5 8
    a.scan 0 = .ok events ∧ b.scan 0 = .ok (Part.keyword.events 1 4) ∧
      whole.scan 0 = .ok (events ++ (Part.keyword.events 1 4).map (Event.shift 9)) := by
  have ha : (⟨"", Utf8.bytes "Body\n[1]\n", by decide⟩ : Source).scan 0
      = .ok (Part.keyword.events 0 4 ++ Part.schema.events 5 8) := by
    decide +kernel
  have hb : (⟨"", Utf8.bytes " GET", by decide⟩ : Source).scan 0
      = .ok (Part.keyword.events 1 4) := by
    decide +kernel
  refine ⟨ha, hb, ?_⟩
  have hblanks : ∀ x ∈ [Byte.space], Byte.isBlank x = true := by
    intro x hx
    rw [List.mem_singleton.mp hx]
    rfl
  have hopens : Keyword.opensDirective (Utf8.bytes "GET") = true := by decide
  exact (scan_append (by decide) (.inr (by decide)) ha (by decide) hblanks hopens).1 _ hb

end ApiDoc
