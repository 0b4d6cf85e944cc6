import ApiDoc.Proofs.Scan.Coverage
import ApiDoc.Proofs.Scan.Failure
import ApiDoc.Scan.Reader

/-!
# Readers come to an end

A reader gives the events of the scan, then its fault if it has one, and then
nothing for ever.

* **Transcripts** (`next_eq`): what a reader has still to give is a transcript,
  and a call takes the front of it. So the answers to all calls are known from
  the transcript of the scan (`answer_eq`).
* **Progress** (`Performs.length_events`): a lexeme has at least one byte and at
  most two events, so there are at most twice as many events as bytes.
* **Places** (`takes_next`): a call moves the cursor forward over bytes of the
  document.
* **Ends** (`transcript_pos`): a scan that does not fail stops behind the last
  byte.
-/

namespace ApiDoc

theorem Tiling.length_le {p : Nat} {bytes : List UInt8} {spans : List Span} {parens : List Nat}
    (h : Tiling p bytes spans parens) : spans.length ≤ bytes.length := by
  induction h with
  | nil => exact Nat.le_refl 0
  | white _ _ ih => exact Nat.le_succ_of_le ih
  | lexeme hw _ ih =>
    have hpos := List.length_pos_iff.mpr hw
    simp only [List.length_cons, List.length_append]
    omega
  | paren _ ih => exact Nat.le_succ_of_le ih

namespace Scan

/-! ## Transcripts from the front -/

namespace Transcript

/-- What comes first. -/
def head? (t : Transcript) : Option (Except Fault Event) :=
  match t.events with
  | (e, _) :: _ => some (.ok e)
  | [] => t.fault?.map .error

/-- The offset at which it comes. -/
def headPos (t : Transcript) : Nat :=
  match t.events with
  | (_, p) :: _ => p
  | [] => t.pos

/-- What comes behind it. -/
def tail (t : Transcript) : Transcript :=
  match t.events with
  | _ :: more => { t with events := more }
  | [] => { t with fault? := none }

variable {t : Transcript} {n : Nat}

theorem pos_tail (t : Transcript) : t.tail.pos = t.pos := by
  unfold tail
  split <;> rfl

theorem events_tail (t : Transcript) : t.tail.events = t.events.tail := by
  unfold tail
  split <;> rename_i h <;> rw [h] <;> rfl

/-- Only what comes last may be a fault. -/
theorem fault?_tail (t : Transcript) :
    t.tail.fault? = if t.events = [] then none else t.fault? := by
  unfold tail
  split <;> rename_i h <;> simp [h]

/-- What comes behind the first `n`. -/
def drop (t : Transcript) : Nat → Transcript
  | 0 => t
  | n + 1 => (t.drop n).tail

theorem pos_drop (t : Transcript) (n : Nat) : (t.drop n).pos = t.pos := by
  induction n with
  | zero => rfl
  | succ n ih =>
    show (t.drop n).tail.pos = t.pos
    rw [pos_tail, ih]

theorem events_drop (t : Transcript) (n : Nat) : (t.drop n).events = t.events.drop n := by
  induction n with
  | zero => rfl
  | succ n ih =>
    show (t.drop n).tail.events = t.events.drop (n + 1)
    rw [events_tail, ih, List.tail_drop]

theorem fault?_drop (t : Transcript) (n : Nat) :
    (t.drop n).fault? = if n ≤ t.events.length then t.fault? else none := by
  induction n with
  | zero => rfl
  | succ n ih =>
    show (t.drop n).tail.fault? = _
    rw [fault?_tail, events_drop, ih]
    by_cases hlt : n < t.events.length
    · have hne : t.events.drop n ≠ [] := by simpa using hlt
      rw [if_neg hne, if_pos (Nat.le_of_lt hlt), if_pos (Nat.succ_le_of_lt hlt)]
    · have hnil : t.events.drop n = [] := List.drop_eq_nil_of_le (Nat.le_of_not_lt hlt)
      rw [if_pos hnil, if_neg (by omega)]

/-- The events come in order. -/
theorem head?_drop_of_getElem? {e : Event} {p : Nat} (h : t.events[n]? = some (e, p)) :
    (t.drop n).head? = some (.ok e) := by
  obtain ⟨hlt, heq⟩ := List.getElem?_eq_some_iff.mp h
  have hevents : (t.drop n).events = (e, p) :: t.events.drop (n + 1) := by
    rw [events_drop, List.drop_eq_getElem_cons hlt, heq]
  rw [head?, hevents]

/-- Behind the events comes the fault, and behind the fault nothing. -/
theorem head?_drop_of_ge (h : t.events.length ≤ n) :
    (t.drop n).head? = (if n = t.events.length then t.fault?.map .error else none) ∧
      (t.drop n).headPos = t.pos := by
  have hevents : (t.drop n).events = [] := by
    rw [events_drop, List.drop_eq_nil_of_le h]
  rw [head?, headPos, hevents]
  refine ⟨?_, pos_drop t n⟩
  show (t.drop n).fault?.map _ = _
  rw [fault?_drop]
  by_cases heq : n = t.events.length
  · rw [if_pos heq, if_pos (Nat.le_of_eq heq)]
  · rw [if_neg heq, if_neg (by omega)]
    rfl

end Transcript

/-! ## Calls -/

namespace Reader

/-- The reader behind `n` calls. -/
def after (limit : Nat) (r : Reader) : Nat → Reader
  | 0 => r
  | n + 1 => ((r.after limit n).next limit).2

/-- What the call behind `n` calls gives. -/
def answer (limit : Nat) (r : Reader) (n : Nat) : Option (Except Fault Event) :=
  ((r.after limit n).next limit).1

/-- What a reader has still to give. -/
def transcript (limit : Nat) (r : Reader) : Transcript :=
  let t := r.state.transcript limit
  { t with events := r.pending.map (·, r.pos) ++ t.events }

variable {limit : Nat} {r : Reader} {n : Nat}

/-- A step that fails leaves the scanner where the fault says. -/
theorem pos_halt {s : State} {fault : Fault} (h : step limit s = .failed fault) :
    (s.halt fault).cursor.pos = fault.pos := by
  obtain ⟨task, later, -, hfails⟩ := step_eq_failed h
  obtain ⟨c, ⟨taken, htakes⟩, hpos⟩ := hfails.reaches
  have hreached : c.pos = s.cursor.pos + taken.length := htakes.pos
  have hstop : c.pos + c.rest.length = s.cursor.pos + s.cursor.rest.length := htakes.stop
  show s.cursor.pos + min (fault.pos - s.cursor.pos) s.cursor.rest.length = fault.pos
  omega

theorem transcript_halt (limit : Nat) (s : State) (fault : Fault) :
    (s.halt fault).transcript limit = ⟨[], none, (s.halt fault).cursor.pos⟩ := by
  have hdone : step limit (s.halt fault) = .finished := step_eq_finished_iff.mpr rfl
  rw [State.transcript_eq, hdone]

/-- A call takes the front of what the reader has still to give. -/
theorem next_eq (limit : Nat) (r : Reader) :
    (r.next limit).1 = (r.transcript limit).head? ∧
      (r.next limit).2.pos = (r.transcript limit).headPos ∧
      (r.next limit).2.transcript limit = (r.transcript limit).tail := by
  fun_induction next limit r with
  | case1 r e later hpending =>
    have ht : r.transcript limit = { r.state.transcript limit with
        events := (e, r.pos) :: (later.map (·, r.pos) ++ (r.state.transcript limit).events) } := by
      rw [transcript, hpending]
      rfl
    rw [ht]
    exact ⟨rfl, rfl, rfl⟩
  | case2 r hpending hstep =>
    have ht : r.transcript limit = ⟨[], none, r.pos⟩ := by
      rw [transcript, hpending, State.transcript_eq, hstep]
      rfl
    rw [ht]
    exact ⟨rfl, rfl, rfl⟩
  | case3 r hpending fault hstep =>
    have ht : r.transcript limit = ⟨[], some fault, fault.pos⟩ := by
      rw [transcript, hpending, State.transcript_eq, hstep]
      rfl
    rw [ht]
    refine ⟨rfl, pos_halt hstep, ?_⟩
    -- the agenda has been emptied, so nothing is left
    show Transcript.mk _ _ _ = _
    rw [transcript_halt, pos_halt hstep]
    rfl
  | case4 r hpending m hstep ih =>
    -- what the step gives is pending in the reader that goes on
    have ht : r.transcript limit = transcript limit ⟨m.next, m.events⟩ := by
      rw [transcript, hpending, State.transcript_eq, hstep]
      rfl
    rw [ht]
    exact ih

theorem transcript_after (limit : Nat) (r : Reader) (n : Nat) :
    (r.after limit n).transcript limit = (r.transcript limit).drop n := by
  induction n with
  | zero => rfl
  | succ n ih =>
    show ((r.after limit n).next limit).2.transcript limit = ((r.transcript limit).drop n).tail
    rw [(next_eq limit _).2.2, ih]

/-- The answers to all calls, with the offset behind each. -/
theorem answer_eq (limit : Nat) (r : Reader) (n : Nat) :
    r.answer limit n = ((r.transcript limit).drop n).head? ∧
      (r.after limit (n + 1)).pos = ((r.transcript limit).drop n).headPos := by
  obtain ⟨hanswer, hpos, -⟩ := next_eq limit (r.after limit n)
  rw [transcript_after] at hanswer hpos
  exact ⟨hanswer, hpos⟩

/-- A call moves the cursor forward. -/
theorem takes_next (limit : Nat) (r : Reader) :
    ∃ taken, r.state.cursor.Takes taken (r.next limit).2.state.cursor := by
  fun_induction next limit r with
  | case1 r | case2 r => exact ⟨[], .refl _⟩
  | case3 r => exact ⟨_, r.state.cursor.takes_advance _⟩
  | case4 r _ m hstep ih =>
    obtain ⟨task, later, -, hperf⟩ := step_eq_moved_iff.mp hstep
    obtain ⟨_, ⟨front, hfront, -⟩, -⟩ := hperf.tiles
    obtain ⟨more, hmore⟩ := ih
    exact ⟨_, Cursor.Takes.trans hfront hmore⟩

theorem holds_after {source : Source} (limit : Nat) (h : source.Holds r.state.cursor) (n : Nat) :
    source.Holds (r.after limit n).state.cursor := by
  induction n with
  | zero => exact h
  | succ n ih =>
    obtain ⟨taken, htakes⟩ := takes_next limit (r.after limit n)
    exact ih.move htakes

end Reader

/-! ## Progress -/

variable {limit : Nat} {s t : State} {task : Task} {m : Move} {events : List Event}

/-- A lexeme has at most two events. -/
theorem Gives.length_events (h : Gives s m) : m.events.length ≤ 2 * (lexemes m.events).length := by
  cases h with
  | silent => exact Nat.zero_le _
  | lexeme hpart =>
    rw [lexemes_events hpart]
    exact Nat.le_refl 2
  | opened | closed => exact Nat.le_succ 1

/-- A step takes at least one byte for every two events. -/
theorem Performs.length_events (h : Performs limit s task m) :
    m.events.length + 2 * m.next.cursor.rest.length ≤ 2 * s.cursor.rest.length := by
  obtain ⟨_, ⟨taken, htakes, htiling⟩, -⟩ := h.tiles
  have hevents := h.gives.length_events
  have hspans := htiling.length_le
  have hrest := congrArg List.length htakes.rest
  rw [List.length_append] at hrest
  omega

theorem State.length_transcript (limit : Nat) (s : State) :
    (s.transcript limit).events.length ≤ 2 * s.cursor.rest.length := by
  fun_induction State.transcript limit s with
  | case1 | case2 => exact Nat.zero_le _
  | case3 s m hstep ih =>
    obtain ⟨task, later, -, hperf⟩ := step_eq_moved_iff.mp hstep
    have hle : m.events.length + 2 * m.next.cursor.rest.length ≤ 2 * s.cursor.rest.length :=
      hperf.length_events
    rw [Transcript.after, List.length_append, List.length_map]
    omega

/-! ## Ends -/

theorem Run.transcript_pos (h : Run limit s events t) :
    (s.transcript limit).pos = (t.transcript limit).pos := by
  induction h with
  | refl => rfl
  | @step s t m events hstep _ ih =>
    rw [State.transcript_eq, hstep]
    exact ih

/-- A scan that does not fail stops behind the last byte. -/
theorem transcript_pos {source : Source} (h : (transcript limit source.bytes).fault? = none) :
    (transcript limit source.bytes).pos = source.length := by
  have hok : (State.start source.bytes).outcome limit
      = .ok ((transcript limit source.bytes).events.map (·.1)) := by
    rw [← scan_eq_outcome, scan, h]
  obtain ⟨t, hrun, hdone⟩ := State.outcome_eq_ok_iff.mp hok
  rw [transcript, hrun.transcript_pos, State.transcript_eq, step_eq_finished_iff.mpr hdone]
  show t.cursor.pos = source.length
  rw [Source.run_end hrun hdone]

end Scan

theorem Source.scan_of_fault? {source : Source} {limit : Nat} :
    source.scan limit =
      match (Scan.transcript limit source.bytes).fault? with
      | some fault => .error (fault.diagnostic source)
      | none => .ok ((Scan.transcript limit source.bytes).events.map (·.1)) := by
  rw [Source.scan, Scan.scan]
  cases (Scan.transcript limit source.bytes).fault? with
  | none => rfl
  | some fault => rfl

open Scan in
/-- A reader gives the events of the scan, then at most one fault, and then
nothing for ever; so nothing is given behind the first `2 * length + 1` calls.
The offset reached never decreases and stays within the source, and when the
reader has ended without a fault it is the length of the source. -/
theorem reader_ends (limit : Nat) (source : Source) :
    let answer := (Reader.start source.bytes).answer limit
    let pos := fun n => ((Reader.start source.bytes).after limit n).pos
    (∃ events : List Event, events.length ≤ 2 * source.length ∧
      (∀ n e, events[n]? = some e → answer n = some (.ok e)) ∧
      (answer events.length = none ∧ source.scan limit = .ok events ∧
          pos (events.length + 1) = source.length ∨
        ∃ fault, answer events.length = some (.error fault) ∧
          source.scan limit = .error (fault.diagnostic source)) ∧
      ∀ n, events.length < n → answer n = none) ∧
    (∀ n, 2 * source.length + 1 ≤ n → answer n = none) ∧
    ∀ n, pos n ≤ pos (n + 1) ∧ pos n ≤ source.length := by
  intro answer pos
  let t := transcript limit source.bytes
  have ht : (Reader.start source.bytes).transcript limit = t := rfl
  have hlength : t.events.length ≤ 2 * source.length :=
    State.length_transcript limit (.start source.bytes)
  have hanswer : ∀ n, answer n = (t.drop n).head? := fun n => ht ▸ (Reader.answer_eq limit _ n).1
  have hpos : ∀ n, pos (n + 1) = (t.drop n).headPos := fun n => ht ▸ (Reader.answer_eq limit _ n).2
  have hover : ∀ n, t.events.length < n → answer n = none := by
    intro n hn
    rw [hanswer, (Transcript.head?_drop_of_ge (Nat.le_of_lt hn)).1, if_neg (Nat.ne_of_gt hn)]
  refine ⟨⟨t.events.map (·.1), ?_, ?_, ?_, ?_⟩, ?_, ?_⟩
  · rw [List.length_map]
    exact hlength
  · intro n e he
    rw [List.getElem?_map] at he
    obtain ⟨⟨e, p⟩, hentry, rfl⟩ := Option.map_eq_some_iff.mp he
    rw [hanswer]
    exact Transcript.head?_drop_of_getElem? hentry
  · rw [List.length_map, hanswer, hpos]
    obtain ⟨hhead, hend⟩ := Transcript.head?_drop_of_ge (Nat.le_refl t.events.length)
    rw [hhead, hend, if_pos rfl]
    cases hfault : t.fault? with
    | none =>
      refine .inl ⟨rfl, ?_, transcript_pos hfault⟩
      rw [Source.scan_of_fault?, hfault]
    | some fault =>
      refine .inr ⟨fault, rfl, ?_⟩
      rw [Source.scan_of_fault?, hfault]
  · rw [List.length_map]
    exact hover
  · intro n hn
    exact hover n (by omega)
  · intro n
    have hheld : source.Holds (Reader.start source.bytes).state.cursor := ⟨[], .refl _⟩
    obtain ⟨taken, htakes⟩ := Reader.takes_next limit ((Reader.start source.bytes).after limit n)
    have hstop := (Reader.holds_after limit hheld n).stop
    refine ⟨?_, ?_⟩
    · show (Reader.after limit _ n).state.cursor.pos ≤ (Reader.next limit _).2.state.cursor.pos
      rw [htakes.pos]
      exact Nat.le_add_right _ _
    · show (Reader.after limit _ n).state.cursor.pos ≤ source.length
      omega

end ApiDoc
