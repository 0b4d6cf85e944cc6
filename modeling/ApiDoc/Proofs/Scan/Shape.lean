import ApiDoc.Proofs.Scan.Coverage

/-!
# The shape of an event stream

The events of a scan that succeeds are a word of a grammar
(`scan_shape`):

* **Items**: a comment, the end of a context, or a directive. A directive is a
  keyword, its parameters and then a schema on the line, or an opened context
  with a remark, or a remark and a body.
* **Pairs**: every part but a context comes as two neighbouring events, the
  first of which names the first byte of the second.
* **Contexts**: they are nested like parentheses, and the end of a context names
  the two parentheses that enclose it.

The grammar is right linear: what may still come in a state depends on the
first task of its agenda (`Reads`), so the proof goes from the end of a run to
its start, one rule at a time.
-/

namespace ApiDoc

/-! ## The grammar -/

namespace Word

/-- The two events of a part. -/
inductive Pair (part : Part) : List Event → Prop
  | mk {first last : Nat} (h : first ≤ last) :
      Pair part [⟨⟨part, .opening⟩, .point first⟩, ⟨⟨part, .closing⟩, ⟨first, last⟩⟩]

inductive Parameters : List Event → Prop
  | nil : Parameters []
  | cons {pair rest : List Event} (h : Pair .parameter pair) (hrest : Parameters rest) :
      Parameters (pair ++ rest)

/-- An annotation, a comment or nothing. -/
inductive Remark : List Event → Prop
  | none : Remark []
  | note {pair : List Event} (h : Pair .note pair) : Remark pair
  | comment {pair : List Event} (h : Pair .comment pair) : Remark pair

/-- A schema, a text or nothing. -/
inductive Body : List Event → Prop
  | none : Body []
  | schema {pair : List Event} (h : Pair .schema pair) : Body pair
  | text {pair : List Event} (h : Pair .text pair) : Body pair

/-- What follows the parameters of a directive. -/
inductive Tail : List Event → Prop
  | inline {pair : List Event} (h : Pair .schema pair) : Tail pair
  | context {remark : List Event} (p : Nat) (h : Remark remark) :
      Tail (⟨⟨.context, .opening⟩, .point p⟩ :: remark)
  | plain {remark body : List Event} (h : Remark remark) (hbody : Body body) :
      Tail (remark ++ body)

inductive Item : List Event → Prop
  | comment {pair : List Event} (h : Pair .comment pair) : Item pair
  | contextEnd (span : Span) : Item [⟨⟨.context, .closing⟩, span⟩]
  | directive {keyword params tail : List Event} (hk : Pair .keyword keyword)
      (hp : Parameters params) (ht : Tail tail) : Item (keyword ++ (params ++ tail))

inductive Items : List Event → Prop
  | nil : Items []
  | cons {item rest : List Event} (h : Item item) (hrest : Items rest) : Items (item ++ rest)

end Word

/-- Contexts that are nested like parentheses. The end of a context names the
parenthesis that opens it and the one that closes it. -/
inductive Balanced (source : Source) : List Event → Prop
  | nil : Balanced source []
  | other {e : Event} {rest : List Event} (he : e.mark.part ≠ .context)
      (h : Balanced source rest) : Balanced source (e :: rest)
  | context {p q : Nat} {inner rest : List Event} (hlt : p < q)
      (hopen : source.byte? p = some Byte.openParen)
      (hclose : source.byte? q = some Byte.closeParen)
      (hinner : Balanced source inner) (hrest : Balanced source rest) :
      Balanced source (⟨⟨.context, .opening⟩, .point p⟩ ::
        (inner ++ ⟨⟨.context, .closing⟩, ⟨p, q⟩⟩ :: rest))

namespace Scan

open Word

/-! ## Words from a state on -/

/-- The body of a directive; a directive that opened a context has none. -/
def BodyOf (line : Line) (events : List Event) : Prop :=
  if line.opened = true ∧ line.kind.hasTextBody = false then events = [] else Word.Body events

/-- The body and the items behind it. -/
def BodyThen (line : Line) (events : List Event) : Prop :=
  ∃ body rest, events = body ++ rest ∧ BodyOf line body ∧ Items rest

/-- The words that may follow when a task is the first of the agenda. At the end
of a directive line a remark has been read, if there is one. -/
def Reads (c : Cursor) : Task → List Event → Prop
  | .items, events => Items events
  | .lineEnd _, events => Items events
  | .body line, events => BodyThen line events
  | .tail line, events =>
    (c.atLineEnd = true → BodyThen line events) ∧
      if line.opened = true then
        ∃ remark rest, events = remark ++ rest ∧ Remark remark ∧ BodyThen line rest
      else
        ∃ params tail rest, events = params ++ (tail ++ rest) ∧ Parameters params ∧ Tail tail ∧
          Items rest

variable {limit : Nat} {s : State} {task : Task} {m : Move} {rest : List Event}

theorem bodyOf_of_opened {line : Line} (hopen : line.opened = false) {events : List Event} :
    BodyOf line events ↔ Word.Body events := by
  rw [BodyOf, if_neg]
  rintro ⟨h, -⟩
  rw [hopen] at h
  cases h

theorem bodyOf_of_text (line : Line) (htext : line.kind.hasTextBody = true)
    {events : List Event} : BodyOf line events ↔ Word.Body events := by
  rw [BodyOf, if_neg]
  rintro ⟨-, h⟩
  rw [htext] at h
  cases h

/-- The events of a part are a pair as soon as they name bytes. -/
theorem pair_events {part : Part} {start stop : Nat}
    (h : ∀ e ∈ part.events start stop, e.span.isSet = true) :
    Pair part (part.events start stop) := by
  have hset := h _ (List.mem_cons_of_mem _ (List.mem_singleton_self _))
  by_cases hlt : start < stop
  · rw [Part.events, Span.ofRange_of_lt hlt]
    exact .mk (by omega)
  · rw [Span.ofRange, if_neg hlt] at hset
    cases hset

/-- The words that may follow in a state. -/
def Follows (s : State) (events : List Event) : Prop :=
  match s.agenda with
  | [] => events = []
  | task :: _ => Reads s.cursor task events

theorem Follows.items {c : Cursor} (h : Follows (s.proceed c []) rest)
    (hlater : s.agenda = [.items]) : Items rest := by
  rw [Follows, State.proceed, hlater] at h
  exact h

/-- A parameter comes before what else is on its line. -/
theorem reads_parameter {line : Line} (hopen : line.opened = false) {b : UInt8}
    {tail : List UInt8} (hr : s.cursor.eatBlanks.rest = b :: tail) (hb : Byte.isBreak b = false)
    {pair : List Event} (hpair : Pair .parameter pair) {behind : Cursor} {raw : List UInt8}
    (hrest : Reads behind (.tail (line.declare raw)) rest) :
    Reads s.cursor (.tail line) (pair ++ rest) := by
  obtain ⟨-, hrest⟩ := hrest
  rw [line.declare_opened, hopen, if_neg Bool.false_ne_true] at hrest
  obtain ⟨params, tail, items, rfl, hparams, htail, hitems⟩ := hrest
  refine ⟨fun hend => absurd hend (Cursor.not_atLineEnd hr hb), ?_⟩
  rw [hopen, if_neg Bool.false_ne_true]
  exact ⟨_, tail, items, (List.append_assoc _ _ _).symm, .cons hpair hparams, htail, hitems⟩

/-- Behind a remark only the body is left. -/
theorem reads_remark {line : Line} {b : UInt8} {tail : List UInt8}
    (hr : s.cursor.eatBlanks.rest = b :: tail) (hb : Byte.isBreak b = false)
    {pair : List Event} (hpair : Remark pair)
    (hrest : Reads s.cursor.eatBlanks.eatLine (.tail line) rest) :
    Reads s.cursor (.tail line) (pair ++ rest) := by
  have hbody := hrest.1 (Cursor.atLineEnd_eatLine _)
  refine ⟨fun hend => absurd hend (Cursor.not_atLineEnd hr hb), ?_⟩
  cases hopen : line.opened with
  | true =>
    rw [if_pos rfl]
    exact ⟨pair, rest, rfl, hpair, hbody⟩
  | false =>
    rw [if_neg Bool.false_ne_true]
    obtain ⟨body, items, rfl, hbody, hitems⟩ := hbody
    rw [bodyOf_of_opened hopen] at hbody
    exact ⟨[], pair ++ body, items, by rw [List.nil_append, List.append_assoc], .nil,
      .plain hpair hbody, hitems⟩

/-- Behind the parenthesis of a directive comes a remark, and a body if no
context was opened. -/
theorem reads_paren {line : Line} (hopen : line.opened = false) {tail : List UInt8}
    (hr : s.cursor.eatBlanks.rest = Byte.openParen :: tail) (opening : List Event)
    (htail : ∀ {remark body}, Remark remark → BodyOf { line with opened := true } body →
      Tail (opening ++ (remark ++ body)))
    {behind : Cursor} (hrest : Reads behind (.tail { line with opened := true }) rest) :
    Reads s.cursor (.tail line) (opening ++ rest) := by
  obtain ⟨-, hrest⟩ := hrest
  rw [if_pos rfl] at hrest
  obtain ⟨remark, more, rfl, hremark, body, items, rfl, hbody, hitems⟩ := hrest
  refine ⟨fun hend => absurd hend (Cursor.not_atLineEnd hr (by decide)), ?_⟩
  rw [hopen, if_neg Bool.false_ne_true]
  refine ⟨[], _, items, ?_, .nil, htail hremark hbody, hitems⟩
  simp only [List.append_assoc, List.nil_append]

/-- At the end of a directive line its body is left. -/
theorem reads_lineOver {line : Line} {c : Cursor} (hrest : BodyThen line rest) :
    Reads c (.tail line) rest := by
  refine ⟨fun _ => hrest, ?_⟩
  cases hopen : line.opened with
  | true =>
    rw [if_pos rfl]
    exact ⟨[], rest, rfl, .none, hrest⟩
  | false =>
    rw [if_neg Bool.false_ne_true]
    obtain ⟨body, items, rfl, hbody, hitems⟩ := hrest
    rw [bodyOf_of_opened hopen] at hbody
    exact ⟨[], body, items, rfl, .nil, .plain .none hbody, hitems⟩

/-- What a rule gives comes before what follows it. -/
theorem Performs.reads (h : Performs limit s task m) (hreg : Regular (task :: s.agenda))
    (hset : ∀ e ∈ m.events, e.span.isSet = true) (hrest : Follows m.next rest) :
    Reads s.cursor task (m.events ++ rest) := by
  rcases hreg.later with ⟨rfl, hlater⟩ | ⟨hne, hlater⟩
  · cases h with
    | finish =>
      rw [Follows, State.proceed, hlater] at hrest
      obtain rfl : rest = [] := hrest
      exact .nil
    | blankLine => exact hrest
    | lineComment | blockComment => exact .cons (.comment (pair_events hset)) hrest
    | closeContext => exact .cons (.contextEnd _) hrest
    | keyword =>
      obtain ⟨-, hrest⟩ := hrest
      rw [if_neg Bool.false_ne_true] at hrest
      obtain ⟨params, tail, items, rfl, hparams, htail, hitems⟩ := hrest
      have hitem := Items.cons (.directive (pair_events hset) hparams htail) hitems
      simp only [List.append_assoc] at hitem
      exact hitem
  · cases h with
    | lineOver => exact reads_lineOver hrest
    | note hr => exact reads_remark hr (by decide) (.note (pair_events hset)) hrest
    | tailComment hr => exact reads_remark hr (by decide) (.comment (pair_events hset)) hrest
    | @textParen line _ hopen hr _ htext =>
      refine reads_paren hopen hr [] ?_ hrest
      intro remark body hremark hbody
      rw [List.nil_append]
      exact .plain hremark ((bodyOf_of_text { line with opened := true } htext).mp hbody)
    | contextParen hopen hr _ htext =>
      refine reads_paren hopen hr [_] ?_ hrest
      intro remark body hremark hbody
      rw [BodyOf, if_pos ⟨rfl, htext⟩] at hbody
      rw [hbody, List.append_nil]
      exact .context _ hremark
    | @inlineSchema line b tail _ _ hopen hr _ hschema =>
      have hb : Byte.isBreak b = false := by
        rcases opensInlineSchema_head hschema with rfl | rfl | rfl <;> decide
      refine ⟨fun hend => absurd hend (Cursor.not_atLineEnd hr hb), ?_⟩
      rw [hopen, if_neg Bool.false_ne_true]
      exact ⟨[], _, rest, rfl, .nil, .inline (pair_events hset), hrest⟩
    | quoted hopen hr =>
      exact reads_parameter hopen hr (by decide) (pair_events hset) hrest
    | bare hopen hr hbreak => exact reads_parameter hopen hr hbreak (pair_events hset) hrest
    | @bodiless line hnone =>
      refine ⟨[], rest, rfl, ?_, hrest.items hlater⟩
      rw [BodyOf]
      split
      · rfl
      · exact .none
    | noSchema hopen | noText hopen =>
      exact ⟨[], rest, rfl, (bodyOf_of_opened hopen).mpr .none, hrest.items hlater⟩
    | schema hopen =>
      exact ⟨_, rest, rfl, (bodyOf_of_opened hopen).mpr (.schema (pair_events hset)), hrest⟩
    | text hopen =>
      exact ⟨_, rest, rfl, (bodyOf_of_opened hopen).mpr (.text (pair_events hset)),
        hrest.items hlater⟩
    | @parenText _ range _ _ _ htext =>
      refine ⟨_, rest, rfl, (bodyOf_of_text _ htext).mpr ?_, hrest⟩
      cases range with
      | none => exact .none
      | some range => exact .text (pair_events hset)
    | lineEnd => exact hrest.items hlater
    | endComment => exact .cons (.comment (pair_events hset)) (hrest.items hlater)
    | _ => exact absurd rfl hne

/-! ## Contexts from a state on -/

/-- What closes the open contexts, the innermost first, is balanced in
between. -/
inductive Unwinds (source : Source) : List Nat → List Event → Prop
  | nil {events : List Event} (h : Balanced source events) : Unwinds source [] events
  | cons {p q : Nat} {outer : List Nat} {inner rest : List Event} (hlt : p < q)
      (hclose : source.byte? q = some Byte.closeParen) (h : Balanced source inner)
      (hrest : Unwinds source outer rest) :
      Unwinds source (p :: outer) (inner ++ ⟨⟨.context, .closing⟩, ⟨p, q⟩⟩ :: rest)

section

variable {source : Source} {contexts : List Nat} {events : List Event}

theorem Unwinds.other (h : Unwinds source contexts rest) {e : Event}
    (he : e.mark.part ≠ .context) : Unwinds source contexts (e :: rest) := by
  cases h with
  | nil h => exact .nil (.other he h)
  | cons hlt hclose h hrest =>
    rw [← List.cons_append]
    exact .cons hlt hclose (.other he h) hrest

/-- A context is balanced once it is closed. -/
theorem Unwinds.opened {p : Nat} (h : Unwinds source (p :: contexts) rest)
    (hopen : source.byte? p = some Byte.openParen) :
    Unwinds source contexts (⟨⟨.context, .opening⟩, .point p⟩ :: rest) := by
  cases h with
  | cons hlt hclose hinner hrest =>
    cases hrest with
    | nil h => exact .nil (.context hlt hopen hclose hinner h)
    | @cons _ _ _ next more hlt' hclose' h hmore =>
      have hwhole := Unwinds.cons hlt' hclose' (.context hlt hopen hclose hinner h) hmore
      rwa [List.cons_append, List.append_assoc, List.cons_append] at hwhole

theorem Gives.unwinds (h : Gives s m) (hheld : source.Holds s.cursor)
    (hctx : ∀ p ∈ s.contexts, p < s.cursor.pos) (hrest : Unwinds source m.next.contexts rest) :
    Unwinds source s.contexts (m.events ++ rest) := by
  have hblanks := hheld.move s.cursor.takes_eatBlanks
  cases h with
  | silent hsame => exact hsame ▸ hrest
  | @lexeme part _ _ _ hpart hsame =>
    rw [hsame] at hrest
    exact .other (.other hrest hpart) hpart
  | opened hr hnew =>
    rw [hnew] at hrest
    exact hrest.opened (hblanks.byte?_pos hr)
  | @closed tail start next hr hold =>
    rw [hold] at hctx ⊢
    have hlt : start < s.cursor.eatBlanks.pos := by
      rw [s.cursor.takes_eatBlanks.pos]
      exact Nat.lt_of_lt_of_le (hctx start List.mem_cons_self) (Nat.le_add_right _ _)
    exact .cons hlt (hblanks.byte?_pos hr) .nil hrest

/-- What a run that empties the agenda gives. -/
theorem Run.word {t : State} (h : Run limit s events t) (hdone : t.agenda = [])
    {before : List Event} (hs : Accounted source before s) :
    Follows s events ∧ Unwinds source s.contexts events := by
  induction h generalizing before with
  | refl s =>
    rw [Follows, hdone, (hs.done hdone).2]
    exact ⟨rfl, .nil .nil⟩
  | @step s t m events hstep _ ih =>
    obtain ⟨task, later, ha, hperf⟩ := step_eq_moved_iff.mp hstep
    have hnext := hperf.accounted ha hs
    obtain ⟨hfollows, hunwinds⟩ := ih hdone hnext
    obtain ⟨parens, ⟨taken, htakes, -⟩, -⟩ := hs.tiled
    have hreg : Regular (task :: (s.drop later).agenda) := ha ▸ hs.regular
    refine ⟨?_, hperf.gives.unwinds ⟨taken, htakes⟩ hs.contexts hunwinds⟩
    rw [Follows, ha]
    exact hperf.reads hreg (fun e he => (hnext.spans e (List.mem_append_right _ he)).1) hfollows

end

end Scan

/-- The events of a scan that succeeds are a word of the grammar, and their
contexts are nested like the parentheses they name. -/
theorem scan_shape {source : Source} {limit : Nat} {events : List Event}
    (h : source.scan limit = .ok events) : Word.Items events ∧ Balanced source events := by
  obtain ⟨t, hrun, hdone⟩ := Source.scan_eq_ok_iff.mp h
  obtain ⟨hitems, hcontexts⟩ := hrun.word hdone (Scan.accounted_start source)
  refine ⟨hitems, ?_⟩
  cases hcontexts with
  | nil hbalanced => exact hbalanced

/-- A context with a comment behind its opening and a directive in it. -/
theorem scan_shape_nested :
    let source : Source := ⟨"", Utf8.bytes "URL /a ( # x\n GET // y\n)", by decide⟩
    let events := Part.keyword.events 0 3 ++ Part.parameter.events 4 6 ++
      [⟨⟨.context, .opening⟩, .point 7⟩] ++ Part.comment.events 9 12 ++
      Part.keyword.events 14 17 ++ Part.note.events 18 22 ++ [⟨⟨.context, .closing⟩, ⟨7, 23⟩⟩]
    source.scan 1 = .ok events ∧ Word.Items events ∧ Balanced source events := by
  have h : (⟨"", Utf8.bytes "URL /a ( # x\n GET // y\n)", by decide⟩ : Source).scan 1
      = .ok (Part.keyword.events 0 3 ++ Part.parameter.events 4 6 ++
        [⟨⟨.context, .opening⟩, .point 7⟩] ++ Part.comment.events 9 12 ++
        Part.keyword.events 14 17 ++ Part.note.events 18 22 ++
        [⟨⟨.context, .closing⟩, ⟨7, 23⟩⟩]) := by
    decide +kernel
  exact ⟨h, scan_shape h⟩

end ApiDoc
