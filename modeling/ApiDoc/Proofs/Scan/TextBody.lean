import ApiDoc.Proofs.Scan.Attachment

/-!
# Text bodies

Free text without parentheses is the longest run of lines behind a directive that
nothing interrupts, and there is none only where nothing could be read.

* **Heads** (`headEnd`, `Source.parenthesised`): where the keyword and the parameters
  of the directive at hand end, and whether a parenthesis follows them.
* **Below** (`Source.below`): the first content behind the line of a directive.
* **Steps** (`Situated`): while a directive is read the scanner stays on the line of
  its keyword, and it has passed a parenthesis iff one follows the head.
* **Runs** (`Run.to_body`, `Run.idle`): a directive that bears text comes to its body
  with its own events only, and behind the body no parameter is read.
* **Scans** (`text_maximal`): a text in parentheses has one behind it, every other text
  is such a run, and a directive has none only if the content below its line interrupts
  text or there is no content.
-/

namespace ApiDoc

/-! ## Heads -/

/-- The offset behind the head of the directive at hand, if `p` is that before `e`. -/
def Event.headEnd (p : Nat) (e : Event) : Nat :=
  match e.mark.part, e.mark.edge with
  | .keyword, .closing => e.span.last + 1
  | .parameter, .closing => e.span.last + 1
  | _, _ => p

/-- The offset behind the keyword and the parameters of the directive at hand. -/
def headEnd (events : List Event) : Nat :=
  events.foldl Event.headEnd 0

/-- The cursor at an offset. -/
def Source.cursorAt (source : Source) (p : Nat) : Cursor :=
  ⟨p, source.bytes.drop p⟩

/-- Whether a parenthesis follows the head of the directive at hand. -/
def Source.parenthesised (source : Source) (events : List Event) : Bool :=
  (source.cursorAt (headEnd events)).eatBlanks.rest.head? == some Byte.openParen

/-- The first content behind the line of a keyword. -/
def Source.below (source : Source) (k : Span) : Cursor :=
  (source.cursorAt (k.last + 1)).eatLine.eatBreak.eatWhite

/-- What belongs to a directive of the events behind its keyword: those up to the next
keyword. -/
def ownEvents (events : List Event) : List Event :=
  events.takeWhile (·.mark.part != .keyword)

/-- Whether a context is open behind the events. -/
def inContext (events : List Event) : Bool :=
  ! (openContexts events).isEmpty

/-- The span holds the longest text below the line of a keyword: no line of it
interrupts text, and what comes next does, or the document ends. -/
structure IsTextRun (source : Source) (k : Span) (inContext : Bool) (span : Span) : Prop where
  set : span.isSet = true
  start : (source.below k).pos = span.first
  first : ∃ b, source.byte? span.first = some b ∧ Byte.isWhite b = false
  last : ∃ b, source.byte? span.last = some b ∧ Byte.isWhite b = false
  lines : ∀ line ∈ splitLines (source.covered span),
    Scan.interrupts inContext (line.dropWhile Byte.isBlank) = false
  ends : (source.cursorAt (span.last + 1)).eatWhite.rest = [] ∨
    Scan.interrupts inContext (source.cursorAt (span.last + 1)).eatWhite.rest = true

section

variable {source : Source} {events more : List Event} {e : Event} {part : Part} {k : Span}
  {start stop : Nat}

theorem headEnd_append (events more : List Event) :
    headEnd (events ++ more) = more.foldl Event.headEnd (headEnd events) :=
  List.foldl_append

/-- Other parts than keywords and parameters do not belong to a head. -/
theorem headEnd_of_forall
    (h : ∀ e ∈ more, e.mark.part ≠ .keyword ∧ e.mark.part ≠ .parameter) (events : List Event) :
    headEnd (events ++ more) = headEnd events := by
  rw [headEnd_append]
  induction more with
  | nil => rfl
  | cons e more ih =>
    have he : Event.headEnd (headEnd events) e = headEnd events := by
      obtain ⟨hkeyword, hparameter⟩ := h e List.mem_cons_self
      obtain ⟨⟨part, edge⟩, span⟩ := e
      cases part with
      | keyword => exact absurd rfl hkeyword
      | parameter => exact absurd rfl hparameter
      | note | schema | text | context | comment => rfl
    rw [List.foldl_cons, he]
    exact ih fun d hd => h d (List.mem_cons_of_mem e hd)

/-- Behind a keyword or a parameter the head ends. -/
theorem headEnd_events (hpart : part = .keyword ∨ part = .parameter) (hlt : start < stop)
    (events : List Event) : headEnd (events ++ part.events start stop) = stop := by
  rw [headEnd_append]
  rcases hpart with rfl | rfl
  · exact Span.last_ofRange hlt
  · exact Span.last_ofRange hlt

/-- Events before the next keyword belong to the directive. -/
theorem ownEvents_append (h : ∀ e ∈ events, e.mark.part ≠ .keyword) (more : List Event) :
    ownEvents (events ++ more) = events ++ ownEvents more :=
  List.takeWhile_append_of_pos fun e he => bne_iff_ne.mpr (h e he)

theorem part_ne_keyword (h : e ∈ ownEvents events) : e.mark.part ≠ .keyword :=
  bne_iff_ne.mp (List.mem_takeWhile_imp (p := fun e : Event => e.mark.part != .keyword) h)

theorem parenthesised_congr (h : headEnd more = headEnd events) :
    source.parenthesised more = source.parenthesised events := by
  rw [Source.parenthesised, Source.parenthesised, h]

/-- Events that open no directive and no context leave the directive at hand. -/
theorem tip_of_forall
    (h : ∀ e ∈ more, e.mark.part ≠ .keyword ∧ e.mark.part ≠ .context) (events : List Event) :
    tip (events ++ more) = tip events := by
  induction more using List.reverseRecOn with
  | nil => rw [List.append_nil]
  | append_singleton more e ih =>
    obtain ⟨hkeyword, hcontext⟩ := h e (List.mem_append_right more List.mem_cons_self)
    have hplain : e.IsPlain := ⟨fun hmark => hkeyword (by rw [hmark]), hcontext⟩
    rw [← List.append_assoc, tip_plain hplain]
    exact ih fun d hd => h d (List.mem_append_left _ hd)

theorem inContext_plain (h : e.IsPlain) : inContext (events ++ [e]) = inContext events := by
  rw [inContext, inContext, openContexts_congr (contexts_plain h) (closings_plain h)]

/-- The keyword of the directive at hand came last. -/
theorem keywords_of_tip (h : tip events = some k) : (keywords events).getLast? = some k := by
  induction events using List.reverseRecOn with
  | nil => cases h
  | append_singleton events e ih =>
    by_cases hplain : e.IsPlain
    · rw [tip_plain hplain] at h
      rw [keywords_plain hplain]
      exact ih h
    · obtain ⟨⟨part, edge⟩, span⟩ := e
      cases part with
      | keyword =>
        cases edge with
        | opening => exact absurd (isPlain_opening (by decide) span) hplain
        | closing =>
          rw [tip_keyword] at h
          rw [keywords_keyword, List.getLast?_concat]
          exact h
      | context =>
        cases edge with
        | opening =>
          rw [tip_opened] at h
          rw [keywords_opened]
          exact ih h
        | closing =>
          rw [tip_closed] at h
          cases h
      | parameter | note | schema | text | comment =>
        exact absurd ⟨by simp, by simp⟩ hplain

end

namespace Cursor

variable {c d : Cursor} {taken : List UInt8}

/-- Bytes without a break lead to the same end of the line. -/
theorem eatLine_of_takes (h : c.Takes taken d) (hline : ∀ b ∈ taken, Byte.isBreak b = false) :
    c.eatLine = d.eatLine :=
  eatWhile_of_takes h (Byte.all_not_isBreak hline)

theorem eatLine_eatBlanks (c : Cursor) : c.eatBlanks.eatLine = c.eatLine := by
  refine (eatLine_of_takes c.takes_eatBlanks ?_).symm
  intro b hb
  exact Byte.isBreak_eq_false_of_isBlank (List.mem_takeWhile_imp hb)

theorem eatLine_of_atLineEnd (h : c.atLineEnd = true) : c.eatLine = c := by
  refine eatWhile_of_head ?_
  intro b tail hr
  rw [atLineEnd, hr] at h
  have hb : Byte.isBreak b = true := h
  rw [hb]
  rfl

end Cursor

namespace Source.Holds

variable {source : Source} {c d : Cursor} {taken : List UInt8}

theorem cursorAt (h : source.Holds c) : source.cursorAt c.pos = c := by
  rw [Source.cursorAt, h.drop_pos]

/-- Behind the span of what is taken stands the cursor. -/
theorem cursorAt_span (h : source.Holds c) (htakes : c.Takes taken d) (hlt : c.pos < d.pos) :
    source.cursorAt ((Span.ofRange c.pos d.pos).last + 1) = d := by
  rw [Span.last_ofRange hlt, (h.move htakes).cursorAt]

end Source.Holds

/-! ## Steps -/

namespace Scan

/-- What is known, while a directive is read, about its line and the parenthesis on
it. -/
def Situated (source : Source) (events : List Event) (c : Cursor) : Task → Prop
  | .tail line => ∃ k, tip events = some k ∧
      (source.cursorAt (k.last + 1)).eatLine = c.eatLine ∧
      if line.opened = true then source.parenthesised events = true
      else (source.cursorAt (headEnd events)).eatBlanks = c.eatBlanks ∨
        c.atLineEnd = true ∧ source.parenthesised events = false
  | .body line => ∃ k, tip events = some k ∧
      (source.cursorAt (k.last + 1)).eatLine.eatBreak = c ∧
      source.parenthesised events = line.opened
  | .items => True
  | .lineEnd _ => True

section

variable {limit : Nat} {source : Source} {events : List Event} {s t : State} {task : Task}
  {later : List Task} {m : Move} {line : Line} {part : Part}

/-- Behind a keyword its line starts, and its head ends. -/
theorem situated_keyword {c : Cursor} {rest : List UInt8} {kind : Kind} (hheld : source.Holds c)
    (hk : Keyword.recognise c.rest = .found kind rest) :
    Situated source (events ++ Part.keyword.events c.pos (c.moveTo rest).pos) (c.moveTo rest)
      (.tail { kind := kind }) := by
  obtain ⟨hlt, -⟩ := spells_of_recognise hheld hk
  obtain ⟨word, hsplit, -, -⟩ := Keyword.recognise_eq_found_iff.mp hk
  have htakes := Cursor.takes_moveTo hsplit
  refine ⟨_, tip_events _ _ _, ?_, ?_⟩
  · rw [hheld.cursorAt_span htakes hlt]
  · rw [if_neg Bool.false_ne_true, headEnd_events (.inl rfl) hlt, (hheld.move htakes).cursorAt]
    exact .inl rfl

/-- Behind a parameter the head ends. -/
theorem situated_parameter {d : Cursor} {word : List UInt8}
    (hs : Situated source events s.cursor (.tail line)) (hheld : source.Holds s.cursor)
    (hopen : line.opened = false) (htakes : s.cursor.eatBlanks.Takes word d) (hne : word ≠ [])
    (hline : ∀ b ∈ word, Byte.isBreak b = false) (raw : List UInt8) :
    Situated source (events ++ Part.parameter.events s.cursor.eatBlanks.pos d.pos) d
      (.tail (line.declare raw)) := by
  obtain ⟨k, htip, heat, -⟩ := hs
  have hnext := (hheld.move s.cursor.takes_eatBlanks).move htakes
  have hlt : s.cursor.eatBlanks.pos < d.pos := by
    have := List.length_pos_iff.mpr hne
    rw [htakes.pos]
    omega
  refine ⟨k, ?_, ?_, ?_⟩
  · rw [tip_lexeme (by decide) (by decide)]
    exact htip
  · rw [heat, ← s.cursor.eatLine_eatBlanks, Cursor.eatLine_of_takes htakes hline]
  · rw [line.declare_opened, hopen, if_neg Bool.false_ne_true, headEnd_events (.inr rfl) hlt,
      hnext.cursorAt]
    exact .inl rfl

/-- Where the head ends before the scanner, no parenthesis stands but at it. -/
theorem parenthesised_eq_false {c : Cursor}
    (hs : (source.cursorAt (headEnd events)).eatBlanks = c.eatBlanks ∨
      c.atLineEnd = true ∧ source.parenthesised events = false)
    (hhead : c.eatBlanks.rest.head? ≠ some Byte.openParen) :
    source.parenthesised events = false := by
  rcases hs with hcursor | ⟨-, hno⟩
  · rw [Source.parenthesised, hcursor]
    exact beq_eq_false_iff_ne.mpr hhead
  · exact hno

/-- A remark takes the scanner to the end of the line. -/
theorem situated_remark (hs : Situated source events s.cursor (.tail line))
    (hstart : s.cursor.eatBlanks.rest.head? ≠ some Byte.openParen)
    (hpart : part = .note ∨ part = .comment) :
    Situated source (events ++ lineEvents part s.cursor.eatBlanks) s.cursor.eatBlanks.eatLine
      (.tail line) := by
  obtain ⟨k, htip, heat, hparen⟩ := hs
  have hkeyword : part ≠ .keyword := by rcases hpart with rfl | rfl <;> decide
  have hparameter : part ≠ .parameter := by rcases hpart with rfl | rfl <;> decide
  have hcontext : part ≠ .context := by rcases hpart with rfl | rfl <;> decide
  refine ⟨k, ?_, ?_, ?_⟩
  · rw [lineEvents, tip_lexeme hkeyword hcontext]
    exact htip
  · rw [heat, Cursor.eatLine_of_atLineEnd (Cursor.atLineEnd_eatLine _), Cursor.eatLine_eatBlanks]
  · have hhead : headEnd (events ++ lineEvents part s.cursor.eatBlanks) = headEnd events := by
      apply headEnd_of_forall
      intro e he
      rw [part_of_mem_events he]
      exact ⟨hkeyword, hparameter⟩
    cases hopen : line.opened with
    | false =>
      rw [hopen, if_neg Bool.false_ne_true] at hparen
      rw [if_neg Bool.false_ne_true, parenthesised_congr hhead]
      exact .inr ⟨Cursor.atLineEnd_eatLine _, parenthesised_eq_false hparen hstart⟩
    | true =>
      rw [hopen, if_pos rfl] at hparen
      rw [if_pos rfl, parenthesised_congr hhead]
      exact hparen

/-- A parenthesis that is read follows the head. -/
theorem situated_paren {more : List Event} {tail : List UInt8}
    (hs : Situated source events s.cursor (.tail line)) (hopen : line.opened = false)
    (hr : s.cursor.eatBlanks.rest = Byte.openParen :: tail)
    (htip : tip (events ++ more) = tip events) (hhead : headEnd (events ++ more) = headEnd events) :
    Situated source (events ++ more) s.cursor.eatBlanks.advance
      (.tail { line with opened := true }) := by
  obtain ⟨k, hk, heat, hparen⟩ := hs
  rw [hopen, if_neg Bool.false_ne_true] at hparen
  refine ⟨k, htip.trans hk, ?_, ?_⟩
  · have hone : ∀ b ∈ [Byte.openParen], Byte.isBreak b = false :=
      List.forall_mem_singleton.mpr rfl
    rw [heat, ← s.cursor.eatLine_eatBlanks,
      Cursor.eatLine_of_takes (Cursor.takes_advance_one hr) hone]
  · rw [if_pos rfl, parenthesised_congr hhead]
    rcases hparen with hcursor | ⟨hend, -⟩
    · rw [Source.parenthesised, hcursor, hr]
      rfl
    · exact absurd hend (Cursor.not_atLineEnd hr (by decide))

/-- Where the line ends the body starts. -/
theorem situated_body (hs : Situated source events s.cursor (.tail line))
    (hend : s.cursor.eatBlanks.atLineEnd = true) :
    Situated source events s.cursor.eatBlanks.eatBreak (.body line) := by
  obtain ⟨k, htip, heat, hparen⟩ := hs
  refine ⟨k, htip, ?_, ?_⟩
  · rw [heat, ← s.cursor.eatLine_eatBlanks, Cursor.eatLine_of_atLineEnd hend]
  · cases hopen : line.opened with
    | true =>
      rw [hopen, if_pos rfl] at hparen
      exact hparen
    | false =>
      rw [hopen, if_neg Bool.false_ne_true] at hparen
      refine parenthesised_eq_false hparen ?_
      intro hhead
      obtain ⟨tail, hr⟩ := List.head?_eq_some_iff.mp hhead
      rw [Cursor.atLineEnd, hr] at hend
      have hbreak : Byte.isBreak Byte.openParen = true := hend
      exact absurd hbreak (by decide)

theorem Performs.situated (ha : s.agenda = task :: later)
    (h : Performs limit (s.drop later) task m) (hheld : source.Holds s.cursor)
    (hreg : Regular s.agenda) (hs : Situated source events s.cursor task) {next : Task}
    {rest : List Task} (hnext : m.next.agenda = next :: rest) :
    Situated source (events ++ m.events) m.next.cursor next := by
  have hblanks := hheld.move s.cursor.takes_eatBlanks
  rw [ha] at hreg
  cases h with
  | finish | bodiless | noSchema | noText | text | lineEnd | endComment =>
    cases hreg.eq_items hnext
    trivial
  | blankLine | lineComment | blockComment | closeContext | inlineSchema | schema | parenText =>
    obtain ⟨rfl, -⟩ := List.cons.inj hnext
    trivial
  | keyword hk =>
    obtain ⟨rfl, -⟩ := List.cons.inj hnext
    exact situated_keyword hblanks hk
  | lineOver hend =>
    obtain ⟨rfl, -⟩ := List.cons.inj hnext
    rw [List.append_nil]
    exact situated_body hs hend
  | note hr =>
    obtain ⟨rfl, -⟩ := List.cons.inj hnext
    refine situated_remark hs ?_ (.inl rfl)
    show s.cursor.eatBlanks.rest.head? ≠ _
    rw [hr, List.head?_cons]
    decide
  | tailComment hr =>
    obtain ⟨rfl, -⟩ := List.cons.inj hnext
    refine situated_remark hs ?_ (.inr rfl)
    show s.cursor.eatBlanks.rest.head? ≠ _
    rw [hr, List.head?_cons]
    decide
  | textParen hopen hr =>
    obtain ⟨rfl, -⟩ := List.cons.inj hnext
    exact situated_paren hs hopen hr (by rw [List.append_nil]) (by rw [List.append_nil])
  | contextParen hopen hr =>
    obtain ⟨rfl, -⟩ := List.cons.inj hnext
    refine situated_paren hs hopen hr (tip_opened _ _) (headEnd_of_forall ?_ _)
    intro e he
    rw [List.mem_singleton.mp he]
    exact ⟨by simp, by simp⟩
  | quoted hopen hr hclose =>
    obtain ⟨rfl, -⟩ := List.cons.inj hnext
    obtain ⟨word, htakes, hne, hword⟩ := takes_quoted hr hclose
    exact situated_parameter hs hheld hopen htakes hne hword _
  | @bare line b tail hopen hr hbreak =>
    obtain ⟨rfl, -⟩ := List.cons.inj hnext
    have hblank : Byte.isBlank b = false := Cursor.head_eatBlanks hr
    refine situated_parameter hs hheld hopen (Cursor.takes_eatWhile _ _) ?_ ?_ _
    · rw [hr, List.takeWhile_cons_of_pos]
      · exact List.cons_ne_nil _ _
      · rw [Byte.isWhite_eq_false_iff.mpr ⟨hblank, hbreak⟩]
        rfl
    · intro d hd
      have hwhite : Byte.isWhite d = false := by simpa using List.mem_takeWhile_imp hd
      exact (Byte.isWhite_eq_false_iff.mp hwhite).2

theorem Run.situated (h : Run limit (State.start source.bytes) events t) :
    ∀ ⦃task later⦄, t.agenda = task :: later → Situated source events t.cursor task := by
  refine h.preserves_reached (P := fun events s =>
    ∀ ⦃task later⦄, s.agenda = task :: later → Situated source events s.cursor task) ?_ ?_
  · intro before u task later m hrun ha hperf hs next rest hnext
    have hacc := hrun.accounted (accounted_start source)
    exact hperf.situated ha hacc.holds hacc.regular (hs ha) hnext
  · intro task later ha
    obtain ⟨rfl, -⟩ := List.cons.inj ha
    trivial

/-! ## Texts that are read -/

/-- What closes a part comes behind what opens it. -/
theorem split_events {first last : List Event} {span : Span} {start stop : Nat}
    (h : part.events start stop = first ++ ⟨⟨part, .closing⟩, span⟩ :: last) :
    first = [⟨⟨part, .opening⟩, .point start⟩] ∧ span = .ofRange start stop ∧ last = [] := by
  cases first with
  | nil => cases (List.cons.inj h).1
  | cons d first =>
    obtain ⟨hopening, hrest⟩ := List.cons.inj h
    cases first with
    | nil =>
      obtain ⟨hclosing, hnil⟩ := List.cons.inj hrest
      cases hclosing
      exact ⟨by rw [hopening], rfl, hnil.symm⟩
    | cons d' first => exact absurd (List.cons.inj hrest).2 (by simp)

/-- White bytes behind a span lead to the same content. -/
theorem eatWhite_span {c behind : Cursor} {text back : List UInt8} (hheld : source.Holds c)
    (htakes : c.Takes (text ++ back) behind) (hne : text ≠ []) (hback : White back) :
    (source.cursorAt ((Span.ofRange c.pos (c.pos + text.length)).last + 1)).eatWhite
      = behind.eatWhite := by
  obtain ⟨d, htext, hwhite⟩ := htakes.split
  have hlt : c.pos < d.pos := by
    have := List.length_pos_iff.mpr hne
    rw [htext.pos]
    omega
  rw [← htext.pos, hheld.cursorAt_span htext hlt]
  exact Cursor.eatWhite_of_takes hwhite hback

/-- Behind text in parentheses comes the one that closes it. -/
theorem closed_of_parenLines {c behind : Cursor} {start stop : Nat} {tail : List UInt8}
    (hheld : source.Holds c) (hlines : parenLines none c = (some (start, stop), behind))
    (hr : behind.rest = Byte.closeParen :: tail) :
    (source.cursorAt ((Span.ofRange start stop).last + 1)).eatWhite.rest.head?
      = some Byte.closeParen := by
  obtain ⟨taken, htakes, hrange⟩ := takes_parenLines none c
  rw [hlines] at htakes hrange
  rcases hrange with ⟨hnone, -⟩ | ⟨front, text, back, rfl, hne, -, -, hback, hrange⟩
  · cases hnone
  · obtain ⟨rfl, rfl⟩ := Prod.mk.inj (Option.some.inj hrange)
    rw [List.append_assoc] at htakes
    obtain ⟨d, hfront, htext⟩ := htakes.split
    have hspan := eatWhite_span (hheld.move hfront) htext hne hback
    rw [hfront.pos] at hspan
    show (source.cursorAt ((Span.ofRange (c.pos + front.length)
      (c.pos + front.length + text.length)).last + 1)).eatWhite.rest.head? = _
    rw [hspan, Cursor.eatWhite, Cursor.eatWhile_of_head, hr]
    · rfl
    · intro b tail' hb
      rw [hr] at hb
      cases hb
      rfl

/-- Text closes in the body of a directive that bears text. -/
theorem Performs.text_closing {first last : List Event} {span : Span}
    (h : Performs limit s task m) (hheld : source.Holds s.cursor)
    (hsplit : m.events = first ++ ⟨⟨.text, .closing⟩, span⟩ :: last) :
    ∃ line, task = .body line ∧ line.kind.hasTextBody = true ∧
      (∃ span, first = [⟨⟨.text, .opening⟩, span⟩]) ∧
      if line.opened = true then (source.cursorAt (span.last + 1)).eatWhite.rest.head?
          = some Byte.closeParen
      else ∃ stop text back, span = .ofRange s.cursor.eatWhite.pos stop ∧
        ReadsText (! s.contexts.isEmpty) s.cursor.eatWhite stop m.next.cursor text back := by
  have hmem : (⟨⟨.text, .closing⟩, span⟩ : Event) ∈ m.events := by
    rw [hsplit]
    exact List.mem_append_right first List.mem_cons_self
  cases h with
  | finish | blankLine | lineOver | textParen | bodiless | noSchema | noText | lineEnd =>
    cases hmem
  | lineComment | blockComment | keyword | note | tailComment | inlineSchema | quoted | bare
  | schema | endComment | closeContext | contextParen =>
    simp [lineEvents, Part.events, parameter, bareParameter] at hmem
  | @text line hopen hbody hends =>
    obtain ⟨hfirst, hspan, -⟩ := split_events hsplit
    have htext : line.kind.hasTextBody = true := by
      rw [Kind.hasTextBody, hbody]
      rfl
    rw [← s.cursor.eatWhite_eatWhite] at hends
    obtain ⟨text, back, hreads⟩ := textLines_reads (Nat.le_refl _) hends
    refine ⟨line, rfl, htext, ⟨_, hfirst⟩, ?_⟩
    rw [hopen, if_neg Bool.false_ne_true]
    exact ⟨_, text, back, hspan, hreads⟩
  | @parenText line range behind tail hopen htext hlines hr =>
    cases range with
    | none => cases hmem
    | some range =>
      obtain ⟨hfirst, rfl, -⟩ := split_events hsplit
      refine ⟨line, rfl, htext, ⟨_, hfirst⟩, ?_⟩
      rw [if_pos hopen]
      exact closed_of_parenLines (hheld.move s.cursor.takes_eatBlanks) hlines hr

/-- What is read as text below the line of a keyword is a run of text. -/
theorem ReadsText.isTextRun {inContext : Bool} {c behind : Cursor} {stop : Nat} {k : Span}
    {text back : List UInt8} (h : ReadsText inContext c stop behind text back)
    (hheld : source.Holds c) (hbelow : source.below k = c) :
    IsTextRun source k inContext (.ofRange c.pos stop) := by
  obtain ⟨d, htext, -⟩ := h.takes.split
  have hstop := h.stop
  have hpos := List.length_pos_iff.mpr h.ne_nil
  have hlt : c.pos < stop := by omega
  have hspan : Span.ofRange c.pos stop = ⟨c.pos, stop - 1⟩ := Span.ofRange_of_lt hlt
  have hcovered : source.covered (.ofRange c.pos stop) = text := by
    rw [hstop, ← htext.pos]
    exact hheld.covered htext h.ne_nil
  refine ⟨?_, ?_, ?_, ?_, ?_, ?_⟩
  · rw [hspan]
    exact decide_eq_true (Nat.le_sub_one_of_lt hlt)
  · rw [hbelow, hspan]
  · -- white bytes before the text have been passed over
    obtain ⟨b, tail, rfl⟩ := List.exists_cons_of_ne_nil h.ne_nil
    have hr : c.rest = b :: (tail ++ d.rest) := htext.rest
    refine ⟨b, ?_, ?_⟩
    · rw [hspan]
      exact hheld.byte?_pos hr
    · rw [← hbelow] at hr
      exact Cursor.head_eatWhile hr
  · obtain ⟨b, hb, hwhite⟩ := h.last
    refine ⟨b, ?_, hwhite⟩
    have hlast : stop - 1 = c.pos + (text.length - 1) := by omega
    rw [hspan]
    show source.byte? (stop - 1) = some b
    rw [hlast, hheld.byte?, htext.getElem? (by omega), ← List.getLast?_eq_getElem?]
    exact hb
  · rw [hcovered]
    exact h.lines
  · rw [hstop, eatWhite_span hheld h.takes h.ne_nil h.white]
    exact endsText_iff.mp h.ends

/-- The parentheses that the scanner has open are the contexts of its events. -/
theorem Run.inContext_eq (h : Run limit (State.start source.bytes) events t) :
    (! t.contexts.isEmpty) = inContext events := by
  obtain ⟨fresh, horder, -⟩ := h.tracked.orderly
  rw [horder.ledger.opens_eq, ApiDoc.inContext]
  cases openContexts events using List.reverseRecOn with
  | nil => rfl
  | append_singleton front c => simp

/-! ## Directives without text -/

/-- A keyword closes where a directive line starts. -/
theorem Performs.keyword_closing {first last : List Event} {k : Span} {kind : Kind}
    (h : Performs limit s task m) (hheld : source.Holds s.cursor)
    (hreg : Regular (task :: s.agenda)) (hspells : Keyword.Spells (source.covered k) kind)
    (hsplit : m.events = first ++ ⟨⟨.keyword, .closing⟩, k⟩ :: last) :
    last = [] ∧ m.next.agenda = [.tail { kind := kind }, .items] ∧
      m.next.contexts = s.contexts ∧ ∃ span, first = [⟨⟨.keyword, .opening⟩, span⟩] := by
  have hmem : (⟨⟨.keyword, .closing⟩, k⟩ : Event) ∈ m.events := by
    rw [hsplit]
    exact List.mem_append_right first List.mem_cons_self
  cases h with
  | finish | blankLine | lineOver | textParen | bodiless | noSchema | noText | lineEnd =>
    cases hmem
  | lineComment | blockComment | note | tailComment | inlineSchema | quoted | bare | schema
  | endComment | closeContext | contextParen | text =>
    simp [lineEvents, Part.events, parameter, bareParameter, textBody] at hmem
  | @parenText _ range =>
    cases range with
    | none => cases hmem
    | some range => simp [Part.events] at hmem
  | @keyword kind' rest hk =>
    obtain ⟨hfirst, rfl, hlast⟩ := split_events hsplit
    obtain ⟨-, hspells'⟩ := spells_of_recognise (hheld.move s.cursor.takes_eatBlanks) hk
    -- a word spells one kind only
    obtain rfl : kind = kind' := by
      have hsame := hspells.classify?.symm.trans hspells'.classify?
      exact Option.some.inj hsame
    have hnil : s.agenda = [] := by
      rcases hreg.later with ⟨-, hnil⟩ | ⟨hne, -⟩
      · exact hnil
      · exact absurd rfl hne
    refine ⟨hlast, ?_, rfl, _, hfirst⟩
    show [Task.tail { kind := kind }, .items] ++ s.agenda = _
    rw [hnil, List.append_nil]

/-- On the line of a directive that bears text nothing opens a context. -/
theorem Performs.tail_text (h : Performs limit s (.tail line) m) (hitems : s.agenda = [.items])
    (htext : line.kind.hasTextBody = true) :
    m.next.contexts = s.contexts ∧
      (∀ e ∈ m.events, e.mark.part ≠ .keyword ∧ e.mark.part ≠ .context) ∧
      (m.next.agenda = [.body line, .items] ∨
        ∃ line', m.next.agenda = [.tail line', .items] ∧ line'.kind = line.kind) := by
  have hpair : ∀ {part : Part} {start stop : Nat}, part ≠ .keyword → part ≠ .context →
      ∀ e ∈ part.events start stop, e.mark.part ≠ .keyword ∧ e.mark.part ≠ .context := by
    intro part start stop hkeyword hcontext e he
    rw [part_of_mem_events he]
    exact ⟨hkeyword, hcontext⟩
  have hnext : ∀ task : Task, [task] ++ s.agenda = [task, .items] := by
    intro task
    rw [hitems]
    rfl
  cases h with
  | lineOver => exact ⟨rfl, by simp, .inl (hnext _)⟩
  | note | tailComment =>
    exact ⟨rfl, hpair (by decide) (by decide), .inr ⟨line, hnext _, rfl⟩⟩
  | textParen => exact ⟨rfl, by simp, .inr ⟨_, hnext _, rfl⟩⟩
  | contextParen _ _ _ hnone =>
    rw [htext] at hnone
    cases hnone
  | inlineSchema _ _ _ hschema =>
    rw [opensInlineSchema, Kind.hasSchemaBody, beq_iff_eq.mp htext] at hschema
    cases hschema
  | quoted | bare =>
    exact ⟨rfl, hpair (by decide) (by decide), .inr ⟨_, hnext _, line.declare_kind _⟩⟩

/-- A run that reads the line of a directive that bears text comes to its body. -/
theorem Run.to_body (h : Run limit s events t) (hdone : t.agenda = [])
    (ha : s.agenda = [.tail line, .items]) (htext : line.kind.hasTextBody = true) :
    ∃ front u line' back, Run limit s front u ∧ Run limit u back t ∧ events = front ++ back ∧
      u.agenda = [.body line', .items] ∧ line'.kind = line.kind ∧ u.contexts = s.contexts ∧
      ∀ e ∈ front, e.mark.part ≠ .keyword ∧ e.mark.part ≠ .context := by
  induction h generalizing line with
  | refl s =>
    rw [ha] at hdone
    cases hdone
  | @step s t m events hs hrest ih =>
    obtain ⟨task, later, ha', hperf⟩ := step_eq_moved_iff.mp hs
    obtain ⟨rfl, rfl⟩ := List.cons.inj (ha'.symm.trans ha)
    obtain ⟨hcontexts, hevents, hbody | ⟨line', htail, hkind⟩⟩ := hperf.tail_text rfl htext
    · exact ⟨m.events, m.next, line, events, .single hs, hrest, rfl, hbody, rfl, hcontexts, hevents⟩
    · obtain ⟨front, u, line'', back, hfront, hback, rfl, hu, hkind', hcontexts', hevents'⟩ :=
        ih hdone htail (hkind ▸ htext)
      refine ⟨m.events ++ front, u, line'', back, .step hs hfront, hback,
        (List.append_assoc _ _ _).symm, hu, hkind'.trans hkind, hcontexts'.trans hcontexts, ?_⟩
      intro e he
      rcases List.mem_append.mp he with he | he
      · exact hevents e he
      · exact hevents' e he

/-- Where no directive is read, a keyword comes before the next parameter. -/
theorem Performs.idle (ha : s.agenda = task :: later) (h : Performs limit (s.drop later) task m)
    (hreg : Regular s.agenda) (hline : task.line? = none) :
    (∃ start stop, m.events = Part.keyword.events start stop) ∨ m.next.line? = none ∧
      ∀ e ∈ m.events, e.mark.part ≠ .keyword ∧ e.mark.part ≠ .parameter := by
  have hlater := (ha ▸ hreg).line?_later
  have hcomment : ∀ {start stop : Nat}, ∀ e ∈ Part.comment.events start stop,
      e.mark.part ≠ .keyword ∧ e.mark.part ≠ .parameter := by
    intro start stop e he
    rw [part_of_mem_events he]
    exact ⟨by decide, by decide⟩
  cases h with
  | keyword => exact .inl ⟨_, _, rfl⟩
  | finish | lineEnd => exact .inr ⟨hlater, by simp⟩
  | endComment => exact .inr ⟨hlater, hcomment⟩
  | blankLine => exact .inr ⟨rfl, by simp⟩
  | lineComment | blockComment => exact .inr ⟨rfl, hcomment⟩
  | closeContext => exact .inr ⟨rfl, by simp⟩
  | lineOver | note | tailComment | textParen | contextParen | inlineSchema | quoted | bare
  | bodiless | noSchema | noText | schema | text | parenText => cases hline

/-- So up to the next keyword no parameter comes. -/
theorem Run.idle (h : Run limit s events t) (hreg : Regular s.agenda) (hline : s.line? = none) :
    ∀ e ∈ ownEvents events, e.mark.part ≠ .parameter := by
  induction h with
  | refl s =>
    intro e he
    cases he
  | @step s t m events hs hrest ih =>
    obtain ⟨task, later, ha, hperf⟩ := step_eq_moved_iff.mp hs
    have hnone : task.line? = none := by
      rw [State.line?, ha] at hline
      exact hline
    intro e he
    rcases hperf.idle ha hreg hnone with ⟨start, stop, hevents⟩ | ⟨hnext, hevents⟩
    · rw [hevents] at he
      cases he
    · rw [ownEvents_append fun e he => (hevents e he).1] at he
      rcases List.mem_append.mp he with he | he
      · exact (hevents e he).2
      · exact ih (hperf.regular (ha ▸ hreg)) hnext e he

/-! ## Every text and every directive -/

/-- The text of a directive is in parentheses, or the longest run of text below it. -/
theorem Run.text_longest {before after : List Event} {span : Span}
    (h : Run limit (.start source.bytes) events t)
    (hsplit : events = before ++ ⟨⟨.text, .closing⟩, span⟩ :: after) :
    ∃ k kind, tip before = some k ∧ Keyword.Spells (source.covered k) kind ∧
      kind.hasTextBody = true ∧
      if source.parenthesised before = true then
        (source.cursorAt (span.last + 1)).eatWhite.rest.head? = some Byte.closeParen
      else IsTextRun source k (inContext before) span := by
  obtain ⟨front, u, m, first, last, back, hfront, hstep, -, hm, rfl, -⟩ := h.at_event hsplit
  obtain ⟨task, later, ha, hperf⟩ := step_eq_moved_iff.mp hstep
  have hheld := (hfront.accounted (accounted_start source)).holds
  obtain ⟨line, rfl, htext, ⟨start, rfl⟩, hread⟩ := hperf.text_closing hheld hm
  have hplain : Event.IsPlain ⟨⟨.text, .opening⟩, start⟩ := isPlain_opening (by decide) _
  have hhead : headEnd (front ++ [⟨⟨.text, .opening⟩, start⟩]) = headEnd front := by
    refine headEnd_of_forall ?_ front
    intro e he
    rw [List.mem_singleton.mp he]
    exact ⟨by simp, by simp⟩
  obtain ⟨k, htip, hbelow, hparen⟩ := hfront.situated ha
  obtain ⟨k', hlast, hspells⟩ := hfront.tracked.announced (by rw [State.line?, ha]; rfl)
  obtain rfl : k = k' := Option.some.inj ((keywords_of_tip htip).symm.trans hlast)
  refine ⟨k, line.kind, (tip_plain hplain).trans htip, hspells, htext, ?_⟩
  rw [parenthesised_congr hhead, hparen]
  by_cases hopen : line.opened = true
  · rw [if_pos hopen] at hread ⊢
    exact hread
  · rw [if_neg hopen] at hread ⊢
    obtain ⟨stop, text, back, rfl, hread⟩ := hread
    have hcontext : (! u.contexts.isEmpty) = inContext front := hfront.inContext_eq
    rw [inContext_plain hplain, ← hcontext]
    refine hread.isTextRun (hheld.move u.cursor.takes_eatWhite) ?_
    rw [Source.below, hbelow]

/-- The body of a directive that bears text, if no text comes before the next
keyword: nothing could be read, or it is in parentheses. -/
theorem Performs.body_idle {rest : List Event} (h : Performs limit s (.body line) m)
    (hitems : s.agenda = [.items]) (htext : line.kind.hasTextBody = true)
    (hfree : ∀ e ∈ ownEvents (m.events ++ rest), e.mark.part ≠ .text) :
    endsText (! s.contexts.isEmpty) s.cursor.eatWhite.rest = true ∨
      line.opened = true ∧ m.events = [] ∧ m.next.agenda = [.lineEnd .paren, .items] := by
  have hpair : ∀ {start stop : Nat}, m.events ≠ Part.text.events start stop := by
    intro start stop hevents
    rw [hevents] at hfree
    exact hfree ⟨⟨.text, .opening⟩, .point start⟩ (by simp [ownEvents, Part.events]) rfl
  have hbody : line.kind.body? = some .text := beq_iff_eq.mp htext
  cases h with
  | bodiless hnone =>
    rcases hnone with ⟨-, hno⟩ | ⟨-, hno⟩
    · rw [htext] at hno
      cases hno
    · rw [hbody] at hno
      cases hno
  | noSchema _ hschema | schema _ hschema =>
    rw [hbody] at hschema
    cases hschema
  | noText _ _ hends => exact .inl hends
  | text => exact absurd rfl hpair
  | @parenText _ range _ _ hopen =>
    cases range with
    | none => exact .inr ⟨hopen, rfl, congrArg (Task.lineEnd .paren :: ·) hitems⟩
    | some range => exact absurd rfl hpair

/-- A directive that bears text has none, outside parentheses, only where its text
would be interrupted at once. -/
theorem Run.text_absent {before after : List Event} {k : Span} {kind : Kind}
    (h : Run limit (.start source.bytes) events t) (hdone : t.agenda = [])
    (hsplit : events = before ++ ⟨⟨.keyword, .closing⟩, k⟩ :: after)
    (hspells : Keyword.Spells (source.covered k) kind) (htext : kind.hasTextBody = true)
    (hfree : ∀ e ∈ ownEvents after, e.mark.part ≠ .text)
    (hno : source.parenthesised (before ++ ⟨⟨.keyword, .closing⟩, k⟩ :: ownEvents after) = false) :
    endsText (inContext before) (source.below k).rest = true := by
  obtain ⟨front, u, m, first, last, back, hfront, hstep, hback, hm, hbefore, hafter⟩ :=
    h.at_event hsplit
  obtain ⟨task, later, ha, hperf⟩ := step_eq_moved_iff.mp hstep
  have hacc := hfront.accounted (accounted_start source)
  obtain ⟨rfl, hagenda, hcontexts, span, rfl⟩ :=
    hperf.keyword_closing hacc.holds (ha ▸ hacc.regular) hspells hm
  obtain rfl : after = back := hafter
  obtain ⟨mid, v, line, rest, hmid, hrest, rfl, hv, hkind, hcontexts', hplain⟩ :=
    hback.to_body hdone hagenda htext
  rw [ownEvents_append fun e he => (hplain e he).1] at hfree hno
  have hevents : front ++ m.events = before ++ [⟨⟨.keyword, .closing⟩, k⟩] := by
    rw [hm, hbefore, List.append_assoc]
  have hfront' : Run limit (.start source.bytes) (before ++ [⟨⟨.keyword, .closing⟩, k⟩] ++ mid) v :=
    hevents ▸ (hfront.trans (.single hstep)).trans hmid
  obtain ⟨k', htip, hbelow, hparen⟩ := hfront'.situated hv
  obtain rfl : k = k' := by
    rw [tip_of_forall hplain, tip_keyword] at htip
    exact Option.some.inj htip
  cases hrest with
  | refl =>
    rw [hv] at hdone
    cases hdone
  | @step _ _ m' more hs hmore =>
    obtain ⟨task', later', ha', hperf'⟩ := step_eq_moved_iff.mp hs
    obtain ⟨rfl, rfl⟩ := List.cons.inj (ha'.symm.trans hv)
    rcases hperf'.body_idle rfl (hkind ▸ htext)
      fun e he => hfree e (List.mem_append_right mid he) with hends | ⟨hopen, hnone, hnext⟩
    · have hplain' : Event.IsPlain ⟨⟨.keyword, .opening⟩, span⟩ := isPlain_opening (by decide) _
      have hcontext : (! v.contexts.isEmpty) = inContext front := by
        rw [hcontexts', hcontexts]
        exact hfront.inContext_eq
      rw [Source.below, hbelow, hbefore, inContext_plain hplain', ← hcontext]
      exact hends
    · -- behind a closing parenthesis nothing adds to the head
      have hline : m'.next.line? = none := by
        rw [State.line?, hnext]
        rfl
      have hidle := hmore.idle (hnext ▸ .under _ (by simp)) hline
      have hhead : headEnd (before ++ ⟨⟨.keyword, .closing⟩, k⟩ ::
            (mid ++ ownEvents (m'.events ++ more)))
          = headEnd (before ++ [⟨⟨.keyword, .closing⟩, k⟩] ++ mid) := by
        rw [hnone, List.nil_append, List.append_cons, ← List.append_assoc]
        exact headEnd_of_forall (fun e he => ⟨part_ne_keyword he, hidle e he⟩) _
      rw [parenthesised_congr hhead, hparen, hopen] at hno
      cases hno

end

end Scan

/-- Text that is not in parentheses is the longest run of text below the line of its
directive. A directive that bears text has none, outside parentheses, only if the
document ends below its line or what comes there interrupts text. -/
theorem text_maximal {source : Source} {limit : Nat} {events : List Event}
    (h : source.scan limit = .ok events) :
    (∀ ⦃before span after⦄, events = before ++ ⟨⟨.text, .closing⟩, span⟩ :: after →
      ∃ k kind, tip before = some k ∧ Keyword.Spells (source.covered k) kind ∧
        kind.hasTextBody = true ∧
        if source.parenthesised before = true then
          (source.cursorAt (span.last + 1)).eatWhite.rest.head? = some Byte.closeParen
        else IsTextRun source k (inContext before) span) ∧
    ∀ ⦃before k kind after⦄, events = before ++ ⟨⟨.keyword, .closing⟩, k⟩ :: after →
      Keyword.Spells (source.covered k) kind → kind.hasTextBody = true →
      (∀ e ∈ ownEvents after, e.mark.part ≠ .text) →
      source.parenthesised (before ++ ⟨⟨.keyword, .closing⟩, k⟩ :: ownEvents after) = false →
      (source.below k).rest = [] ∨
        Scan.interrupts (inContext before) (source.below k).rest = true := by
  obtain ⟨t, hrun, hdone⟩ := Source.scan_eq_ok_iff.mp h
  refine ⟨?_, ?_⟩
  · intro before span after hsplit
    exact hrun.text_longest hsplit
  · intro before k kind after hsplit hspells htext hfree hno
    exact Scan.endsText_iff.mp (hrun.text_absent hdone hsplit hspells htext hfree hno)

/-- A text of two lines in a context, with blank lines around and between them, and a
directive without text. -/
theorem text_maximal_described :
    let source : Source := ⟨"", Utf8.bytes
      "URL (\nDescription // d\n\n one\n\n two \t\n\n)\nDescription\n\nURL", by decide⟩
    source.scan 1 = .ok (Part.keyword.events 0 3 ++ [⟨⟨.context, .opening⟩, .point 4⟩]
        ++ Part.keyword.events 6 17 ++ Part.note.events 18 22 ++ Part.text.events 25 34
        ++ [⟨⟨.context, .closing⟩, ⟨4, 38⟩⟩] ++ Part.keyword.events 40 51
        ++ Part.keyword.events 53 56) ∧
      IsTextRun source ⟨6, 16⟩ true ⟨25, 33⟩ ∧
      ((source.below ⟨40, 50⟩).rest = [] ∨
        Scan.interrupts false (source.below ⟨40, 50⟩).rest = true) := by
  intro source
  have hscan : source.scan 1 = .ok (Part.keyword.events 0 3
      ++ [⟨⟨.context, .opening⟩, .point 4⟩] ++ Part.keyword.events 6 17
      ++ Part.note.events 18 22 ++ Part.text.events 25 34
      ++ [⟨⟨.context, .closing⟩, ⟨4, 38⟩⟩] ++ Part.keyword.events 40 51
      ++ Part.keyword.events 53 56) := by
    decide +kernel
  obtain ⟨htext, hnone⟩ := text_maximal hscan
  refine ⟨hscan, ?_, ?_⟩
  · let before := Part.keyword.events 0 3 ++ [⟨⟨.context, .opening⟩, .point 4⟩]
      ++ Part.keyword.events 6 17 ++ Part.note.events 18 22 ++ [⟨⟨.text, .opening⟩, .point 25⟩]
    obtain ⟨k, -, htip, -, -, hrun⟩ := @htext before ⟨25, 33⟩ _ rfl
    obtain rfl : (⟨6, 16⟩ : Span) = k := Option.some.inj htip
    rw [if_neg (by decide +kernel)] at hrun
    exact hrun
  · let before := Part.keyword.events 0 3 ++ [⟨⟨.context, .opening⟩, .point 4⟩]
      ++ Part.keyword.events 6 17 ++ Part.note.events 18 22 ++ Part.text.events 25 34
      ++ [⟨⟨.context, .closing⟩, ⟨4, 38⟩⟩, ⟨⟨.keyword, .opening⟩, .point 40⟩]
    have hspells : Keyword.Spells (source.covered ⟨40, 50⟩) .description :=
      .inl (by decide +kernel)
    exact @hnone before ⟨40, 50⟩ .description (Part.keyword.events 53 56) rfl hspells rfl
      (by decide) (by decide +kernel)

end ApiDoc
