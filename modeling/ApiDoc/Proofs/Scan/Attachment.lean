import ApiDoc.Proofs.Scan.Ledger

/-!
# What belongs to a directive

A parameter, an annotation, a body or an opening parenthesis names no
directive; it belongs to the one at hand. That is the directive whose keyword
came last, and none once a context has been closed behind it.

* **At hand** (`tip`): what a stream tells of this.
* **Places** (`Belongs`): what belongs to a directive stands on its line, or is
  a body with nothing but white bytes between the line and it.
* **Scans** (`Source.attached`): at every such event of a scan a directive is at
  hand, and the event stands where it belongs to this one.
-/

namespace ApiDoc

/-! ## The directive at hand -/

/-- The keyword of the directive at hand behind `e`, if `k` is that before it. -/
def Event.tip (k : Option Span) (e : Event) : Option Span :=
  match e.mark.part, e.mark.edge with
  | .keyword, .closing => some e.span
  | .context, .closing => none
  | _, _ => k

/-- The keyword of the directive at hand behind a stream. -/
def tip (events : List Event) : Option Span :=
  events.foldl Event.tip none

/-- A part of a directive. Contexts are told by their edges. -/
def Part.isOwned : Part → Bool
  | parameter | note | schema | text => true
  | keyword | context | comment => false

def Part.isBody : Part → Bool
  | schema | text => true
  | keyword | parameter | note | context | comment => false

/-- An event that says something of the directive at hand. -/
def Event.isOwned (e : Event) : Bool :=
  e.mark.part.isOwned || e.mark == ⟨.context, .opening⟩

/-- The offset lies behind the keyword and on its line. -/
def OnLine (source : Source) (k : Span) (p : Nat) : Prop :=
  k.last < p ∧ ∀ j, k.last < j → j < p → ∃ b, source.byte? j = some b ∧ Byte.isBreak b = false

/-- Between the line of the keyword and the offset stand only white bytes. -/
def BehindLine (source : Source) (k : Span) (p : Nat) : Prop :=
  ∃ stop, OnLine source k stop ∧ stop ≤ p ∧
    ∀ j, stop ≤ j → j < p → ∃ b, source.byte? j = some b ∧ Byte.isWhite b = true

/-- The event stands on the line of the directive with this keyword, or it is of
a body and stands behind the line. -/
def Belongs (source : Source) (k : Span) (e : Event) : Prop :=
  OnLine source k e.span.first ∨
    e.mark.part.isBody = true ∧ BehindLine source k e.span.first

/-- Every event of a directive belongs to the one at hand. -/
inductive Attached (source : Source) : List Event → Prop
  | nil : Attached source []
  | concat {events : List Event} {e : Event} (h : Attached source events)
      (he : e.isOwned = true → ∃ k, tip events = some k ∧ Belongs source k e) :
      Attached source (events ++ [e])

section

variable {source : Source} {events before after : List Event} {e : Event} {part : Part}
  {k : Span} {start stop p : Nat}

theorem tip_concat (events : List Event) (e : Event) :
    tip (events ++ [e]) = e.tip (tip events) :=
  List.foldl_concat ..

theorem tip_plain (h : e.IsPlain) : tip (events ++ [e]) = tip events := by
  obtain ⟨⟨part, edge⟩, span⟩ := e
  rw [tip_concat]
  cases part with
  | keyword =>
    cases edge with
    | opening => rfl
    | closing => exact absurd rfl h.1
  | context => exact absurd rfl h.2
  | parameter | note | schema | text | comment => rfl

theorem tip_opened (events : List Event) (span : Span) :
    tip (events ++ [⟨⟨.context, .opening⟩, span⟩]) = tip events :=
  tip_concat ..

theorem tip_keyword (events : List Event) (span : Span) :
    tip (events ++ [⟨⟨.keyword, .closing⟩, span⟩]) = some span :=
  tip_concat ..

theorem tip_closed (events : List Event) (span : Span) :
    tip (events ++ [⟨⟨.context, .closing⟩, span⟩]) = none :=
  tip_concat ..

theorem tip_lexeme (hkeyword : part ≠ .keyword) (hcontext : part ≠ .context) :
    tip (events ++ part.events start stop) = tip events := by
  have hclosing : Event.IsPlain ⟨⟨part, .closing⟩, .ofRange start stop⟩ :=
    ⟨by simp [hkeyword], hcontext⟩
  rw [Part.events, List.append_cons, tip_plain hclosing, tip_plain (isPlain_opening hcontext _)]

theorem tip_events (events : List Event) (start stop : Nat) :
    tip (events ++ Part.keyword.events start stop) = some (.ofRange start stop) := by
  rw [Part.events, List.append_cons]
  exact tip_keyword _ _

/-! ## Streams -/

theorem Span.first_ofRange (h : (Span.ofRange start stop).isSet = true) :
    (Span.ofRange start stop).first = start := by
  unfold Span.ofRange at h ⊢
  split at h
  · rw [if_pos ‹_›]
  · exact absurd h (by decide)

namespace Attached

theorem init (h : Attached source (events ++ [e])) :
    Attached source events ∧
      (e.isOwned = true → ∃ k, tip events = some k ∧ Belongs source k e) := by
  generalize hall : events ++ [e] = all at h
  cases h with
  | nil => exact absurd hall (by simp)
  | concat h he =>
    obtain ⟨rfl, hlast⟩ := List.append_inj' hall rfl
    cases hlast
    exact ⟨h, he⟩

/-- The directive at hand where an event of it comes. -/
theorem belongs (h : Attached source (before ++ e :: after)) (he : e.isOwned = true) :
    ∃ k, tip before = some k ∧ Belongs source k e := by
  induction after using List.reverseRecOn with
  | nil => exact h.init.2 he
  | append_singleton after last ih =>
    rw [← List.cons_append, ← List.append_assoc] at h
    exact ih h.init.1

/-- A part that belongs to no directive. -/
theorem other (h : Attached source events) (hpart : part.isOwned = false)
    (hcontext : part ≠ .context) (start stop : Nat) :
    Attached source (events ++ part.events start stop) := by
  have hnot : ∀ edge span, Event.isOwned ⟨⟨part, edge⟩, span⟩ = false := by
    intro edge span
    simp [Event.isOwned, hpart, hcontext]
  rw [Part.events, List.append_cons]
  refine (h.concat ?_).concat ?_
  · rw [hnot]
    exact fun hfalse => absurd hfalse Bool.false_ne_true
  · rw [hnot]
    exact fun hfalse => absurd hfalse Bool.false_ne_true

/-- Both events of a part of the directive at hand. -/
theorem owned (h : Attached source events) (hcontext : part ≠ .context)
    (hset : (Span.ofRange start stop).isSet = true) (htip : tip events = some k)
    (hplace : OnLine source k start ∨ part.isBody = true ∧ BehindLine source k start) :
    Attached source (events ++ part.events start stop) := by
  rw [Part.events, List.append_cons]
  have hopening : Belongs source k ⟨⟨part, .opening⟩, .point start⟩ := hplace
  refine (h.concat fun _ => ⟨k, htip, hopening⟩).concat fun _ => ⟨k, ?_, ?_⟩
  · rw [tip_plain (isPlain_opening hcontext _)]
    exact htip
  · rw [Belongs, Span.first_ofRange hset]
    exact hplace

end Attached

/-! ## Places -/

variable {c d : Cursor} {taken : List UInt8}

theorem OnLine.behindLine (h : OnLine source k p) : BehindLine source k p :=
  ⟨p, h, Nat.le_refl p, fun _ hj hlt => absurd hlt (Nat.not_lt.mpr hj)⟩

/-- Bytes without a break do not leave the line. -/
theorem OnLine.move (h : OnLine source k c.pos) (hheld : source.Holds c) (htakes : c.Takes taken d)
    (hline : ∀ b ∈ taken, Byte.isBreak b = false) : OnLine source k d.pos := by
  have hpos := htakes.pos
  refine ⟨Nat.lt_of_lt_of_le h.1 (by omega), ?_⟩
  intro j hj hlt
  by_cases hc : j < c.pos
  · exact h.2 j hj hc
  · obtain ⟨b, hmem, hb⟩ := hheld.byte?_between htakes (Nat.le_of_not_lt hc) hlt
    exact ⟨b, hb, hline b hmem⟩

theorem OnLine.eatBlanks (h : OnLine source k c.pos) (hheld : source.Holds c) :
    OnLine source k c.eatBlanks.pos :=
  h.move hheld c.takes_eatBlanks fun _ hb =>
    Byte.isBreak_eq_false_of_isBlank (List.mem_takeWhile_imp hb)

theorem OnLine.advance {b : UInt8} {tail : List UInt8} (h : OnLine source k c.pos)
    (hheld : source.Holds c) (hr : c.rest = b :: tail) (hb : Byte.isBreak b = false) :
    OnLine source k c.advance.pos := by
  refine h.move hheld (Cursor.takes_advance_one hr) ?_
  intro d hd
  rw [List.mem_singleton.mp hd]
  exact hb

theorem BehindLine.move (h : BehindLine source k c.pos) (hheld : source.Holds c)
    (htakes : c.Takes taken d) (hwhite : Scan.White taken) : BehindLine source k d.pos := by
  obtain ⟨stop, hline, hle, hall⟩ := h
  have hpos := htakes.pos
  refine ⟨stop, hline, by omega, ?_⟩
  intro j hj hlt
  by_cases hc : j < c.pos
  · exact hall j hj hc
  · obtain ⟨b, hmem, hb⟩ := hheld.byte?_between htakes (Nat.le_of_not_lt hc) hlt
    exact ⟨b, hb, hwhite b hmem⟩

end

/-! ## Scans -/

namespace Scan

/-- Where the scanner stands while it reads a directive. -/
def Beside (source : Source) (events : List Event) (c : Cursor) : Task → Prop
  | .tail _ => ∃ k, tip events = some k ∧ OnLine source k c.pos
  | .body _ => ∃ k, tip events = some k ∧ BehindLine source k c.pos
  | .items => True
  | .lineEnd _ => True

/-- What a scan that has given `events` keeps between two steps. -/
structure Attending (source : Source) (events : List Event) (s : State) : Prop where
  attached : Attached source events
  beside : ∀ ⦃task later⦄, s.agenda = task :: later → Beside source events s.cursor task

section

variable {limit : Nat} {source : Source} {events : List Event} {s t : State} {task : Task}
  {later : List Task} {m : Move} {line : Line}

theorem attending_start (source : Source) : Attending source [] (State.start source.bytes) where
  attached := .nil
  beside := by
    intro task later h
    obtain ⟨rfl, -⟩ := List.cons.inj h
    trivial

theorem isSet_closing {part : Part} {start stop : Nat} {events : List Event}
    (h : ∀ e ∈ events ++ part.events start stop, e.span.isSet = true) :
    (Span.ofRange start stop).isSet = true :=
  h ⟨⟨part, .closing⟩, .ofRange start stop⟩ (List.mem_append_right _ (by simp [Part.events]))

/-- What a step gives for a directive belongs to the one at hand. -/
theorem Performs.attached (ha : s.agenda = task :: later)
    (h : Performs limit (s.drop later) task m) (hheld : source.Holds s.cursor)
    (hset : ∀ e ∈ events ++ m.events, e.span.isSet = true) (hs : Attending source events s) :
    Attached source (events ++ m.events) := by
  have hbeside := hs.beside ha
  cases h with
  | finish | blankLine | lineOver | textParen | bodiless | noSchema | noText | lineEnd =>
    rw [List.append_nil]
    exact hs.attached
  | lineComment | blockComment | keyword | tailComment | endComment =>
    exact hs.attached.other rfl (by decide) _ _
  | closeContext => exact hs.attached.concat fun hfalse => absurd hfalse Bool.false_ne_true
  | note | inlineSchema | quoted | bare =>
    obtain ⟨k, htip, hline⟩ := hbeside
    exact hs.attached.owned (by decide) (isSet_closing hset) htip
      (.inl (hline.eatBlanks hheld))
  | contextParen =>
    obtain ⟨k, htip, hline⟩ := hbeside
    exact hs.attached.concat fun _ => ⟨k, htip, .inl (hline.eatBlanks hheld)⟩
  | schema | text =>
    obtain ⟨k, htip, hline⟩ := hbeside
    have hwhite : White (s.cursor.rest.takeWhile Byte.isWhite) :=
      fun _ hb => List.mem_takeWhile_imp hb
    exact hs.attached.owned (by decide) (isSet_closing hset) htip
      (.inr ⟨rfl, hline.move hheld s.cursor.takes_eatWhite hwhite⟩)
  | @parenText _ range behind tail _ _ hlines =>
    obtain ⟨k, htip, hline⟩ := hbeside
    have hblanks := hline.move hheld s.cursor.takes_eatBlanks (white_blanks _)
    obtain ⟨taken, htakes, hrange⟩ := takes_parenLines none s.cursor.eatBlanks
    have hrange := hlines ▸ hrange
    rcases hrange with ⟨rfl, -⟩ | ⟨front, text, back, rfl, -, -, hfront, -, rfl⟩
    · rw [Option.map_none, Option.getD_none, List.append_nil]
      exact hs.attached
    · -- white lines stand before the text
      rw [List.append_assoc] at htakes
      obtain ⟨d, hd, -⟩ := htakes.split
      have hstart := hblanks.move (hheld.move s.cursor.takes_eatBlanks) hd hfront
      rw [hd.pos] at hstart
      exact hs.attached.owned (by decide) (isSet_closing hset) htip
        (.inr ⟨rfl, hstart⟩)

/-- While a directive is read, the scanner stays beside its keyword. -/
theorem Performs.beside (ha : s.agenda = task :: later)
    (h : Performs limit (s.drop later) task m) (hheld : source.Holds s.cursor)
    (hreg : Regular s.agenda) (hs : Beside source events s.cursor task) {next : Task}
    {rest : List Task} (hnext : m.next.agenda = next :: rest) :
    Beside source (events ++ m.events) m.next.cursor next := by
  have hblanks := hheld.move s.cursor.takes_eatBlanks
  rw [ha] at hreg
  cases h with
  | finish | bodiless | noSchema | noText | text | lineEnd | endComment =>
    cases hreg.eq_items hnext
    trivial
  | blankLine | lineComment | blockComment | closeContext | inlineSchema | schema | parenText =>
    obtain ⟨rfl, -⟩ := List.cons.inj hnext
    trivial
  | @keyword kind behind hk =>
    obtain ⟨rfl, -⟩ := List.cons.inj hnext
    obtain ⟨hlt, -⟩ := spells_of_recognise hblanks hk
    refine ⟨_, tip_events _ _ _, ?_⟩
    rw [Span.ofRange_of_lt hlt]
    refine ⟨Nat.sub_one_lt_of_lt hlt, ?_⟩
    -- nothing lies between the keyword and the cursor
    intro j hj hstop
    exact absurd hstop (Nat.not_lt.mpr (Nat.le_of_pred_lt hj))
  | lineOver =>
    obtain ⟨rfl, -⟩ := List.cons.inj hnext
    obtain ⟨k, htip, hline⟩ := hs
    rw [List.append_nil]
    exact ⟨k, htip, (hline.eatBlanks hheld).behindLine.move hblanks (Cursor.takes_eatBreak _)
      (white_break _)⟩
  | note | tailComment =>
    obtain ⟨rfl, -⟩ := List.cons.inj hnext
    obtain ⟨k, htip, hline⟩ := hs
    refine ⟨k, ?_, (hline.eatBlanks hheld).move hblanks (Cursor.takes_eatLine _)
      fun b hb => Cursor.isBreak_of_mem_line hb⟩
    rw [lineEvents, tip_lexeme (by decide) (by decide)]
    exact htip
  | textParen _ hr =>
    obtain ⟨rfl, -⟩ := List.cons.inj hnext
    obtain ⟨k, htip, hline⟩ := hs
    rw [List.append_nil]
    exact ⟨k, htip, (hline.eatBlanks hheld).advance hblanks hr rfl⟩
  | contextParen _ hr =>
    obtain ⟨rfl, -⟩ := List.cons.inj hnext
    obtain ⟨k, htip, hline⟩ := hs
    rw [← tip_opened events (.point s.cursor.eatBlanks.pos)] at htip
    exact ⟨k, htip, (hline.eatBlanks hheld).advance hblanks hr rfl⟩
  | quoted _ hr hclose =>
    obtain ⟨rfl, -⟩ := List.cons.inj hnext
    obtain ⟨k, htip, hline⟩ := hs
    obtain ⟨word, htakes, -, hword⟩ := takes_quoted hr hclose
    refine ⟨k, ?_, (hline.eatBlanks hheld).move hblanks htakes hword⟩
    rw [parameter, tip_lexeme (by decide) (by decide)]
    exact htip
  | bare =>
    obtain ⟨rfl, -⟩ := List.cons.inj hnext
    obtain ⟨k, htip, hline⟩ := hs
    refine ⟨k, ?_, (hline.eatBlanks hheld).move hblanks (Cursor.takes_eatWhile _ _) ?_⟩
    · rw [bareParameter, parameter, tip_lexeme (by decide) (by decide)]
      exact htip
    · intro b hb
      have hwhite : Byte.isWhite b = false := by simpa using List.mem_takeWhile_imp hb
      exact (Byte.isWhite_eq_false_iff.mp hwhite).2

theorem Performs.attending (ha : s.agenda = task :: later)
    (h : Performs limit (s.drop later) task m) (hacc : Accounted source events s)
    (hs : Attending source events s) : Attending source (events ++ m.events) m.next :=
  ⟨h.attached ha hacc.holds (fun e he => ((h.accounted ha hacc).spans e he).1) hs,
    fun _ _ hnext => h.beside ha hacc.holds hacc.regular (hs.beside ha) hnext⟩

theorem Run.attending (h : Run limit (State.start source.bytes) events t) :
    Attending source events t := by
  refine h.preserves_reached (P := Attending source) ?_ (attending_start source)
  intro before u task later m hrun ha hperf hs
  exact hperf.attending ha (hrun.accounted (accounted_start source)) hs

end

end Scan

/-- What a scan gives for a directive belongs to the one at hand. -/
theorem Source.attached {source : Source} {limit : Nat} {events : List Event}
    (h : source.scan limit = .ok events) : Attached source events := by
  obtain ⟨t, hrun, -⟩ := Source.scan_eq_ok_iff.mp h
  exact hrun.attending.attached

end ApiDoc
