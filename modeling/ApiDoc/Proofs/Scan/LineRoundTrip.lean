import ApiDoc.Proofs.Scan.Coverage
import ApiDoc.Proofs.Scan.DirectiveLine

/-!
# Directive lines are read back

A line that is written down from a keyword, its parameters, a parenthesis and an
annotation is scanned to just these.

* **Readings** (`Source.reading`): what events say is their marks and the bytes
  under them. A word that stands in a source is read as the part it is taken for.
* **Ends of lines** (`run_paren`, `run_note`): a parenthesis opens a context, and an
  annotation takes the rest of its line, of which the blanks at the end are no part.
* **Lines** (`scan_written`): whatever the parameters and the blanks are, the scan
  gives the events of the line, and they read as its parts.
* **Values** (`quote_survives`): so a value that is quoted comes back.
-/

namespace ApiDoc

/-! ## Readings -/

/-- The marks of events, each with the bytes under it. -/
def Source.reading (source : Source) (events : List Event) : List (Mark × List UInt8) :=
  events.map fun e => (e.mark, source.covered e.span)

/-- A word as a part: the opening names its first byte, the closing the whole. -/
def Part.reading (part : Part) (word : List UInt8) : List (Mark × List UInt8) :=
  [(⟨part, .opening⟩, word.take 1), (⟨part, .closing⟩, word)]

namespace Source

variable {source : Source} {pos : Nat} {word rest : List UInt8} {events more : List Event}

theorem reading_append (source : Source) (events more : List Event) :
    source.reading (events ++ more) = source.reading events ++ source.reading more :=
  List.map_append

/-- What stands at a cursor is covered from there on. -/
theorem covered_word (hheld : source.Holds ⟨pos, word ++ rest⟩) (hne : word ≠ []) :
    source.covered (.ofRange pos (pos + word.length)) = word :=
  hheld.covered (d := ⟨pos + word.length, rest⟩) ⟨rfl, rfl⟩ hne

theorem covered_point {b : UInt8} (hheld : source.Holds ⟨pos, b :: rest⟩) :
    source.covered (.point pos) = [b] := by
  have hpoint : Span.point pos = .ofRange pos (pos + 1) := by
    rw [Span.ofRange_of_lt (Nat.lt_succ_self pos)]
    rfl
  rw [hpoint]
  show source.covered (.ofRange pos (pos + [b].length)) = [b]
  exact covered_word hheld (List.cons_ne_nil b [])

/-- The events of a part read as the word that stands there. -/
theorem reading_events (hheld : source.Holds ⟨pos, word ++ rest⟩) (hne : word ≠ [])
    (part : Part) : source.reading (part.events pos (pos + word.length)) = part.reading word := by
  obtain ⟨b, more, rfl⟩ := List.exists_cons_of_ne_nil hne
  have hfirst : source.covered (.point pos) = [b] := covered_point hheld
  have hwhole : source.covered (.ofRange pos (pos + (b :: more).length)) = b :: more :=
    covered_word hheld hne
  show [((⟨part, .opening⟩ : Mark), source.covered (.point pos)),
    (⟨part, .closing⟩, source.covered (.ofRange pos (pos + (b :: more).length)))] = _
  rw [hfirst, hwhole]
  rfl

end Source

/-! ## Lines as they are written -/

namespace Scan

/-- Whether a word is a parameter of a line that bears no schema: it starts neither
a quoted parameter nor a parenthesis or a remark. -/
def isCompact : List UInt8 → Bool
  | [] => false
  | b :: more =>
    (b :: more).all (! Byte.isWhite ·) && ! [Byte.quote, Byte.openParen, Byte.hash].contains b
      && ! (b == Byte.slash && more.headD 0 == Byte.slash)

/-- The bytes of a token that may be missing. -/
def optional (t? : Option Token) : List UInt8 :=
  t?.toList.flatMap Token.bytes

/-- The events of an annotation with the blanks before it at `pos`. -/
def noteEvents (pos : Nat) (note? : Option Token) (trail : List UInt8) : List Event :=
  note?.toList.flatMap fun t =>
    Part.note.events (pos + t.blanks.length)
      (pos + t.blanks.length + (Cursor.trimEnd (t.word ++ trail)).length)

/-- A directive line that bears no body, written down. -/
structure WrittenLine where
  kind : Kind
  keyword : List UInt8
  tokens : List Token
  /-- The parenthesis at the end, if there is one. -/
  paren? : Option Token
  /-- The annotation behind it, if there is one. -/
  note? : Option Token
  /-- The blanks before the line feed. -/
  trail : List UInt8
  spells : Keyword.Spells keyword kind
  bodiless : kind.body? = none
  words : ∀ t ∈ tokens, isCompact t.word = true ∨ Byte.IsQuoted t.word
  isParen : ∀ t ∈ paren?, t.word = [Byte.openParen]
  isNote : ∀ t ∈ note?,
    [Byte.slash, Byte.slash] <+: t.word ∧ t.word.all (! Byte.isBreak ·) = true
  isTrail : trail.all Byte.isBlank = true

namespace WrittenLine

/-- The line that closes the parenthesis. -/
def closing (l : WrittenLine) : List UInt8 :=
  if l.paren?.isSome then [Byte.closeParen, Byte.lineFeed] else []

/-- The line, and the one that closes its parenthesis. -/
def bytes (l : WrittenLine) : List UInt8 :=
  l.keyword ++ (l.tokens.flatMap Token.bytes ++ (optional l.paren? ++ (optional l.note?
    ++ (l.trail ++ Byte.lineFeed :: l.closing))))

/-- The offset behind the parameters. -/
def parenPos (l : WrittenLine) : Nat :=
  l.keyword.length + (l.tokens.flatMap Token.bytes).length

/-- The offset behind the parenthesis. -/
def notePos (l : WrittenLine) : Nat :=
  l.parenPos + (optional l.paren?).length

/-- The offset of the next line. -/
def nextPos (l : WrittenLine) : Nat :=
  l.notePos + (optional l.note?).length + l.trail.length + 1

/-- The offset of the parenthesis. -/
def start? (l : WrittenLine) : Option Nat :=
  l.paren?.map fun t => l.parenPos + t.blanks.length

/-- The text of the annotation. The blanks at the end of the line do not belong to
it. -/
def noteWord? (l : WrittenLine) : Option (List UInt8) :=
  l.note?.map fun t => Cursor.trimEnd (t.word ++ l.trail)

/-- All from the parenthesis up to the one that closes it. -/
def context (l : WrittenLine) : List UInt8 :=
  Byte.openParen :: (optional l.note? ++ (l.trail ++ [Byte.lineFeed, Byte.closeParen]))

/-- The events of the line. -/
def events (l : WrittenLine) : List Event :=
  Part.keyword.events 0 l.keyword.length ++ tokenEvents l.keyword.length l.tokens
    ++ l.start?.toList.map (fun start => ⟨⟨.context, .opening⟩, .point start⟩)
    ++ noteEvents l.notePos l.note? l.trail
    ++ l.start?.toList.map (fun start => ⟨⟨.context, .closing⟩, ⟨start, l.nextPos⟩⟩)

/-- The parts of the line. -/
def parts (l : WrittenLine) : List (Mark × List UInt8) :=
  Part.keyword.reading l.keyword ++ l.tokens.flatMap (fun t => Part.parameter.reading t.word)
    ++ l.paren?.toList.map (fun t => (⟨.context, .opening⟩, t.word))
    ++ l.noteWord?.toList.flatMap Part.note.reading
    ++ l.paren?.toList.map (fun _ => (⟨.context, .closing⟩, l.context))

end WrittenLine

/-! ## The ends of lines -/

variable {limit pos : Nat} {contexts : List Nat} {rest trail : List UInt8} {line : Line}
  {paren? note? : Option Token}

/-- Where no schema is borne, a compact word is a parameter. -/
theorem isBare_of_isCompact {word : List UInt8} (hschema : line.kind.hasSchemaBody = false)
    (h : isCompact word = true) : isBare line word = true := by
  cases word with
  | nil => cases h
  | cons b more =>
    have hopens : opensInlineSchema line b (more.headD 0) = false := by
      rw [opensInlineSchema, hschema, Bool.false_and]
    rw [isCompact] at h
    rw [isBare, hopens, h]
    rfl

/-- Only an annotation and blanks stand before the line feed. -/
theorem endsDirectiveLine_note
    (hnote : ∀ t ∈ note?, [Byte.slash, Byte.slash] <+: t.word)
    (htrail : ∀ b ∈ trail, Byte.isBlank b = true) :
    endsDirectiveLine
      (⟨pos, optional note? ++ (trail ++ Byte.lineFeed :: rest)⟩ : Cursor).eatBlanks = true := by
  cases note? with
  | none =>
    have hcursor : (⟨pos, trail ++ Byte.lineFeed :: rest⟩ : Cursor).eatBlanks
        = ⟨pos + trail.length, Byte.lineFeed :: rest⟩ := by
      refine Cursor.eatWhile_of_word htrail ?_
      intro b tail hr
      cases hr
      rfl
    show endsDirectiveLine (⟨pos, trail ++ Byte.lineFeed :: rest⟩ : Cursor).eatBlanks = true
    rw [hcursor]
    rfl
  | some t =>
    obtain ⟨text, htext⟩ := hnote t rfl
    have hcursor : (⟨pos, t.blanks ++ (t.word ++ (trail ++ Byte.lineFeed :: rest))⟩
        : Cursor).eatBlanks
        = ⟨pos + t.blanks.length, t.word ++ (trail ++ Byte.lineFeed :: rest)⟩ := by
      refine Cursor.eatWhile_of_word t.isBlank ?_
      intro b tail hr
      rw [← htext] at hr
      cases hr
      rfl
    have hbytes : optional (some t) ++ (trail ++ Byte.lineFeed :: rest)
        = t.blanks ++ (t.word ++ (trail ++ Byte.lineFeed :: rest)) := by
      simp [optional, Token.bytes]
    have hstarts : (⟨pos + t.blanks.length, t.word ++ (trail ++ Byte.lineFeed :: rest)⟩
        : Cursor).startsWith [Byte.slash, Byte.slash] = true := by
      apply List.isPrefixOf_iff_prefix.mpr
      rw [← htext, List.append_assoc]
      exact List.prefix_append _ _
    rw [hbytes, hcursor, endsDirectiveLine, hstarts, Bool.or_true, Bool.true_or]

/-- A parenthesis that ends its line opens a context. -/
theorem run_paren (hopen : line.opened = false) (htext : line.kind.hasTextBody = false)
    (hparen : ∀ t ∈ paren?, t.word = [Byte.openParen])
    (hends : ∀ pos, endsDirectiveLine (⟨pos, rest⟩ : Cursor).eatBlanks = true)
    (hlimit : contexts.length < limit) :
    Run limit ⟨⟨pos, optional paren? ++ rest⟩, [.tail line, .items], contexts⟩
      ((paren?.map fun t => pos + t.blanks.length).toList.map
        fun start => ⟨⟨.context, .opening⟩, .point start⟩)
      ⟨⟨pos + (optional paren?).length, rest⟩,
        [.tail { line with opened := paren?.isSome }, .items],
        (paren?.map fun t => pos + t.blanks.length).toList ++ contexts⟩ := by
  cases paren? with
  | none =>
    have hline : { line with opened := false } = line := by
      rw [← hopen]
    show Run limit ⟨⟨pos, rest⟩, [.tail line, .items], contexts⟩ []
      ⟨⟨pos, rest⟩, [.tail { line with opened := false }, .items], contexts⟩
    rw [hline]
    exact .refl _
  | some t =>
    let start := pos + t.blanks.length
    have hword : t.word = [Byte.openParen] := hparen t rfl
    have hcursor : (⟨start, Byte.openParen :: rest⟩ : Cursor).eatBlanks
        = ⟨start, Byte.openParen :: rest⟩ := by
      refine Cursor.eatWhile_of_head ?_
      intro b tail hr
      cases hr
      rfl
    have hadvance : (⟨start, Byte.openParen :: rest⟩ : Cursor).advance = ⟨start + 1, rest⟩ :=
      (Cursor.takes_advance_one rfl).unique ⟨rfl, rfl⟩
    have hrule : Performs limit ⟨⟨start, Byte.openParen :: rest⟩, [.items], contexts⟩
        (.tail line) ⟨_, _⟩ :=
      .contextParen hopen (congrArg Cursor.rest hcursor)
        (by rw [hcursor, hadvance]; exact hends _) htext hlimit
    rw [hcursor, hadvance] at hrule
    have hrun := Run.of_rule_behind t.isBlank (by simp) hrule
    have hbytes : optional (some t) = t.blanks ++ [Byte.openParen] := by
      simp [optional, Token.bytes, hword]
    rw [hbytes, List.append_assoc, List.length_append]
    exact hrun

/-- An annotation takes the rest of its line. -/
theorem run_note
    (hnote : ∀ t ∈ note?,
      [Byte.slash, Byte.slash] <+: t.word ∧ t.word.all (! Byte.isBreak ·) = true)
    (htrail : ∀ b ∈ trail, Byte.isBlank b = true)
    (hrest : ∀ b tail, rest = b :: tail → Byte.isBreak b = false) :
    Run limit
      ⟨⟨pos, optional note? ++ (trail ++ Byte.lineFeed :: rest)⟩, [.tail line, .items], contexts⟩
      (noteEvents pos note? trail)
      ⟨⟨pos + (optional note?).length + trail.length + 1, rest⟩, [.body line, .items],
        contexts⟩ := by
  cases note? with
  | none => exact run_lineOver hrest htrail
  | some t =>
    obtain ⟨⟨text, htext⟩, hline⟩ := hnote t rfl
    let c : Cursor := ⟨pos + t.blanks.length, t.word ++ trail ++ Byte.lineFeed :: rest⟩
    have hr : c.rest = Byte.slash :: Byte.slash :: (text ++ trail ++ Byte.lineFeed :: rest) := by
      show t.word ++ trail ++ Byte.lineFeed :: rest = _
      rw [← htext]
      rfl
    have hcursor : c.eatBlanks = c := by
      refine Cursor.eatWhile_of_head ?_
      intro b tail hb
      cases hr.symm.trans hb
      rfl
    have hall : ∀ b ∈ t.word ++ trail, (! Byte.isBreak b) = true := by
      intro b hb
      rcases List.mem_append.mp hb with hb | hb
      · exact List.all_eq_true.mp hline b hb
      · rw [Byte.isBreak_eq_false_of_isBlank (htrail b hb)]
        rfl
    have heat : c.eatLine = ⟨c.pos + (t.word ++ trail).length, Byte.lineFeed :: rest⟩ := by
      refine Cursor.eatWhile_of_word hall ?_
      intro b tail hb
      cases hb
      rfl
    have htaken : c.line = t.word ++ trail := by
      have htakes := c.takes_eatLine
      rw [heat] at htakes
      exact List.append_cancel_right htakes.rest.symm
    have hrule : Performs limit ⟨c, [.items], contexts⟩ (.tail line) ⟨_, _⟩ :=
      .note ((congrArg Cursor.rest hcursor).trans hr)
    rw [hcursor, heat, lineEvents, Cursor.textEnd, htaken] at hrule
    have hrun := (Run.of_rule_behind t.isBlank (by simp) hrule).trans
      (run_lineOver hrest (List.forall_mem_nil _))
    have hbytes : optional (some t) ++ (trail ++ Byte.lineFeed :: rest) = t.blanks ++ c.rest := by
      simp [optional, Token.bytes, c]
    have hpos : pos + (optional (some t)).length + trail.length + 1
        = c.pos + (t.word ++ trail).length + ([] : List UInt8).length + 1 := by
      simp only [optional, Token.bytes, c, Option.toList_some, List.flatMap_singleton,
        List.length_append, List.length_nil]
      omega
    rw [hbytes, hpos]
    exact hrun

/-! ## Reading a line back -/

section

variable {source : Source}

/-- The events of the parameters read as their words. -/
theorem reading_tokens {tokens : List Token} (hwords : ∀ t ∈ tokens, t.word ≠ [])
    (hheld : source.Holds ⟨pos, tokens.flatMap Token.bytes ++ rest⟩) :
    source.reading (tokenEvents pos tokens)
      = tokens.flatMap fun t => Part.parameter.reading t.word := by
  induction tokens generalizing pos with
  | nil => rfl
  | cons t later ih =>
    have hbytes : (t :: later).flatMap Token.bytes ++ rest
        = t.blanks ++ (t.word ++ (later.flatMap Token.bytes ++ rest)) := by
      rw [List.flatMap_cons, Token.bytes, List.append_assoc, List.append_assoc]
    rw [hbytes] at hheld
    have hword : source.Holds
        ⟨pos + t.blanks.length, t.word ++ (later.flatMap Token.bytes ++ rest)⟩ :=
      hheld.move ⟨rfl, rfl⟩
    have hlater : source.Holds ⟨pos + t.bytes.length, later.flatMap Token.bytes ++ rest⟩ := by
      refine hword.move ⟨rfl, ?_⟩
      show pos + t.bytes.length = pos + t.blanks.length + t.word.length
      rw [Token.bytes, List.length_append, Nat.add_assoc]
    rw [tokenEvents, source.reading_append,
      source.reading_events hword (hwords t List.mem_cons_self),
      ih (fun t' ht' => hwords t' (List.mem_cons_of_mem t ht')) hlater, List.flatMap_cons]

end

namespace WrittenLine

variable (l : WrittenLine) {source : Source}

theorem isBlank_trail : ∀ b ∈ l.trail, Byte.isBlank b = true :=
  List.all_eq_true.mp l.isTrail

theorem hasSchemaBody : l.kind.hasSchemaBody = false := by
  rw [Kind.hasSchemaBody, l.bodiless]
  rfl

theorem hasTextBody : l.kind.hasTextBody = false := by
  rw [Kind.hasTextBody, l.bodiless]
  rfl

theorem word_ne_nil : ∀ t ∈ l.tokens, t.word ≠ [] := by
  intro t ht hnil
  rcases l.words t ht with hbare | ⟨inner, -, hquoted⟩
  · rw [hnil] at hbare
    cases hbare
  · rw [hnil] at hquoted
    cases hquoted

/-- No parameter changes what is a parameter. -/
theorem allWords : AllWords { kind := l.kind } l.tokens := by
  have hall : ∀ (tokens : List Token) (line : Line), line.kind.hasSchemaBody = false →
      (∀ t ∈ tokens, isCompact t.word = true ∨ Byte.IsQuoted t.word) → AllWords line tokens := by
    intro tokens
    induction tokens with
    | nil => exact fun _ _ _ => trivial
    | cons t later ih =>
      intro line hline hwords
      refine ⟨(hwords t List.mem_cons_self).imp (isBare_of_isCompact hline) id, ih _ ?_ ?_⟩
      · rw [line.declare_kind]
        exact hline
      · exact fun t' ht' => hwords t' (List.mem_cons_of_mem t ht')
  exact hall l.tokens _ l.hasSchemaBody l.words

theorem isBreak_closing : ∀ b tail, l.closing = b :: tail → Byte.isBreak b = false := by
  intro b tail h
  unfold closing at h
  split at h
  · cases h
    rfl
  · cases h

/-- The last line closes the context, if one is open. -/
theorem run_closing (limit : Nat) :
    ∃ pos, Run limit ⟨⟨l.nextPos, l.closing⟩, [.items], l.start?.toList⟩
      (l.start?.toList.map fun start => ⟨⟨.context, .closing⟩, ⟨start, l.nextPos⟩⟩)
      ⟨⟨pos, []⟩, [.items], []⟩ := by
  unfold closing start?
  cases l.paren? with
  | none => exact ⟨l.nextPos, .refl _⟩
  | some t =>
    refine ⟨l.nextPos + 2, run_close ?_⟩
    intro b tail h
    cases h

/-- The run over a line gives its events. -/
theorem run_written (hlimit : 0 < limit) :
    ∃ pos, Run limit (.start l.bytes) l.events ⟨⟨pos, []⟩, [.items], []⟩ := by
  let line := Line.declareAll { kind := l.kind } l.tokens
  have hkind : line.kind = l.kind := Line.declareAll_kind _ l.tokens
  have hopen : line.opened = false := Line.declareAll_opened _ l.tokens
  have htext : line.kind.hasTextBody = false := by
    rw [hkind]
    exact l.hasTextBody
  have hends : ∀ pos, endsDirectiveLine
      (⟨pos, optional l.note? ++ (l.trail ++ Byte.lineFeed :: l.closing)⟩ : Cursor).eatBlanks
      = true := by
    intro pos
    exact endsDirectiveLine_note (fun t ht => (l.isNote t ht).1) l.isBlank_trail
  -- whatever comes next on the line stands behind a blank
  have hwhite : atWhite (optional l.paren? ++ (optional l.note?
      ++ (l.trail ++ Byte.lineFeed :: l.closing))) = true :=
    atWhite_tokens _ (atWhite_tokens _ (atWhite_behind l.isBlank_trail rfl))
  have hwords : Run limit (.start l.bytes) _ ⟨⟨0 + l.keyword.length + _, _⟩, _, []⟩ :=
    run_directive l.spells l.allWords hwhite
  rw [Nat.zero_add] at hwords
  have hparen := hwords.trans (run_paren hopen htext l.isParen hends hlimit)
  have hnote := hparen.trans (run_note l.isNote l.isBlank_trail l.isBreak_closing)
  have hbody : Performs limit ⟨⟨l.nextPos, l.closing⟩, [.items], l.start?.toList ++ []⟩
      (.body { line with opened := l.paren?.isSome })
      ⟨[], ⟨⟨l.nextPos, l.closing⟩, [.items], l.start?.toList ++ []⟩⟩ := by
    apply Performs.bodiless
    cases hparen : l.paren?.isSome with
    | true => exact .inl ⟨rfl, htext⟩
    | false => exact .inr ⟨rfl, hkind ▸ l.bodiless⟩
  have hline := hnote.trans (.of_rule hbody)
  rw [List.append_nil, List.append_nil] at hline
  obtain ⟨pos, hclosing⟩ := l.run_closing limit
  exact ⟨pos, hline.trans hclosing⟩

/-- The annotation is read without the blanks at the end of its line. -/
theorem reading_note (hheld : source.Holds
    ⟨l.notePos, optional l.note? ++ (l.trail ++ Byte.lineFeed :: l.closing)⟩) :
    source.reading (noteEvents l.notePos l.note? l.trail)
      = l.noteWord?.toList.flatMap Part.note.reading := by
  unfold noteWord?
  cases hnote : l.note? with
  | none => rfl
  | some t =>
    obtain ⟨⟨text, htext⟩, -⟩ := l.isNote t hnote
    let word := Cursor.trimEnd (t.word ++ l.trail)
    have hsplit : t.word ++ l.trail = word ++ (t.word ++ l.trail).rtakeWhile Byte.isBlank :=
      List.rdropWhile_append_rtakeWhile.symm
    have hne : word ≠ [] := by
      show Cursor.trimEnd (t.word ++ l.trail) ≠ []
      rw [← htext]
      exact Cursor.trimEnd_ne_nil rfl
    have hbytes : optional l.note? ++ (l.trail ++ Byte.lineFeed :: l.closing)
        = t.blanks ++ (word ++ ((t.word ++ l.trail).rtakeWhile Byte.isBlank
          ++ Byte.lineFeed :: l.closing)) := by
      calc optional l.note? ++ (l.trail ++ Byte.lineFeed :: l.closing)
          = t.blanks ++ ((t.word ++ l.trail) ++ Byte.lineFeed :: l.closing) := by
            simp [hnote, optional, Token.bytes]
        _ = t.blanks ++ ((word ++ (t.word ++ l.trail).rtakeWhile Byte.isBlank)
              ++ Byte.lineFeed :: l.closing) := by rw [← hsplit]
        _ = _ := by rw [List.append_assoc]
    have hword : source.Holds ⟨l.notePos + t.blanks.length, word
        ++ ((t.word ++ l.trail).rtakeWhile Byte.isBlank ++ Byte.lineFeed :: l.closing)⟩ :=
      hheld.move ⟨hbytes, rfl⟩
    have hread := source.reading_events hword hne .note
    show source.reading (Part.note.events _ _ ++ []) = Part.note.reading word ++ []
    rw [List.append_nil, List.append_nil, hread]

/-- The context reads as all that its parentheses enclose. -/
theorem reading_context (hheld : source.Holds
    ⟨l.parenPos, optional l.paren? ++ (optional l.note? ++ (l.trail ++ Byte.lineFeed :: l.closing))⟩) :
    source.reading (l.start?.toList.map fun start => ⟨⟨.context, .opening⟩, .point start⟩)
      = l.paren?.toList.map (fun t => (⟨.context, .opening⟩, t.word)) ∧
    source.reading
        (l.start?.toList.map fun start => ⟨⟨.context, .closing⟩, ⟨start, l.nextPos⟩⟩)
      = l.paren?.toList.map (fun _ => (⟨.context, .closing⟩, l.context)) := by
  unfold start?
  cases hparen : l.paren? with
  | none => exact ⟨rfl, rfl⟩
  | some t =>
    have hword : t.word = [Byte.openParen] := l.isParen t hparen
    have hclosing : l.closing = [Byte.closeParen, Byte.lineFeed] := by
      rw [closing, hparen]
      rfl
    have hbytes : optional l.paren?
        ++ (optional l.note? ++ (l.trail ++ Byte.lineFeed :: l.closing))
        = t.blanks ++ (l.context ++ [Byte.lineFeed]) := by
      simp [hparen, hclosing, hword, optional, Token.bytes, context]
    let start := l.parenPos + t.blanks.length
    have hstart : source.Holds ⟨start, l.context ++ [Byte.lineFeed]⟩ :=
      hheld.move ⟨hbytes, rfl⟩
    have hfirst : source.covered (.point start) = [Byte.openParen] :=
      source.covered_point hstart
    have hspan : (⟨start, l.nextPos⟩ : Span) = .ofRange start (start + l.context.length) := by
      have hlength : start + l.context.length = l.nextPos + 1 := by
        simp only [start, nextPos, notePos, hparen, hword, optional, context, Token.bytes,
          Option.toList_some, List.flatMap_singleton, List.length_append, List.length_cons,
          List.length_nil]
        omega
      have hle : start ≤ l.nextPos := by
        have : 0 < l.context.length := Nat.succ_pos _
        omega
      rw [hlength, Span.ofRange_of_lt (Nat.lt_succ_of_le hle)]
      rfl
    have hwhole : source.covered ⟨start, l.nextPos⟩ = l.context := by
      rw [hspan]
      exact source.covered_word hstart (List.cons_ne_nil _ _)
    refine ⟨?_, ?_⟩
    · show [((⟨.context, .opening⟩ : Mark), source.covered (.point start))]
        = [(⟨.context, .opening⟩, t.word)]
      rw [hfirst, hword]
    · show [((⟨.context, .closing⟩ : Mark), source.covered ⟨start, l.nextPos⟩)]
        = [(⟨.context, .closing⟩, l.context)]
      rw [hwhole]

/-- The events of a line read as its parts. -/
theorem reading_written (hsource : source.bytes = l.bytes) :
    source.reading l.events = l.parts := by
  have hkeyword : source.Holds ⟨0, l.bytes⟩ := by
    rw [← hsource]
    exact ⟨[], .refl _⟩
  have htokens : source.Holds ⟨l.keyword.length, _⟩ := hkeyword.move ⟨rfl, (Nat.zero_add _).symm⟩
  have hparen : source.Holds ⟨l.parenPos, _⟩ := htokens.move ⟨rfl, rfl⟩
  have hnote : source.Holds ⟨l.notePos, _⟩ := hparen.move ⟨rfl, rfl⟩
  obtain ⟨hopening, hclosing⟩ := l.reading_context hparen
  have hword := source.reading_events hkeyword l.spells.ne_nil .keyword
  rw [Nat.zero_add] at hword
  rw [events, source.reading_append, source.reading_append, source.reading_append,
    source.reading_append, hword, reading_tokens l.word_ne_nil htokens, hopening,
    l.reading_note hnote, hclosing]
  rfl

end WrittenLine

end Scan

/-- A directive line that bears no body, however it is written, is scanned to its
keyword, its parameters in order, its parenthesis and its annotation, and nothing
else; each is read back as it was written. -/
theorem scan_written (l : Scan.WrittenLine) {limit : Nat} (hlimit : 0 < limit) {source : Source}
    (hsource : source.bytes = l.bytes) :
    source.scan limit = .ok l.events ∧ source.reading l.events = l.parts := by
  obtain ⟨pos, hrun⟩ := l.run_written hlimit
  rw [← hsource] at hrun
  exact ⟨hrun.scan_eq, l.reading_written hsource⟩

/-- A method with a path that holds the bytes of remarks, a path in quotes that holds
a quote, a parenthesis and an annotation with blanks behind it. -/
theorem scan_written_get :
    let source : Source :=
      ⟨"", Utf8.bytes "GET /a//b#( \t\"c \\\"\" ( // d //\t \n)\n", by decide⟩
    let events := Part.keyword.events 0 3 ++ Part.parameter.events 4 11
      ++ Part.parameter.events 13 19 ++ [⟨⟨.context, .opening⟩, .point 20⟩]
      ++ Part.note.events 22 29 ++ [⟨⟨.context, .closing⟩, ⟨20, 32⟩⟩]
    0 < 1 ∧ source.scan 1 = .ok events ∧
      source.reading events = Part.keyword.reading (Utf8.bytes "GET")
        ++ Part.parameter.reading (Utf8.bytes "/a//b#(")
        ++ Part.parameter.reading (Utf8.bytes "\"c \\\"\"")
        ++ [(⟨.context, .opening⟩, [Byte.openParen])]
        ++ Part.note.reading (Utf8.bytes "// d //")
        ++ [(⟨.context, .closing⟩, Utf8.bytes "( // d //\t \n)")] := by
  intro source events
  have hquoted : Byte.IsQuoted (Utf8.bytes "\"c \\\"\"") :=
    ⟨Utf8.bytes "c \\\"", .plain rfl (by decide) (by decide)
      (.plain rfl (by decide) (by decide) (.pair rfl .nil)), rfl⟩
  let l : Scan.WrittenLine :=
    { kind := .get
      keyword := Utf8.bytes "GET"
      tokens := [⟨Utf8.bytes " ", Utf8.bytes "/a//b#(", by decide⟩,
        ⟨Utf8.bytes " \t", Utf8.bytes "\"c \\\"\"", by decide⟩]
      paren? := some ⟨Utf8.bytes " ", [Byte.openParen], by decide⟩
      note? := some ⟨Utf8.bytes " ", Utf8.bytes "// d //", by decide⟩
      trail := Utf8.bytes "\t "
      spells := .inl (by decide)
      bodiless := rfl
      words := by
        rintro t (_ | ⟨_, _ | ⟨_, h⟩⟩)
        · exact .inl (by decide)
        · exact .inr hquoted
        · cases h
      isParen := by
        rintro t ⟨⟩
        rfl
      isNote := by
        rintro t ⟨⟩
        exact ⟨by decide, by decide⟩
      isTrail := by decide }
  have hsource : source.bytes = l.bytes := rfl
  exact ⟨Nat.one_pos, scan_written l Nat.one_pos hsource⟩

/-! ## Quoted values -/

/-- The kinds whose parameters may be any text. -/
def Parameter.freeKinds : List Kind :=
  [.url, .get, .post, .put, .patch, .delete, .baseUrl, .query, .jsight, .version, .title,
    .protocol, .method, .operationId]

/-- Where any text will do, a quoted value is taken as it was. -/
theorem Parameter.classify?_quote {kind : Kind} (hkind : kind ∈ freeKinds) (value : String) :
    (classify? kind (quote value)).map (·.value) = some value := by
  rw [classify?, unquote_quote]
  simp only [freeKinds, List.mem_cons, List.not_mem_nil, or_false] at hkind
  rcases hkind with rfl | rfl | rfl | rfl | rfl | rfl | rfl | rfl | rfl | rfl | rfl | rfl | rfl | rfl
    <;> rfl

/-- Behind any keyword a word in quotes is scanned as the one parameter, byte for
byte, and nothing behind it is taken for a body. -/
theorem Scan.scan_word {limit : Nat} {word q : List UInt8} {kind : Kind} {source : Source}
    (hspells : Keyword.Spells word kind) (hquoted : Byte.IsQuoted q)
    (hsource : source.bytes = word ++ Byte.space :: (q ++ [Byte.lineFeed])) :
    let events := Part.keyword.events 0 word.length
      ++ Part.parameter.events (word.length + 1) (word.length + 1 + q.length)
    source.scan limit = .ok events ∧
      source.reading events = Part.keyword.reading word ++ Part.parameter.reading q := by
  intro events
  let t : Token := ⟨[Byte.space], q, by decide⟩
  have hbytes : source.bytes = word ++ ([t].flatMap Token.bytes ++ [Byte.lineFeed]) := by
    rw [List.flatMap_singleton]
    exact hsource
  have hwords : AllWords { kind := kind } [t] := ⟨.inr hquoted, trivial⟩
  have hevents : Part.keyword.events 0 word.length ++ tokenEvents word.length [t] = events := by
    rw [tokenEvents, tokenEvents, List.append_nil]
    rfl
  refine ⟨?_, ?_⟩
  · have hline : Run limit (.start (word ++ ([t].flatMap Token.bytes ++ [Byte.lineFeed]))) _ _ :=
      run_directive hspells hwords rfl
    rw [← hbytes] at hline
    have hnil : ∀ b tail, ([] : List UInt8) = b :: tail → Byte.isBreak b = false := by
      intro b tail h
      cases h
    have hover := hline.trans (run_lineOver hnil (List.forall_mem_nil _))
    have hrun := hover.trans (run_noBody (Line.declareAll_opened { kind := kind } [t]))
    rw [List.append_nil, List.append_nil, Nat.zero_add, hevents] at hrun
    exact hrun.scan_eq
  · have hword : source.Holds ⟨0, word ++ ([t].flatMap Token.bytes ++ [Byte.lineFeed])⟩ := by
      rw [← hbytes]
      exact ⟨[], .refl _⟩
    have htokens : source.Holds ⟨word.length, [t].flatMap Token.bytes ++ [Byte.lineFeed]⟩ :=
      hword.move ⟨rfl, (Nat.zero_add _).symm⟩
    have hne : ∀ t' ∈ [t], t'.word ≠ [] := by
      intro t' ht'
      rw [List.mem_singleton.mp ht']
      exact hquoted.ne_nil
    have hkeyword := source.reading_events hword hspells.ne_nil .keyword
    rw [Nat.zero_add] at hkeyword
    rw [← hevents, source.reading_append, hkeyword, reading_tokens hne htokens,
      List.flatMap_singleton]

/-- A value of one line that is quoted comes back: its quotes and escapes resolve to
it, behind any keyword it is scanned as the one parameter, and a directive that takes
any text takes just this value. -/
theorem quote_survives {value : String} (hfeed : '\n' ∉ value.toList)
    (hreturn : '\r' ∉ value.toList) :
    Parameter.unquote (Parameter.quote value) = value ∧
    (∀ (limit : Nat) {word : List UInt8} {kind : Kind} {source : Source},
      Keyword.Spells word kind →
      source.bytes = word ++ Byte.space ::
        (Utf8.bytes (Parameter.quote value) ++ [Byte.lineFeed]) →
      let events := Part.keyword.events 0 word.length ++ Part.parameter.events (word.length + 1)
        (word.length + 1 + (Utf8.bytes (Parameter.quote value)).length)
      source.scan limit = .ok events ∧ source.reading events = Part.keyword.reading word
        ++ Part.parameter.reading (Utf8.bytes (Parameter.quote value))) ∧
    ∀ kind ∈ Parameter.freeKinds,
      (Parameter.classify? kind (Parameter.quote value)).map (·.value) = some value := by
  have hquoted : Byte.IsQuoted (Utf8.bytes (Parameter.quote value)) := by
    rw [Utf8.bytes_quote]
    exact Byte.isQuoted_quoted fun b hb => Utf8.isBreak_of_mem_bytes hfeed hreturn hb
  refine ⟨Parameter.unquote_quote value, ?_, ?_⟩
  · intro limit word kind source hspells hsource
    exact Scan.scan_word hspells hquoted hsource
  · intro kind hkind
    exact Parameter.classify?_quote hkind value

/-- A value that ends with a backslash, behind a response code. -/
theorem quote_survives_code :
    let value := "a\"\u00E9\\"
    let quoted := "\"a\\\"\u00E9\\\\\""
    let source : Source := ⟨"", Utf8.bytes "404 \"a\\\"\u00E9\\\\\"\n", by decide⟩
    '\n' ∉ value.toList ∧ '\r' ∉ value.toList ∧ Parameter.unquote quoted = value ∧
      source.scan 0 = .ok (Part.keyword.events 0 3 ++ Part.parameter.events 4 13) ∧
      (Parameter.classify? .title quoted).map (·.value) = some value := by
  intro value quoted source
  have hfeed : '\n' ∉ value.toList := by decide
  have hreturn : '\r' ∉ value.toList := by decide
  have hquoted : Parameter.quote value = quoted := by decide
  have hspells : Keyword.Spells (Utf8.bytes "404") .responseCode := .inr ⟨rfl, by decide⟩
  have hsource : source.bytes = Utf8.bytes "404" ++ Byte.space ::
      (Utf8.bytes (Parameter.quote value) ++ [Byte.lineFeed]) := by
    rw [hquoted]
    decide
  obtain ⟨hunquote, hscan, hclassify⟩ := quote_survives hfeed hreturn
  have hevents := (hscan 0 hspells hsource).1
  have htitle := hclassify .title (by decide)
  have hword : (Utf8.bytes "404").length = 3 := by decide
  have hlength : (Utf8.bytes quoted).length = 9 := by decide
  rw [hquoted] at hunquote hevents htitle
  rw [hword, hlength] at hevents
  exact ⟨hfeed, hreturn, hunquote, hevents, htitle⟩

end ApiDoc
