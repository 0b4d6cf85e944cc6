import ApiDoc.Proofs.Scan.DirectiveLine

/-!
# Schemas on the line and below it

A schema may stand at the end of its directive line or on the next one. Two tasks
find it, the tail of the line and the body, and both hand it over to the same reader.

* **Openings** (`opensEitherWay`): brackets open a schema for both tasks, and so does
  the slash of a regular expression where one is declared, unless it opens an
  annotation for the one task or a block comment for the other.
* **Handing over** (`tail_eq_schemaBody`, `body_eq_schemaBody`): at an opening either
  task reads a schema and does nothing else.
* **Steps** (`outcome_interchanged`): behind a space and behind a line feed the schema
  starts at the same offset, so that the next state, or the fault, is the same.
* **Documents** (`schema_interchanged`, `regex_interchanged`): therefore both documents
  come to the same events, or to a failure with the same code, message and span.
-/

namespace ApiDoc

namespace Scan

/-- Whether an object starts here, or an array that does not start with a
reference. -/
def opensBrackets : List UInt8 → Bool
  | [] => false
  | b :: rest =>
    b == Byte.openBrace || (b == Byte.openBracket && rest.head? != some Byte.atSign)

/-- Whether a word is a parameter of any line: it starts neither a quoted parameter
nor a parenthesis, a remark, a regular expression, an object or an array. -/
def isPlain : List UInt8 → Bool
  | [] => false
  | b :: more =>
    (b :: more).all (! Byte.isWhite ·)
      && ! [Byte.quote, Byte.openParen, Byte.hash, Byte.slash, Byte.openBrace].contains b
      && (b != Byte.openBracket || more.head? == some Byte.atSign)

variable {limit pos : Nat} {contexts : List Nat} {line : Line} {kind : Kind}
  {word body trail : List UInt8} {tokens : List Token}

/-! ## Parameters -/

/-- No schema starts with a plain word, whatever notation is declared. -/
theorem isBare_of_isPlain (h : isPlain word = true) (line : Line) : isBare line word = true := by
  cases word with
  | nil => cases h
  | cons b more =>
    simp only [isPlain, Bool.and_eq_true, Bool.not_eq_true', List.contains_cons,
      List.contains_nil, Bool.or_false, Bool.or_eq_false_iff] at h
    obtain ⟨⟨hcompact, hquote, hparen, hhash, hslash, hbrace⟩, hbracket⟩ := h
    have hschema : opensInlineSchema line b (more.headD 0) = false := by
      rw [opensInlineSchema, hbrace, hslash]
      cases hb : b == Byte.openBracket with
      | false => simp
      | true =>
        -- the reference sign keeps the bracket from opening an array
        rw [bne, hb] at hbracket
        obtain ⟨tail, rfl⟩ := List.head?_eq_some_iff.mp (by simpa using hbracket)
        simp
    simp only [isBare, hcompact, hschema, List.contains_cons, List.contains_nil, hquote, hparen,
      hhash, hslash]
    rfl

theorem allWords_of_isPlain (h : ∀ t ∈ tokens, isPlain t.word = true) (line : Line) :
    AllWords line tokens := by
  induction tokens generalizing line with
  | nil => trivial
  | cons t later ih =>
    refine ⟨.inl (isBare_of_isPlain (h t List.mem_cons_self) line), ih ?_ _⟩
    intro t' ht'
    exact h t' (List.mem_cons_of_mem t ht')

/-! ## What opens a schema -/

/-- Whether a schema starts here on a directive line and below it: neither an
annotation nor a block comment does. -/
def opensEitherWay (line : Line) : List UInt8 → Bool
  | [] => false
  | b :: rest =>
    opensInlineSchema line b (rest.headD 0)
      && ! (b == Byte.slash && [Byte.slash, Byte.hash].contains (rest.headD 0))

/-- Brackets open a schema in every notation. -/
theorem opensEitherWay_of_opensBrackets (hschema : line.kind.hasSchemaBody = true)
    (h : opensBrackets body = true) : opensEitherWay line body = true := by
  cases body with
  | nil => cases h
  | cons b rest =>
    have hpeek : (rest.headD 0 != Byte.atSign) = (rest.head? != some Byte.atSign) := by
      cases rest with
      | nil => rfl
      | cons d rest => rfl
    have hslash : (b == Byte.slash) = false := by
      apply beq_false_of_ne
      rintro rfl
      cases h
    rw [opensBrackets] at h
    rw [opensEitherWay, opensInlineSchema, hschema, hpeek, h, hslash]
    rfl

/-- A slash opens a regular expression where one is declared. -/
theorem opensEitherWay_of_regex {x : UInt8} {more : List UInt8}
    (hschema : line.kind.hasSchemaBody = true) (hregex : line.declared = .regex)
    (hslash : x ≠ Byte.slash) (hhash : x ≠ Byte.hash) :
    opensEitherWay line (Byte.slash :: x :: more) = true := by
  rw [opensEitherWay, opensInlineSchema, hschema, hregex, List.headD_cons, List.contains_cons,
    List.contains_cons, beq_false_of_ne hslash, beq_false_of_ne hhash]
  rfl

theorem opensEitherWay_head (h : opensEitherWay line body = true) :
    ∃ b rest, body = b :: rest ∧ opensInlineSchema line b (rest.headD 0) = true ∧
      ¬ (b = Byte.slash ∧ rest.headD 0 = Byte.slash) ∧
      ¬ (b = Byte.slash ∧ rest.headD 0 = Byte.hash) := by
  cases body with
  | nil => cases h
  | cons b rest =>
    rw [opensEitherWay, Bool.and_eq_true] at h
    refine ⟨b, rest, rfl, h.1, ?_, ?_⟩
    · rintro ⟨hb, hd⟩
      rw [hb, hd] at h
      cases h.2
    · rintro ⟨hb, hd⟩
      rw [hb, hd] at h
      cases h.2

/-- A schema starts neither with white space nor as an item does. -/
theorem isWhite_of_opensEitherWay {b : UInt8} {rest : List UInt8}
    (h : opensEitherWay line body = true) (hr : body = b :: rest) : Byte.isWhite b = false := by
  obtain ⟨d, more, hd, hopens, -⟩ := opensEitherWay_head h
  cases hr.symm.trans hd
  rcases opensInlineSchema_head hopens with rfl | rfl | rfl <;> rfl

theorem opensItem_of_opensEitherWay (h : opensEitherWay line body = true) :
    opensItem body = false := by
  obtain ⟨b, rest, rfl, hopens, -, hremark⟩ := opensEitherWay_head h
  have hb := opensInlineSchema_head hopens
  have hdirective : Keyword.opensDirective (b :: rest) = false := by
    by_contra hletter
    rw [Bool.not_eq_false] at hletter
    have hletter := isAlphanumeric_of_opensDirective hletter
    rcases hb with rfl | rfl | rfl <;> cases hletter
  have hcomment : [Byte.slash, Byte.hash].isPrefixOf (b :: rest) = false := by
    by_contra hcomment
    rw [Bool.not_eq_false, List.isPrefixOf_iff_prefix] at hcomment
    obtain ⟨more, hmore⟩ := hcomment
    cases hmore
    exact hremark ⟨rfl, rfl⟩
  rw [opensItem, hdirective, hcomment]
  rcases hb with rfl | rfl | rfl <;> rfl

/-! ## Handing over -/

/-- At the end of a line a schema is read. -/
theorem tail_eq_schemaBody {s : State} {c : Cursor} (hopen : line.opened = false)
    (hbody : opensEitherWay line c.rest = true) : tail limit line s c = schemaBody line s c := by
  obtain ⟨b, rest, hr, hopens, hnote, -⟩ := opensEitherWay_head hbody
  have hpeek : c.peek = rest.headD 0 := by
    rw [Cursor.peek, hr, List.tail_cons]
  have hmark : Byte.isBreak b = false ∧ b ≠ Byte.hash ∧ b ≠ Byte.openParen := by
    rcases opensInlineSchema_head hopens with rfl | rfl | rfl <;> decide
  obtain ⟨hbreak, hhash, hparen⟩ := hmark
  unfold tail
  simp only [hr, hpeek]
  rw [if_neg (by simp [hbreak]), if_neg hnote, if_neg hhash, if_neg (by simp [hopen]),
    if_neg hparen, if_pos hopens]

/-- In a body it is read too. -/
theorem body_eq_schemaBody {s : State} (hopen : line.opened = false)
    (hbody : opensEitherWay line s.cursor.rest = true) :
    Scan.body line s = schemaBody line s s.cursor := by
  have hwhite : s.cursor.eatWhite = s.cursor := by
    apply Cursor.eatWhile_of_head
    intro b rest hr
    exact isWhite_of_opensEitherWay hbody hr
  have hkind : line.kind.body? = some .schema := by
    obtain ⟨b, rest, -, hopens, -⟩ := opensEitherWay_head hbody
    rw [opensInlineSchema, Bool.and_eq_true] at hopens
    exact beq_iff_eq.mp hopens.1
  unfold Scan.body
  rw [hopen, if_neg Bool.false_ne_true, hkind, hwhite, opensItem_of_opensEitherWay hbody]
  rfl

/-! ## Steps -/

/-- Where a schema starts, the tail of the line does what the body does. -/
theorem step_interchanged (hopen : line.opened = false)
    (hbody : opensEitherWay line body = true) :
    step limit ⟨⟨pos, body⟩, [.tail line, .items], contexts⟩
      = step limit ⟨⟨pos, body⟩, [.body line, .items], contexts⟩ := by
  have hblanks : (⟨pos, body⟩ : Cursor).eatBlanks = ⟨pos, body⟩ := by
    apply Cursor.eatWhile_of_head
    intro b rest hr
    exact (Byte.isWhite_eq_false_iff.mp (isWhite_of_opensEitherWay hbody hr)).1
  have htail : perform limit ⟨⟨pos, body⟩, [.items], contexts⟩ (.tail line)
      = schemaBody line ⟨⟨pos, body⟩, [.items], contexts⟩ ⟨pos, body⟩ := by
    rw [perform, hblanks]
    exact tail_eq_schemaBody hopen hbody
  have hnext : perform limit ⟨⟨pos, body⟩, [.items], contexts⟩ (.body line)
      = schemaBody line ⟨⟨pos, body⟩, [.items], contexts⟩ ⟨pos, body⟩ :=
    body_eq_schemaBody hopen hbody
  simp only [step, htail, hnext]

/-- So a space before the schema may be exchanged for a line feed. -/
theorem outcome_interchanged (hopen : line.opened = false)
    (htrail : ∀ b ∈ trail, Byte.isBlank b = true) (hbody : opensEitherWay line body = true) :
    State.outcome limit ⟨⟨pos, trail ++ Byte.space :: body⟩, [.tail line, .items], contexts⟩
      = State.outcome limit
          ⟨⟨pos, trail ++ Byte.lineFeed :: body⟩, [.tail line, .items], contexts⟩ := by
  have hbelow : Run limit
      ⟨⟨pos, trail ++ Byte.lineFeed :: body⟩, [.tail line, .items], contexts⟩ []
      ⟨⟨pos + trail.length + 1, body⟩, [.body line, .items], contexts⟩ := by
    refine run_lineOver ?_ htrail
    intro b rest hr
    exact (Byte.isWhite_eq_false_iff.mp (isWhite_of_opensEitherWay hbody hr)).2
  have hspace : ∀ b ∈ [Byte.space], Byte.isBlank b = true := List.forall_mem_singleton.mpr rfl
  rw [hbelow.outcome_silent]
  apply State.outcome_congr
  calc step limit ⟨⟨pos, trail ++ Byte.space :: body⟩, [.tail line, .items], contexts⟩
      = step limit ⟨⟨pos + trail.length, Byte.space :: body⟩, [.tail line, .items], contexts⟩ :=
        step_behind htrail (by simp)
    _ = step limit ⟨⟨pos + trail.length + 1, body⟩, [.tail line, .items], contexts⟩ :=
        step_behind hspace (by simp)
    _ = _ := step_interchanged hopen hbody

/-- A directive with a schema on its line is scanned as one with the schema below. -/
theorem scan_interchanged (hspells : Keyword.Spells word kind)
    (hwords : AllWords { kind := kind } tokens) (htrail : ∀ b ∈ trail, Byte.isBlank b = true)
    (hbody : opensEitherWay (Line.declareAll { kind := kind } tokens) body = true) :
    scan limit (word ++ (tokens.flatMap Token.bytes ++ (trail ++ Byte.space :: body)))
      = scan limit (word ++ (tokens.flatMap Token.bytes ++ (trail ++ Byte.lineFeed :: body))) := by
  have hopen := Line.declareAll_opened { kind := kind } tokens
  -- the line is read alike whatever stands behind it
  have hline : ∀ b, Byte.isWhite b = true →
      Run limit (.start (word ++ (tokens.flatMap Token.bytes ++ (trail ++ b :: body)))) _ _ :=
    fun b hb => run_directive hspells hwords (atWhite_behind htrail hb)
  rw [scan_eq_outcome, scan_eq_outcome, (hline Byte.space rfl).outcome_eq,
    (hline Byte.lineFeed rfl).outcome_eq, outcome_interchanged hopen htrail hbody]

end Scan

/-! ## Documents -/

namespace Source

/-- Sources whose bytes are scanned alike give the same events, or the same
complaint at the same place. -/
theorem scan_congr {limit : Nat} {source other : Source}
    (h : Scan.scan limit source.bytes = Scan.scan limit other.bytes) :
    (∀ events, source.scan limit = .ok events ↔ other.scan limit = .ok events) ∧
    ∀ d, source.scan limit = .error d → ∃ d', other.scan limit = .error d' ∧ d'.code = d.code ∧
      d'.message = d.message ∧ d'.span? = d.span? := by
  unfold scan
  rw [h]
  cases Scan.scan limit other.bytes with
  | ok events =>
    refine ⟨fun more => Iff.rfl, ?_⟩
    intro d hd
    cases hd
  | error fault =>
    refine ⟨fun more => ⟨fun h => ?_, fun h => ?_⟩, ?_⟩
    · cases h
    · cases h
    · intro d hd
      cases hd
      exact ⟨_, rfl, rfl, rfl, rfl⟩

end Source

/-- A schema in brackets behind a keyword and plain parameters is read in the same
way on their line and below it, and so is all that stands behind it. -/
theorem schema_interchanged {limit : Nat} {kind : Kind} {word body : List UInt8}
    {tokens : List Scan.Token} {inline below : Source} (hspells : Keyword.Spells word kind)
    (hschema : kind.hasSchemaBody = true) (htokens : ∀ t ∈ tokens, Scan.isPlain t.word = true)
    (hbody : Scan.opensBrackets body = true)
    (hinline : inline.bytes = word ++ (tokens.flatMap Scan.Token.bytes ++ Byte.space :: body))
    (hbelow : below.bytes = word ++ (tokens.flatMap Scan.Token.bytes ++ Byte.lineFeed :: body)) :
    (∀ events, inline.scan limit = .ok events ↔ below.scan limit = .ok events) ∧
    ∀ d, inline.scan limit = .error d → ∃ d', below.scan limit = .error d' ∧ d'.code = d.code ∧
      d'.message = d.message ∧ d'.span? = d.span? := by
  have hopens : Scan.opensEitherWay (Scan.Line.declareAll { kind := kind } tokens) body
      = true := by
    apply Scan.opensEitherWay_of_opensBrackets _ hbody
    rw [Scan.Line.declareAll_kind]
    exact hschema
  apply Source.scan_congr
  rw [hinline, hbelow]
  exact Scan.scan_interchanged hspells (Scan.allWords_of_isPlain htokens _)
    (List.forall_mem_nil _) hopens

/-- A type with two parameters, an object of three lines with remarks, and a
directive behind it. -/
theorem schema_interchanged_type :
    let inline : Source :=
      ⟨"", Utf8.bytes "TYPE @a\t [@b] \x7b # c\n\"d\": 1\n\x7d // e \nGET", by decide⟩
    let below : Source :=
      ⟨"", Utf8.bytes "TYPE @a\t [@b]\n\x7b # c\n\"d\": 1\n\x7d // e \nGET", by decide⟩
    let events := Part.keyword.events 0 4 ++ Part.parameter.events 5 7
      ++ Part.parameter.events 9 13 ++ Part.schema.events 14 34 ++ Part.keyword.events 35 38
    inline.scan 0 = .ok events ∧ below.scan 0 = .ok events := by
  intro inline below events
  let tokens : List Scan.Token :=
    [⟨Utf8.bytes " ", Utf8.bytes "@a", by decide⟩, ⟨Utf8.bytes "\t ", Utf8.bytes "[@b]", by decide⟩]
  let body := Utf8.bytes "\x7b # c\n\"d\": 1\n\x7d // e \nGET"
  have hspells : Keyword.Spells (Utf8.bytes "TYPE") .typeDef := .inl (by decide)
  have htokens : ∀ t ∈ tokens, Scan.isPlain t.word = true := by
    decide
  have hbody : Scan.opensBrackets body = true := by
    decide
  have hinline : inline.bytes
      = Utf8.bytes "TYPE" ++ (tokens.flatMap Scan.Token.bytes ++ Byte.space :: body) := by
    decide
  have hbelow : below.bytes
      = Utf8.bytes "TYPE" ++ (tokens.flatMap Scan.Token.bytes ++ Byte.lineFeed :: body) := by
    decide
  have hscan : inline.scan 0 = .ok events := by
    decide +kernel
  have hsame : inline.scan 0 = .ok events ↔ below.scan 0 = .ok events :=
    (schema_interchanged hspells rfl htokens hbody hinline hbelow).1 events
  exact ⟨hscan, hsame.mp hscan⟩

/-- Where the parameters declare regular expressions, one is read in the same way
on their line and below it, and so is all that stands behind it, unless its first
two bytes open an annotation or a block comment. -/
theorem regex_interchanged {limit : Nat} {kind : Kind} {word trail more : List UInt8} {x : UInt8}
    {tokens : List Scan.Token} {inline below : Source} (hspells : Keyword.Spells word kind)
    (hschema : kind.hasSchemaBody = true) (hwords : Scan.AllWords { kind := kind } tokens)
    (hregex : (tokens.filterMap Scan.Token.notation?).getLast? = some .regex)
    (htrail : ∀ b ∈ trail, Byte.isBlank b = true) (hslash : x ≠ Byte.slash)
    (hhash : x ≠ Byte.hash)
    (hinline : inline.bytes = word ++ (tokens.flatMap Scan.Token.bytes
      ++ (trail ++ Byte.space :: Byte.slash :: x :: more)))
    (hbelow : below.bytes = word ++ (tokens.flatMap Scan.Token.bytes
      ++ (trail ++ Byte.lineFeed :: Byte.slash :: x :: more))) :
    (∀ events, inline.scan limit = .ok events ↔ below.scan limit = .ok events) ∧
    ∀ d, inline.scan limit = .error d → ∃ d', below.scan limit = .error d' ∧ d'.code = d.code ∧
      d'.message = d.message ∧ d'.span? = d.span? := by
  have hkind : (Scan.Line.declareAll { kind := kind } tokens).kind.hasSchemaBody = true := by
    rw [Scan.Line.declareAll_kind]
    exact hschema
  have hdeclared : (Scan.Line.declareAll { kind := kind } tokens).declared = .regex := by
    rw [Scan.Line.declareAll_declared hschema, hregex]
    rfl
  apply Source.scan_congr
  rw [hinline, hbelow]
  exact Scan.scan_interchanged hspells hwords htrail
    (Scan.opensEitherWay_of_regex hkind hdeclared hslash hhash)

/-- A type whose name is quoted and whose last notation counts, with a directive
behind its expression. -/
theorem regex_interchanged_type :
    let inline : Source := ⟨"", Utf8.bytes "TYPE \"@a\" any regex\t /[b]\\/+/ # b\nGET", by decide⟩
    let below : Source := ⟨"", Utf8.bytes "TYPE \"@a\" any regex\t\n/[b]\\/+/ # b\nGET", by decide⟩
    let events := Part.keyword.events 0 4 ++ Part.parameter.events 5 9
      ++ Part.parameter.events 10 13 ++ Part.parameter.events 14 19 ++ Part.schema.events 21 33
      ++ Part.keyword.events 34 37
    inline.scan 0 = .ok events ∧ below.scan 0 = .ok events := by
  intro inline below events
  let tokens : List Scan.Token :=
    [⟨Utf8.bytes " ", Utf8.bytes "\"@a\"", by decide⟩,
      ⟨Utf8.bytes " ", Utf8.bytes "any", by decide⟩, ⟨Utf8.bytes " ", Utf8.bytes "regex", by decide⟩]
  let more := Utf8.bytes "b]\\/+/ # b\nGET"
  have hspells : Keyword.Spells (Utf8.bytes "TYPE") .typeDef := .inl (by decide)
  have hquoted : Byte.IsQuoted (Utf8.bytes "\"@a\"") :=
    ⟨Utf8.bytes "@a", .plain rfl (by decide) (by decide) (.plain rfl (by decide) (by decide) .nil),
      rfl⟩
  have hwords : Scan.AllWords { kind := .typeDef } tokens :=
    ⟨.inr hquoted, .inl (by decide), .inl (by decide), trivial⟩
  have hregex : (tokens.filterMap Scan.Token.notation?).getLast? = some .regex := by
    decide
  have hinline : inline.bytes = Utf8.bytes "TYPE" ++ (tokens.flatMap Scan.Token.bytes
      ++ ([Byte.tab] ++ Byte.space :: Byte.slash :: Byte.openBracket :: more)) := by
    decide
  have hbelow : below.bytes = Utf8.bytes "TYPE" ++ (tokens.flatMap Scan.Token.bytes
      ++ ([Byte.tab] ++ Byte.lineFeed :: Byte.slash :: Byte.openBracket :: more)) := by
    decide
  have htrail : ∀ b ∈ [Byte.tab], Byte.isBlank b = true := List.forall_mem_singleton.mpr rfl
  have hscan : inline.scan 0 = .ok events := by
    decide +kernel
  have hsame : inline.scan 0 = .ok events ↔ below.scan 0 = .ok events :=
    (regex_interchanged hspells rfl hwords hregex htrail (by decide) (by decide) hinline
      hbelow).1 events
  exact ⟨hscan, hsame.mp hscan⟩

/-- Below its line an expression that starts with a hash sign is a block comment
that does not end. -/
theorem regex_hash_interchanged :
    let inline : Source := ⟨"", Utf8.bytes "TYPE regex /#a/\n", by decide⟩
    let below : Source := ⟨"", Utf8.bytes "TYPE regex\n/#a/\n", by decide⟩
    let tokens : List Scan.Token := [⟨Utf8.bytes " ", Utf8.bytes "regex", by decide⟩]
    let events := Part.keyword.events 0 4 ++ Part.parameter.events 5 10
      ++ Part.schema.events 11 15
    Keyword.Spells (Utf8.bytes "TYPE") .typeDef ∧ Scan.AllWords { kind := .typeDef } tokens ∧
      (tokens.filterMap Scan.Token.notation?).getLast? = some .regex ∧
      inline.bytes = Utf8.bytes "TYPE" ++ (tokens.flatMap Scan.Token.bytes
        ++ Byte.space :: Byte.slash :: Byte.hash :: Utf8.bytes "a/\n") ∧
      below.bytes = Utf8.bytes "TYPE" ++ (tokens.flatMap Scan.Token.bytes
        ++ Byte.lineFeed :: Byte.slash :: Byte.hash :: Utf8.bytes "a/\n") ∧
      inline.scan Scan.defaultLimit = .ok events ∧ below.scan Scan.defaultLimit ≠ .ok events := by
  intro inline below tokens events
  have hspells : Keyword.Spells (Utf8.bytes "TYPE") .typeDef := .inl (by decide)
  have hwords : Scan.AllWords { kind := .typeDef } tokens := ⟨.inl (by decide), trivial⟩
  refine ⟨hspells, hwords, by decide, by decide, by decide, ?_, ?_⟩
  · decide +kernel
  · decide +kernel

end ApiDoc
