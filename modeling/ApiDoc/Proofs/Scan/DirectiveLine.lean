import ApiDoc.Proofs.Scan.Quoting
import ApiDoc.Proofs.Scan.Run

/-!
# Directive lines are read word by word

A directive line is a keyword and then parameters, each behind blanks. The
scanner takes them one by one, and what stands behind the line only has to keep
apart from the last word.

* **Keywords** (`run_keyword`) and **line feeds** (`run_lineOver`, `run_lineEnd`,
  `run_close`, `run_blankLine`): a run of one step or two.
* **Parameters** (`IsWord`, `run_word`): a word in quotes is taken up to its second
  quote. Whether a word is a parameter without quotes shows in its first two bytes,
  and if nothing else opens there it is taken whole.
* **Lines** (`run_directive`): a run over a keyword and its parameters gives an
  event pair for each, and declares what the parameters declare
  (`Line.declareAll_declared`).
* **Ends** (`run_noBody`, `Run.scan_eq`): behind the last line of a document there is
  no body, and a run that comes to its end is a scan.
-/

namespace ApiDoc.Scan

variable {limit pos : Nat} {contexts : List Nat} {rest word : List UInt8} {kind : Kind}
  {line : Line}

/-! ## Keywords -/

/-- White space and the end of the document end a keyword. -/
theorem atBoundary_of_atWhite (h : atWhite rest = true) : Keyword.atBoundary rest = true := by
  cases rest with
  | nil => rfl
  | cons b tail =>
    have hwhite : (Byte.isBlank b || Byte.isBreak b) = true := h
    rw [Keyword.atBoundary, Keyword.isBoundary, Bool.or_assoc (b == 0), hwhite, Bool.or_true,
      Bool.true_or]

/-- A keyword is taken if it ends where it is spelled out. -/
theorem run_keyword (hspells : Keyword.Spells word kind)
    (hboundary : Keyword.atBoundary rest = true) :
    Run limit ⟨⟨pos, word ++ rest⟩, [.items], contexts⟩
      (Part.keyword.events pos (pos + word.length))
      ⟨⟨pos + word.length, rest⟩, [.tail { kind := kind }, .items], contexts⟩ := by
  have hblanks : (⟨pos, word ++ rest⟩ : Cursor).eatBlanks = ⟨pos, word ++ rest⟩ := by
    apply Cursor.eatWhile_of_head
    intro b tail hr
    obtain ⟨d, more, rfl⟩ := List.exists_cons_of_ne_nil hspells.ne_nil
    cases hr
    exact (not_special_of_isAlphanumeric (hspells.isAlphanumeric _ List.mem_cons_self)).1
  have hk : Keyword.recognise (⟨pos, word ++ rest⟩ : Cursor).eatBlanks.rest = .found kind rest := by
    rw [hblanks]
    exact Keyword.recognise_eq_found_iff.mpr ⟨word, rfl, hspells, hboundary⟩
  have hmove : (⟨pos, word ++ rest⟩ : Cursor).eatBlanks.moveTo rest
      = ⟨pos + word.length, rest⟩ := by
    rw [hblanks]
    exact (Cursor.takes_moveTo rfl).unique ⟨rfl, rfl⟩
  have hrule : Performs limit ⟨⟨pos, word ++ rest⟩, [], contexts⟩ .items _ := .keyword hk
  rw [hmove, hblanks] at hrule
  exact .of_rule hrule

/-! ## Line feeds -/

section

variable (hrest : ∀ b tail, rest = b :: tail → Byte.isBreak b = false)

include hrest

/-- A line feed ends the line of a directive, with the blanks before it. -/
theorem run_lineOver {trail : List UInt8} (htrail : ∀ b ∈ trail, Byte.isBlank b = true) :
    Run limit ⟨⟨pos, trail ++ Byte.lineFeed :: rest⟩, [.tail line, .items], contexts⟩ []
      ⟨⟨pos + trail.length + 1, rest⟩, [.body line, .items], contexts⟩ := by
  have hrule : Performs limit ⟨⟨pos + trail.length, Byte.lineFeed :: rest⟩, [.items], contexts⟩
      (.tail line) ⟨[], ⟨(⟨pos + trail.length, Byte.lineFeed :: rest⟩ : Cursor).eatBreak,
        [.body line, .items], contexts⟩⟩ := .lineOver rfl
  rw [Cursor.eatBreak_lineFeed hrest] at hrule
  exact .of_rule_behind htrail (by simp) hrule

/-- It ends a line on which nothing more may follow. -/
theorem run_lineEnd {ending : Ending} :
    Run limit ⟨⟨pos, Byte.lineFeed :: rest⟩, [.lineEnd ending, .items], contexts⟩ []
      ⟨⟨pos + 1, rest⟩, [.items], contexts⟩ := by
  have hrule : Performs limit ⟨⟨pos, Byte.lineFeed :: rest⟩, [.items], contexts⟩ (.lineEnd ending)
      ⟨[], ⟨(⟨pos, Byte.lineFeed :: rest⟩ : Cursor).eatBreak, [.items], contexts⟩⟩ :=
    .lineEnd rfl
  rw [Cursor.eatBreak_lineFeed hrest] at hrule
  exact .of_rule hrule

/-- So it does behind the parenthesis that closes a context. -/
theorem run_close {start : Nat} :
    Run limit ⟨⟨pos, Byte.closeParen :: Byte.lineFeed :: rest⟩, [.items], start :: contexts⟩
      [⟨⟨.context, .closing⟩, ⟨start, pos⟩⟩] ⟨⟨pos + 2, rest⟩, [.items], contexts⟩ := by
  have hparen : Performs limit
      ⟨⟨pos, Byte.closeParen :: Byte.lineFeed :: rest⟩, [], start :: contexts⟩ .items
      ⟨[⟨⟨.context, .closing⟩, ⟨start, pos⟩⟩],
        ⟨⟨pos + 1, Byte.lineFeed :: rest⟩, [.lineEnd .paren, .items], contexts⟩⟩ :=
    .closeContext rfl rfl
  exact (Run.of_rule hparen).trans (run_lineEnd hrest)

/-- Between items it is passed over. -/
theorem run_blankLine :
    Run limit ⟨⟨pos, Byte.lineFeed :: rest⟩, [.items], contexts⟩ []
      ⟨⟨pos + 1, rest⟩, [.items], contexts⟩ := by
  have hrule : Performs limit ⟨⟨pos, Byte.lineFeed :: rest⟩, [], contexts⟩ .items
      ⟨[], ⟨(⟨pos, Byte.lineFeed :: rest⟩ : Cursor).eatBreak, [.items], contexts⟩⟩ :=
    .blankLine rfl rfl
  rw [Cursor.eatBreak_lineFeed hrest] at hrule
  exact .of_rule hrule

end

/-! ## Parameters -/

/-- Whether a word in front of white space is a parameter without quotes: it opens
neither a quoted one nor a parenthesis, a remark or a schema. -/
def isBare (line : Line) : List UInt8 → Bool
  | [] => false
  | b :: more =>
    (b :: more).all (! Byte.isWhite ·) && ! [Byte.quote, Byte.openParen, Byte.hash].contains b
      && ! (b == Byte.slash && more.headD 0 == Byte.slash)
      && ! opensInlineSchema line b (more.headD 0)

/-- White space behind a byte is told from any other byte, and so is the end. -/
theorem headD_append_beq {more : List UInt8} (hrest : atWhite rest = true) {d : UInt8}
    (hd : d ≠ 0) (hwhite : Byte.isWhite d = false) :
    ((more ++ rest).headD 0 == d) = (more.headD 0 == d) := by
  have hzero : ((0 : UInt8) == d) = false := beq_false_of_ne hd.symm
  cases more with
  | cons b more => rfl
  | nil =>
    cases rest with
    | nil => rfl
    | cons b tail =>
      have hb : b ≠ d := by
        rintro rfl
        exact absurd (hwhite.symm.trans hrest) Bool.false_ne_true
      rw [List.nil_append, List.headD_cons, List.headD_nil, hzero]
      exact beq_false_of_ne hb

/-- Only a reference sign tells apart what may follow. -/
theorem opensInlineSchema_congr {next next' : UInt8}
    (h : (next == Byte.atSign) = (next' == Byte.atSign)) (line : Line) (b : UInt8) :
    opensInlineSchema line b next = opensInlineSchema line b next' := by
  rw [opensInlineSchema, opensInlineSchema, bne, bne, h]

/-- A parameter that is a word. -/
theorem parameter_word (line : Line) (s : State) (pos : Nat) (word rest : List UInt8) :
    parameter line s ⟨pos, word ++ rest⟩ ⟨pos + word.length, rest⟩
      = ⟨Part.parameter.events pos (pos + word.length),
          s.proceed ⟨pos + word.length, rest⟩ [.tail (line.declare word)]⟩ := by
  rw [parameter, Nat.add_sub_cancel_left, List.take_left]

/-- A bare word is taken up to the white space behind it. -/
theorem run_bare {blanks : List UInt8} (hopen : line.opened = false)
    (hblanks : ∀ b ∈ blanks, Byte.isBlank b = true) (hword : isBare line word = true)
    (hrest : atWhite rest = true) :
    Run limit ⟨⟨pos, blanks ++ (word ++ rest)⟩, [.tail line, .items], contexts⟩
      (Part.parameter.events (pos + blanks.length) (pos + blanks.length + word.length))
      ⟨⟨pos + blanks.length + word.length, rest⟩, [.tail (line.declare word), .items],
        contexts⟩ := by
  obtain ⟨b, more, rfl⟩ : ∃ b more, word = b :: more := by
    cases word with
    | nil => cases hword
    | cons b more => exact ⟨b, more, rfl⟩
  simp only [isBare, Bool.and_eq_true, Bool.not_eq_true', List.all_eq_true] at hword
  obtain ⟨⟨⟨hcompact, hmark⟩, hslash⟩, hschema⟩ := hword
  have hmark : b ≠ Byte.quote ∧ b ≠ Byte.openParen ∧ b ≠ Byte.hash := by
    simpa using hmark
  obtain ⟨hblank, hbreak⟩ := Byte.isWhite_eq_false_iff.mp (hcompact b List.mem_cons_self)
  have hcursor : (⟨pos + blanks.length, b :: more ++ rest⟩ : Cursor).eatBlanks
      = ⟨pos + blanks.length, b :: more ++ rest⟩ := by
    refine Cursor.eatWhile_of_head ?_
    intro d tail hr
    cases hr
    exact hblank
  have htaken : (⟨pos + blanks.length, b :: more ++ rest⟩ : Cursor).eatWhile (! Byte.isWhite ·)
      = ⟨pos + blanks.length + (b :: more).length, rest⟩ := by
    refine Cursor.eatWhile_of_word (by simpa using hcompact) ?_
    rintro d tail rfl
    have hwhite : Byte.isWhite d = true := hrest
    rw [hwhite]
    rfl
  -- what stands behind the word is read as the end of the document would be
  have hnote : ¬ (b = Byte.slash ∧ (more ++ rest).headD 0 = Byte.slash) := by
    rintro ⟨rfl, hpeek⟩
    rw [← headD_append_beq hrest (by decide) (by decide), hpeek] at hslash
    cases hslash
  have hschema : opensInlineSchema line b ((more ++ rest).headD 0) = false := by
    rw [opensInlineSchema_congr (headD_append_beq hrest (by decide) (by decide)), hschema]
  have hrule : Performs limit ⟨⟨pos + blanks.length, b :: more ++ rest⟩, [.items], contexts⟩
      (.tail line) (bareParameter line _ _) :=
    .bare hopen (congrArg Cursor.rest hcursor) hbreak (by rw [hcursor]; exact hnote) hmark.2.2
      hmark.2.1 (by rw [hcursor]; exact hschema) hmark.1
  rw [bareParameter, hcursor, htaken, parameter_word] at hrule
  exact .of_rule_behind hblanks (by simp) hrule

/-- A word in quotes is taken up to its second quote. -/
theorem run_quoted {blanks : List UInt8} (hopen : line.opened = false)
    (hblanks : ∀ b ∈ blanks, Byte.isBlank b = true) (hword : Byte.IsQuoted word)
    (hrest : atWhite rest = true) :
    Run limit ⟨⟨pos, blanks ++ (word ++ rest)⟩, [.tail line, .items], contexts⟩
      (Part.parameter.events (pos + blanks.length) (pos + blanks.length + word.length))
      ⟨⟨pos + blanks.length + word.length, rest⟩, [.tail (line.declare word), .items],
        contexts⟩ := by
  obtain ⟨inner, hinner, rfl⟩ := hword
  let c : Cursor := ⟨pos + blanks.length, (Byte.quote :: (inner ++ [Byte.quote])) ++ rest⟩
  have hcursor : c.eatBlanks = c := by
    refine Cursor.eatWhile_of_head ?_
    intro b tail hr
    cases hr
    rfl
  have hr : c.rest = (Byte.quote :: inner) ++ Byte.quote :: rest := by
    show Byte.quote :: (inner ++ [Byte.quote] ++ rest) = _
    rw [List.append_assoc]
    rfl
  -- the cursor moves to the second quote, and then past it
  have hmove : (c.moveTo (Byte.quote :: rest)).advance
      = ⟨pos + blanks.length + (Byte.quote :: (inner ++ [Byte.quote])).length, rest⟩ :=
    ((Cursor.takes_moveTo hr).trans (Cursor.takes_advance_one rfl)).unique
      ⟨hr.trans (List.append_cons _ _ _), rfl⟩
  have hrule : Performs limit ⟨c, [.items], contexts⟩ (.tail line) (parameter line _ _ _) :=
    .quoted hopen ((congrArg Cursor.rest hcursor).trans hr) (quotedRest_escaped hinner rest) hrest
  rw [hcursor, hmove, parameter_word] at hrule
  exact .of_rule_behind hblanks (by simp) hrule

/-- A parameter in front of white space, with quotes or without. -/
def IsWord (line : Line) (word : List UInt8) : Prop :=
  isBare line word = true ∨ Byte.IsQuoted word

/-- A parameter is taken with the blanks before it. -/
theorem run_word {blanks : List UInt8} (hopen : line.opened = false)
    (hblanks : ∀ b ∈ blanks, Byte.isBlank b = true) (hword : IsWord line word)
    (hrest : atWhite rest = true) :
    Run limit ⟨⟨pos, blanks ++ (word ++ rest)⟩, [.tail line, .items], contexts⟩
      (Part.parameter.events (pos + blanks.length) (pos + blanks.length + word.length))
      ⟨⟨pos + blanks.length + word.length, rest⟩, [.tail (line.declare word), .items],
        contexts⟩ := by
  rcases hword with hbare | hquoted
  · exact run_bare hopen hblanks hbare hrest
  · exact run_quoted hopen hblanks hquoted hrest

/-! ## Lines -/

/-- A parameter on a directive line, and the blanks before it. -/
structure Token where
  blanks : List UInt8
  word : List UInt8
  separated : blanks ≠ [] ∧ blanks.all Byte.isBlank = true

/-- A token as it stands on the line. -/
def Token.bytes (t : Token) : List UInt8 :=
  t.blanks ++ t.word

theorem Token.isBlank (t : Token) : ∀ b ∈ t.blanks, Byte.isBlank b = true :=
  List.all_eq_true.mp t.separated.2

/-- The events of the tokens of a line from `pos` on. -/
def tokenEvents : Nat → List Token → List Event
  | _, [] => []
  | pos, t :: later =>
    Part.parameter.events (pos + t.blanks.length) (pos + t.blanks.length + t.word.length)
      ++ tokenEvents (pos + t.bytes.length) later

/-- The directive after the parameters of its line. -/
def Line.declareAll (line : Line) (tokens : List Token) : Line :=
  tokens.foldl (fun line t => line.declare t.word) line

/-- The notation that the word names, if it names one. -/
def Token.notation? (t : Token) : Option Notation :=
  Notation.resolve? (Parameter.unquote (Utf8.lossy t.word))

/-- Each word is a parameter where its turn comes. -/
def AllWords : Line → List Token → Prop
  | _, [] => True
  | line, t :: later => IsWord line t.word ∧ AllWords (line.declare t.word) later

theorem Line.declareAll_kind (line : Line) (tokens : List Token) :
    (line.declareAll tokens).kind = line.kind := by
  induction tokens generalizing line with
  | nil => rfl
  | cons t later ih => exact (ih _).trans (line.declare_kind t.word)

theorem Line.declareAll_opened (line : Line) (tokens : List Token) :
    (line.declareAll tokens).opened = line.opened := by
  induction tokens generalizing line with
  | nil => rfl
  | cons t later ih => exact (ih _).trans (line.declare_opened t.word)

theorem Line.declare_declared (h : line.kind.hasSchemaBody = true) (t : Token) :
    (line.declare t.word).declared = t.notation?.getD line.declared := by
  unfold declare Token.notation?
  rw [if_pos h]
  cases Notation.resolve? (Parameter.unquote (Utf8.lossy t.word)) with
  | none => rfl
  | some n => rfl

/-- Of the notations that are named, the last one counts. -/
theorem Line.declareAll_declared (h : line.kind.hasSchemaBody = true) (tokens : List Token) :
    (line.declareAll tokens).declared
      = (tokens.filterMap Token.notation?).getLast?.getD line.declared := by
  induction tokens generalizing line with
  | nil => rfl
  | cons t later ih =>
    have hkind : (line.declare t.word).kind.hasSchemaBody = true := by
      rw [line.declare_kind]
      exact h
    have hlater := ih hkind
    rw [declare_declared h] at hlater
    rw [List.filterMap_cons]
    cases hn : t.notation? with
    | none =>
      rw [hn] at hlater
      exact hlater
    | some n =>
      rw [hn] at hlater
      rw [List.getLast?_cons]
      exact hlater

/-- The tokens keep apart from what stands before them. -/
theorem atWhite_tokens (tokens : List Token) (hrest : atWhite rest = true) :
    atWhite (tokens.flatMap Token.bytes ++ rest) = true := by
  cases tokens with
  | nil => exact hrest
  | cons t later =>
    obtain ⟨b, blanks, heq⟩ := List.exists_cons_of_ne_nil t.separated.1
    have hb : Byte.isWhite b = true :=
      Byte.isWhite_of_isBlank (t.isBlank b (heq ▸ List.mem_cons_self))
    rw [List.flatMap_cons, Token.bytes, heq]
    exact hb

/-- So do blanks and the white space behind them. -/
theorem atWhite_behind {trail : List UInt8} {b : UInt8}
    (htrail : ∀ b ∈ trail, Byte.isBlank b = true) (hb : Byte.isWhite b = true) :
    atWhite (trail ++ b :: rest) = true :=
  atWhite_append (fun d hd => Byte.isWhite_of_isBlank (htrail d hd)) hb

/-- The parameters of a line are taken one behind the other. -/
theorem run_tokens {tokens : List Token} (hopen : line.opened = false)
    (hwords : AllWords line tokens) (hrest : atWhite rest = true) :
    Run limit ⟨⟨pos, tokens.flatMap Token.bytes ++ rest⟩, [.tail line, .items], contexts⟩
      (tokenEvents pos tokens)
      ⟨⟨pos + (tokens.flatMap Token.bytes).length, rest⟩,
        [.tail (line.declareAll tokens), .items], contexts⟩ := by
  induction tokens generalizing pos line with
  | nil => exact .refl _
  | cons t later ih =>
    obtain ⟨hword, hlater⟩ := hwords
    have hbehind : pos + t.blanks.length + t.word.length = pos + t.bytes.length := by
      rw [Token.bytes, List.length_append, Nat.add_assoc]
    -- the blanks of the next token, or `rest`, keep the word apart
    have hfirst : Run limit
        ⟨⟨pos, t.blanks ++ (t.word ++ (later.flatMap Token.bytes ++ rest))⟩,
          [.tail line, .items], contexts⟩ _ _ :=
      run_word hopen t.isBlank hword (atWhite_tokens later hrest)
    rw [hbehind] at hfirst
    have hrun := hfirst.trans (ih ((line.declare_opened t.word).trans hopen) hlater)
    rw [tokenEvents, hbehind, List.flatMap_cons, List.length_append, ← Nat.add_assoc]
    simpa only [Token.bytes, List.append_assoc, Line.declareAll, List.foldl_cons] using hrun

/-- A keyword and its parameters are taken, whatever stands behind the white space
that ends them. -/
theorem run_directive {tokens : List Token} (hspells : Keyword.Spells word kind)
    (hwords : AllWords { kind := kind } tokens) (hrest : atWhite rest = true) :
    Run limit ⟨⟨pos, word ++ (tokens.flatMap Token.bytes ++ rest)⟩, [.items], contexts⟩
      (Part.keyword.events pos (pos + word.length) ++ tokenEvents (pos + word.length) tokens)
      ⟨⟨pos + word.length + (tokens.flatMap Token.bytes).length, rest⟩,
        [.tail (Line.declareAll { kind := kind } tokens), .items], contexts⟩ :=
  (run_keyword hspells (atBoundary_of_atWhite (atWhite_tokens tokens hrest))).trans
    (run_tokens rfl hwords hrest)

/-! ## The end of a document -/

/-- Behind the last line of a document there is no body, whatever the kind. -/
theorem run_noBody (hopen : line.opened = false) :
    Run limit ⟨⟨pos, []⟩, [.body line, .items], contexts⟩ []
      ⟨⟨pos, []⟩, [.items], contexts⟩ := by
  cases hbody : line.kind.body? with
  | none => exact .of_rule (.bodiless (.inr ⟨hopen, hbody⟩))
  | some body =>
    cases body with
    | schema => exact .of_rule (.noSchema hopen hbody rfl)
    | text => exact .of_rule (.noText hopen hbody rfl)

/-- A run to the end of a document, with no context left open, is a scan. -/
theorem Run.scan_eq {source : Source} {events : List Event}
    (h : Run limit (.start source.bytes) events ⟨⟨pos, []⟩, [.items], []⟩) :
    source.scan limit = .ok events := by
  have hfinish : Performs limit ⟨⟨pos, []⟩, [], []⟩ .items ⟨[], ⟨⟨pos, []⟩, [], []⟩⟩ :=
    .finish rfl rfl
  have hrun := h.trans (.of_rule hfinish)
  rw [List.append_nil] at hrun
  exact Source.scan_eq_ok_iff.mpr ⟨_, hrun, rfl⟩

end ApiDoc.Scan
