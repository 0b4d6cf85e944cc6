import ApiDoc.Proofs.Document.Enclosure

/-!
# What a directive keeps fits its kind

The scanner decides by its line what a directive may have: the kind, whether a
parenthesis was read, and the notation that the parameters declare. The assembly
decides nothing; it records what comes on the directive added last. The two stay
in step:

* **The line and the record** (`Line.Agrees`): as long as a directive is read,
  the line of the scanner says of it what the assembly has recorded.
* **Records** (`Directive.Fits`, `Directive.Spread`): so a body is of the content
  that the kind has, stands beside no context and comes with a notation that has
  a grammar; and whatever is recorded stands behind the keyword, in the order of
  the source.
* **Runs** (`Fitted`, `Run.fitted`): each rule of the scanner adds a directive,
  changes the last one, closes a context or leaves all as it is.
-/

namespace ApiDoc

/-! ## Directives -/

/-- The span names bytes from `start` on and before `stop`. -/
def Span.Between (start stop : Nat) (span : Span) : Prop :=
  start ≤ span.first ∧ span.first ≤ span.last ∧ span.last < stop

theorem Span.Between.le {start stop : Nat} {span : Span} (h : span.Between start stop) :
    start ≤ stop := by
  obtain ⟨hfirst, hset, hlast⟩ := h
  omega

namespace Directive

/-- The notation that the parameters declare; the last one counts. -/
def declared? (source : Source) (d : Directive) : Option Notation :=
  (d.parameters.filterMap fun entry =>
    Notation.resolve? (Parameter.unquote (source.text entry.2))).getLast?

/-- The spans of all that stands behind the keyword; of a context it is the
opening parenthesis. -/
def parts (d : Directive) : List Span :=
  d.parameters.map (·.2) ++ d.note.toList ++ (d.body.map (·.span)).toList
    ++ (d.context.map fun span => .point span.first).toList

/-- The directive as it is while its context is open. -/
def ajar (d : Directive) : Directive :=
  { d with context := d.context.map fun span => .point span.first }

/-- What a directive has fits its kind and its parameters. -/
structure Fits (source : Source) (d : Directive) : Prop where
  content : ∀ body, d.body = some body → d.kind.body? = some body.content
  apart : d.body = none ∨ d.context = none
  context : d.kind.hasTextBody = true → d.context = none
  /-- A body is written in a notation that has a grammar. -/
  written : ∀ n, d.declared? source = some n → n.grammar? = none → d.body = none

/-- What a directive has stands behind its keyword and before `stop`, its
parameters in order. -/
structure Spread (stop : Nat) (d : Directive) : Prop where
  keyword : d.keyword.last < stop
  parts : ∀ span ∈ d.parts, span.Between (d.keyword.last + 1) stop
  parameters : (d.parameters.map (·.2)).Pairwise (·.last < ·.first)

/-- `e` is `d` with one more part, or with this part in the place of another. -/
structure Gains (span : Span) (d e : Directive) : Prop where
  keyword : e.keyword = d.keyword
  parts : ∀ x ∈ e.parts, x = span ∨ x ∈ d.parts
  parameters : e.parameters.map (·.2) = d.parameters.map (·.2) ∨
    e.parameters.map (·.2) = d.parameters.map (·.2) ++ [span]

variable {source : Source} {d e : Directive} {span : Span} {p q : Nat}

/-! ### Parts -/

theorem mem_parts :
    span ∈ d.parts ↔ span ∈ d.parameters.map (·.2) ∨ d.note = some span ∨
      d.body.map (·.span) = some span ∨
      d.context.map (fun s => Span.point s.first) = some span := by
  simp only [parts, List.mem_append, Option.mem_toList, or_assoc]

theorem gains_parameter (d : Directive) (param : Parameter) (span : Span) :
    d.Gains span { d with parameters := d.parameters ++ [(param, span)] } where
  keyword := rfl
  parts x hx := by
    rw [mem_parts, List.map_append, List.mem_append] at hx
    rw [mem_parts]
    rcases hx with (hx | hx) | hx
    · exact .inr (.inl hx)
    · exact .inl (List.mem_singleton.mp hx)
    · exact .inr (.inr hx)
  parameters := .inr (by rw [List.map_append, List.map_singleton])

theorem gains_note (d : Directive) (span : Span) : d.Gains span { d with note := some span } where
  keyword := rfl
  parts x hx := by
    rw [mem_parts] at hx ⊢
    rcases hx with hx | hx | hx
    · exact .inr (.inl hx)
    · exact .inl (Option.some.inj hx).symm
    · exact .inr (.inr (.inr hx))
  parameters := .inl rfl

theorem gains_body (d : Directive) (content : Content) (span : Span) :
    d.Gains span { d with body := some ⟨content, span⟩ } where
  keyword := rfl
  parts x hx := by
    rw [mem_parts] at hx ⊢
    rcases hx with hx | hx | hx | hx
    · exact .inr (.inl hx)
    · exact .inr (.inr (.inl hx))
    · exact .inl (Option.some.inj hx).symm
    · exact .inr (.inr (.inr (.inr hx)))
  parameters := .inl rfl

theorem gains_context (d : Directive) (p : Nat) :
    d.Gains (.point p) { d with context := some (.point p) } where
  keyword := rfl
  parts x hx := by
    rw [mem_parts] at hx ⊢
    rcases hx with hx | hx | hx | hx
    · exact .inr (.inl hx)
    · exact .inr (.inr (.inl hx))
    · exact .inr (.inr (.inr (.inl hx)))
    · exact .inl (Option.some.inj hx).symm
  parameters := .inl rfl

theorem declared?_concat (source : Source) (d : Directive) (param : Parameter) (span : Span) :
    declared? source { d with parameters := d.parameters ++ [(param, span)] }
      = (Notation.resolve? (Parameter.unquote (source.text span))).or (d.declared? source) := by
  rw [declared?, List.filterMap_append, List.getLast?_append, declared?]
  congr 1
  rw [List.filterMap_cons, List.filterMap_nil]
  cases Notation.resolve? (Parameter.unquote (source.text span)) with
  | none => rfl
  | some n => rfl

theorem parts_ajar (d : Directive) : d.ajar.parts = d.parts := by
  unfold parts ajar
  cases d.context with
  | none => rfl
  | some span => rfl

theorem context_ajar (d : Directive) : d.ajar.context = none ↔ d.context = none := by
  rw [ajar, Option.map_eq_none_iff]

/-- The closing parenthesis takes nothing away from a directive. -/
theorem Fits.of_ajar (h : d.Fits source) (he : e.ajar = d.ajar) : e.Fits source := by
  have hkind : e.kind = d.kind := by
    show e.ajar.kind = d.ajar.kind
    rw [he]
  have hbody : e.body = d.body := by
    show e.ajar.body = d.ajar.body
    rw [he]
  have hdeclared : e.declared? source = d.declared? source := by
    show e.ajar.declared? source = d.ajar.declared? source
    rw [he]
  have hcontext : e.context = none ↔ d.context = none := by
    rw [← context_ajar, he, context_ajar]
  refine ⟨?_, ?_, ?_, ?_⟩
  · rw [hkind, hbody]
    exact h.content
  · rw [hbody, hcontext]
    exact h.apart
  · rw [hkind, hcontext]
    exact h.context
  · rw [hdeclared, hbody]
    exact h.written

theorem Spread.of_ajar (h : d.Spread p) (he : e.ajar = d.ajar) : e.Spread p := by
  have hkeyword : e.keyword = d.keyword := by
    show e.ajar.keyword = d.ajar.keyword
    rw [he]
  have hparameters : e.parameters = d.parameters := by
    show e.ajar.parameters = d.ajar.parameters
    rw [he]
  have hparts : e.parts = d.parts := by
    rw [← parts_ajar, he, parts_ajar]
  refine ⟨?_, ?_, ?_⟩
  · rw [hkeyword]
    exact h.keyword
  · rw [hkeyword, hparts]
    exact h.parts
  · rw [hparameters]
    exact h.parameters

theorem Spread.mono (h : d.Spread p) (hle : p ≤ q) : d.Spread q where
  keyword := Nat.lt_of_lt_of_le h.keyword hle
  parts span hspan := by
    obtain ⟨hfirst, hset, hlast⟩ := h.parts span hspan
    exact ⟨hfirst, hset, Nat.lt_of_lt_of_le hlast hle⟩
  parameters := h.parameters

/-- One more part, behind all that is there. -/
theorem Spread.gains (h : d.Spread p) (hspan : span.Between p q) (hgains : d.Gains span e) :
    e.Spread q := by
  have hle := hspan.le
  obtain ⟨hfirst, hset, hlast⟩ := hspan
  refine ⟨?_, ?_, ?_⟩
  · rw [hgains.keyword]
    exact Nat.lt_of_lt_of_le h.keyword hle
  · intro x hx
    rw [hgains.keyword]
    rcases hgains.parts x hx with rfl | hx
    · exact ⟨Nat.le_trans h.keyword hfirst, hset, hlast⟩
    · exact (h.mono hle).parts x hx
  · rcases hgains.parameters with hsame | hmore
    · rw [hsame]
      exact h.parameters
    · rw [hmore, List.pairwise_append]
      refine ⟨h.parameters, List.pairwise_singleton _ _, ?_⟩
      intro x hx y hy
      rw [List.mem_singleton.mp hy]
      have hbefore := (h.parts x (mem_parts.mpr (.inl hx))).2.2
      omega

/-! ### Order -/

/-- Whatever a directive has stands before the keywords of those behind it. -/
def InOrder (directives : Array Directive) : Prop :=
  directives.toList.Pairwise fun d e => ∀ span ∈ d.parts, span.last < e.keyword.first

theorem inOrder_push_iff {front : Array Directive} :
    InOrder (front.push d) ↔
      InOrder front ∧ ∀ x ∈ front, ∀ span ∈ x.parts, span.last < d.keyword.first := by
  rw [InOrder, Array.toList_push, List.pairwise_append, InOrder]
  refine and_congr_right fun _ => ⟨?_, ?_⟩
  · rintro ⟨-, hlast⟩ x hx
    exact hlast x (Array.mem_toList_iff.mpr hx) d (List.mem_singleton_self d)
  · intro hlast
    refine ⟨List.pairwise_singleton _ _, ?_⟩
    intro x hx e he
    rw [List.mem_singleton.mp he]
    exact hlast x (Array.mem_toList_iff.mp hx)

theorem InOrder.of_ajar {directives closed : Array Directive} (h : InOrder directives)
    (hajar : closed.toList.map ajar = directives.toList.map ajar) : InOrder closed := by
  -- the order speaks of keywords and parts, and both are there while a context is open
  have hsame : ∀ l : List Directive,
      (l.map ajar).Pairwise (fun d e => ∀ x ∈ d.parts, x.last < e.keyword.first) ↔
        l.Pairwise fun d e => ∀ x ∈ d.parts, x.last < e.keyword.first := by
    intro l
    rw [List.pairwise_map]
    simp only [parts_ajar]
    rfl
  rw [InOrder, ← hsame, hajar, hsame]
  exact h

end Directive

/-- A kind with a text body takes no parameters. -/
theorem Parameter.classify?_of_hasTextBody {kind : Kind} (h : kind.hasTextBody = true)
    (raw : String) : Parameter.classify? kind raw = none := by
  cases kind with
  | description => rfl
  | _ => cases h

/-! ## Assemblies -/

namespace Assembly

variable {source : Source} {a b : Assembly} {d : Directive} {front : Array Directive}
  {events : List Event} {opens : List Nat} {fresh : Bool} {p q : Nat}

theorem directives_amend (h : a.directives = front.push d) (f : Directive → Directive) :
    (a.amend f).directives = front.push (f d) := by
  rw [amend, h, Array.size_push, Nat.add_sub_cancel]
  apply Array.ext_getElem?
  intro i
  rw [Array.getElem?_modify, Array.getElem?_push, Array.getElem?_push]
  by_cases hi : i = front.size
  · simp [hi]
  · simp [hi, Ne.symm hi]

/-- Of the two events of a part the opening one is taken without effect. -/
theorem accept_of_events {part : Part} (hpart : part ≠ .context) {start stop : Nat}
    (h : b.acceptAll source (part.events start stop) = .ok a) :
    b.accept source ⟨⟨part, .closing⟩, .ofRange start stop⟩ = .ok a := by
  have hopening : b.accept source ⟨⟨part, .opening⟩, .point start⟩ = .ok b := by
    cases part with
    | context => exact absurd rfl hpart
    | keyword | parameter | note | schema | text | comment => rfl
  obtain ⟨_, hfirst, hrest⟩ := acceptAll_cons_eq_ok_iff.mp h
  rw [hopening] at hfirst
  cases hfirst
  obtain ⟨_, hlast, hnil⟩ := acceptAll_cons_eq_ok_iff.mp hrest
  cases hnil
  exact hlast

/-- A closing parenthesis completes a context that its owner keeps already. -/
theorem Assembled.closeContext_ajar (h : Assembled source events (p :: opens) fresh a)
    (horder : Orderly source events (p :: opens) fresh) (q : Nat) :
    (a.closeContext ⟨p, q⟩).directives.toList.map Directive.ajar
      = a.directives.toList.map Directive.ajar := by
  obtain ⟨c, hc, hopen, hstart⟩ := horder.ledger.openContexts_closed q
  obtain ⟨span, hrecord, hfirst⟩ := h.kept c (mem_openContexts.mp hc).1
  rw [h.aligned.directives_closeContext hopen]
  refine map_modify a.directives c.owner ?_
  intro d hd
  rw [records, List.getElem?_map, Array.getElem?_toList, hd] at hrecord
  have hcontext : d.context = some span := by simpa using hrecord
  rw [Directive.ajar, Directive.ajar, hcontext, Option.map_some, Option.map_some, hfirst, hstart]

end Assembly

/-! ## Scans -/

namespace Scan

/-- What the scanner knows of the directive that it reads is what is recorded of
it. -/
structure Line.Agrees (source : Source) (line : Line) (d : Directive) : Prop where
  kind : d.kind = line.kind
  body : d.body = none
  context : line.opened = false → d.context = none
  /-- The parenthesis around a text opens no context, and no parameter comes
  before it. -/
  text : line.kind.hasTextBody = true → d.context = none ∧ d.parameters = []
  declared : line.kind.hasSchemaBody = true →
    line.declared = (d.declared? source).getD .standard

/-- What a scan keeps of the directives that its events describe. -/
structure Fitted (source : Source) (s : State) (directives : Array Directive) : Prop where
  each : ∀ d ∈ directives, d.Fits source ∧ d.Spread s.cursor.pos
  ordered : Directive.InOrder directives
  /-- The directive that is read is the last one. -/
  line : ∀ ⦃line⦄, s.line? = some line →
    ∃ (front : Array Directive) (d : Directive), directives = front.push d ∧ line.Agrees source d

section

variable {limit : Nat} {source : Source} {events : List Event} {s t : State} {task : Task}
  {later : List Task} {m : Move} {line line' : Line} {d : Directive} {a b : Assembly}
  {directives : Array Directive} {kind : Kind} {span : Span}

/-! ### The line and the record -/

namespace Line.Agrees

theorem fits (h : line.Agrees source d) : d.Fits source where
  content body hbody := by
    rw [h.body] at hbody
    cases hbody
  apart := .inl h.body
  context htext := (h.text (h.kind ▸ htext)).1
  written _ _ _ := h.body

theorem noted (h : line.Agrees source d) (span : Span) :
    line.Agrees source { d with note := some span } :=
  ⟨h.kind, h.body, h.context, h.text, h.declared⟩

/-- One more parameter, as the scanner and as the assembly take it. -/
theorem declare (h : line.Agrees source d) (htext : line.kind.hasTextBody = false)
    {raw : List UInt8} (hraw : source.text span = Utf8.lossy raw) (param : Parameter) :
    (line.declare raw).Agrees source
      { d with parameters := d.parameters ++ [(param, span)] } where
  kind := h.kind.trans (line.declare_kind raw).symm
  body := h.body
  context hopen := h.context (line.declare_opened raw ▸ hopen)
  text hcontent := by
    rw [line.declare_kind, htext] at hcontent
    cases hcontent
  declared hschema := by
    rw [line.declare_kind] at hschema
    rw [Directive.declared?_concat, hraw, Line.declare, if_pos hschema]
    cases Notation.resolve? (Parameter.unquote (Utf8.lossy raw)) with
    | none => exact h.declared hschema
    | some n => rfl

theorem opened (h : line.Agrees source d) (htext : line.kind.hasTextBody = false) (span : Span) :
    ({ line with opened := true } : Line).Agrees source { d with context := some span } where
  kind := h.kind
  body := h.body
  context hopen := by cases hopen
  text hcontent := by
    have hcontent : line.kind.hasTextBody = true := hcontent
    rw [htext] at hcontent
    cases hcontent
  declared := h.declared

theorem textOpened (h : line.Agrees source d) (htext : line.kind.hasTextBody = true) :
    ({ line with opened := true } : Line).Agrees source d :=
  ⟨h.kind, h.body, fun _ => (h.text htext).1, h.text, h.declared⟩

/-- A body of the content that the kind has, in a notation that has a grammar. -/
theorem bodied (h : line.Agrees source d) {content : Content}
    (hcontent : line.kind.body? = some content) (hcontext : d.context = none)
    (hwritten : ∀ n, d.declared? source = some n → n.grammar? ≠ none) (span : Span) :
    Directive.Fits source { d with body := some ⟨content, span⟩ } where
  content body hbody := by
    obtain rfl := Option.some.inj hbody
    rw [← hcontent]
    exact congrArg Kind.body? h.kind
  apart := .inr hcontext
  context _ := hcontext
  written n hn hnone := absurd hnone (hwritten n hn)

theorem schema (h : line.Agrees source d) (hopen : line.opened = false)
    (hcontent : line.kind.body? = some .schema) {grammar : Grammar}
    (hgrammar : line.declared.grammar? = some grammar) (span : Span) :
    Directive.Fits source { d with body := some ⟨.schema, span⟩ } := by
  refine h.bodied hcontent (h.context hopen) ?_ span
  intro n hn
  have hdeclared := h.declared (by rw [Kind.hasSchemaBody, hcontent]; rfl)
  rw [hn, Option.getD_some] at hdeclared
  rw [← hdeclared, hgrammar]
  exact Option.some_ne_none grammar

theorem textBody (h : line.Agrees source d) (htext : line.kind.hasTextBody = true) (span : Span) :
    Directive.Fits source { d with body := some ⟨.text, span⟩ } := by
  obtain ⟨hcontext, hparameters⟩ := h.text htext
  refine h.bodied (by simpa [Kind.hasTextBody] using htext) hcontext ?_ span
  intro n hn
  rw [Directive.declared?, hparameters] at hn
  cases hn

end Line.Agrees

/-! ### Steps -/

namespace Fitted

/-- The scanner leaves the directive it was reading, if any. -/
theorem leave (h : Fitted source s directives) (hle : s.cursor.pos ≤ t.cursor.pos)
    (hnone : t.line? = none) : Fitted source t directives where
  each d hd := ⟨(h.each d hd).1, (h.each d hd).2.mono hle⟩
  ordered := h.ordered
  line line hline := by
    rw [hnone] at hline
    cases hline

/-- The scanner reads on, and nothing is recorded. -/
theorem readOn (h : Fitted source s directives) (hle : s.cursor.pos ≤ t.cursor.pos)
    (hline : s.line? = some line) (hnext : t.line? = some line')
    (hagrees : ∀ {d}, line.Agrees source d → line'.Agrees source d) :
    Fitted source t directives where
  each d hd := ⟨(h.each d hd).1, (h.each d hd).2.mono hle⟩
  ordered := h.ordered
  line new hnew := by
    rw [hnext] at hnew
    cases hnew
    obtain ⟨front, d, hlast, hd⟩ := h.line hline
    exact ⟨front, d, hlast, hagrees hd⟩

/-- A keyword begins a directive of which nothing else is known. -/
theorem add (h : Fitted source s b.directives) (hspan : span.Between s.cursor.pos t.cursor.pos)
    (hnext : t.line? = some { kind := kind }) (above : List Nat) :
    Fitted source t (b.add kind span above).directives := by
  obtain ⟨hfirst, hset, hlast⟩ := hspan
  have hagrees : Line.Agrees source { kind := kind }
      { kind := kind, keyword := span, parent := above.head? } :=
    ⟨rfl, rfl, fun _ => rfl, fun _ => ⟨rfl, rfl⟩, fun _ => rfl⟩
  refine ⟨?_, ?_, ?_⟩
  · intro d hd
    rcases Array.mem_push.mp hd with hd | rfl
    · exact ⟨(h.each d hd).1, (h.each d hd).2.mono (by omega)⟩
    · exact ⟨hagrees.fits, hlast, fun _ hx => absurd hx List.not_mem_nil, .nil⟩
  · refine Directive.inOrder_push_iff.mpr ⟨h.ordered, ?_⟩
    intro d hd x hx
    have hbefore := ((h.each d hd).2.parts x hx).2.2
    exact Nat.lt_of_lt_of_le hbefore hfirst
  · intro line hline
    rw [hnext] at hline
    cases hline
    exact ⟨b.directives, _, rfl, hagrees⟩

/-- What is recorded is recorded on the directive that is read. -/
theorem amend (h : Fitted source s b.directives) (hline : s.line? = some line)
    (hspan : span.Between s.cursor.pos t.cursor.pos) {f : Directive → Directive}
    (hgains : ∀ d : Directive, d.Gains span (f d))
    (hfits : ∀ d, line.Agrees source d → (f d).Fits source)
    (hnext : ∀ line', t.line? = some line' → ∀ d, line.Agrees source d →
      line'.Agrees source (f d)) :
    Fitted source t (b.amend f).directives := by
  obtain ⟨front, d, hlast, hd⟩ := h.line hline
  obtain ⟨hfront, hbefore⟩ := Directive.inOrder_push_iff.mp (hlast ▸ h.ordered)
  rw [Assembly.directives_amend hlast]
  refine ⟨?_, ?_, ?_⟩
  · intro e he
    rcases Array.mem_push.mp he with he | rfl
    · have hold := h.each e (hlast ▸ Array.mem_push.mpr (.inl he))
      exact ⟨hold.1, hold.2.mono hspan.le⟩
    · have hold := h.each d (hlast ▸ Array.mem_push_self)
      exact ⟨hfits d hd, hold.2.gains hspan (hgains d)⟩
  · refine Directive.inOrder_push_iff.mpr ⟨hfront, ?_⟩
    rw [(hgains d).keyword]
    exact hbefore
  · intro line' hline'
    exact ⟨front, f d, rfl, hnext line' hline' d hd⟩

/-- A body ends what is read of its directive. -/
theorem body (h : Fitted source s b.directives) (hline : s.line? = some line)
    (hspan : span.Between s.cursor.pos t.cursor.pos) (hnone : t.line? = none) {content : Content}
    (hfits : ∀ d, line.Agrees source d →
      Directive.Fits source { d with body := some ⟨content, span⟩ }) :
    Fitted source t (b.amend fun d => { d with body := some ⟨content, span⟩ }).directives := by
  refine h.amend hline hspan (fun d => d.gains_body content span) hfits ?_
  intro line' hline'
  rw [hnone] at hline'
  cases hline'

/-- A closing parenthesis completes a context that is recorded already. -/
theorem close (h : Fitted source s directives) (hle : s.cursor.pos ≤ t.cursor.pos)
    (hnone : t.line? = none) {closed : Array Directive}
    (hajar : closed.toList.map Directive.ajar = directives.toList.map Directive.ajar) :
    Fitted source t closed := by
  refine ⟨?_, h.ordered.of_ajar hajar, ?_⟩
  · intro e he
    have hmem := List.mem_map_of_mem (f := Directive.ajar) (Array.mem_toList_iff.mpr he)
    rw [hajar] at hmem
    obtain ⟨d, hd, heq⟩ := List.mem_map.mp hmem
    obtain ⟨hfits, hspread⟩ := h.each d (Array.mem_toList_iff.mp hd)
    exact ⟨hfits.of_ajar heq.symm, (hspread.mono hle).of_ajar heq.symm⟩
  · intro line hline
    rw [hnone] at hline
    cases hline

end Fitted

/-- The lexemes of a step lie in what the step takes. -/
theorem Performs.between (h : Performs limit s task m) :
    s.cursor.pos ≤ m.next.cursor.pos ∧
      ∀ span ∈ lexemes m.events, span.Between s.cursor.pos m.next.cursor.pos := by
  obtain ⟨parens, ⟨taken, htakes, htiling⟩, -⟩ := h.tiles
  have hpos := htakes.pos
  refine ⟨by omega, ?_⟩
  intro span hspan
  obtain ⟨hfirst, hset, hlast⟩ := htiling.bounds span hspan
  exact ⟨hfirst, hset, by omega⟩

theorem between_of_events {part : Part} (hpart : part ≠ .context) {start stop p q : Nat}
    (h : ∀ span ∈ lexemes (part.events start stop), span.Between p q) :
    (Span.ofRange start stop).Between p q := by
  rw [lexemes_events hpart] at h
  exact h _ (List.mem_singleton_self _)

/-- The text of a parameter is what the scanner takes. -/
theorem text_of_takes {c behind : Cursor} {taken : List UInt8} (hheld : source.Holds c)
    (htakes : c.Takes taken behind) (hne : taken ≠ []) :
    source.text (.ofRange c.pos behind.pos) = Utf8.lossy (c.rest.take (behind.pos - c.pos)) := by
  rw [Source.text, hheld.covered htakes hne, htakes.rest, htakes.pos, Nat.add_sub_cancel_left,
    List.take_left]

theorem body?_of_opensInlineSchema {x next : UInt8} (h : opensInlineSchema line x next = true) :
    line.kind.body? = some .schema := by
  simp only [opensInlineSchema, Kind.hasSchemaBody, Bool.and_eq_true, beq_iff_eq] at h
  exact h.1

/-- A parameter that both sides take. -/
theorem Fitted.parameter (h : Fitted source s b.directives) (hline : s.line? = some line)
    {c behind : Cursor} {taken : List UInt8} (hheld : source.Holds c)
    (htakes : c.Takes taken behind) (hne : taken ≠ [])
    (hspan : (Span.ofRange c.pos behind.pos).Between s.cursor.pos t.cursor.pos)
    (hnext : t.line? = some (line.declare (c.rest.take (behind.pos - c.pos))))
    (haccept : b.parameter source (.ofRange c.pos behind.pos) = .ok a) :
    Fitted source t a.directives := by
  -- the assembly would refuse a parameter before a text
  obtain ⟨front, d, hlast, hd⟩ := h.line hline
  have hback : b.directives.back? = some d := by
    rw [hlast, Array.back?_push]
  obtain ⟨param, hparam, rfl⟩ := Assembly.parameter_eq_ok hback haccept
  have htext : line.kind.hasTextBody = false := by
    rw [Bool.eq_false_iff]
    intro htext
    rw [hd.kind, Parameter.classify?_of_hasTextBody htext] at hparam
    cases hparam
  have hagrees : ∀ d, line.Agrees source d → _ := fun d hd =>
    hd.declare htext (text_of_takes hheld htakes hne) param
  refine h.amend hline hspan (fun d => d.gains_parameter param _)
    (fun d hd => (hagrees d hd).fits) ?_
  intro line' hline' d hd
  rw [hnext] at hline'
  cases hline'
  exact hagrees d hd

/-- Every rule keeps the directives fitted, and the line in agreement with the
last of them. -/
theorem Performs.fitted (ha : s.agenda = task :: later)
    (h : Performs limit (s.drop later) task m) (hacc : Accounted source events s)
    (htracked : Tracked source events s) (hb : Assembly.acceptAll source {} events = .ok b)
    (hmore : b.acceptAll source m.events = .ok a) (hs : Fitted source s b.directives) :
    Fitted source m.next a.directives := by
  obtain ⟨hle, hspans⟩ := h.between
  have hheld := hacc.holds
  have hblanks := hheld.move s.cursor.takes_eatBlanks
  have hlater := (ha ▸ hacc.regular).line?_later
  have hline : s.line? = task.line? := by
    rw [State.line?, ha]
    rfl
  cases h with
  | finish | bodiless | noSchema | noText | lineEnd =>
    cases hmore
    exact hs.leave hle hlater
  | blankLine =>
    cases hmore
    exact hs.leave hle rfl
  | lineComment | blockComment =>
    cases Assembly.accept_of_events (by decide) hmore
    exact hs.leave hle rfl
  | endComment =>
    cases Assembly.accept_of_events (by decide) hmore
    exact hs.leave hle hlater
  | closeContext hr hctx =>
    -- the parenthesis that the scanner pops is the one that the owner keeps
    obtain ⟨fresh, horder, -⟩ := htracked.orderly
    have hctx : s.contexts = _ := hctx
    rw [hctx] at horder
    cases hmore
    exact hs.close hle rfl ((Assembly.assembled_of_orderly horder hb).closeContext_ajar horder _)
  | @keyword kind rest hk =>
    -- the word that is recognised is the word that is classified
    have hspells : Keyword.classify? _ = _ := (spells_of_recognise hblanks hk).2.classify?
    cases Assembly.accepts_of_accept (Assembly.accept_of_events (by decide) hmore) with
    | @keyword _ found above hword =>
      obtain rfl : kind = found := Option.some.inj (hspells.symm.trans hword)
      exact hs.add (between_of_events (by decide) hspans) rfl above
    | amended he => exact absurd rfl he.1
  | lineOver =>
    cases hmore
    exact hs.readOn hle hline rfl id
  | tailComment =>
    cases Assembly.accept_of_events (by decide) hmore
    exact hs.readOn hle hline rfl id
  | textParen _ _ _ htext =>
    cases hmore
    exact hs.readOn hle hline rfl fun hd => hd.textOpened htext
  | note =>
    cases Assembly.accept_of_events (by decide) hmore
    refine hs.amend hline (between_of_events (by decide) hspans) (fun d => d.gains_note _)
      (fun d hd => (hd.noted _).fits) ?_
    rintro _ ⟨⟩ d hd
    exact hd.noted _
  | contextParen _ _ _ htext =>
    obtain ⟨front, d, hlast, -⟩ := hs.line hline
    have hsize : b.directives.size = front.size + 1 := by
      rw [hlast, Array.size_push]
    cases hmore
    rw [Assembly.openContext_eq hsize]
    refine hs.amend hline (hspans _ (List.mem_singleton_self _)) (fun d => d.gains_context _)
      (fun d hd => (hd.opened htext _).fits) ?_
    rintro _ ⟨⟩ d hd
    exact hd.opened htext _
  | inlineSchema hopen _ _ hschema hgrammar =>
    have hbody := body?_of_opensInlineSchema hschema
    cases Assembly.accept_of_events (by decide) hmore
    exact hs.body hline (between_of_events (by decide) hspans) rfl
      fun d hd => hd.schema hopen hbody hgrammar _
  | quoted _ hr hclose =>
    obtain ⟨word, htakes, hne, -⟩ := takes_quoted hr hclose
    exact hs.parameter hline hblanks htakes hne (between_of_events (by decide) hspans) rfl
      (Assembly.accept_of_events (by decide) hmore)
  | @bare line b tail _ hr hbreak =>
    have hwhite : Byte.isWhite b = false :=
      Byte.isWhite_eq_false_iff.mpr ⟨Cursor.head_eatBlanks hr, hbreak⟩
    have hne : s.cursor.eatBlanks.rest.takeWhile (! Byte.isWhite ·) ≠ [] := by
      rw [hr]
      simp [hwhite]
    exact hs.parameter hline hblanks (Cursor.takes_eatWhile _ _) hne
      (between_of_events (by decide) hspans) rfl (Assembly.accept_of_events (by decide) hmore)
  | schema hopen hbody _ hgrammar =>
    cases Assembly.accept_of_events (by decide) hmore
    exact hs.body hline (between_of_events (by decide) hspans) rfl
      fun d hd => hd.schema hopen hbody hgrammar _
  | @text line _ hbody =>
    have htext : line.kind.hasTextBody = true := by
      rw [Kind.hasTextBody, hbody]
      rfl
    cases Assembly.accept_of_events (by decide) hmore
    exact hs.body hline (between_of_events (by decide) hspans) hlater
      fun d hd => hd.textBody htext _
  | @parenText _ range _ _ _ htext =>
    cases range with
    | none =>
      cases hmore
      exact hs.leave hle rfl
    | some range =>
      cases Assembly.accept_of_events (by decide) hmore
      exact hs.body hline (between_of_events (by decide) hspans) rfl
        fun d hd => hd.textBody htext _

theorem Run.fitted (h : Run limit (State.start source.bytes) events t)
    (haccept : Assembly.acceptAll source {} events = .ok a) : Fitted source t a.directives := by
  have hstart : Fitted source (State.start source.bytes) #[] :=
    ⟨fun d hd => absurd hd (Array.not_mem_empty d), .nil, by intro line hline; cases hline⟩
  refine h.preserves_reached (P := fun events s => ∀ a,
    Assembly.acceptAll source {} events = .ok a → Fitted source s a.directives) ?_ ?_ a haccept
  · intro before u task later m hrun ha hperf hs a hall
    obtain ⟨b, hb, hmore⟩ := Assembly.acceptAll_append_eq_ok_iff.mp hall
    exact hperf.fitted ha (hrun.accounted (accounted_start source)) hrun.tracked hb hmore (hs b hb)
  · intro a ha
    cases ha
    exact hstart

end

end Scan

/-- What a directive of a document has fits it. A body is of the content that
the kind has, and stands neither beside a context nor behind a notation without
one; a kind with a text has no context. All parts stand between the keyword and
that of the next directive, and the parameters in the order of the source. -/
theorem parse_fits {source : Source} {limit : Nat} {doc : Document}
    (h : source.parse limit = .ok doc) {i : Nat} {d : Directive}
    (hd : doc.directives[i]? = some d) :
    (∀ span, d.body = some ⟨.schema, span⟩ → d.kind.hasSchemaBody = true) ∧
    (∀ span, d.body = some ⟨.text, span⟩ → d.kind.hasTextBody = true) ∧
    (d.body = none ∨ d.context = none) ∧
    (d.kind.hasTextBody = true → d.context = none) ∧
    (d.declared? source = some .any ∨ d.declared? source = some .empty → d.body = none) ∧
    (∀ span ∈ d.parts, d.keyword.last < span.first ∧ span.first ≤ span.last ∧
      ∀ next, doc.directives[i + 1]? = some next → span.last < next.keyword.first) ∧
    (d.parameters.map (·.2)).Pairwise (·.last < ·.first) := by
  obtain ⟨events, a, hscan, haccept, rfl⟩ := Source.parse_eq_ok_iff.mp h
  obtain ⟨t, hrun, -⟩ := Source.scan_eq_ok_iff.mp hscan
  have hfitted := hrun.fitted haccept
  obtain ⟨hfits, hspread⟩ := hfitted.each d (Array.mem_of_getElem? hd)
  refine ⟨?_, ?_, hfits.apart, hfits.context, ?_, ?_, hspread.parameters⟩
  · intro span hbody
    rw [Kind.hasSchemaBody, hfits.content _ hbody]
    rfl
  · intro span hbody
    rw [Kind.hasTextBody, hfits.content _ hbody]
    rfl
  · rintro (hany | hempty)
    · exact hfits.written .any hany rfl
    · exact hfits.written .empty hempty rfl
  · intro span hspan
    obtain ⟨hfirst, hset, -⟩ := hspread.parts span hspan
    refine ⟨hfirst, hset, ?_⟩
    intro next hnext
    rw [← Array.getElem?_toList] at hd hnext
    obtain ⟨hi, rfl⟩ := List.getElem?_eq_some_iff.mp hd
    obtain ⟨hj, rfl⟩ := List.getElem?_eq_some_iff.mp hnext
    exact List.pairwise_iff_getElem.mp hfitted.ordered i (i + 1) hi hj (Nat.lt_succ_self i) span
      hspan

/-- A response whose last notation is `any` has no body, and what it has stands
before the next response, which has a schema. -/
theorem parse_fits_responses :
    let source : Source :=
      ⟨"", Utf8.bytes "URL (\nGET\n200 regex any\n404 // d\n{}\n)", by decide⟩
    ∃ doc d next, source.parse 1 = .ok doc ∧ doc.directives[2]? = some d ∧
      doc.directives[3]? = some next ∧ d.declared? source = some .any ∧ d.body = none ∧
      d.parts = [⟨14, 18⟩, ⟨20, 22⟩] ∧ 22 < next.keyword.first ∧
      next.body = some ⟨.schema, ⟨33, 34⟩⟩ ∧ next.kind.hasSchemaBody = true := by
  let resource : Directive :=
    { kind := .url, keyword := ⟨0, 2⟩, parent := none, context := some ⟨4, 36⟩ }
  let method : Directive := { kind := .get, keyword := ⟨6, 8⟩, parent := some 0 }
  let success : Directive :=
    { kind := .responseCode, keyword := ⟨10, 12⟩, parent := some 1
      parameters := [(⟨.schemaNotation, "regex"⟩, ⟨14, 18⟩), (⟨.schemaNotation, "any"⟩, ⟨20, 22⟩)] }
  let missing : Directive :=
    { kind := .responseCode, keyword := ⟨24, 26⟩, parent := some 1, note := some ⟨28, 31⟩
      body := some ⟨.schema, ⟨33, 34⟩⟩ }
  intro source
  have hparse : source.parse 1 = .ok ⟨source, #[resource, method, success, missing]⟩ := by
    decide +kernel
  have hany : success.declared? source = some .any := by
    decide +kernel
  obtain ⟨-, -, -, -, hnone, hparts, -⟩ := parse_fits hparse (i := 2) rfl
  obtain ⟨hschema, -⟩ := parse_fits hparse (i := 3) rfl
  exact ⟨_, success, missing, hparse, rfl, rfl, hany, hnone (.inl hany), rfl,
    (hparts ⟨20, 22⟩ (by decide)).2.2 missing rfl, rfl, hschema _ rfl⟩

end ApiDoc
