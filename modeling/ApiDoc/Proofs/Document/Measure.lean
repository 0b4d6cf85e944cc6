import ApiDoc.Proofs.Document.Fitting

/-!
# Schemas are measured in the notation on record

The notation of a schema is resolved twice: by the scanner, from the bytes of
each parameter, and by the assembly, which gives each parameter a role. A
reader of the document has only the roles.

* **Roles** (`Parameter.tells_of_classify?`): of all kinds with a schema but
  one, the parameters that name a notation are those in the role of one. A query
  takes such a name for an example.
* **Records** (`Directive.Told`): parameters have the role of their text, and a
  schema has the extent that the grammar of its notation gives to it.
* **Runs** (`Run.told`): the rules of the scanner keep the records so, since the
  line agrees with the directive that is read.
* **Documents** (`parse_measures`): a schema can be measured again from what is on
  record, except that a query keeps its notation among its examples
  (`query_measured_by_example`).
-/

namespace ApiDoc

/-! ## Roles -/

theorem Notation.display_of_resolve? {name : String} {n : Notation}
    (h : Notation.resolve? name = some n) : n.display = name := by
  simpa using List.find?_some h

/-- The role in which a directive of this kind keeps its notation. -/
def Kind.notationRole (kind : Kind) : Role :=
  if kind = .query then .queryExample else .schemaNotation

namespace Parameter

variable {kind : Kind} {raw text : String} {p : Parameter} {role : Role}

/-- A reference names no notation. -/
theorem resolve?_of_named? (h : named? role text = some p) : Notation.resolve? text = none := by
  cases hn : Notation.resolve? text with
  | none => rfl
  | some n =>
    rw [← Notation.display_of_resolve? hn, named?] at h
    cases n <;> simp [Notation.display, reference?] at h

theorem named?_role (h : named? role text = some p) : p.role = role := by
  obtain ⟨name, -, rfl⟩ := Option.map_eq_some_iff.mp h
  rfl

theorem notated?_eq_some (h : notated? text = some p) :
    p = ⟨.schemaNotation, text⟩ ∧ (Notation.resolve? text).isSome = true := by
  obtain ⟨n, hn, rfl⟩ := Option.map_eq_some_iff.mp h
  exact ⟨rfl, by rw [hn]; rfl⟩

/-- The name of a schema is a notation or stands in the role asked for. -/
theorem schemaRef?_eq_some (h : schemaRef? role text = some p) :
    p = ⟨.schemaNotation, text⟩ ∧ (Notation.resolve? text).isSome = true ∨
      p.role = role ∧ Notation.resolve? text = none := by
  unfold schemaRef? at h
  split at h
  · rename_i hnotated
    cases h
    exact .inl (notated?_eq_some hnotated)
  · rename_i hnotated
    refine .inr ⟨?_, Option.map_eq_none_iff.mp hnotated⟩
    split at h
    · cases h
      rfl
    · exact named?_role h

/-- What a text is to a directive with a schema: the name of a notation, an
example of a query, or something else in another role. -/
inductive Tells (kind : Kind) (text : String) : Parameter → Prop
  | declared (hquery : kind ≠ .query) (hsome : (Notation.resolve? text).isSome = true) :
      Tells kind text ⟨.schemaNotation, text⟩
  | sample (hquery : kind = .query) : Tells kind text ⟨.queryExample, text⟩
  | other {p : Parameter} (hrole : p.role ≠ kind.notationRole)
      (hnone : Notation.resolve? text = none) : Tells kind text p

theorem tells_of_schemaRef? (hquery : kind ≠ .query) (role : Role) (hrole : role ≠ .schemaNotation)
    (h : schemaRef? role text = some p) : Tells kind text p := by
  rcases schemaRef?_eq_some h with ⟨rfl, hsome⟩ | ⟨hsame, hnone⟩
  · exact .declared hquery hsome
  · refine .other ?_ hnone
    rwa [Kind.notationRole, if_neg hquery, hsame]

theorem tells_of_classify? (hkind : kind.hasSchemaBody = true)
    (h : classify? kind raw = some p) : Tells kind (unquote raw) p := by
  cases kind with
  | request | responseCode | body => exact tells_of_schemaRef? (by decide) .type (by decide) h
  | typeDef => exact tells_of_schemaRef? (by decide) .name (by decide) h
  | headers | path | params | result =>
    obtain ⟨rfl, hsome⟩ := notated?_eq_some h
    exact .declared (by decide) hsome
  | enumDef =>
    refine .other ?_ (resolve?_of_named? h)
    rw [named?_role h]
    decide
  | query =>
    obtain rfl := Option.some.inj h
    by_cases hformat : queryFormats.contains (unquote raw) = true
    · rw [if_pos hformat]
      refine .other (by simp [Kind.notationRole]) ?_
      rcases List.mem_pair.mp (List.contains_iff_mem.mp hformat) with hword | hword <;>
        rw [hword] <;> decide
    · rw [if_neg hformat]
      exact .sample rfl
  | _ => cases hkind

/-- What a parameter names to the scanner can be told from its role and its
value. -/
theorem Tells.resolve? (h : Tells kind text p) :
    Notation.resolve? text
      = if p.role = kind.notationRole then Notation.resolve? p.value else none := by
  cases h with
  | declared hquery =>
    rw [Kind.notationRole, if_neg hquery]
    exact (if_pos rfl).symm
  | sample hquery =>
    rw [Kind.notationRole, if_pos hquery]
    exact (if_pos rfl).symm
  | other hrole hnone => rw [if_neg hrole, hnone]

/-- What stands in the role of a notation names one. -/
theorem Tells.isSome_resolve? (h : Tells kind text p) (hquery : kind ≠ .query)
    (hrole : p.role = .schemaNotation) : (Notation.resolve? p.value).isSome = true := by
  cases h with
  | declared _ hsome => exact hsome
  | sample hsample => exact absurd hsample hquery
  | other hother =>
    rw [Kind.notationRole, if_neg hquery] at hother
    exact absurd hrole hother

end Parameter

/-! ## Records -/

namespace Directive

variable {source : Source} {d e : Directive} {span : Span}

/-- What is on record of a directive: each parameter has the role of its text,
and a schema the extent that the grammar of its notation gives. -/
structure Told (source : Source) (d : Directive) : Prop where
  classified : ∀ entry ∈ d.parameters,
    Parameter.classify? d.kind (source.text entry.2) = some entry.1
  measured : ∀ span, d.body = some ⟨.schema, span⟩ →
    ∃ grammar, ((d.declared? source).getD .standard).grammar? = some grammar ∧
      Schema.extent grammar (source.bytes.drop span.first) = .ok (span.last - span.first + 1)

theorem Told.of_eq (h : d.Told source) (hkind : e.kind = d.kind)
    (hparameters : e.parameters = d.parameters) (hbody : e.body = d.body) : e.Told source where
  classified := by
    rw [hkind, hparameters]
    exact h.classified
  measured := by
    rw [hbody, declared?, hparameters]
    exact h.measured

theorem Told.of_ajar (h : d.Told source) (he : e.ajar = d.ajar) : e.Told source := by
  refine h.of_eq ?_ ?_ ?_
  · show e.ajar.kind = d.ajar.kind
    rw [he]
  · show e.ajar.parameters = d.ajar.parameters
    rw [he]
  · show e.ajar.body = d.ajar.body
    rw [he]

/-- A directive with nothing but its keyword. -/
theorem told_bare {kind : Kind} {parent : Option Nat} :
    Told source { kind := kind, keyword := span, parent := parent } where
  classified entry hentry := absurd hentry List.not_mem_nil
  measured span hspan := by cases hspan

theorem Told.parameter (h : d.Told source) (hbody : d.body = none) {p : Parameter}
    (hp : Parameter.classify? d.kind (source.text span) = some p) :
    Told source { d with parameters := d.parameters ++ [(p, span)] } where
  classified entry hentry := by
    rcases List.mem_append.mp hentry with hentry | hentry
    · exact h.classified entry hentry
    · rw [List.mem_singleton.mp hentry]
      exact hp
  measured span hspan := by
    rw [show d.body = some _ from hspan] at hbody
    cases hbody

theorem Told.text (h : d.Told source) : Told source { d with body := some ⟨.text, span⟩ } where
  classified := h.classified
  measured span hspan := by cases hspan

/-- A schema that has been measured in the notation that the parameters
declare. -/
theorem Told.schema (h : d.Told source) {grammar : Grammar} {n : Nat}
    (hgrammar : ((d.declared? source).getD .standard).grammar? = some grammar)
    {start : Nat} (hn : Schema.extent grammar (source.bytes.drop start) = .ok n) :
    Told source { d with body := some ⟨.schema, .ofRange start (start + n)⟩ } where
  classified := h.classified
  measured span hspan := by
    have hpos := (Schema.extent_bounds hn).1
    obtain rfl : Span.ofRange start (start + n) = span := by
      cases hspan
      rfl
    refine ⟨grammar, hgrammar, ?_⟩
    rw [Span.ofRange_of_lt (by omega), hn]
    exact congrArg Except.ok (by show n = start + n - 1 - start + 1; omega)

/-- The grammar that the notations on record name; the last one counts. -/
def grammar (d : Directive) : Grammar :=
  if (d.valuesOf .schemaNotation).getLast? = some "regex" then .regex else .jsight

/-- The grammar that a query names among its examples; the last one counts. -/
def sampledGrammar (d : Directive) : Grammar :=
  if ((d.valuesOf .queryExample).filterMap Notation.resolve?).getLast? = some .regex then .regex
  else .jsight

/-- The notation that the parameters declare, from what is on record. -/
theorem Told.declared?_eq (h : d.Told source) (hkind : d.kind.hasSchemaBody = true) :
    d.declared? source
      = ((d.valuesOf d.kind.notationRole).filterMap Notation.resolve?).getLast? := by
  rw [declared?, valuesOf, List.filterMap_filterMap]
  congr 1
  apply List.filterMap_congr
  rintro ⟨p, span⟩ hentry
  rw [(Parameter.tells_of_classify? hkind (h.classified _ hentry)).resolve?]
  by_cases hrole : p.role = d.kind.notationRole
  · simp only [if_pos hrole, Option.bind_some]
  · simp only [if_neg hrole, Option.bind_none]

theorem Told.resolve?_notation (h : d.Told source) (hkind : d.kind.hasSchemaBody = true)
    (hquery : d.kind ≠ .query) {value : String} (hvalue : value ∈ d.valuesOf .schemaNotation) :
    ∃ n, Notation.resolve? value = some n := by
  obtain ⟨⟨p, span⟩, hentry, hp⟩ := List.mem_filterMap.mp hvalue
  simp only [Option.ite_none_right_eq_some, Option.some.injEq] at hp
  obtain ⟨hrole, rfl⟩ := hp
  have htells := Parameter.tells_of_classify? hkind (h.classified _ hentry)
  exact Option.isSome_iff_exists.mp (htells.isSome_resolve? hquery hrole)

/-- The grammar in which a schema was measured is the one on record. -/
theorem Told.grammar_eq (h : d.Told source) (hkind : d.kind.hasSchemaBody = true)
    (hquery : d.kind ≠ .query) {g : Grammar}
    (hg : ((d.declared? source).getD .standard).grammar? = some g) : d.grammar = g := by
  rw [h.declared?_eq hkind, Kind.notationRole, if_neg hquery] at hg
  rw [grammar]
  rcases List.eq_nil_or_concat (d.valuesOf .schemaNotation) with hnil | ⟨front, value, hlast⟩
  · rw [hnil] at hg ⊢
    exact Option.some.inj hg
  · have hvalue : value ∈ d.valuesOf .schemaNotation := by
      rw [hlast]
      simp
    obtain ⟨n, hn⟩ := h.resolve?_notation hkind hquery hvalue
    rw [hlast, List.concat_eq_append, List.filterMap_append, List.filterMap_cons_some hn,
      List.filterMap_nil, List.getLast?_concat, Option.getD_some] at hg
    rw [hlast, List.concat_eq_append, List.getLast?_concat, ← Notation.display_of_resolve? hn]
    cases n with
    | jsight | regex => exact Option.some.inj hg
    | any | empty => cases hg

theorem Told.sampledGrammar_eq (h : d.Told source) (hquery : d.kind = .query) {g : Grammar}
    (hg : ((d.declared? source).getD .standard).grammar? = some g) : d.sampledGrammar = g := by
  rw [h.declared?_eq (by rw [hquery]; rfl), Kind.notationRole, if_pos hquery] at hg
  rw [sampledGrammar]
  cases hlast : ((d.valuesOf .queryExample).filterMap Notation.resolve?).getLast? with
  | none =>
    rw [hlast] at hg
    exact Option.some.inj hg
  | some n =>
    rw [hlast] at hg
    cases n with
    | jsight | regex => exact Option.some.inj hg
    | any | empty => cases hg

end Directive

/-! ## Runs -/

theorem Assembly.forall_amend {P : Directive → Prop} {a : Assembly} {front : Array Directive}
    {d : Directive} (hlast : a.directives = front.push d) (hall : ∀ e ∈ a.directives, P e)
    {f : Directive → Directive} (hf : P d → P (f d)) : ∀ e ∈ (a.amend f).directives, P e := by
  have hback : a.directives[a.directives.size - 1]? = some d := by simp [hlast]
  refine forall_modify hall _ ?_
  intro e he
  obtain rfl := Option.some.inj (he.symm.trans hback)
  exact hf

namespace Scan

variable {limit : Nat} {source : Source} {events : List Event} {s t : State} {task : Task}
  {later : List Task} {m : Move} {line : Line} {a b : Assembly} {d : Directive}

/-- The scanner measures a schema in the notation on record. -/
theorem Line.Agrees.told_schema (h : line.Agrees source d) (hd : d.Told source)
    (hbody : line.kind.body? = some .schema) {grammar : Grammar}
    (hgrammar : line.declared.grammar? = some grammar) {c : Cursor} (hheld : source.Holds c)
    {n : Nat} (hn : Schema.extent grammar c.rest = .ok n) :
    Directive.Told source { d with body := some ⟨.schema, .ofRange c.pos (c.pos + n)⟩ } := by
  have hdeclared := h.declared (by rw [Kind.hasSchemaBody, hbody]; rfl)
  rw [← hheld.drop_pos] at hn
  exact hd.schema (hdeclared ▸ hgrammar) hn

/-- Every rule keeps what is on record. -/
theorem Performs.told (ha : s.agenda = task :: later)
    (h : Performs limit (s.drop later) task m) (hacc : Accounted source events s)
    (htracked : Tracked source events s) (hb : Assembly.acceptAll source {} events = .ok b)
    (hmore : b.acceptAll source m.events = .ok a) (hfit : Fitted source s b.directives)
    (hs : ∀ d ∈ b.directives, d.Told source) : ∀ d ∈ a.directives, d.Told source := by
  have hblanks := hacc.holds.move s.cursor.takes_eatBlanks
  have hwhite := hacc.holds.move s.cursor.takes_eatWhite
  have hread : ∀ {line}, task.line? = some line → ∃ (front : Array Directive) (d : Directive),
      b.directives = front.push d ∧ line.Agrees source d := by
    intro line hline
    refine hfit.line ?_
    rw [State.line?, ha]
    exact hline
  have hparameter : ∀ {line span}, task.line? = some line →
      b.parameter source span = .ok a → ∀ d ∈ a.directives, d.Told source := by
    intro line span hline haccept
    obtain ⟨front, d, hlast, hd⟩ := hread hline
    obtain ⟨p, hp, rfl⟩ :=
      Assembly.parameter_eq_ok (by rw [hlast, Array.back?_push]) haccept
    exact Assembly.forall_amend hlast hs fun htold => htold.parameter hd.body hp
  cases h with
  | finish | bodiless | noSchema | noText | lineEnd | blankLine | lineOver | textParen =>
    cases hmore
    exact hs
  | lineComment | blockComment | endComment | tailComment =>
    cases Assembly.accept_of_events (by decide) hmore
    exact hs
  | closeContext hr hctx =>
    obtain ⟨fresh, horder, -⟩ := htracked.orderly
    have hctx : s.contexts = _ := hctx
    rw [hctx] at horder
    cases hmore
    have hajar := (Assembly.assembled_of_orderly horder hb).closeContext_ajar horder
      s.cursor.eatBlanks.pos
    intro e he
    have hmem := List.mem_map_of_mem (f := Directive.ajar) (Array.mem_toList_iff.mpr he)
    rw [hajar] at hmem
    obtain ⟨d, hd, heq⟩ := List.mem_map.mp hmem
    exact (hs d (Array.mem_toList_iff.mp hd)).of_ajar heq.symm
  | keyword hk =>
    cases Assembly.accepts_of_accept (Assembly.accept_of_events (by decide) hmore) with
    | keyword =>
      intro d hd
      rcases Array.mem_push.mp hd with hd | rfl
      · exact hs d hd
      · exact Directive.told_bare
    | amended he => exact absurd rfl he.1
  | note =>
    cases Assembly.accept_of_events (by decide) hmore
    obtain ⟨front, d, hlast, -⟩ := hread rfl
    refine Assembly.forall_amend hlast hs ?_
    intro htold
    exact htold.of_eq rfl rfl rfl
  | contextParen =>
    obtain ⟨front, d, hlast, -⟩ := hread rfl
    cases hmore
    rw [Assembly.openContext_eq (by rw [hlast, Array.size_push])]
    dsimp only
    refine Assembly.forall_amend hlast hs ?_
    intro htold
    exact htold.of_eq rfl rfl rfl
  | inlineSchema _ _ _ hschema hgrammar hn =>
    cases Assembly.accept_of_events (by decide) hmore
    obtain ⟨front, d, hlast, hd⟩ := hread rfl
    exact Assembly.forall_amend hlast hs fun htold =>
      hd.told_schema htold (body?_of_opensInlineSchema hschema) hgrammar hblanks hn
  | schema _ hbody _ hgrammar hn =>
    cases Assembly.accept_of_events (by decide) hmore
    obtain ⟨front, d, hlast, hd⟩ := hread rfl
    exact Assembly.forall_amend hlast hs fun htold =>
      hd.told_schema htold hbody hgrammar hwhite hn
  | quoted => exact hparameter rfl (Assembly.accept_of_events (by decide) hmore)
  | bare => exact hparameter rfl (Assembly.accept_of_events (by decide) hmore)
  | text =>
    cases Assembly.accept_of_events (by decide) hmore
    obtain ⟨front, d, hlast, -⟩ := hread rfl
    exact Assembly.forall_amend hlast hs fun htold => htold.text
  | @parenText _ range =>
    cases range with
    | none =>
      cases hmore
      exact hs
    | some range =>
      cases Assembly.accept_of_events (by decide) hmore
      obtain ⟨front, d, hlast, -⟩ := hread rfl
      exact Assembly.forall_amend hlast hs fun htold => htold.text

theorem Run.told (h : Run limit (State.start source.bytes) events t)
    (haccept : Assembly.acceptAll source {} events = .ok a) :
    ∀ d ∈ a.directives, d.Told source := by
  refine h.preserves_reached (P := fun events _ => ∀ a,
    Assembly.acceptAll source {} events = .ok a → ∀ d ∈ a.directives, d.Told source) ?_ ?_ a haccept
  · intro before u task later m hrun ha hperf hs a hall
    obtain ⟨b, hb, hmore⟩ := Assembly.acceptAll_append_eq_ok_iff.mp hall
    exact hperf.told ha (hrun.accounted (accounted_start source)) hrun.tracked hb hmore
      (hrun.fitted hb) (hs b hb)
  · rintro a ⟨⟩ d hd
    exact absurd hd (Array.not_mem_empty d)

end Scan

/-! ## Documents -/

/-- The schema of a directive has the extent that its grammar on record gives to
the bytes from its start on. The record of a query has no notation; its grammar
is the one that its examples name. -/
theorem parse_measures {source : Source} {limit : Nat} {doc : Document}
    (h : source.parse limit = .ok doc) {d : Directive} (hd : d ∈ doc.directives) {span : Span}
    (hbody : d.body = some ⟨.schema, span⟩) :
    span.first ≤ span.last ∧
    (d.kind ≠ .query → Schema.extent d.grammar (source.bytes.drop span.first)
      = .ok (span.last - span.first + 1)) ∧
    (d.kind = .query → Schema.extent d.sampledGrammar (source.bytes.drop span.first)
      = .ok (span.last - span.first + 1)) := by
  obtain ⟨events, a, hscan, haccept, rfl⟩ := Source.parse_eq_ok_iff.mp h
  obtain ⟨t, hrun, -⟩ := Source.scan_eq_ok_iff.mp hscan
  obtain ⟨hfits, hspread⟩ := (hrun.fitted haccept).each d hd
  have htold := hrun.told haccept d hd
  have hkind : d.kind.hasSchemaBody = true := by
    rw [Kind.hasSchemaBody, hfits.content _ hbody]
    rfl
  obtain ⟨g, hg, hextent⟩ := htold.measured span hbody
  refine ⟨?_, ?_, ?_⟩
  · have hpart : span ∈ d.parts :=
      Directive.mem_parts.mpr (.inr (.inr (.inl (by rw [hbody]; rfl))))
    exact (hspread.parts span hpart).2.1
  · intro hquery
    rw [htold.grammar_eq hkind hquery hg]
    exact hextent
  · intro hquery
    rw [htold.sampledGrammar_eq hquery hg]
    exact hextent

/-- A response whose notation stands in quotes: its body is measured as a regular
expression, up to the comment on its line. -/
theorem parse_measures_quoted :
    let source : Source := ⟨"", Utf8.bytes "GET\n200 \"regex\"\n/[/ # x\n", by decide⟩
    ∃ doc d, source.parse 64 = .ok doc ∧ d ∈ doc.directives ∧ d.grammar = .regex ∧
      d.body = some ⟨.schema, ⟨16, 22⟩⟩ ∧
      Schema.extent d.grammar (source.bytes.drop 16) = .ok 7 := by
  let method : Directive := { kind := .get, keyword := ⟨0, 2⟩, parent := none }
  let response : Directive :=
    { kind := .responseCode, keyword := ⟨4, 6⟩, parent := some 0
      parameters := [(⟨.schemaNotation, "regex"⟩, ⟨8, 14⟩)]
      body := some ⟨.schema, ⟨16, 22⟩⟩ }
  intro source
  have hparse : source.parse 64 = .ok ⟨source, #[method, response]⟩ := by
    decide +kernel
  have hmem : response ∈ #[method, response] := by simp
  obtain ⟨-, hmeasured, -⟩ := parse_measures hparse hmem rfl
  exact ⟨_, response, hparse, hmem, rfl, rfl, hmeasured (by decide)⟩

/-- A query that names a notation: its body is a regular expression to the
scanner, but no parameter on record says so, and read as an example value it has
no extent. -/
theorem query_measured_by_example :
    let source : Source := ⟨"", Utf8.bytes "GET\nQuery regex\n/a/", by decide⟩
    ∃ doc d, source.parse 64 = .ok doc ∧ d ∈ doc.directives ∧
      d.body = some ⟨.schema, ⟨16, 18⟩⟩ ∧ d.valuesOf .schemaNotation = [] ∧
      d.grammar = .jsight ∧ Schema.extent d.grammar (source.bytes.drop 16) ≠ .ok (18 - 16 + 1) := by
  let method : Directive := { kind := .get, keyword := ⟨0, 2⟩, parent := none }
  let query : Directive :=
    { kind := .query, keyword := ⟨4, 8⟩, parent := some 0
      parameters := [(⟨.queryExample, "regex"⟩, ⟨10, 14⟩)]
      body := some ⟨.schema, ⟨16, 18⟩⟩ }
  intro source
  have hparse : source.parse 64 = .ok ⟨source, #[method, query]⟩ := by
    decide +kernel
  have hmem : query ∈ #[method, query] := by simp
  exact ⟨_, query, hparse, hmem, rfl, rfl, rfl, by decide +kernel⟩

end ApiDoc
