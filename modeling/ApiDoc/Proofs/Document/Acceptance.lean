import ApiDoc.Document.Parse
import ApiDoc.Proofs.Document.Placement
import ApiDoc.Proofs.Scan.Ledger

/-!
# What an event does to an assembly

The taking of an event is inverted once; what follows goes by its cases.

* **Acceptance** (`Accepts`): a keyword adds one directive where it is placed
  (`Places`), a parenthesis opens or closes a context, and any other event
  leaves the tree and its contexts as they are (`Amended`).
* **Refusal** (`Refuses`): a keyword may name nothing or have no place, and a
  parameter may not be taken.
* **Runs** (`acceptAll_preserves`, `acceptAll_refuses`): an invariant of the
  steps holds of the whole, and a failure is the refusal of one event.
* **Frames** (`acceptAll_shape`, `acceptAll_listed`): directives that are there
  stay where they are, and there is one for each keyword, of the kind that its
  text names.
-/

namespace ApiDoc

/-- What is fixed once the keyword and the context of a directive are known. -/
def Directive.fixed (d : Directive) : Directive :=
  { d with parameters := [], note := none, body := none }

/-- The keywords of the directives, each with the kind. -/
def roster (directives : Array Directive) : List (Span × Kind) :=
  directives.toList.map fun d => (d.keyword, d.kind)

/-- The contexts that the directives record. -/
def records (directives : Array Directive) : List (Option Span) :=
  directives.toList.map (·.context)

theorem roster_modify {directives : Array Directive} {i : Nat} {f : Directive → Directive}
    (h : ∀ d, ((f d).keyword, (f d).kind) = (d.keyword, d.kind)) :
    roster (directives.modify i f) = roster directives :=
  map_modify directives i fun d _ => h d

theorem records_modify {directives : Array Directive} {i : Nat} {f : Directive → Directive}
    (h : ∀ d, (f d).context = d.context) :
    records (directives.modify i f) = records directives :=
  map_modify directives i fun d _ => h d

theorem length_roster (directives : Array Directive) :
    (roster directives).length = directives.size := by
  rw [roster, List.length_map, Array.length_toList]

namespace Assembly

/-! ## Steps -/

/-- Parameters, annotations and bodies change nothing but themselves. -/
structure Amended (a a' : Assembly) : Prop where
  shape_eq : shape a'.directives = shape a.directives
  roster_eq : roster a'.directives = roster a.directives
  records_eq : records a'.directives = records a.directives
  chain_eq : a'.chain = a.chain
  contexts_eq : a'.contexts = a.contexts

/-- `Places a kind above`: a directive of this kind is put beneath `above`, the
nearest first. -/
inductive Places (a : Assembly) (kind : Kind) : List Nat → Prop
  | beneath {above : List Nat} (h : a.chainFor? kind = some above) : Places a kind above
  | top (hnone : a.chainFor? kind = none) (hctx : a.contexts = [])
      (hroot : kind.allowedAtRoot = true) : Places a kind []

/-- What an event that is accepted makes of an assembly. -/
inductive Accepts (source : Source) (a : Assembly) : Event → Assembly → Prop
  | keyword {span : Span} {kind : Kind} {above : List Nat}
      (hword : Keyword.classify? (source.text span) = some kind) (h : a.Places kind above) :
      Accepts source a ⟨⟨.keyword, .closing⟩, span⟩ (a.add kind span above)
  | opened {span : Span} : Accepts source a ⟨⟨.context, .opening⟩, span⟩ (a.openContext span)
  | closed {span : Span} : Accepts source a ⟨⟨.context, .closing⟩, span⟩ (a.closeContext span)
  | amended {e : Event} {a' : Assembly} (he : e.IsPlain) (h : a.Amended a') :
      Accepts source a e a'

/-- Why an event is refused. -/
inductive Refuses (source : Source) (a : Assembly) : Event → Diagnostic → Prop
  | unknown {span : Span} (hword : Keyword.classify? (source.text span) = none) :
      Refuses source a ⟨⟨.keyword, .closing⟩, span⟩
        (.inSource (.unknownDirective (source.text span)) source span)
  | misplaced {span : Span} {kind : Kind}
      (hword : Keyword.classify? (source.text span) = some kind)
      (h : ∀ above, ¬ a.Places kind above) :
      Refuses source a ⟨⟨.keyword, .closing⟩, span⟩
        (.inSource (.context (a.misplaced kind)) source span)
  | parameter {span : Span} {kind : Kind} (hkind : a.lastKind? = some kind)
      (h : Parameter.classify? kind (source.text span) = none) :
      Refuses source a ⟨⟨.parameter, .closing⟩, span⟩
        (.inSource (.parameter (source.text span)) source span)

variable {source : Source} {a a' : Assembly} {e : Event} {events : List Event} {span : Span}
  {kind : Kind} {above : List Nat} {d : Diagnostic}

theorem Amended.refl (a : Assembly) : a.Amended a :=
  ⟨rfl, rfl, rfl, rfl, rfl⟩

theorem amended_amend (a : Assembly) {f : Directive → Directive}
    (h : ∀ d, (f d).fixed = d.fixed) : a.Amended (a.amend f) := by
  refine ⟨shape_modify ?_, roster_modify ?_, records_modify ?_, rfl, rfl⟩
  · intro d
    have hd := congrArg (fun d : Directive => (d.kind, d.parent)) (h d)
    exact hd
  · intro d
    have hd := congrArg (fun d : Directive => (d.keyword, d.kind)) (h d)
    exact hd
  · intro d
    have hd := congrArg Directive.context (h d)
    exact hd

/-- The search gives the chain from the first directive in reach that permits
the kind. -/
theorem chainFor?_eq_some (h : a.chainFor? kind = some above) :
    ∃ n, n < a.chain.length - a.contexts.headD 0 ∧ above = a.chain.drop n ∧
      a.reach.find? (a.permits kind) = above.head? := by
  obtain ⟨n, hn, rfl⟩ := Option.map_eq_some_iff.mp h
  have hlt : n < a.reach.length := (List.findIdx?_eq_some_iff_getElem.mp hn).1
  rw [reach, List.length_take] at hlt
  refine ⟨n, by omega, rfl, ?_⟩
  rw [List.find?_eq_bind_findIdx?_getElem?, hn, List.head?_drop, Option.bind_some, reach,
    List.getElem?_take_of_lt (by omega)]

theorem chainFor?_eq_none_iff :
    a.chainFor? kind = none ↔ ∀ i ∈ a.reach, a.permits kind i = false := by
  rw [chainFor?, Option.map_eq_none_iff, List.findIdx?_eq_none_iff]

/-- The parent is the first directive in reach that permits the kind. -/
theorem Places.find?_reach (h : a.Places kind above) :
    a.reach.find? (a.permits kind) = above.head? := by
  cases h with
  | beneath h =>
    obtain ⟨-, -, -, hfind⟩ := chainFor?_eq_some h
    exact hfind
  | top hnone =>
    rw [List.head?_nil, List.find?_eq_none]
    simpa using chainFor?_eq_none_iff.mp hnone

/-- What stands above a new directive is the outer part of the chain. -/
theorem Places.suffix (h : a.Places kind above) : above <:+ a.chain := by
  cases h with
  | beneath h =>
    obtain ⟨n, -, rfl, -⟩ := chainFor?_eq_some h
    exact List.drop_suffix n a.chain
  | top => exact List.nil_suffix

/-- The owners of open contexts stay in the chain. -/
theorem Places.outside_lt (h : a.Places kind above) (hsorted : a.contexts.Pairwise (· > ·)) :
    ∀ outside ∈ a.contexts, outside < above.length := by
  cases h with
  | beneath h =>
    obtain ⟨n, hn, rfl, -⟩ := chainFor?_eq_some h
    intro outside hmem
    rw [List.length_drop]
    cases hctx : a.contexts with
    | nil =>
      rw [hctx] at hmem
      cases hmem
    | cons first rest =>
      rw [hctx] at hn hmem hsorted
      have hfirst : n < a.chain.length - first := hn
      rcases List.mem_cons.mp hmem with rfl | hmem
      · omega
      · have := List.rel_of_pairwise_cons hsorted hmem
        omega
  | top _ hctx =>
    rw [hctx]
    simp

theorem keyword_of_places (hword : Keyword.classify? (source.text span) = some kind)
    (h : a.Places kind above) : a.keyword source span = .ok (a.add kind span above) := by
  cases h with
  | beneath h => simp only [Assembly.keyword, hword, h]
  | top hnone hctx hroot =>
    simp only [Assembly.keyword, hword, hnone]
    exact if_pos ⟨hctx, hroot⟩

/-- A keyword is placed or refused. -/
theorem keyword_cases (source : Source) (a : Assembly) (span : Span) :
    (∃ kind above, Keyword.classify? (source.text span) = some kind ∧ a.Places kind above ∧
      a.keyword source span = .ok (a.add kind span above)) ∨
    ∃ d, a.keyword source span = .error d ∧ a.Refuses source ⟨⟨.keyword, .closing⟩, span⟩ d := by
  cases hword : Keyword.classify? (source.text span) with
  | none =>
    refine .inr ⟨_, ?_, .unknown hword⟩
    simp only [Assembly.keyword, hword]
  | some kind =>
    by_cases hplace : ∃ above, a.Places kind above
    · obtain ⟨above, hplace⟩ := hplace
      exact .inl ⟨kind, above, rfl, hplace, keyword_of_places hword hplace⟩
    · have hnone : a.chainFor? kind = none :=
        Option.eq_none_iff_forall_ne_some.mpr fun above h => hplace ⟨above, .beneath h⟩
      refine .inr ⟨_, ?_, .misplaced hword fun above h => hplace ⟨above, h⟩⟩
      simp only [Assembly.keyword, hword, hnone]
      exact if_neg fun h => hplace ⟨[], .top hnone h.1 h.2⟩

theorem parameter_cases (source : Source) (a : Assembly) (span : Span) :
    (∃ a', a.parameter source span = .ok a' ∧ a.Amended a') ∨
    ∃ d, a.parameter source span = .error d ∧
      a.Refuses source ⟨⟨.parameter, .closing⟩, span⟩ d := by
  unfold Assembly.parameter
  split
  · exact .inl ⟨a, rfl, .refl a⟩
  · rename_i kind hkind
    dsimp only
    split
    · exact .inl ⟨_, rfl, amended_amend a (by intro; rfl)⟩
    · rename_i hnone
      exact .inr ⟨_, rfl, .parameter hkind hnone⟩

/-- A parameter that is taken is recorded on the directive added last, in a role
that its kind has. -/
theorem parameter_eq_ok {last : Directive} (hlast : a.directives.back? = some last)
    (h : a.parameter source span = .ok a') :
    ∃ p, Parameter.classify? last.kind (source.text span) = some p ∧
      a' = a.amend fun d => { d with parameters := d.parameters ++ [(p, span)] } := by
  have hkind : a.lastKind? = some last.kind := by
    rw [lastKind?, hlast]
    rfl
  simp only [parameter, hkind] at h
  split at h
  · rename_i p hp
    cases h
    exact ⟨p, hp, rfl⟩
  · cases h

/-- An event is accepted or refused. -/
theorem accept_cases (source : Source) (a : Assembly) (e : Event) :
    (∃ a', a.accept source e = .ok a' ∧ a.Accepts source e a') ∨
    ∃ d, a.accept source e = .error d ∧ a.Refuses source e d := by
  obtain ⟨⟨part, edge⟩, span⟩ := e
  have hplain : ∀ {a'}, part ≠ .context → ¬ (part = .keyword ∧ edge = .closing) → a.Amended a' →
      a.Accepts source ⟨⟨part, edge⟩, span⟩ a' := by
    intro a' hcontext hkeyword hsame
    exact .amended ⟨fun hmark => hkeyword (by simpa using hmark), hcontext⟩ hsame
  have hkept : part ≠ .context → ¬ (part = .keyword ∧ edge = .closing) →
      a.Accepts source ⟨⟨part, edge⟩, span⟩ a := fun hcontext hkeyword =>
    hplain hcontext hkeyword (.refl a)
  cases part with
  | keyword =>
    cases edge with
    | opening => exact .inl ⟨a, rfl, hkept (by decide) (by decide)⟩
    | closing =>
      rcases keyword_cases source a span with ⟨kind, above, hword, hplace, heq⟩ | hrefused
      · exact .inl ⟨_, heq, .keyword hword hplace⟩
      · exact .inr hrefused
  | parameter =>
    cases edge with
    | opening => exact .inl ⟨a, rfl, hkept (by decide) (by decide)⟩
    | closing =>
      rcases parameter_cases source a span with ⟨a', heq, hsame⟩ | hrefused
      · exact .inl ⟨a', heq, hplain (by decide) (by decide) hsame⟩
      · exact .inr hrefused
  | note | schema | text =>
    cases edge with
    | opening => exact .inl ⟨a, rfl, hkept (by decide) (by decide)⟩
    | closing =>
      exact .inl ⟨_, rfl, hplain (by decide) (by decide) (amended_amend a (by intro; rfl))⟩
  | context =>
    cases edge with
    | opening => exact .inl ⟨_, rfl, .opened⟩
    | closing => exact .inl ⟨_, rfl, .closed⟩
  | comment =>
    cases edge with
    | opening | closing => exact .inl ⟨a, rfl, hkept (by decide) (by decide)⟩

theorem accepts_of_accept (h : a.accept source e = .ok a') : a.Accepts source e a' := by
  rcases accept_cases source a e with ⟨b, hb, haccepts⟩ | ⟨d, hd, -⟩
  · rw [h] at hb
    cases hb
    exact haccepts
  · rw [h] at hd
    cases hd

theorem refuses_of_accept (h : a.accept source e = .error d) : a.Refuses source e d := by
  rcases accept_cases source a e with ⟨b, hb, -⟩ | ⟨d', hd, hrefuses⟩
  · rw [h] at hb
    cases hb
  · rw [h] at hd
    cases hd
    exact hrefuses

/-! ## Runs -/

theorem acceptAll_cons_eq_ok_iff :
    a.acceptAll source (e :: events) = .ok a' ↔
      ∃ b, a.accept source e = .ok b ∧ b.acceptAll source events = .ok a' := by
  rw [acceptAll]
  cases a.accept source e with
  | error d => simp
  | ok b => simp

theorem acceptAll_append_eq_ok_iff {more : List Event} :
    a.acceptAll source (events ++ more) = .ok a' ↔
      ∃ b, a.acceptAll source events = .ok b ∧ b.acceptAll source more = .ok a' := by
  rw [acceptAll_append]
  cases a.acceptAll source events with
  | error d => simp [Except.bind]
  | ok b => simp [Except.bind]

/-- The last of the events is taken by itself. -/
theorem acceptAll_concat_eq_ok_iff :
    a.acceptAll source (events ++ [e]) = .ok a' ↔
      ∃ b, a.acceptAll source events = .ok b ∧ b.accept source e = .ok a' := by
  have hone : ∀ b : Assembly, b.acceptAll source [e] = b.accept source e := by
    intro b
    rw [acceptAll]
    cases b.accept source e with
    | error d => rfl
    | ok b' => rfl
  rw [acceptAll_append_eq_ok_iff]
  simp only [hone]

/-- What every accepted event preserves holds of what all of them give. -/
theorem acceptAll_preserves {P : List Event → Assembly → Prop} (start : P [] a)
    (step : ∀ {events b e b'}, P events b → Accepts source b e b' → P (events ++ [e]) b')
    (h : a.acceptAll source events = .ok a') : P events a' := by
  induction events using List.reverseRecOn generalizing a' with
  | nil =>
    cases h
    exact start
  | append_singleton events e ih =>
    obtain ⟨b, hb, he⟩ := acceptAll_concat_eq_ok_iff.mp h
    exact step (ih hb) (accepts_of_accept he)

/-- A failure is the refusal of an event. -/
theorem acceptAll_refuses (h : a.acceptAll source events = .error d) :
    ∃ e ∈ events, ∃ b : Assembly, b.Refuses source e d := by
  induction events generalizing a with
  | nil => cases h
  | cons e events ih =>
    rw [acceptAll] at h
    split at h
    · obtain ⟨e', he', hrefuses⟩ := ih h
      exact ⟨e', List.mem_cons_of_mem e he', hrefuses⟩
    · rename_i hrefused
      cases h
      exact ⟨e, List.mem_cons_self, a, refuses_of_accept hrefused⟩

/-! ## What stays -/

/-- A parenthesis behind a directive opens its context. -/
theorem openContext_eq {last : Nat} (h : a.directives.size = last + 1) (span : Span) :
    a.openContext span = { a.amend fun d => { d with context := some span } with
      contexts := (a.chain.length - 1) :: a.contexts } := by
  have hsome : a.directives.isEmpty = false := by
    rw [Array.isEmpty_eq_false_iff]
    intro hnil
    rw [hnil] at h
    cases h
  rw [openContext, hsome, if_neg Bool.false_ne_true]

theorem isPrefix_shape_add (a : Assembly) (kind : Kind) (span : Span) (above : List Nat) :
    shape a.directives <+: shape (a.add kind span above).directives := by
  rw [shape_add]
  exact List.prefix_append _ _

theorem Accepts.shape_kept (h : a.Accepts source e a') :
    shape a.directives <+: shape a'.directives := by
  cases h with
  | keyword => exact isPrefix_shape_add a _ _ _
  | opened => exact shape_openContext a _ ▸ List.prefix_refl _
  | closed => exact shape_closeContext a _ ▸ List.prefix_refl _
  | amended _ hsame => exact hsame.shape_eq ▸ List.prefix_refl _

/-- Directives that are there keep their kinds and their places. -/
theorem acceptAll_shape (h : a.acceptAll source events = .ok a') :
    shape a.directives <+: shape a'.directives :=
  acceptAll_preserves (P := fun _ b => shape a.directives <+: shape b.directives)
    (List.prefix_refl _) (fun hb haccepts => hb.trans haccepts.shape_kept) h

theorem roster_openContext (a : Assembly) (span : Span) :
    roster (a.openContext span).directives = roster a.directives := by
  rw [openContext]
  split
  · rfl
  · exact roster_modify fun _ => rfl

theorem roster_closeContext (a : Assembly) (span : Span) :
    roster (a.closeContext span).directives = roster a.directives := by
  rw [closeContext]
  split
  · rfl
  · dsimp only
    split
    · exact roster_modify fun _ => rfl
    · rfl

theorem roster_add (a : Assembly) (kind : Kind) (span : Span) (above : List Nat) :
    roster (a.add kind span above).directives = roster a.directives ++ [(span, kind)] := by
  rw [roster, add, Array.toList_push, List.map_append, List.map_singleton, roster]

/-- There is a directive for each keyword, of the kind that its text names. -/
def Listed (source : Source) (events : List Event) (a : Assembly) : Prop :=
  (roster a.directives).map (fun entry => (entry.1, some entry.2))
    = (keywords events).map fun span => (span, Keyword.classify? (source.text span))

theorem Accepts.listed (hlisted : a.Listed source events) (h : a.Accepts source e a') :
    a'.Listed source (events ++ [e]) := by
  cases h with
  | keyword hword =>
    rw [Listed, keywords_keyword, roster_add, List.map_append, List.map_append, hlisted]
    simp only [List.map_cons, List.map_nil, hword]
  | opened =>
    rw [Listed, keywords_opened, roster_openContext]
    exact hlisted
  | closed =>
    rw [Listed, keywords_closed, roster_closeContext]
    exact hlisted
  | amended he hsame =>
    rw [Listed, keywords_plain he, hsame.roster_eq]
    exact hlisted

theorem acceptAll_listed (h : acceptAll source {} events = .ok a) : a.Listed source events := by
  have hstart : Listed source [] {} := rfl
  exact acceptAll_preserves (P := fun events b => b.Listed source events) hstart
    (fun hlisted haccepts => haccepts.listed hlisted) h

theorem Listed.size_eq (h : a.Listed source events) :
    a.directives.size = (keywords events).length := by
  have hlen := congrArg List.length h
  rwa [List.length_map, List.length_map, length_roster] at hlen

/-- The keyword and the kind of one directive. -/
theorem Listed.getElem? (h : a.Listed source events) {i : Nat} {d : Directive}
    (hd : a.directives[i]? = some d) :
    (keywords events)[i]? = some d.keyword ∧
      Keyword.classify? (source.text d.keyword) = some d.kind := by
  have hentry := congrArg (·[i]?) h
  simp only [roster, List.getElem?_map, Array.getElem?_toList, hd, Option.map_some] at hentry
  obtain ⟨k, hk, heq⟩ := Option.map_eq_some_iff.mp hentry.symm
  obtain ⟨rfl, hkind⟩ := Prod.mk.inj heq
  exact ⟨hk, hkind⟩

end Assembly

/-! ## Documents -/

section

variable {source : Source} {events : List Event} {directives : Array Directive} {limit : Nat}

theorem Source.validate_eq_ok_iff :
    source.validate events = .ok directives ↔
      ∃ a, Assembly.acceptAll source {} events = .ok a ∧ a.directives = directives := by
  rw [Source.validate]
  cases Assembly.acceptAll source {} events with
  | error d => simp
  | ok a => simp

theorem Source.validate_eq_error_iff {d : Diagnostic} :
    source.validate events = .error d ↔ Assembly.acceptAll source {} events = .error d := by
  rw [Source.validate]
  cases Assembly.acceptAll source {} events with
  | error d' => simp
  | ok a => simp

theorem Source.parse_eq_ok_iff {doc : Document} :
    source.parse limit = .ok doc ↔ ∃ events a, source.scan limit = .ok events ∧
      Assembly.acceptAll source {} events = .ok a ∧ doc = ⟨source, a.directives⟩ := by
  rw [Source.parse]
  cases hscan : source.scan limit with
  | error d => simp
  | ok events =>
    cases hvalid : Assembly.acceptAll source {} events with
    | error d => simp [Source.validate, hvalid]
    | ok a => simp [Source.validate, hvalid, eq_comm]

theorem Source.parse_of_refused {d : Diagnostic} (hscan : source.scan limit = .ok events)
    (h : Assembly.acceptAll source {} events = .error d) : source.parse limit = .error d := by
  simp only [Source.parse, hscan, Source.validate_eq_error_iff.mpr h]

end

end ApiDoc
