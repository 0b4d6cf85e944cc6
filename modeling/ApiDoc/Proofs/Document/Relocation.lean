import ApiDoc.Proofs.Document.Acceptance
import ApiDoc.Proofs.Scan.Places

/-!
# Documents whose bytes have moved

The same words may stand at other places, in the same source or in another one.
Which directives they make does not depend on where they stand:

* **Moves** (`Directive.relocate`, `Assembly.relocate`): all that a directive says of
  places are its spans. What is asked of an assembly on the way are kinds, parents
  and the chain, and they are the same.
* **Assembly** (`accept_relocate`, `acceptAll_relocate`): if the words have the same
  text, the same directives are assembled, moved alike, or the same event is refused
  in its place (`Follows`).
* **Spans** (`AllSpans.acceptAll`): a directive names the spans of events only.
-/

namespace ApiDoc

/-- The event of a word that is looked at again when the document is assembled. -/
def Event.IsWord (e : Event) : Prop :=
  e.mark = ⟨.keyword, .closing⟩ ∨ e.mark = ⟨.parameter, .closing⟩

/-! ## Directives -/

namespace Directive

/-- Every span that the directive names satisfies `P`. -/
structure AllSpans (P : Span → Prop) (d : Directive) : Prop where
  keyword : P d.keyword
  parameters : ∀ entry ∈ d.parameters, P entry.2
  note : ∀ span, d.note = some span → P span
  body : ∀ body, d.body = some body → P body.span
  context : ∀ span, d.context = some span → P span

section

variable {P : Span → Prop} {d : Directive} {span : Span} (h : d.AllSpans P) (hspan : P span)
include h hspan

theorem AllSpans.addParameter (p : Parameter) :
    AllSpans P { d with parameters := d.parameters ++ [(p, span)] } where
  keyword := h.keyword
  parameters entry hentry := by
    rcases List.mem_append.mp hentry with hentry | hentry
    · exact h.parameters entry hentry
    · rw [List.mem_singleton.mp hentry]
      exact hspan
  note := h.note
  body := h.body
  context := h.context

theorem AllSpans.setNote : AllSpans P { d with note := some span } where
  keyword := h.keyword
  parameters := h.parameters
  note _ hnote := Option.some.inj hnote ▸ hspan
  body := h.body
  context := h.context

theorem AllSpans.setBody (content : Content) :
    AllSpans P { d with body := some ⟨content, span⟩ } where
  keyword := h.keyword
  parameters := h.parameters
  note := h.note
  body _ hbody := Option.some.inj hbody ▸ hspan
  context := h.context

theorem AllSpans.setContext : AllSpans P { d with context := some span } where
  keyword := h.keyword
  parameters := h.parameters
  note := h.note
  body := h.body
  context _ hcontext := Option.some.inj hcontext ▸ hspan

end

/-- The directive with its spans in their places. -/
def relocate (place : Nat → Nat) (d : Directive) : Directive :=
  { d with
    keyword := d.keyword.relocate place
    parameters := d.parameters.map fun (p, span) => (p, span.relocate place)
    note := d.note.map (Span.relocate place)
    body := d.body.map fun body => { body with span := body.span.relocate place }
    context := d.context.map (Span.relocate place) }

theorem relocate_id : relocate id = id := by
  have hspan : Span.relocate id = id := rfl
  funext d
  simp [relocate, hspan]

end Directive

namespace Assembly

/-- The assembly with its directives in their places. -/
def relocate (place : Nat → Nat) (a : Assembly) : Assembly :=
  { a with directives := a.directives.map (Directive.relocate place) }

theorem relocate_id : relocate id = id := by
  funext a
  simp [relocate, Directive.relocate_id]

section

variable (place : Nat → Nat) (a : Assembly) (kind : Kind) (span : Span)

@[simp]
theorem chain_relocate : (a.relocate place).chain = a.chain := rfl

@[simp]
theorem contexts_relocate : (a.relocate place).contexts = a.contexts := rfl

@[simp]
theorem getElem?_relocate (i : Nat) :
    (a.relocate place).directives[i]? = (a.directives[i]?).map (Directive.relocate place) :=
  Array.getElem?_map

theorem relocate_modify (directives : Array Directive) (i : Nat) {f g : Directive → Directive}
    (h : ∀ d, (f d).relocate place = g (d.relocate place)) :
    (directives.modify i f).map (Directive.relocate place)
      = (directives.map (Directive.relocate place)).modify i g := by
  apply Array.ext_getElem?
  intro j
  simp only [Array.getElem?_map, Array.getElem?_modify]
  split
  · cases directives[j]? with
    | none => rfl
    | some d => exact congrArg some (h d)
  · rfl

theorem relocate_amend {f g : Directive → Directive}
    (h : ∀ d, (f d).relocate place = g (d.relocate place)) :
    (a.amend f).relocate place = (a.relocate place).amend g := by
  simp only [relocate, amend, relocate_modify place _ _ h, Array.size_map]

theorem lastKind?_relocate : (a.relocate place).lastKind? = a.lastKind? := by
  simp only [lastKind?, relocate, Array.back?_map, Option.map_map]
  rfl

theorem permits_relocate : (a.relocate place).permits kind = a.permits kind := by
  funext i
  rw [permits, permits, getElem?_relocate]
  cases a.directives[i]? with
  | none => rfl
  | some d => rfl

theorem chainFor?_relocate : (a.relocate place).chainFor? kind = a.chainFor? kind := by
  rw [chainFor?, chainFor?, reach, reach, permits_relocate, chain_relocate, contexts_relocate]

theorem misplaced_relocate : (a.relocate place).misplaced kind = a.misplaced kind := by
  -- the equation of so long a text would be slow to derive
  delta misplaced
  rw [chain_relocate]
  cases a.chain.head? with
  | none => rfl
  | some i =>
    rw [Option.bind_some, Option.bind_some, getElem?_relocate]
    cases a.directives[i]? with
    | none => rfl
    | some d => rfl

theorem relocate_add (chain : List Nat) :
    (a.add kind span chain).relocate place
      = (a.relocate place).add kind (span.relocate place) chain := by
  simp [add, relocate, Directive.relocate]

theorem relocate_openContext :
    (a.openContext span).relocate place = (a.relocate place).openContext (span.relocate place) := by
  have hempty : (a.relocate place).directives.isEmpty = a.directives.isEmpty := by
    rw [Array.isEmpty, Array.isEmpty, relocate, Array.size_map]
  rw [openContext, openContext, hempty]
  split
  · rfl
  · have hamend := relocate_amend place a (f := fun d => { d with context := some span })
      (g := fun d => { d with context := some (span.relocate place) }) fun _ => rfl
    rw [← hamend]
    rfl

theorem relocate_closeContext :
    (a.closeContext span).relocate place
      = (a.relocate place).closeContext (span.relocate place) := by
  have hmodify : ∀ i, _ := fun i => relocate_modify place a.directives i
    (f := fun d => { d with context := some span })
    (g := fun d => { d with context := some (span.relocate place) }) fun _ => rfl
  have howner : (a.relocate place).owner? = a.owner? := rfl
  rw [closeContext, closeContext, contexts_relocate]
  cases a.contexts with
  | nil => rfl
  | cons outside outer =>
    dsimp only
    rw [howner]
    cases a.owner? outside with
    | none => rfl
    | some i =>
      rw [relocate]
      dsimp only
      rw [hmodify]
      rfl

end

end Assembly

/-! ## Events -/

/-- The same result, moved, or the same failure in its place. -/
inductive Follows {α : Type} (place : Nat → Nat) (move : α → α) :
    Except Diagnostic α → Except Diagnostic α → Prop
  | ok (a : α) : Follows place move (.ok a) (.ok (move a))
  | error {d d' : Diagnostic} (hcode : d'.code = d.code) (hmessage : d'.message = d.message)
      (hspan : d'.span? = d.span?.map (Span.relocate place)) :
      Follows place move (.error d) (.error d')

namespace Assembly

variable {source other : Source} {place : Nat → Nat} {e : Event} {events : List Event}
  {a b : Assembly}

/-- An event that is moved with its text is taken alike. -/
theorem accept_relocate (h : e.IsWord → other.text (e.span.relocate place) = source.text e.span)
    (a : Assembly) :
    Follows place (relocate place) (a.accept source e)
      ((a.relocate place).accept other (e.relocate place)) := by
  obtain ⟨⟨part, edge⟩, span⟩ := e
  have hamend : ∀ {f g : Directive → Directive},
      (∀ d, (f d).relocate place = g (d.relocate place)) →
      Follows place (relocate place) (.ok (a.amend f)) (.ok ((a.relocate place).amend g)) := by
    intro f g hfg
    rw [← relocate_amend place a hfg]
    exact .ok _
  cases edge with
  | opening =>
    cases part with
    | context =>
      show Follows place _ (.ok _) (.ok _)
      rw [Event.relocate, ← relocate_openContext]
      exact .ok _
    | keyword | parameter | note | schema | text | comment => exact .ok a
  | closing =>
    cases part with
    | keyword =>
      have htext : other.text (span.relocate place) = source.text span := h (.inl rfl)
      simp only [accept, Event.relocate, keyword, htext, chainFor?_relocate, misplaced_relocate]
      split
      · exact .error rfl rfl rfl
      · split
        · rw [← relocate_add]
          exact .ok _
        · rw [contexts_relocate, ← relocate_add]
          split
          · exact .ok _
          · exact .error rfl rfl rfl
    | parameter =>
      have htext : other.text (span.relocate place) = source.text span := h (.inr rfl)
      simp only [accept, Event.relocate, parameter, htext, lastKind?_relocate]
      split
      · exact .ok a
      · split
        · refine hamend ?_
          intro d
          simp [Directive.relocate]
        · exact .error rfl rfl rfl
    | note | schema | text => exact hamend fun _ => rfl
    | context =>
      show Follows place _ (.ok _) (.ok _)
      rw [Event.relocate, ← relocate_closeContext]
      exact .ok _
    | comment => exact .ok a

/-- Events that are moved with the text of their words are assembled alike. -/
theorem acceptAll_relocate
    (h : ∀ e ∈ events, e.IsWord → other.text (e.span.relocate place) = source.text e.span)
    (a : Assembly) :
    Follows place (relocate place) (a.acceptAll source events)
      ((a.relocate place).acceptAll other (events.map (Event.relocate place))) := by
  induction events generalizing a with
  | nil => exact .ok a
  | cons e events ih =>
    have hone := accept_relocate (h e List.mem_cons_self) a
    rw [List.map_cons, acceptAll, acceptAll]
    generalize a.accept source e = result at hone
    generalize (a.relocate place).accept other (e.relocate place) = result' at hone
    cases hone with
    | ok b => exact ih (fun e' he' => h e' (List.mem_cons_of_mem e he')) b
    | error hcode hmessage hspan => exact .error hcode hmessage hspan

/-! ## Spans -/

/-- Every span that a directive names satisfies `P`. -/
def AllSpans (P : Span → Prop) (a : Assembly) : Prop :=
  ∀ d ∈ a.directives, d.AllSpans P

variable {P : Span → Prop} {span : Span}

theorem AllSpans.add (hs : a.AllSpans P) (hspan : P span) (kind : Kind) (chain : List Nat) :
    (a.add kind span chain).AllSpans P := by
  intro d hd
  rcases Array.mem_push.mp hd with hd | rfl
  · exact hs d hd
  · exact ⟨hspan, by simp, by simp, by simp, by simp⟩

theorem AllSpans.openContext (hs : a.AllSpans P) (hspan : P span) :
    (a.openContext span).AllSpans P := by
  unfold Assembly.openContext
  split
  · exact hs
  · exact forall_modify hs _ fun d _ hd => hd.setContext hspan

theorem AllSpans.closeContext (hs : a.AllSpans P) (hspan : P span) :
    (a.closeContext span).AllSpans P := by
  unfold Assembly.closeContext
  split
  · exact hs
  · dsimp only
    split
    · exact forall_modify hs _ fun d _ hd => hd.setContext hspan
    · exact hs

theorem AllSpans.accept (hs : a.AllSpans P) (hspan : P e.span)
    (h : a.accept source e = .ok b) : b.AllSpans P := by
  obtain ⟨⟨part, edge⟩, span⟩ := e
  cases edge with
  | opening =>
    cases part with
    | context =>
      cases h
      exact hs.openContext hspan
    | keyword | parameter | note | schema | text | comment =>
      cases h
      exact hs
  | closing =>
    cases part with
    | keyword =>
      rcases keyword_cases source a span with ⟨kind, above, -, -, heq⟩ | ⟨d, herror, -⟩
      · cases heq.symm.trans h
        exact hs.add hspan kind above
      · cases herror.symm.trans h
    | parameter =>
      simp only [Assembly.accept, parameter] at h
      split at h
      · cases h
        exact hs
      · split at h
        · cases h
          exact forall_modify hs _ fun d _ hd => hd.addParameter hspan _
        · cases h
    | note =>
      cases h
      exact forall_modify hs _ fun d _ hd => hd.setNote hspan
    | schema | text =>
      cases h
      exact forall_modify hs _ fun d _ hd => hd.setBody hspan _
    | context =>
      cases h
      exact hs.closeContext hspan
    | comment =>
      cases h
      exact hs

/-- A directive names the spans of events only. -/
theorem AllSpans.acceptAll (hs : a.AllSpans P) (hspans : ∀ e ∈ events, P e.span)
    (h : a.acceptAll source events = .ok b) : b.AllSpans P := by
  induction events generalizing a with
  | nil =>
    cases h
    exact hs
  | cons e events ih =>
    obtain ⟨c, hc, hrest⟩ := acceptAll_cons_eq_ok_iff.mp h
    exact ih (hs.accept (hspans e List.mem_cons_self) hc)
      (fun e' he' => hspans e' (List.mem_cons_of_mem e he')) hrest

end Assembly

end ApiDoc
