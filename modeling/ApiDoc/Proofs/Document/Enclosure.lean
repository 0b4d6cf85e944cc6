import ApiDoc.Proofs.Document.Alignment

/-!
# Parentheses enclose what descends

The explicit context of a directive holds exactly the directives that descend
from it.

* **Tree and text** (`Within`): a directive descends from the owner of a context
  just when its keyword stands in the context. A new keyword is put beneath the
  owners of the open contexts and of no closed one (`Places.mem_iff_open`).
* **Records** (`Recorded`, `Kept`): what a directive keeps as its context is the
  span of a context that it opened, complete once that is closed; and it keeps
  one as soon as it opened one.
* **Documents** (`parse_encloses`): both together, at the end of a source.
-/

namespace ApiDoc

/-- A span stands behind the opening parenthesis of a context, and before the
closing one if that is there. -/
def Context.Encloses (c : Context) (events : List Event) (span : Span) : Prop :=
  c.start < span.first ∧ ∀ s ∈ closings events, s.first = c.start → span.last < s.last

theorem Context.encloses_congr {c : Context} {events more : List Event} {span : Span}
    (h : closings more = closings events) : c.Encloses more span ↔ c.Encloses events span := by
  rw [Context.Encloses, Context.Encloses, h]

/-- What a directive keeps of its context is replaced. -/
theorem records_set (directives : Array Directive) (i : Nat) (span : Span) :
    records (directives.modify i fun d => { d with context := some span })
      = (records directives).set i (some span) := by
  rw [records, Array.toList_modify, records]
  apply List.ext_getElem?
  intro j
  rw [List.getElem?_map, List.getElem?_modify, List.getElem?_set, List.getElem?_map]
  by_cases hij : i = j
  · subst hij
    rw [if_pos rfl, List.length_map]
    cases hd : directives.toList[i]? with
    | none =>
      rw [if_neg (Nat.not_lt.mpr (List.getElem?_eq_none_iff.mp hd))]
      rfl
    | some d =>
      rw [if_pos (List.getElem?_eq_some_iff.mp hd).1]
      simp
  · simp [hij]

/-- A directive keeps the span it was given last. -/
theorem getElem?_set_record {kept : List (Option Span)} {i j : Nat} {span s : Span}
    (h : (kept.set i (some span))[j]? = some (some s)) :
    i = j ∧ s = span ∨ i ≠ j ∧ kept[j]? = some (some s) := by
  rw [List.getElem?_set] at h
  by_cases hij : i = j
  · rw [if_pos hij] at h
    split at h
    · exact .inl ⟨hij, (Option.some.inj (Option.some.inj h)).symm⟩
    · cases h
  · rw [if_neg hij] at h
    exact .inr ⟨hij, h⟩

namespace Assembly

/-- Descent from the owner of a context is told by the text. -/
def Within (events : List Event) (a : Assembly) : Prop :=
  ∀ c ∈ ApiDoc.contexts events, ∀ ⦃j k⦄, (keywords events)[j]? = some k →
    (Beneath a.directives j c.owner ↔ c.Encloses events k)

/-- What the directives keep are contexts of the stream. -/
def Recorded (events : List Event) (a : Assembly) : Prop :=
  ∀ ⦃i span⦄, (records a.directives)[i]? = some (some span) →
    ∃ c ∈ ApiDoc.contexts events, c.owner = i ∧ c.start = span.first ∧
      (c ∈ openContexts events ∨ span ∈ closings events)

/-- A directive that opened a context keeps the parenthesis. -/
def Kept (events : List Event) (a : Assembly) : Prop :=
  ∀ c ∈ ApiDoc.contexts events, ∃ span,
    (records a.directives)[c.owner]? = some (some span) ∧ span.first = c.start

variable {source : Source} {events : List Event} {a a' : Assembly} {e : Event} {span : Span}
  {opens : List Nat} {fresh : Bool} {kind : Kind} {above : List Nat} {c : Context} {p q : Nat}

/-! ## Descent -/

/-- A new directive is put beneath the owner of a context just when the context
is open. -/
theorem Places.mem_iff_open (hplace : a.Places kind above) (h : Aligned events fresh a)
    (hc : c ∈ ApiDoc.contexts events) : c.owner ∈ above ↔ c.isClosed events = false := by
  obtain ⟨inner, hchain⟩ := hplace.suffix
  constructor
  · intro hmem
    have hshut := h.unshut c.owner (hchain ▸ List.mem_append_right inner hmem)
    rw [Bool.eq_false_iff] at hshut ⊢
    exact fun hclosed => hshut (isShut_iff.mpr ⟨c, hc, rfl, hclosed⟩)
  · intro hopen
    obtain ⟨outside, hmem, howner⟩ := h.owner (mem_openContexts.mpr ⟨hc, hopen⟩)
    -- the position of the owner lies in the part of the chain that is kept
    have hlt := hplace.outside_lt h.sorted outside hmem
    rw [owner?_eq, ← hchain, getElem?_reverse_append hlt] at howner
    exact List.mem_reverse.mp (List.mem_of_getElem? howner)

/-- A keyword behind all lexemes stands in the contexts that are open. -/
theorem encloses_iff_open (hl : Ledger source events opens fresh) (hset : span.first ≤ span.last)
    (hbehind : Behind events span.first) (hc : c ∈ ApiDoc.contexts events) :
    c.Encloses events span ↔ c.isClosed events = false := by
  rw [Bool.eq_false_iff]
  constructor
  · rintro ⟨-, hend⟩ hclosed
    obtain ⟨s, hs, hfirst⟩ := Context.isClosed_iff.mp hclosed
    have hlast := hend s hs hfirst
    have hbefore := (hl.closing_lt hbehind hs).2
    omega
  · intro hopen
    refine ⟨hl.start_lt hbehind hc, fun s hs hfirst => ?_⟩
    exact absurd (Context.isClosed_iff.mpr ⟨s, hs, hfirst⟩) hopen

namespace Within

theorem keyword (hw : Within events a) (h : Aligned events fresh a)
    (hl : Ledger source events opens fresh) (hset : span.first ≤ span.last)
    (hbehind : Behind events span.first) (hplace : a.Places kind above) :
    Within (events ++ [⟨⟨.keyword, .closing⟩, span⟩]) (a.add kind span above) := by
  intro c hc j k hk
  rw [contexts_keyword] at hc
  rw [Context.encloses_congr (closings_keyword events span)]
  rw [keywords_keyword] at hk
  by_cases hj : j < (keywords events).length
  · rw [List.getElem?_append_left hj] at hk
    rw [beneath_extend h.parents (isPrefix_shape_add a kind span above) (h.size_eq ▸ hj)]
    exact hw c hc hk
  · -- the keyword is the new one
    have hlen := (List.getElem?_eq_some_iff.mp hk).1
    rw [List.length_append, List.length_singleton] at hlen
    obtain rfl : j = (keywords events).length := by omega
    rw [List.getElem?_concat_length] at hk
    cases hk
    have hline : Lineage (a.add kind span above).directives (some a.directives.size)
        (a.directives.size :: above) := (h.keyword hl hplace span).lineage
    rw [← h.size_eq, ← hline.mem_iff_beneath, hplace.mem_iff_open h hc,
      encloses_iff_open hl hset hbehind hc]

theorem opened (hw : Within events a) (h : Aligned events true a)
    (hl : Ledger source events opens true) (hset : ∀ k ∈ keywords events, k.first ≤ k.last)
    (hbehind : Behind events p) :
    Within (events ++ [⟨⟨.context, .opening⟩, .point p⟩]) (a.openContext (.point p)) := by
  obtain ⟨last, hlast, -⟩ := hl.fresh_last rfl
  have hshape := shape_openContext a (.point p)
  intro c hc j k hk
  rw [keywords_opened] at hk
  have hj := (List.getElem?_eq_some_iff.mp hk).1
  rw [Context.encloses_congr (closings_opened events _),
    beneath_extend h.parents (hshape ▸ List.prefix_refl _) (h.size_eq ▸ hj)]
  rw [contexts_opened hlast] at hc
  rcases List.mem_append.mp hc with hc | hc
  · exact hw c hc hk
  · -- the owner of the new context came last, and its parenthesis stands behind all keywords
    obtain rfl := List.mem_singleton.mp hc
    have hmem := List.mem_of_getElem? hk
    have hbefore : k.last < p := hbehind k (mem_lexemes_of_mem_keywords hmem)
    constructor
    · intro hbeneath
      have hlt : last < j := hbeneath.lt h.parents
      omega
    · rintro ⟨hfirst, -⟩
      have hfirst : p < k.first := hfirst
      have := hset k hmem
      omega

theorem closed (hw : Within events a) (h : Aligned events fresh a) (hbehind : Behind events q) :
    Within (events ++ [⟨⟨.context, .closing⟩, ⟨p, q⟩⟩]) (a.closeContext ⟨p, q⟩) := by
  have hshape := shape_closeContext a ⟨p, q⟩
  intro c hc j k hk
  rw [contexts_closed] at hc
  rw [keywords_closed] at hk
  have hj := (List.getElem?_eq_some_iff.mp hk).1
  rw [beneath_extend h.parents (hshape ▸ List.prefix_refl _) (h.size_eq ▸ hj), hw c hc hk]
  refine and_congr_right fun _ => ?_
  rw [closings_closed]
  -- every keyword that is there stands before the new parenthesis
  have hbefore : k.last < q := hbehind k (mem_lexemes_of_mem_keywords (List.mem_of_getElem? hk))
  constructor
  · intro hall s hs hfirst
    rcases List.mem_append.mp hs with hs | hs
    · exact hall s hs hfirst
    · rw [List.mem_singleton.mp hs]
      exact hbefore
  · exact fun hall s hs => hall s (List.mem_append_left _ hs)

theorem amended (hw : Within events a) (h : Aligned events fresh a) (he : e.IsPlain)
    (hsame : a.Amended a') : Within (events ++ [e]) a' := by
  intro c hc j k hk
  rw [contexts_plain he] at hc
  rw [keywords_plain he] at hk
  have hj := (List.getElem?_eq_some_iff.mp hk).1
  rw [Context.encloses_congr (closings_plain he),
    beneath_extend h.parents (hsame.shape_eq ▸ List.prefix_refl _) (h.size_eq ▸ hj)]
  exact hw c hc hk

end Within

/-! ## Records -/

theorem records_add (a : Assembly) (kind : Kind) (span : Span) (above : List Nat) :
    records (a.add kind span above).directives = records a.directives ++ [none] := by
  rw [records, add, Array.toList_push, List.map_append, List.map_singleton, records]

theorem records_openContext {last : Nat} (hsize : a.directives.size = last + 1) (span : Span) :
    records (a.openContext span).directives = (records a.directives).set last (some span) := by
  rw [openContext_eq hsize, ← records_set]
  show records (a.directives.modify (a.directives.size - 1) _) = _
  rw [hsize]
  rfl

/-- The context that is closed is recorded on the owner of the innermost one. -/
theorem Aligned.directives_closeContext (h : Aligned events fresh a) {others : List Context}
    (hopen : openContexts events = others ++ [c]) (span : Span) :
    (a.closeContext span).directives
      = a.directives.modify c.owner fun d => { d with context := some span } := by
  obtain ⟨inner, outer, rest, hctx, -, howner, -⟩ := h.innermost hopen
  simp only [closeContext, hctx, howner]

namespace Recorded

theorem keyword (hr : Recorded events a) (kind : Kind) (span : Span) (above : List Nat) :
    Recorded (events ++ [⟨⟨.keyword, .closing⟩, span⟩]) (a.add kind span above) := by
  have hctx := contexts_keyword events span
  have hclose := closings_keyword events span
  intro i s hi
  rw [hctx, openContexts_congr hctx hclose, hclose]
  rw [records_add, List.getElem?_append] at hi
  split at hi
  · exact hr hi
  · -- the new directive keeps nothing yet
    exact absurd (List.mem_singleton.mp (List.mem_of_getElem? hi)) (by simp)

theorem opened (hr : Recorded events a) (h : Aligned events true a)
    (hl : Ledger source events opens true) (hbehind : Behind events p) :
    Recorded (events ++ [⟨⟨.context, .opening⟩, .point p⟩]) (a.openContext (.point p)) := by
  obtain ⟨last, hlast, -⟩ := hl.fresh_last rfl
  intro i s hi
  rw [contexts_opened hlast, hl.openContexts_opened hbehind hlast, closings_opened]
  rw [records_openContext (h.size_eq.trans hlast)] at hi
  rcases getElem?_set_record hi with ⟨rfl, rfl⟩ | ⟨-, hi⟩
  · exact ⟨⟨last, p⟩, List.mem_append_right _ (List.mem_singleton_self _), rfl, rfl,
      .inl (List.mem_append_right _ (List.mem_singleton_self _))⟩
  · obtain ⟨c, hc, howner, hstart, hstate⟩ := hr hi
    exact ⟨c, List.mem_append_left _ hc, howner, hstart,
      hstate.imp_left (List.mem_append_left _)⟩

theorem closed (hr : Recorded events a) (h : Aligned events fresh a)
    (hl : Ledger source events (p :: opens) fresh) :
    Recorded (events ++ [⟨⟨.context, .closing⟩, ⟨p, q⟩⟩]) (a.closeContext ⟨p, q⟩) := by
  obtain ⟨c, hc, hopen, hstart⟩ := hl.openContexts_closed q
  intro i s hi
  rw [contexts_closed, closings_closed]
  rw [h.directives_closeContext hopen, records_set] at hi
  rcases getElem?_set_record hi with ⟨rfl, rfl⟩ | ⟨hne, hi⟩
  · exact ⟨c, (mem_openContexts.mp hc).1, rfl, hstart,
      .inr (List.mem_append_right _ (List.mem_singleton_self _))⟩
  · obtain ⟨d, hd, hdowner, hdstart, hstate⟩ := hr hi
    refine ⟨d, hd, hdowner, hdstart, ?_⟩
    rcases hstate with hstate | hstate
    · -- another context than the one that is closed stays open
      rw [hopen] at hstate
      rcases List.mem_append.mp hstate with hstate | hstate
      · exact .inl hstate
      · rw [List.mem_singleton.mp hstate] at hdowner
        exact absurd hdowner hne
    · exact .inr (List.mem_append_left _ hstate)

theorem amended (hr : Recorded events a) (he : e.IsPlain) (hsame : a.Amended a') :
    Recorded (events ++ [e]) a' := by
  intro i s hi
  rw [contexts_plain he, openContexts_congr (contexts_plain he) (closings_plain he),
    closings_plain he]
  rw [hsame.records_eq] at hi
  exact hr hi

end Recorded

namespace Kept

theorem keyword (hk : Kept events a) (kind : Kind) (span : Span) (above : List Nat) :
    Kept (events ++ [⟨⟨.keyword, .closing⟩, span⟩]) (a.add kind span above) := by
  intro c hc
  rw [contexts_keyword] at hc
  obtain ⟨s, hs, hfirst⟩ := hk c hc
  refine ⟨s, ?_, hfirst⟩
  rw [records_add, List.getElem?_append_left (List.getElem?_eq_some_iff.mp hs).1]
  exact hs

theorem opened (hk : Kept events a) (h : Aligned events true a)
    (hl : Ledger source events opens true) :
    Kept (events ++ [⟨⟨.context, .opening⟩, .point p⟩]) (a.openContext (.point p)) := by
  obtain ⟨last, hlast, howners⟩ := hl.fresh_last rfl
  have hsize : a.directives.size = last + 1 := h.size_eq.trans hlast
  have hlen : last < (records a.directives).length := by
    rw [records, List.length_map, Array.length_toList]
    omega
  intro c hc
  rw [records_openContext hsize]
  rw [contexts_opened hlast] at hc
  rcases List.mem_append.mp hc with hc | hc
  · obtain ⟨s, hs, hfirst⟩ := hk c hc
    refine ⟨s, ?_, hfirst⟩
    rw [List.getElem?_set_ne (Nat.ne_of_gt (howners c hc))]
    exact hs
  · rw [List.mem_singleton.mp hc]
    exact ⟨.point p, List.getElem?_set_self hlen, rfl⟩

theorem closed (hk : Kept events a) (h : Aligned events fresh a)
    (hl : Ledger source events (p :: opens) fresh) :
    Kept (events ++ [⟨⟨.context, .closing⟩, ⟨p, q⟩⟩]) (a.closeContext ⟨p, q⟩) := by
  obtain ⟨c, hc, hopen, hstart⟩ := hl.openContexts_closed q
  intro d hd
  rw [contexts_closed] at hd
  obtain ⟨s, hs, hfirst⟩ := hk d hd
  rw [h.directives_closeContext hopen, records_set]
  by_cases howner : c.owner = d.owner
  · -- a directive opens one context, so this is the one that is closed
    refine ⟨⟨p, q⟩, ?_, ?_⟩
    · rw [howner]
      exact List.getElem?_set_self (List.getElem?_eq_some_iff.mp hs).1
    · rw [← hl.eq_of_owner (mem_openContexts.mp hc).1 hd howner]
      exact hstart.symm
  · refine ⟨s, ?_, hfirst⟩
    rw [List.getElem?_set_ne howner]
    exact hs

theorem amended (hk : Kept events a) (he : e.IsPlain) (hsame : a.Amended a') :
    Kept (events ++ [e]) a' := by
  intro c hc
  rw [contexts_plain he] at hc
  rw [hsame.records_eq]
  exact hk c hc

end Kept

/-! ## Runs -/

theorem Assembled.within (h : Assembled source events opens fresh a) : Within events a := by
  induction h with
  | start =>
    intro c hc
    cases hc
  | keyword h horder hset hbehind hplace ih =>
    exact ih.keyword h.aligned horder.ledger hset hbehind hplace
  | opened h horder hbehind ih =>
    exact ih.opened h.aligned horder.ledger (fun k hk => (horder.keyword_spelled hk).1) hbehind
  | closed h _ hbehind ih => exact ih.closed h.aligned hbehind
  | amended h he hsame ih => exact ih.amended h.aligned he hsame

theorem Assembled.recorded (h : Assembled source events opens fresh a) : Recorded events a := by
  induction h with
  | start =>
    intro i s hi
    cases hi
  | keyword _ _ _ _ _ ih => exact ih.keyword _ _ _
  | opened h horder hbehind ih => exact ih.opened h.aligned horder.ledger hbehind
  | closed h horder _ ih => exact ih.closed h.aligned horder.ledger
  | amended _ he hsame ih => exact ih.amended he hsame

theorem Assembled.kept (h : Assembled source events opens fresh a) : Kept events a := by
  induction h with
  | start =>
    intro c hc
    cases hc
  | keyword _ _ _ _ _ ih => exact ih.keyword _ _ _
  | opened h horder _ ih => exact ih.opened h.aligned horder.ledger
  | closed h horder _ ih => exact ih.closed h.aligned horder.ledger
  | amended _ he hsame ih => exact ih.amended he hsame

end Assembly

/-- The context of a directive reaches from an opening parenthesis behind its
keyword to a closing one, and the keywords between the two are those of the
directives that descend from it. -/
theorem parse_encloses {source : Source} {limit : Nat} {doc : Document}
    (h : source.parse limit = .ok doc) {i : Nat} {d : Directive} {span : Span}
    (hd : doc.directives[i]? = some d) (hcontext : d.context = some span) :
    source.byte? span.first = some Byte.openParen ∧
    source.byte? span.last = some Byte.closeParen ∧ d.keyword.last < span.first ∧
    ∀ j e, doc.directives[j]? = some e →
      (Beneath doc.directives j i ↔
        span.first < e.keyword.first ∧ e.keyword.last < span.last) := by
  obtain ⟨events, a, hscan, haccept, rfl⟩ := Source.parse_eq_ok_iff.mp h
  obtain ⟨fresh, horder⟩ := Source.orderly hscan
  have hledger := horder.ledger
  have hassembled := Assembly.assembled_of_orderly horder haccept
  have hlisted := Assembly.acceptAll_listed haccept
  have hrecord : (records a.directives)[i]? = some (some span) := by
    rw [records, List.getElem?_map, Array.getElem?_toList, hd, ← hcontext]
    rfl
  obtain ⟨c, hc, rfl, hstart, hstate⟩ := hassembled.recorded hrecord
  -- at the end no context is open
  have hclosing : span ∈ closings events := by
    refine hstate.resolve_left ?_
    have hnil : openContexts events = [] := by
      simpa using hledger.opens_eq
    rw [hnil]
    exact List.not_mem_nil
  refine ⟨hstart ▸ hledger.opening c hc, (hledger.closing span hclosing).2,
    hstart ▸ hledger.owner_behind c hc _ (hlisted.getElem? hd).1, ?_⟩
  intro j e he
  rw [hassembled.within c hc (hlisted.getElem? he).1, Context.Encloses, hstart]
  refine and_congr_right fun _ => ⟨fun hall => hall span hclosing rfl, ?_⟩
  intro hlast s hs hfirst
  rw [hledger.eq_of_first hs hclosing hfirst]
  exact hlast

/-- A method in the context of a resource descends from it, and a resource
behind the context does not. -/
theorem parse_encloses_method :
    let source : Source := ⟨"", Utf8.bytes "URL (\nGET\n)\nURL", by decide⟩
    ∃ doc d, source.parse 1 = .ok doc ∧ doc.directives[0]? = some d ∧
      d.context = some ⟨4, 10⟩ ∧ source.byte? 10 = some Byte.closeParen ∧
      Beneath doc.directives 1 0 ∧ ¬ Beneath doc.directives 2 0 := by
  have h : Source.parse 1 ⟨"", Utf8.bytes "URL (\nGET\n)\nURL", by decide⟩
      = .ok ⟨⟨"", Utf8.bytes "URL (\nGET\n)\nURL", by decide⟩,
        #[{ kind := .url, keyword := ⟨0, 2⟩, parent := none, context := some ⟨4, 10⟩ },
          { kind := .get, keyword := ⟨6, 8⟩, parent := some 0 },
          { kind := .url, keyword := ⟨12, 14⟩, parent := none }]⟩ := by
    decide +kernel
  obtain ⟨-, hclose, -, hbeneath⟩ := parse_encloses h (i := 0) rfl rfl
  refine ⟨_, _, h, rfl, rfl, hclose, (hbeneath 1 _ rfl).mpr (by decide), ?_⟩
  rw [hbeneath 2 _ rfl]
  decide

end ApiDoc
