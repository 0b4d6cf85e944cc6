import ApiDoc.Proofs.Document.Alignment
import Mathlib.Data.List.Find

/-!
# The rule of the nearest parent

Where a directive is put is a matter of the tree and of the parentheses alone,
not of the stacks that the assembly keeps.

* **Candidates** (`candidates`): the directive before a keyword and what stands
  above it, without the directives in or around which a context was closed, up
  to the owner of the innermost context that is open.
* **Reach** (`Assembly.Aligned.candidates_eq`): the candidates are what the
  assembly searches.
* **Parents** (`validate_nearest`): a directive is put beneath the nearest
  candidate that permits it, at the top level where there is none and both
  the kind and the parentheses allow it, and is refused otherwise.
-/

namespace ApiDoc

/-! ## Candidates -/

/-- Whether the directive at `i` takes directives of this kind. -/
def takes (directives : Array Directive) (kind : Kind) (i : Nat) : Bool :=
  (directives[i]?).any fun d => d.kind.permits kind

/-- A lineage without the directives that are shut or stand beneath one that
is. -/
def survivors (shut : Nat → Bool) : List Nat → List Nat
  | [] => []
  | i :: above =>
    if (i :: above).any shut then survivors shut above else i :: survivors shut above

/-- What a directive behind these events may be put beneath, the nearest first;
`line` is the lineage of the directive before it. -/
def candidates (events : List Event) (line : List Nat) : List Nat :=
  let remaining := survivors (isShut events) line
  match (openContexts events).getLast? with
  | some c => remaining.take (remaining.idxOf c.owner + 1)
  | none => remaining

variable {shut : Nat → Bool} {events before after : List Event} {directives : Array Directive}

/-- Where nothing is shut, all remain. -/
theorem survivors_eq_self {line : List Nat} (h : ∀ i ∈ line, shut i = false) :
    survivors shut line = line := by
  induction line with
  | nil => rfl
  | cons i above ih =>
    have hnone : (i :: above).any shut = false := by
      rw [List.any_eq_false]
      intro j hj
      rw [h j hj]
      exact Bool.false_ne_true
    rw [survivors, hnone, if_neg Bool.false_ne_true,
      ih fun j hj => h j (List.mem_cons_of_mem i hj)]

/-- What stands beneath a directive that is shut does not remain. -/
theorem survivors_append {lost line : List Nat}
    (hlost : ∀ i, lost.getLast? = some i → shut i = true) (h : ∀ i ∈ line, shut i = false) :
    survivors shut (lost ++ line) = line := by
  induction lost with
  | nil => exact survivors_eq_self h
  | cons i lost ih =>
    have hsome : ((i :: lost) ++ line).any shut = true := by
      have hlast := List.getLast?_eq_some_getLast (List.cons_ne_nil i lost)
      rw [List.any_eq_true]
      exact ⟨_, List.mem_append_left line (List.getLast_mem (List.cons_ne_nil i lost)),
        hlost _ hlast⟩
    have hrest : ∀ j, lost.getLast? = some j → shut j = true := by
      intro j hj
      refine hlost j ?_
      rw [List.getLast?_cons, hj]
      rfl
    rw [List.cons_append, survivors]
    rw [List.cons_append] at hsome
    rw [hsome, if_pos rfl]
    exact ih hrest

namespace Assembly

variable {source : Source} {a a' : Assembly} {fresh : Bool} {kind : Kind} {above line : List Nat}

/-- The assembly searches the candidates. -/
theorem Aligned.candidates_eq (h : Aligned events fresh a)
    (hline : Lineage a.directives a.directives.size.ppred line) :
    candidates events line = a.reach := by
  obtain ⟨lost, hlineage, hlost⟩ := h.line
  rw [hline.unique hlineage, candidates, survivors_append hlost h.unshut]
  rcases List.eq_nil_or_concat (openContexts events) with hnil | ⟨others, c, hopen⟩
  · rw [hnil, reach, h.contexts_eq_nil_iff.mpr hnil]
    exact List.take_length.symm
  · rw [List.concat_eq_append] at hopen
    obtain ⟨inner, outer, rest, hctx, -, -, hchain⟩ := h.innermost hopen
    -- indices decrease along the chain, so the owner occurs in it once
    have hfresh : c.owner ∉ inner := by
      intro hmem
      have hdecreasing := h.decreasing
      rw [hchain, List.pairwise_append] at hdecreasing
      exact Nat.lt_irrefl _ (hdecreasing.2.2 _ hmem _ List.mem_cons_self)
    have hidx : a.chain.idxOf c.owner = inner.length := by
      rw [hchain, List.idxOf_append_of_notMem hfresh, List.idxOf_cons_self, Nat.add_zero]
    have hdepth : a.chain.length - outer.length = inner.length + 1 := by
      rw [hchain, List.length_append, List.length_cons]
      omega
    rw [hopen, List.getLast?_concat]
    show a.chain.take (a.chain.idxOf c.owner + 1) = a.reach
    rw [hidx, reach, hctx, List.headD_cons, hdepth]

/-! ## Places -/

/-- A directive is put at the top level only where no candidate permits it. -/
theorem Places.head?_eq_none_iff (h : a.Places kind above) :
    above.head? = none ↔ (∀ i ∈ a.reach, a.permits kind i = false) ∧ a.contexts = [] ∧
      kind.allowedAtRoot = true := by
  constructor
  · intro hnone
    cases h with
    | beneath h =>
      obtain ⟨n, hn, rfl, -⟩ := chainFor?_eq_some h
      rw [List.head?_drop, List.getElem?_eq_none_iff] at hnone
      omega
    | top hsearch hctx hroot => exact ⟨chainFor?_eq_none_iff.mp hsearch, hctx, hroot⟩
  · rintro ⟨hsearch, -, -⟩
    rw [← h.find?_reach, List.find?_eq_none]
    simpa using hsearch

/-- A directive has no place where no candidate permits it and the top level is
closed to it. -/
theorem forall_not_places_iff :
    (∀ above, ¬ a.Places kind above) ↔ (∀ i ∈ a.reach, a.permits kind i = false) ∧
      ¬ (a.contexts = [] ∧ kind.allowedAtRoot = true) := by
  constructor
  · intro h
    have hnone : a.chainFor? kind = none :=
      Option.eq_none_iff_forall_ne_some.mpr fun above habove => h above (.beneath habove)
    exact ⟨chainFor?_eq_none_iff.mp hnone, fun htop => h [] (.top hnone htop.1 htop.2)⟩
  · rintro ⟨hsearch, htop⟩ above hplace
    rw [← chainFor?_eq_none_iff] at hsearch
    cases hplace with
    | beneath h =>
      rw [hsearch] at h
      cases h
    | top _ hctx hroot => exact htop ⟨hctx, hroot⟩

/-- Directives that are added later take nothing from the ones that are there. -/
theorem takes_eq_permits (h : shape a.directives <+: shape directives) (kind : Kind) {i : Nat}
    (hi : i < a.directives.size) : takes directives kind i = a.permits kind i := by
  obtain ⟨more, hmore⟩ := h
  have htakes : takes directives kind i
      = ((shape directives)[i]?).any fun entry => entry.1.permits kind := by
    rw [takes, getElem?_shape, Option.any_map]
  rw [htakes, permits_eq, ← hmore, List.getElem?_append_left (by rwa [length_shape])]

theorem Aligned.reach_lt (h : Aligned events fresh a) : ∀ i ∈ a.reach, i < a.directives.size :=
  fun i hi => h.lineage.lt_size i (List.mem_of_mem_take hi)

end Assembly

/-! ## Directives and keywords -/

/-- A stream is cut at one of its keywords. -/
theorem split_of_getElem?_keywords {i : Nat} {span : Span} (h : (keywords events)[i]? = some span) :
    ∃ before after, events = before ++ ⟨⟨.keyword, .closing⟩, span⟩ :: after ∧
      (keywords before).length = i := by
  induction events generalizing i with
  | nil => cases h
  | cons e events ih =>
    by_cases hmark : e.mark = ⟨.keyword, .closing⟩
    · have hcons : ∀ l, keywords (e :: l) = e.span :: keywords l := by
        intro l
        simp only [keywords, List.filterMap_cons, Event.keyword?, if_pos hmark]
      rw [hcons] at h
      cases i with
      | zero =>
        cases h
        refine ⟨[], events, ?_, rfl⟩
        rw [List.nil_append, ← hmark]
      | succ i =>
        obtain ⟨before, after, rfl, hlen⟩ := ih h
        refine ⟨e :: before, after, rfl, ?_⟩
        rw [hcons, List.length_cons, hlen]
    · have hcons : ∀ l, keywords (e :: l) = keywords l := by
        intro l
        simp only [keywords, List.filterMap_cons, Event.keyword?, if_neg hmark]
      rw [hcons] at h
      obtain ⟨before, after, rfl, hlen⟩ := ih h
      refine ⟨e :: before, after, rfl, ?_⟩
      rw [hcons]
      exact hlen

section

variable {source : Source} {opens : List Nat} {fresh : Bool} {span : Span}

/-- The assembly in front of an event of an orderly stream. -/
theorem Assembly.aligned_of_front {more : List Event}
    (horder : Orderly source (before ++ more) opens fresh) {a : Assembly}
    (h : Assembly.acceptAll source {} before = .ok a) : ∃ fresh', a.Aligned before fresh' := by
  obtain ⟨opens', fresh', hfront⟩ := horder.front
  exact ⟨fresh', (Assembly.assembled_of_orderly hfront h).aligned⟩

/-- The directive at a keyword is put where the assembly in front of it says. -/
theorem Assembly.places_of_acceptAll {a : Assembly} {i : Nat} {d : Directive}
    (h : Assembly.acceptAll source {} events = .ok a) (hd : a.directives[i]? = some d) :
    ∃ before after b above, events = before ++ ⟨⟨.keyword, .closing⟩, d.keyword⟩ :: after ∧
      (keywords before).length = i ∧ Assembly.acceptAll source {} before = .ok b ∧
      shape b.directives <+: shape a.directives ∧ b.Places d.kind above ∧
      d.parent = above.head? := by
  obtain ⟨before, after, rfl, hlen⟩ :=
    split_of_getElem?_keywords ((Assembly.acceptAll_listed h).getElem? hd).1
  obtain ⟨b, hb, hrest⟩ := Assembly.acceptAll_append_eq_ok_iff.mp h
  obtain ⟨b', hb', hafter⟩ := Assembly.acceptAll_cons_eq_ok_iff.mp hrest
  have hsize : b.directives.size = i := (Assembly.acceptAll_listed hb).size_eq.trans hlen
  cases Assembly.accepts_of_accept hb' with
  | amended he => exact absurd rfl he.1
  | @keyword _ kind above hword hplace =>
    -- the entry that the keyword adds is still there at the end
    have hentry : (shape a.directives)[i]? = some (kind, above.head?) := by
      obtain ⟨more, hmore⟩ := Assembly.acceptAll_shape hafter
      have hnew := b.getElem?_shape_add kind d.keyword above
      rw [← hmore, ← hsize, List.getElem?_append_left (List.getElem?_eq_some_iff.mp hnew).1]
      exact hnew
    have hshape : (shape a.directives)[i]? = some (d.kind, d.parent) := by
      rw [getElem?_shape, hd]
      rfl
    rw [hshape] at hentry
    obtain ⟨rfl, hparent⟩ := Prod.mk.inj (Option.some.inj hentry)
    exact ⟨before, after, b, above, rfl, hlen, hb, Assembly.acceptAll_shape hrest, hplace, hparent⟩

/-- A keyword is refused for its place only where it stands. -/
theorem Assembly.misplaced_iff {b : Assembly} {kind : Kind}
    (horder : Orderly source (before ++ ⟨⟨.keyword, .closing⟩, span⟩ :: after) opens fresh)
    (hb : Assembly.acceptAll source {} before = .ok b)
    (hword : Keyword.classify? (source.text span) = some kind) :
    (∃ d, source.validate (before ++ ⟨⟨.keyword, .closing⟩, span⟩ :: after) = .error d ∧
      d.code = .misplacedDirective ∧ d.span? = some span) ↔ ∀ above, ¬ b.Places kind above := by
  have hsplit : Assembly.acceptAll source {} (before ++ ⟨⟨.keyword, .closing⟩, span⟩ :: after)
      = b.acceptAll source (⟨⟨.keyword, .closing⟩, span⟩ :: after) := by
    rw [Assembly.acceptAll_append, hb]
    rfl
  constructor
  · rintro ⟨d, hd, hcode, hspan⟩ above hplace
    have hrest : (b.add kind span above).acceptAll source after = .error d := by
      have haccept : b.accept source ⟨⟨.keyword, .closing⟩, span⟩ = .ok (b.add kind span above) :=
        Assembly.keyword_of_places hword hplace
      rw [Source.validate_eq_error_iff, hsplit, Assembly.acceptAll, haccept] at hd
      exact hd
    obtain ⟨e, he, c, hrefuses⟩ := Assembly.acceptAll_refuses hrest
    -- the keyword that is refused would come later, with the same span
    have hlater : span ∈ keywords after := by
      cases hrefuses with
      | unknown | parameter => cases hcode
      | misplaced =>
        cases hspan
        exact mem_keywords_of_mem he
    exact horder.keyword_once hlater
  · intro hnone
    rcases Assembly.keyword_cases source b span with ⟨kind', above, hword', hplace, -⟩ |
      ⟨d, hd, hrefuses⟩
    · rw [hword] at hword'
      cases hword'
      exact absurd hplace (hnone above)
    · have haccept : b.accept source ⟨⟨.keyword, .closing⟩, span⟩ = .error d := hd
      refine ⟨d, ?_, ?_⟩
      · rw [Source.validate_eq_error_iff, hsplit, Assembly.acceptAll, haccept]
      · cases hrefuses with
        | unknown hunknown =>
          rw [hword] at hunknown
          cases hunknown
        | misplaced => exact ⟨rfl, rfl⟩

end

/-- Every directive is put beneath the nearest candidate that permits it; at the
top level just where no candidate does, no context is open and its kind may
stand there; and a keyword for which neither holds is refused. -/
theorem validate_nearest {source : Source} {limit : Nat} {events : List Event}
    (hscan : source.scan limit = .ok events) :
    (∀ directives, source.validate events = .ok directives →
      ∀ i d, directives[i]? = some d → ∃ before after line,
        events = before ++ ⟨⟨.keyword, .closing⟩, d.keyword⟩ :: after ∧
        (keywords before).length = i ∧ Lineage directives i.ppred line ∧
        d.parent = (candidates before line).find? (takes directives d.kind) ∧
        (d.parent = none ↔ (∀ j ∈ candidates before line, takes directives d.kind j = false) ∧
          openContexts before = [] ∧ d.kind.allowedAtRoot = true)) ∧
    ∀ before span after directives, events = before ++ ⟨⟨.keyword, .closing⟩, span⟩ :: after →
      source.validate before = .ok directives → ∃ kind line,
        Keyword.classify? (source.text span) = some kind ∧
        Lineage directives (keywords before).length.ppred line ∧
        ((∃ d, source.validate events = .error d ∧ d.code = .misplacedDirective ∧
            d.span? = some span) ↔
          (∀ j ∈ candidates before line, takes directives kind j = false) ∧
            ¬ (openContexts before = [] ∧ kind.allowedAtRoot = true)) := by
  obtain ⟨fresh, horder⟩ := Source.orderly hscan
  refine ⟨?_, ?_⟩
  · intro directives hvalid i d hd
    obtain ⟨a, ha, rfl⟩ := Source.validate_eq_ok_iff.mp hvalid
    obtain ⟨before, after, b, above, rfl, hlen, hb, hkept, hplace, hparent⟩ :=
      Assembly.places_of_acceptAll ha hd
    obtain ⟨fresh', haligned⟩ := Assembly.aligned_of_front horder hb
    obtain ⟨lost, hline, -⟩ := haligned.line
    have hcandidates := haligned.candidates_eq hline
    rw [haligned.size_eq, hlen] at hline
    have htakes : ∀ j ∈ b.reach, takes a.directives d.kind j = b.permits d.kind j :=
      fun j hj => Assembly.takes_eq_permits hkept d.kind (haligned.reach_lt j hj)
    refine ⟨before, after, lost ++ b.chain, rfl, hlen, hline.extend hkept, ?_, ?_⟩
    · rw [hcandidates, List.find?_congr htakes, hplace.find?_reach]
      exact hparent
    · rw [hparent, hplace.head?_eq_none_iff, hcandidates, haligned.contexts_eq_nil_iff]
      refine and_congr_left' (forall₂_congr ?_)
      intro j hj
      rw [htakes j hj]
  · intro before span after directives hevents hvalid
    subst hevents
    obtain ⟨b, hb, rfl⟩ := Source.validate_eq_ok_iff.mp hvalid
    obtain ⟨fresh', haligned⟩ := Assembly.aligned_of_front horder hb
    obtain ⟨lost, hline, -⟩ := haligned.line
    have hcandidates := haligned.candidates_eq hline
    rw [haligned.size_eq] at hline
    obtain ⟨-, kind, hspells⟩ := horder.keyword_spelled (mem_keywords_of_mem
      (List.mem_append_right before List.mem_cons_self))
    refine ⟨kind, lost ++ b.chain, hspells.classify?, hline, ?_⟩
    rw [Assembly.misplaced_iff horder hb hspells.classify?, Assembly.forall_not_places_iff,
      hcandidates, haligned.contexts_eq_nil_iff]
    rfl

/-- Behind the context of a method the next method belongs to the resource, and
in the context of a method a resource is refused. -/
theorem validate_nearest_context :
    (let source : Source := ⟨"", Utf8.bytes "URL\nGET (\n404\n)\nPUT", by decide⟩
    ∃ events directives d line, source.scan 1 = .ok events ∧
      source.validate events = .ok directives ∧ directives[3]? = some d ∧
      Lineage directives (some 2) line ∧ d.parent = some 0) ∧
    (let source : Source := ⟨"", Utf8.bytes "GET (\nURL\n)", by decide⟩
    ∃ events d, source.scan 1 = .ok events ∧ source.validate events = .error d ∧
      d.code = .misplacedDirective ∧ d.span? = some ⟨6, 8⟩) := by
  refine ⟨?_, ?_⟩
  · have hscan : (⟨"", Utf8.bytes "URL\nGET (\n404\n)\nPUT", by decide⟩ : Source).scan 1
        = .ok (Part.keyword.events 0 3 ++ Part.keyword.events 4 7 ++
          [⟨⟨.context, .opening⟩, .point 8⟩] ++ Part.keyword.events 10 13 ++
          [⟨⟨.context, .closing⟩, ⟨8, 14⟩⟩] ++ Part.keyword.events 16 19) := by
      decide +kernel
    have hvalid : (⟨"", Utf8.bytes "URL\nGET (\n404\n)\nPUT", by decide⟩ : Source).validate
        (Part.keyword.events 0 3 ++ Part.keyword.events 4 7 ++
          [⟨⟨.context, .opening⟩, .point 8⟩] ++ Part.keyword.events 10 13 ++
          [⟨⟨.context, .closing⟩, ⟨8, 14⟩⟩] ++ Part.keyword.events 16 19)
        = .ok #[{ kind := .url, keyword := ⟨0, 2⟩, parent := none },
          { kind := .get, keyword := ⟨4, 6⟩, parent := some 0, context := some ⟨8, 14⟩ },
          { kind := .responseCode, keyword := ⟨10, 12⟩, parent := some 1 },
          { kind := .put, keyword := ⟨16, 18⟩, parent := some 0 }] := by
      decide +kernel
    obtain ⟨-, -, line, -, -, hline, -, -⟩ := (validate_nearest hscan).1 _ hvalid 3 _ rfl
    exact ⟨_, _, _, line, hscan, hvalid, rfl, hline, rfl⟩
  · let before : List Event := Part.keyword.events 0 3 ++
      [⟨⟨.context, .opening⟩, .point 4⟩, ⟨⟨.keyword, .opening⟩, .point 6⟩]
    have hscan : (⟨"", Utf8.bytes "GET (\nURL\n)", by decide⟩ : Source).scan 1
        = .ok (before ++ ⟨⟨.keyword, .closing⟩, ⟨6, 8⟩⟩ ::
          [⟨⟨.context, .closing⟩, ⟨4, 10⟩⟩]) := by
      decide +kernel
    have hvalid : (⟨"", Utf8.bytes "GET (\nURL\n)", by decide⟩ : Source).validate before
        = .ok #[{ kind := .get, keyword := ⟨0, 2⟩, parent := none, context := some ⟨4, 4⟩ }] := by
      decide +kernel
    obtain ⟨kind, line, hword, -, hrefused⟩ := (validate_nearest hscan).2 before _ _ _ rfl hvalid
    have hkind : Keyword.classify? ((⟨"", Utf8.bytes "GET (\nURL\n)", by decide⟩ : Source).text
        ⟨6, 8⟩) = some .url := by
      decide +kernel
    obtain rfl : kind = .url := Option.some.inj (hword.symm.trans hkind)
    have hneither := hrefused.mpr ⟨?_, by decide⟩
    · obtain ⟨d, hd, hcode, hspan⟩ := hneither
      exact ⟨_, d, hscan, hd, hcode, hspan⟩
    · rintro (_ | i) -
      · decide
      · rfl

end ApiDoc
