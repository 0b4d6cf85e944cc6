import ApiDoc.Proofs.Document.Parentage
import ApiDoc.Proofs.Scan.Attachment

/-!
# The stacks of an assembly stay in range

An assembly that takes arbitrary events may hold positions that its chain no
longer has. Under the events of a scan this never happens:

* **Stacks** (`Sound`): the chain is a lineage of directives that are there, and
  each position of a context lies in it.
* **Look-up** (`InRange`): so whatever an event looks up in the stacks or among
  the directives is there.
* **At hand** (`AtHand`): the directive at hand is the one added last, and the
  chain starts with it. What belongs to a directive is recorded on it and on no
  other (`accept_records`).
-/

namespace ApiDoc

/-- The directive keeps what the event says of it. The opening of a part is not
kept. -/
def Directive.Records (d : Directive) (e : Event) : Prop :=
  match e.mark.part, e.mark.edge with
  | .parameter, .closing => ∃ p, (p, e.span) ∈ d.parameters
  | .note, .closing => d.note = some e.span
  | .schema, .closing => d.body = some ⟨.schema, e.span⟩
  | .text, .closing => d.body = some ⟨.text, e.span⟩
  | .context, .opening => d.context = some e.span
  | _, _ => True

namespace Assembly

/-- What the stacks of an assembly keep. -/
structure Sound (a : Assembly) : Prop where
  /-- Each directive of the chain is a child of the next, and the last is a
  root. -/
  lineage : Lineage a.directives a.chain.head? a.chain
  lt_size : ∀ i ∈ a.chain, i < a.directives.size
  decreasing : a.chain.Pairwise (· > ·)
  sorted : a.contexts.Pairwise (· > ·)
  outside_lt : ∀ outside ∈ a.contexts, outside < a.chain.length

/-- What the next event can look up is there. -/
structure InRange (a : Assembly) : Prop where
  /-- The search for a parent starts within the chain. -/
  floor_le : a.contexts.headD 0 ≤ a.chain.length
  searched : ∀ i ∈ a.reach, ∃ d, a.directives[i]? = some d
  /-- The search ends at a parent. -/
  parent : ∀ kind above, a.chainFor? kind = some above →
    ∃ i outer d, above = i :: outer ∧ a.directives[i]? = some d
  /-- The directive in which another is misplaced can be named. -/
  named : ∀ i, a.chain.head? = some i → ∃ d, a.directives[i]? = some d
  /-- A context that is closed has its owner. -/
  owner : ∀ outside outer, a.contexts = outside :: outer →
    ∃ i d, a.owner? outside = some i ∧ a.directives[i]? = some d

/-- The directive with the keyword `k` was added last and is first in the
chain. -/
def AtHand (a : Assembly) (k : Span) : Prop :=
  ∃ last kind, a.directives.size = last + 1 ∧ a.chain.head? = some last ∧
    (roster a.directives)[last]? = some (k, kind)

variable {source : Source} {a a' : Assembly} {e : Event} {events : List Event} {span k : Span}
  {fresh : Bool} {i last : Nat}

/-! ## Stacks -/

theorem Aligned.sound (h : Aligned events fresh a) : a.Sound where
  lineage := h.lineage
  lt_size := h.lineage.lt_size
  decreasing := h.decreasing
  sorted := h.sorted
  outside_lt := by
    intro outside hmem
    obtain ⟨c, -, howner⟩ := h.context hmem
    rw [owner?_eq] at howner
    have hlt := (List.getElem?_eq_some_iff.mp howner).1
    rwa [List.length_reverse] at hlt

namespace Sound

theorem directive (h : a.Sound) (hi : i ∈ a.chain) : ∃ d, a.directives[i]? = some d :=
  ⟨_, Array.getElem?_eq_getElem (h.lt_size i hi)⟩

theorem floor_le (h : a.Sound) : a.contexts.headD 0 ≤ a.chain.length := by
  cases hctx : a.contexts with
  | nil => exact Nat.zero_le _
  | cons outside outer =>
    exact Nat.le_of_lt (h.outside_lt outside (hctx ▸ List.mem_cons_self))

theorem inRange (h : a.Sound) : a.InRange where
  floor_le := h.floor_le
  searched := fun _ hi => h.directive (List.mem_of_mem_take hi)
  parent := by
    intro kind above habove
    obtain ⟨n, hn, rfl, -⟩ := chainFor?_eq_some habove
    have hlt : n < a.chain.length := by omega
    obtain ⟨d, hd⟩ := h.directive (List.getElem_mem hlt)
    exact ⟨_, _, d, List.drop_eq_getElem_cons hlt, hd⟩
  named := fun _ hi => h.directive (List.mem_of_mem_head? hi)
  owner := by
    intro outside outer hctx
    have hlt := h.outside_lt outside (hctx ▸ List.mem_cons_self)
    rw [← List.length_reverse] at hlt
    obtain ⟨d, hd⟩ := h.directive (List.mem_reverse.mp (List.getElem_mem hlt))
    refine ⟨_, d, ?_, hd⟩
    rw [owner?_eq]
    exact List.getElem?_eq_getElem hlt

end Sound

/-! ## The directive at hand -/

theorem AtHand.congr (h : a.AtHand k) (hroster : roster a'.directives = roster a.directives)
    (hchain : a'.chain = a.chain) : a'.AtHand k := by
  obtain ⟨last, kind, hsize, hhead, hentry⟩ := h
  refine ⟨last, kind, ?_, hchain ▸ hhead, hroster ▸ hentry⟩
  rw [← length_roster, hroster, length_roster]
  exact hsize

theorem atHand_add (a : Assembly) (kind : Kind) (span : Span) (above : List Nat) :
    (a.add kind span above).AtHand span := by
  refine ⟨a.directives.size, kind, size_directives_add a kind span above, rfl, ?_⟩
  rw [roster_add, ← length_roster]
  exact List.getElem?_concat_length

theorem chain_openContext (a : Assembly) (span : Span) :
    (a.openContext span).chain = a.chain := by
  rw [openContext]
  split
  · rfl
  · rfl

theorem Accepts.atHand (hs : ∀ k, tip events = some k → a.AtHand k) (h : a.Accepts source e a')
    (hk : tip (events ++ [e]) = some k) : a'.AtHand k := by
  cases h with
  | keyword =>
    rw [tip_keyword] at hk
    cases hk
    exact atHand_add a _ _ _
  | opened =>
    rw [tip_opened] at hk
    exact (hs k hk).congr (roster_openContext a _) (chain_openContext a _)
  | closed =>
    rw [tip_closed] at hk
    cases hk
  | amended he hsame =>
    rw [tip_plain he] at hk
    exact (hs k hk).congr hsame.roster_eq hsame.chain_eq

/-- The directive at hand behind a stream is the one added last. -/
theorem acceptAll_atHand (h : acceptAll source {} events = .ok a) (hk : tip events = some k) :
    a.AtHand k := by
  have hstart : ∀ k, tip [] = some k → ({} : Assembly).AtHand k := by
    intro k hk
    cases hk
  exact acceptAll_preserves (P := fun events b => ∀ k, tip events = some k → b.AtHand k) hstart
    (fun hs haccepts _ hk => haccepts.atHand hs hk) h k hk

theorem AtHand.directive (h : a.AtHand k) :
    ∃ last d, a.directives.size = last + 1 ∧ a.chain.head? = some last ∧
      a.directives[last]? = some d ∧ d.keyword = k := by
  obtain ⟨last, kind, hsize, hhead, hentry⟩ := h
  rw [roster, List.getElem?_map, Array.getElem?_toList] at hentry
  obtain ⟨d, hd, heq⟩ := Option.map_eq_some_iff.mp hentry
  exact ⟨last, d, hsize, hhead, hd, (Prod.mk.inj heq).1⟩

/-! ## Records -/

/-- One directive keeps the event and the others stay as they are. -/
def RecordsAt (a a' : Assembly) (last : Nat) (e : Event) : Prop :=
  (∃ d, a'.directives[last]? = some d ∧ d.Records e) ∧
    ∀ i, i ≠ last → a'.directives[i]? = a.directives[i]?

theorem recordsAt_amend (hsize : a.directives.size = last + 1) {f : Directive → Directive}
    (hf : ∀ d, (f d).Records e) : RecordsAt a (a.amend f) last e := by
  have hget : ∀ i, (a.amend f).directives[i]? =
      if last = i then a.directives[i]?.map f else a.directives[i]? := by
    intro i
    rw [amend, Array.getElem?_modify, hsize, Nat.add_sub_cancel]
  have hlast : a.directives[last]? = some a.directives[last] := Array.getElem?_eq_getElem _
  refine ⟨⟨f a.directives[last], ?_, hf _⟩, ?_⟩
  · rw [hget, if_pos rfl, hlast]
    rfl
  · intro i hi
    rw [hget, if_neg (Ne.symm hi)]

theorem recordsAt_self (hsize : a.directives.size = last + 1) (h : ∀ d : Directive, d.Records e) :
    RecordsAt a a last e :=
  ⟨⟨_, Array.getElem?_eq_getElem (hsize ▸ Nat.lt_succ_self last), h _⟩, fun _ _ => rfl⟩

/-- An event of the directive at hand is recorded on the one added last. -/
theorem accept_records (hsize : a.directives.size = last + 1) (he : e.isOwned = true)
    (h : a.accept source e = .ok a') : RecordsAt a a' last e := by
  obtain ⟨⟨part, edge⟩, span⟩ := e
  cases edge with
  | opening =>
    cases part with
    | keyword | comment => exact absurd he Bool.false_ne_true
    | parameter | note | schema | text =>
      cases h
      exact recordsAt_self hsize fun _ => trivial
    | context =>
      cases h
      rw [openContext_eq hsize]
      exact recordsAt_amend hsize fun _ => rfl
  | closing =>
    cases part with
    | keyword | comment | context => exact absurd he Bool.false_ne_true
    | note | schema | text =>
      cases h
      exact recordsAt_amend hsize fun _ => rfl
    | parameter =>
      obtain ⟨d, hd⟩ : ∃ d, a.directives.back? = some d := by
        rw [Array.back?_eq_getElem?, hsize, Nat.add_sub_cancel]
        exact ⟨_, Array.getElem?_eq_getElem (hsize ▸ Nat.lt_succ_self last)⟩
      obtain ⟨p, -, rfl⟩ := parameter_eq_ok hd h
      exact recordsAt_amend hsize fun d => ⟨p, List.mem_append_right _ (List.mem_singleton_self _)⟩

end Assembly

/-- While the events of a scan are taken, the stacks stay in range, so that
whatever the next event looks up is there. Where an event says something of a
directive, the one added last is first in the chain, the event stands on its
line or is its body, and it is recorded on this directive and on no other. -/
theorem scan_stays_in_range {source : Source} {limit : Nat} {before after : List Event}
    {a : Assembly} (hscan : source.scan limit = .ok (before ++ after))
    (h : Assembly.acceptAll source {} before = .ok a) :
    a.Sound ∧ a.InRange ∧
    ∀ e rest, after = e :: rest → e.isOwned = true →
      ∃ last d, a.directives.size = last + 1 ∧ a.chain.head? = some last ∧
        a.directives[last]? = some d ∧ Belongs source d.keyword e ∧
        ∀ a', a.accept source e = .ok a' → Assembly.RecordsAt a a' last e := by
  obtain ⟨fresh, horder⟩ := Source.orderly hscan
  obtain ⟨fresh', haligned⟩ := Assembly.aligned_of_front horder h
  refine ⟨haligned.sound, haligned.sound.inRange, ?_⟩
  rintro e rest rfl he
  obtain ⟨k, htip, hbelongs⟩ := (Source.attached hscan).belongs he
  obtain ⟨last, d, hsize, hhead, hd, rfl⟩ := (Assembly.acceptAll_atHand h htip).directive
  exact ⟨last, d, hsize, hhead, hd, hbelongs, fun _ ha' => Assembly.accept_records hsize he ha'⟩

/-- The annotation of a method in the context of a resource is recorded on the
method. -/
theorem scan_stays_in_range_annotated :
    let source : Source := ⟨"", Utf8.bytes "URL (\nGET // all\n)", by decide⟩
    let note : Event := ⟨⟨.note, .closing⟩, ⟨10, 15⟩⟩
    ∃ before after a a', source.scan 1 = .ok (before ++ note :: after) ∧
      Assembly.acceptAll source {} before = .ok a ∧ a.chain = [1, 0] ∧ a.contexts = [0] ∧
      a.accept source note = .ok a' ∧ a.Sound ∧ a.InRange ∧ Belongs source ⟨6, 8⟩ note ∧
      Assembly.RecordsAt a a' 1 note := by
  intro source note
  let before : List Event := Part.keyword.events 0 3 ++ [⟨⟨.context, .opening⟩, .point 4⟩] ++
    Part.keyword.events 6 9 ++ [⟨⟨.note, .opening⟩, .point 10⟩]
  let after : List Event := [⟨⟨.context, .closing⟩, ⟨4, 17⟩⟩]
  let resource : Directive :=
    { kind := .url, keyword := ⟨0, 2⟩, parent := none, context := some (.point 4) }
  let method : Directive := { kind := .get, keyword := ⟨6, 8⟩, parent := some 0 }
  have hscan : source.scan 1 = .ok (before ++ note :: after) := by
    decide +kernel
  have hfront : Assembly.acceptAll source {} before = .ok ⟨#[resource, method], [1, 0], [0]⟩ := by
    decide +kernel
  obtain ⟨hsound, hrange, hhand⟩ := scan_stays_in_range hscan hfront
  obtain ⟨last, d, hsize, -, hd, hbelongs, hrecords⟩ := hhand note after rfl rfl
  obtain rfl : last = 1 := (Nat.succ.inj hsize).symm
  cases hd
  exact ⟨before, after, _, _, hscan, hfront, rfl, rfl, rfl, hsound, hrange, hbelongs,
    hrecords _ rfl⟩

end ApiDoc
