import ApiDoc.Proofs.Document.Acceptance
import ApiDoc.Proofs.Document.Lineage
import Mathlib.Data.Nat.PSub

/-!
# The stacks of an assembly and the tree

An assembly keeps no tree, only the chain of directives that may still receive
children and, for each open context, a position in that chain. While the events
come in order, both can be read off the tree and the events (`Aligned`):

* the chain is the outer part of the lineage of the directive added last, and
  what it lacks was cut off when a context was closed;
* the positions are those of the owners of the contexts that are open.

Each event keeps this: a keyword cuts the chain and pushes onto it
(`Aligned.keyword`), an opening parenthesis marks the top of the chain
(`Aligned.opened`), and a closing one cuts it below the owner
(`Aligned.closed`). The steps that an orderly stream can make are listed once
(`Assembled`).
-/

namespace ApiDoc

/-! ## Positions counted from the outer end -/

/-- A position in the outer part of a list. -/
theorem getElem?_reverse_append {inner outer : List Nat} {n : Nat} (h : n < outer.length) :
    (inner ++ outer).reverse[n]? = outer.reverse[n]? := by
  rw [List.reverse_append, List.getElem?_append_left]
  rwa [List.length_reverse]

theorem getElem?_reverse_cons (x : Nat) (outer : List Nat) :
    (x :: outer).reverse[outer.length]? = some x := by
  rw [List.reverse_cons, ← List.length_reverse]
  exact List.getElem?_concat_length

/-- A list is cut at a position. -/
theorem split_of_getElem?_reverse {l : List Nat} {n x : Nat} (h : l.reverse[n]? = some x) :
    ∃ inner outer, l = inner ++ x :: outer ∧ outer.length = n := by
  obtain ⟨hn, hx⟩ := List.getElem?_eq_some_iff.mp h
  refine ⟨(l.reverse.drop (n + 1)).reverse, (l.reverse.take n).reverse, ?_, ?_⟩
  · have hsplit : l.reverse = l.reverse.take n ++ x :: l.reverse.drop (n + 1) := by
      rw [← hx, ← List.drop_eq_getElem_cons hn, List.take_append_drop]
    have hback := congrArg List.reverse hsplit
    rw [List.reverse_reverse, List.reverse_append, List.reverse_cons, List.append_assoc] at hback
    exact hback
  · rw [List.length_reverse, List.length_take]
    omega

/-! ## The invariant -/

namespace Assembly

structure Aligned (events : List Event) (fresh : Bool) (a : Assembly) : Prop where
  size_eq : a.directives.size = (keywords events).length
  parents : ParentsFirst a.directives
  /-- The lineage of the directive added last; the outermost that the chain lacks
  had its context closed. -/
  line : ∃ lost, Lineage a.directives a.directives.size.ppred (lost ++ a.chain) ∧
    ∀ i, lost.getLast? = some i → isShut events i = true
  unshut : ∀ i ∈ a.chain, isShut events i = false
  owners : a.contexts.map a.owner? = (openContexts events).reverse.map fun c => some c.owner
  sorted : a.contexts.Pairwise (· > ·)
  /-- Behind a fresh keyword the chain starts at its directive. -/
  fresh_head : fresh = true → a.chain.head? = a.directives.size.ppred

variable {source : Source} {events more : List Event} {a a' : Assembly} {e : Event} {span : Span}
  {opens : List Nat} {fresh : Bool} {kind : Kind} {above : List Nat} {p q : Nat}

theorem owner?_eq (a : Assembly) (outside : Nat) :
    a.owner? outside = a.chain.reverse[outside]? := by
  rw [owner?]
  split
  · rename_i hlt
    rw [List.getElem?_reverse hlt]
  · rename_i hle
    rw [List.getElem?_eq_none]
    rw [List.length_reverse]
    exact Nat.le_of_not_lt hle

theorem owner?_congr (h : a'.chain = a.chain) : a'.owner? = a.owner? := by
  funext outside
  rw [owner?_eq, h, owner?_eq]

/-- Positions in the outer part of a chain denote the same directives when the
inner part changes. -/
theorem map_owner?_outer {inner inner' outer positions : List Nat}
    (h : a.chain = inner ++ outer) (h' : a'.chain = inner' ++ outer)
    (hlt : ∀ outside ∈ positions, outside < outer.length) :
    positions.map a'.owner? = positions.map a.owner? := by
  refine List.map_congr_left ?_
  intro outside hmem
  rw [owner?_eq, owner?_eq, h, h', getElem?_reverse_append (hlt outside hmem),
    getElem?_reverse_append (hlt outside hmem)]

/-! ## A directive that is added -/

theorem parent?_add (a : Assembly) (kind : Kind) (span : Span) (above : List Nat) :
    parent? (a.add kind span above).directives a.directives.size = above.head? := by
  rw [parent?_eq_shape, getElem?_shape_add]
  rfl

theorem size_directives_add (a : Assembly) (kind : Kind) (span : Span) (above : List Nat) :
    (a.add kind span above).directives.size = a.directives.size + 1 :=
  Array.size_push _

theorem lineage_add (h : Lineage a.directives above.head? above) (kind : Kind) (span : Span) :
    Lineage (a.add kind span above).directives (some a.directives.size)
      (a.directives.size :: above) := by
  refine .link ?_ ?_
  · rw [size_directives_add]
    exact Nat.lt_succ_self _
  · rw [parent?_add]
    exact h.extend (isPrefix_shape_add a kind span above)

theorem parentsFirst_add (hfirst : ParentsFirst a.directives)
    (h : Lineage a.directives above.head? above) (kind : Kind) (span : Span) :
    ParentsFirst (a.add kind span above).directives := by
  intro i parent hi
  have hlt : i < a.directives.size + 1 := by
    obtain ⟨d, hd, -⟩ := Option.bind_eq_some_iff.mp hi
    rw [← size_directives_add a kind span above]
    exact (Array.getElem?_eq_some_iff.mp hd).1
  rcases Nat.lt_succ_iff_lt_or_eq.mp hlt with hlt | rfl
  · rw [parent?_extend (isPrefix_shape_add a kind span above) hlt] at hi
    exact hfirst hi
  · rw [parent?_add] at hi
    exact h.lt_size parent (List.mem_of_mem_head? hi)

/-! ## A context that is closed -/

/-- A closing parenthesis leaves the chain outside the owner. -/
theorem closeContext_of_chain {owner : Nat} {inner outer rest : List Nat}
    (hctx : a.contexts = outer.length :: rest) (hchain : a.chain = inner ++ owner :: outer)
    (span : Span) :
    (a.closeContext span).chain = outer ∧ (a.closeContext span).contexts = rest := by
  have hdrop : a.chain.length - outer.length = (inner ++ [owner]).length := by
    rw [hchain]
    simp only [List.length_append, List.length_cons, List.length_nil]
    omega
  rw [closeContext, hctx]
  refine ⟨?_, rfl⟩
  show a.chain.drop (a.chain.length - outer.length) = outer
  rw [hdrop, hchain, List.append_cons inner owner outer]
  exact List.drop_left

/-! ## Alignment -/

theorem aligned_start : Aligned [] false {} where
  size_eq := rfl
  parents := by
    intro i parent h
    cases h
  line := ⟨[], .top, by simp⟩
  unshut := by simp
  owners := rfl
  sorted := .nil
  fresh_head := by simp

namespace Aligned

/-- The chain is a lineage by itself. -/
theorem lineage (h : Aligned events fresh a) : Lineage a.directives a.chain.head? a.chain := by
  obtain ⟨lost, hline, -⟩ := h.line
  exact hline.suffix

theorem decreasing (h : Aligned events fresh a) : a.chain.Pairwise (· > ·) :=
  h.lineage.decreasing h.parents

/-- The owner of an open context is in the chain. -/
theorem owner (h : Aligned events fresh a) {c : Context} (hc : c ∈ openContexts events) :
    ∃ outside ∈ a.contexts, a.owner? outside = some c.owner := by
  have hmem : some c.owner ∈ (openContexts events).reverse.map fun c => some c.owner :=
    List.mem_map.mpr ⟨c, List.mem_reverse.mpr hc, rfl⟩
  rw [← h.owners] at hmem
  exact List.mem_map.mp hmem

/-- A position denotes the owner of an open context. -/
theorem context (h : Aligned events fresh a) {outside : Nat} (hmem : outside ∈ a.contexts) :
    ∃ c ∈ openContexts events, a.owner? outside = some c.owner := by
  have hmap : a.owner? outside ∈ a.contexts.map a.owner? := List.mem_map_of_mem hmem
  rw [h.owners] at hmap
  obtain ⟨c, hc, heq⟩ := List.mem_map.mp hmap
  exact ⟨c, List.mem_reverse.mp hc, heq.symm⟩

/-- The innermost position is that of the owner of the innermost context. -/
theorem innermost (h : Aligned events fresh a) {others : List Context} {c : Context}
    (hopen : openContexts events = others ++ [c]) :
    ∃ inner outer rest, a.contexts = outer.length :: rest ∧
      rest.map a.owner? = others.reverse.map (fun c => some c.owner) ∧
      a.owner? outer.length = some c.owner ∧ a.chain = inner ++ c.owner :: outer := by
  have howners := h.owners
  rw [hopen, List.reverse_append] at howners
  obtain ⟨outside, rest, hctx, howner, hrest⟩ := List.map_eq_cons_iff.mp howners
  have hposition := howner
  rw [owner?_eq] at hposition
  obtain ⟨inner, outer, hchain, rfl⟩ := split_of_getElem?_reverse hposition
  exact ⟨inner, outer, rest, hctx, hrest, howner, hchain⟩

theorem contexts_eq_nil_iff (h : Aligned events fresh a) :
    a.contexts = [] ↔ openContexts events = [] := by
  have hlen := congrArg List.length h.owners
  rw [List.length_map, List.length_map, List.length_reverse] at hlen
  rw [← List.length_eq_zero_iff, ← List.length_eq_zero_iff, hlen]

/-- While the directive added last owns no context, all positions lie outside
it. -/
theorem outside_lt (h : Aligned events fresh a) {last : Nat} {outer : List Nat}
    (hchain : a.chain = last :: outer) (hbefore : ∀ c ∈ ApiDoc.contexts events, c.owner < last) :
    ∀ outside ∈ a.contexts, outside < outer.length := by
  intro outside hmem
  obtain ⟨c, hc, howner⟩ := h.context hmem
  rw [owner?_eq, hchain] at howner
  have hbound := (List.getElem?_eq_some_iff.mp howner).1
  rw [List.length_reverse, List.length_cons] at hbound
  have hne : outside ≠ outer.length := by
    rintro rfl
    rw [getElem?_reverse_cons] at howner
    have hlt := hbefore c (mem_openContexts.mp hc).1
    exact absurd (Option.some.inj howner) (Nat.ne_of_gt hlt)
  omega

/-! ## Steps -/

theorem keyword (h : Aligned events fresh a) (hl : Ledger source events opens fresh)
    (hplace : a.Places kind above) (span : Span) :
    Aligned (events ++ [⟨⟨.keyword, .closing⟩, span⟩]) true (a.add kind span above) := by
  obtain ⟨inner, hchain⟩ := hplace.suffix
  have hlineage : Lineage a.directives above.head? above := by
    have := h.lineage
    rw [← hchain] at this
    exact this.suffix
  have hsize := size_directives_add a kind span above
  have hshut : ∀ i, isShut (events ++ [⟨⟨.keyword, .closing⟩, span⟩]) i = isShut events i :=
    isShut_congr (contexts_keyword events span) (closings_keyword events span)
  have hopen := openContexts_congr (contexts_keyword events span) (closings_keyword events span)
  refine ⟨?_, parentsFirst_add h.parents hlineage kind span, ⟨[], ?_, ?_⟩, ?_, ?_, h.sorted, ?_⟩
  · rw [hsize, h.size_eq, keywords_keyword, List.length_append]
    rfl
  · rw [hsize]
    exact lineage_add hlineage kind span
  · intro i hi
    cases hi
  · intro i hi
    rw [hshut]
    rcases List.mem_cons.mp hi with rfl | hi
    · -- no context of the new directive is there yet
      rw [Bool.eq_false_iff]
      intro hclosed
      obtain ⟨c, hc, howner, -⟩ := isShut_iff.mp hclosed
      have := hl.owner_lt c hc
      rw [h.size_eq] at howner
      omega
    · exact h.unshut i (hchain ▸ List.mem_append_right inner hi)
  · rw [hopen, ← h.owners]
    have hnew : (a.add kind span above).chain = [a.directives.size] ++ above := rfl
    exact map_owner?_outer hchain.symm hnew (hplace.outside_lt h.sorted)
  · intro _
    rw [hsize]
    rfl

theorem opened (h : Aligned events true a) (hl : Ledger source events opens true)
    (hbehind : Behind events p) :
    Aligned (events ++ [⟨⟨.context, .opening⟩, .point p⟩]) false (a.openContext (.point p)) := by
  obtain ⟨last, hlast, hbefore⟩ := hl.fresh_last rfl
  have hsize : a.directives.size = last + 1 := h.size_eq.trans hlast
  obtain ⟨outer, hchain⟩ : ∃ outer, a.chain = last :: outer := by
    have hhead := h.fresh_head rfl
    rw [hsize] at hhead
    exact List.head?_eq_some_iff.mp hhead
  have hshape := shape_openContext a (.point p)
  have hsame : (a.openContext (.point p)).chain = a.chain ∧
      (a.openContext (.point p)).contexts = outer.length :: a.contexts := by
    rw [openContext_eq hsize, hchain]
    exact ⟨hchain, rfl⟩
  have hshut := hl.isShut_opened hbehind hlast
  refine ⟨?_, h.parents.congr hshape, ?_, ?_, ?_, ?_, ?_⟩
  · rw [size_congr hshape, keywords_opened]
    exact h.size_eq
  · obtain ⟨lost, hline, hlost⟩ := h.line
    refine ⟨lost, ?_, ?_⟩
    · rw [size_congr hshape, hsame.1]
      exact hline.congr hshape
    · intro i hi
      rw [hshut]
      exact hlost i hi
  · intro i hi
    rw [hshut]
    rw [hsame.1] at hi
    exact h.unshut i hi
  · rw [hl.openContexts_opened hbehind hlast, owner?_congr hsame.1, hsame.2, List.reverse_append,
      List.map_cons, h.owners, owner?_eq, hchain, getElem?_reverse_cons]
    rfl
  · rw [hsame.2]
    exact .cons (h.outside_lt hchain hbefore) h.sorted
  · intro hfresh
    cases hfresh

theorem closed (h : Aligned events fresh a) (hl : Ledger source events (p :: opens) fresh) :
    Aligned (events ++ [⟨⟨.context, .closing⟩, ⟨p, q⟩⟩]) false (a.closeContext ⟨p, q⟩) := by
  obtain ⟨c, hc, hopen, hstart⟩ := hl.openContexts_closed q
  obtain ⟨inner, outer, rest, hctx, hrest, -, hchain⟩ := h.innermost hopen
  have hmem := (mem_openContexts.mp hc).1
  have hshape := shape_closeContext a ⟨p, q⟩
  have hsame := closeContext_of_chain hctx hchain ⟨p, q⟩
  refine ⟨?_, h.parents.congr hshape, ?_, ?_, ?_, ?_, ?_⟩
  · rw [size_congr hshape, keywords_closed]
    exact h.size_eq
  · obtain ⟨lost, hline, -⟩ := h.line
    refine ⟨lost ++ inner ++ [c.owner], ?_, ?_⟩
    · rw [size_congr hshape, hsame.1]
      rw [hchain] at hline
      simp only [List.append_assoc, List.singleton_append]
      exact hline.congr hshape
    · intro i hi
      rw [List.getLast?_concat] at hi
      cases hi
      exact isShut_closed.mpr (.inr ⟨c, hmem, rfl, hstart⟩)
  · intro i hi
    rw [hsame.1] at hi
    rw [Bool.eq_false_iff]
    intro hshut
    have hdecreasing := h.decreasing
    rw [hchain, List.pairwise_append] at hdecreasing
    have hlt : i < c.owner := List.rel_of_pairwise_cons hdecreasing.2.1 hi
    rcases isShut_closed.mp hshut with hshut | ⟨d, hd, howner, hfirst⟩
    · have hin : i ∈ a.chain := by
        rw [hchain]
        exact List.mem_append_right _ (List.mem_cons_of_mem _ hi)
      rw [h.unshut i hin] at hshut
      cases hshut
    · -- there is one context with this parenthesis, and its owner was cut off
      have hd' : d = c := hl.eq_of_start hd hmem (hfirst.trans hstart.symm)
      rw [hd'] at howner
      omega
  · have hsorted := h.sorted
    rw [hctx] at hsorted
    rw [hsame.2, ← hrest]
    rw [List.append_cons] at hchain
    exact map_owner?_outer hchain (hsame.1.trans (List.nil_append outer).symm)
      fun outside hmem => List.rel_of_pairwise_cons hsorted hmem
  · rw [hsame.2]
    have hsorted := h.sorted
    rw [hctx] at hsorted
    exact hsorted.of_cons
  · intro hfresh
    cases hfresh

theorem amended (h : Aligned events fresh a) (he : e.IsPlain) (hsame : a.Amended a') :
    Aligned (events ++ [e]) fresh a' := by
  have hsize := size_congr hsame.shape_eq
  have hshut : ∀ i, isShut (events ++ [e]) i = isShut events i :=
    isShut_congr (contexts_plain he) (closings_plain he)
  refine ⟨?_, h.parents.congr hsame.shape_eq, ?_, ?_, ?_, ?_, ?_⟩
  · rw [hsize, keywords_plain he]
    exact h.size_eq
  · obtain ⟨lost, hline, hlost⟩ := h.line
    refine ⟨lost, ?_, ?_⟩
    · rw [hsize, hsame.chain_eq]
      exact hline.congr hsame.shape_eq
    · intro i hi
      rw [hshut]
      exact hlost i hi
  · intro i hi
    rw [hshut]
    exact h.unshut i (hsame.chain_eq ▸ hi)
  · rw [openContexts_congr (contexts_plain he) (closings_plain he), owner?_congr hsame.chain_eq,
      hsame.contexts_eq]
    exact h.owners
  · rw [hsame.contexts_eq]
    exact h.sorted
  · rw [hsame.chain_eq, hsize]
    exact h.fresh_head

end Aligned

/-! ## Runs -/

/-- An assembly that has taken the events of an orderly stream. -/
inductive Assembled (source : Source) : List Event → List Nat → Bool → Assembly → Prop
  | start : Assembled source [] [] false {}
  | keyword {events : List Event} {opens : List Nat} {fresh : Bool} {a : Assembly} {span : Span}
      {kind : Kind} {above : List Nat} (h : Assembled source events opens fresh a)
      (horder : Orderly source events opens fresh) (hset : span.first ≤ span.last)
      (hbehind : Behind events span.first) (hplace : a.Places kind above) :
      Assembled source (events ++ [⟨⟨.keyword, .closing⟩, span⟩]) opens true
        (a.add kind span above)
  | opened {events : List Event} {opens : List Nat} {a : Assembly} {p : Nat}
      (h : Assembled source events opens true a) (horder : Orderly source events opens true)
      (hbehind : Behind events p) :
      Assembled source (events ++ [⟨⟨.context, .opening⟩, .point p⟩]) (p :: opens) false
        (a.openContext (.point p))
  | closed {events : List Event} {opens : List Nat} {fresh : Bool} {a : Assembly} {p q : Nat}
      (h : Assembled source events (p :: opens) fresh a)
      (horder : Orderly source events (p :: opens) fresh) (hbehind : Behind events q) :
      Assembled source (events ++ [⟨⟨.context, .closing⟩, ⟨p, q⟩⟩]) opens false
        (a.closeContext ⟨p, q⟩)
  | amended {events : List Event} {opens : List Nat} {fresh : Bool} {a a' : Assembly} {e : Event}
      (h : Assembled source events opens fresh a) (he : e.IsPlain) (hsame : a.Amended a') :
      Assembled source (events ++ [e]) opens fresh a'

theorem assembled_of_orderly (horder : Orderly source events opens fresh)
    (h : acceptAll source {} events = .ok a) : Assembled source events opens fresh a := by
  induction horder generalizing a with
  | start =>
    cases h
    exact .start
  | keyword horder hset hbehind _ ih =>
    obtain ⟨b, hb, he⟩ := acceptAll_concat_eq_ok_iff.mp h
    cases accepts_of_accept he with
    | keyword _ hplace => exact (ih hb).keyword horder hset hbehind hplace
    | amended he => exact absurd rfl he.1
  | opened horder hbehind _ ih =>
    obtain ⟨b, hb, he⟩ := acceptAll_concat_eq_ok_iff.mp h
    cases he
    exact (ih hb).opened horder hbehind
  | closed horder hbehind _ ih =>
    obtain ⟨b, hb, he⟩ := acceptAll_concat_eq_ok_iff.mp h
    cases he
    exact (ih hb).closed horder hbehind
  | other _ hplain ih =>
    obtain ⟨b, hb, he⟩ := acceptAll_concat_eq_ok_iff.mp h
    cases accepts_of_accept he with
    | keyword => exact absurd rfl hplain.1
    | opened | closed => exact absurd rfl hplain.2
    | amended _ hsame => exact (ih hb).amended hplain hsame

theorem Assembled.aligned (h : Assembled source events opens fresh a) :
    Aligned events fresh a := by
  induction h with
  | start => exact aligned_start
  | keyword _ horder _ _ hplace ih => exact ih.keyword horder.ledger hplace _
  | opened _ horder hbehind ih => exact ih.opened horder.ledger hbehind
  | closed _ horder _ ih => exact ih.closed horder.ledger
  | amended _ he hsame ih => exact ih.amended he hsame

end Assembly

end ApiDoc
