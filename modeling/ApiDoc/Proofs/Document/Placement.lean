import ApiDoc.Document.Assembly
import ApiDoc.Proofs.Document.Forest

/-!
# Where a directive is put

Amending a directive does not move it: only a keyword changes the shape of an
assembly, and it adds one entry.

* **Levels** (`Level`): the top of a document, or the inside of an explicit
  context. Each has the directives above it, and says what it allows.
* **Placement** (`Placed`): the chain leads up from the level, with at most a
  directive before it that permits nothing. What the level allows is then put
  directly beneath its owner (`Placed.keyword`).
* **Parentheses** (`Placed.openContext`, `Placed.closeContext`): the inside of a
  context is a level, and leaving it cuts the chain back to the one around it.
-/

namespace ApiDoc

theorem length_shape (directives : Array Directive) :
    (shape directives).length = directives.size := by
  rw [shape, List.length_map, Array.length_toList]

theorem getElem?_shape (directives : Array Directive) (i : Nat) :
    (shape directives)[i]? = directives[i]?.map fun d => (d.kind, d.parent) := by
  rw [shape, List.getElem?_map, Array.getElem?_toList]

theorem shape_push (directives : Array Directive) (d : Directive) :
    shape (directives.push d) = shape directives ++ [(d.kind, d.parent)] := by
  rw [shape, Array.toList_push, List.map_append, List.map_singleton, shape]

/-- What keeps a projection of a directive keeps that of them all. -/
theorem map_modify {α : Type} {f : Directive → α} {g : Directive → Directive}
    (directives : Array Directive) (i : Nat)
    (h : ∀ d, directives[i]? = some d → f (g d) = f d) :
    (directives.modify i g).toList.map f = directives.toList.map f := by
  rw [Array.toList_modify]
  apply List.ext_getElem?
  intro j
  rw [List.getElem?_map, List.getElem?_map, List.getElem?_modify]
  cases hd : directives.toList[j]? with
  | none => rfl
  | some d =>
    by_cases hij : i = j
    · subst hij
      simp [h d (Array.getElem?_toList ▸ hd)]
    · simp [hij]

theorem forall_modify {P : Directive → Prop} {directives : Array Directive}
    (hall : ∀ d ∈ directives, P d) (i : Nat) {f : Directive → Directive}
    (hf : ∀ d, directives[i]? = some d → P d → P (f d)) : ∀ d ∈ directives.modify i f, P d := by
  intro d hd
  obtain ⟨j, hj⟩ := Array.mem_iff_getElem?.mp hd
  rw [Array.getElem?_modify] at hj
  split at hj
  · rename_i hij
    obtain ⟨old, hold, rfl⟩ := Option.map_eq_some_iff.mp hj
    exact hf old (hij ▸ hold) (hall old (Array.mem_iff_getElem?.mpr ⟨j, hold⟩))
  · exact hall d (Array.mem_iff_getElem?.mpr ⟨j, hj⟩)

/-- What keeps kind and parent of a directive keeps the shape. -/
theorem shape_modify {directives : Array Directive} {i : Nat} {f : Directive → Directive}
    (h : ∀ d, ((f d).kind, (f d).parent) = (d.kind, d.parent)) :
    shape (directives.modify i f) = shape directives :=
  map_modify directives i fun d _ => h d

namespace Assembly

variable {source : Source} {a a' : Assembly} {ancestors : List Nat} {allowed : Kind → Bool}
  {kind : Kind}

theorem acceptAll_append (source : Source) (a : Assembly) (events more : List Event) :
    a.acceptAll source (events ++ more) = (a.acceptAll source events).bind (·.acceptAll source more)
    := by
  induction events generalizing a with
  | nil => rfl
  | cons e events ih =>
    rw [List.cons_append, acceptAll, acceptAll]
    cases a.accept source e with
    | error d => rfl
    | ok next => exact ih next

theorem permits_eq (a : Assembly) (kind : Kind) (i : Nat) :
    a.permits kind i = ((shape a.directives)[i]?).any fun entry => entry.1.permits kind := by
  rw [permits, getElem?_shape, Option.any_map]

/-- A level of a document: the directives above it, the innermost first, and
the kinds it allows. -/
inductive Level (a : Assembly) : List Nat → (Kind → Bool) → Prop
  | top (hctx : a.contexts = []) : Level a [] Kind.allowedAtRoot
  | inside {owner : Nat} {outer : List Nat} {kind : Kind} {parent : Option Nat}
      (howner : (shape a.directives)[owner]? = some (kind, parent))
      (hctx : a.contexts.head? = some outer.length) : Level a (owner :: outer) kind.permits

/-- A level stays while directives are added and the same context is open. -/
theorem Level.extend {more : List (Kind × Option Nat)} (h : Level a ancestors allowed)
    (hctx : a'.contexts = a.contexts)
    (hshape : shape a'.directives = shape a.directives ++ more) :
    Level a' ancestors allowed := by
  cases h with
  | top hnone => exact .top (hctx.trans hnone)
  | @inside owner outer kind parent howner hhead =>
    have howner' : (shape a'.directives)[owner]? = some (kind, parent) := by
      rw [hshape, List.getElem?_append_left (List.getElem?_eq_some_iff.mp howner).1]
      exact howner
    exact .inside howner' (hctx ▸ hhead)

/-- The next directive belongs to this level. -/
structure Placed (a : Assembly) (ancestors : List Nat) (allowed : Kind → Bool) : Prop where
  level : Level a ancestors allowed
  chain : a.chain = ancestors ∨
    ∃ last, a.chain = last :: ancestors ∧ ∀ kind, a.permits kind last = false

/-! ## Keywords -/

/-- At the top nothing in the chain takes a directive that the top allows. -/
theorem Placed.chainFor?_top (h : Placed a [] allowed) (hctx : a.contexts = []) (kind : Kind) :
    a.chainFor? kind = none := by
  have hreach : a.reach = a.chain := by
    rw [reach, hctx]
    exact List.take_length
  have hnone : ∀ i ∈ a.chain, a.permits kind i = false := by
    intro i hi
    rcases h.chain with hchain | ⟨last, hchain, hlast⟩
    · rw [hchain] at hi
      cases hi
    · rw [hchain] at hi
      rw [List.mem_singleton.mp hi]
      exact hlast kind
  rw [chainFor?, hreach, List.findIdx?_eq_none_iff.mpr hnone]
  rfl

/-- Inside a context the search ends at its owner. -/
theorem Placed.chainFor?_inside {owner : Nat} {outer : List Nat}
    (h : Placed a (owner :: outer) allowed) (hctx : a.contexts.head? = some outer.length)
    (hpermits : a.permits kind owner = true) : a.chainFor? kind = some (owner :: outer) := by
  have hdepth : a.contexts.headD 0 = outer.length := by
    rw [List.headD_eq_head?_getD, hctx]
    rfl
  rcases h.chain with hchain | ⟨last, hchain, hlast⟩
  · have hreach : a.reach = [owner] := by
      rw [reach, hdepth, hchain, List.length_cons, Nat.add_sub_cancel_left]
      rfl
    rw [chainFor?, hreach, hchain, List.findIdx?_cons, hpermits]
    rfl
  · -- the search passes over the last directive, which permits nothing
    have hreach : a.reach = [last, owner] := by
      have hlen : (last :: owner :: outer).length - outer.length = 2 := by
        simp only [List.length_cons]
        omega
      rw [reach, hdepth, hchain, hlen]
      rfl
    rw [chainFor?, hreach, hchain, List.findIdx?_cons, hlast kind, List.findIdx?_cons, hpermits]
    rfl

/-- A directive that the level allows is put beneath its owner. -/
theorem Placed.keyword (h : Placed a ancestors allowed) (hallowed : allowed kind = true)
    {span : Span} (hword : Keyword.classify? (source.text span) = some kind) :
    a.keyword source span = .ok (a.add kind span ancestors) := by
  simp only [Assembly.keyword, hword]
  cases h.level with
  | top hctx =>
    rw [h.chainFor?_top hctx kind]
    exact if_pos ⟨hctx, hallowed⟩
  | @inside owner outer parentKind parent howner hctx =>
    have hpermits : a.permits kind owner = true := by
      rw [permits_eq, howner]
      exact hallowed
    rw [h.chainFor?_inside hctx hpermits]

@[simp]
theorem shape_add (a : Assembly) (kind : Kind) (span : Span) (chain : List Nat) :
    shape (a.add kind span chain).directives
      = shape a.directives ++ [(kind, chain.head?)] :=
  shape_push _ _

/-- The directive added last. -/
theorem getElem?_shape_add (a : Assembly) (kind : Kind) (span : Span) (chain : List Nat) :
    (shape (a.add kind span chain).directives)[a.directives.size]? = some (kind, chain.head?) := by
  rw [shape_add, ← length_shape]
  exact List.getElem?_concat_length

/-- A directive that permits nothing leaves its level as it is. -/
theorem Placed.add_leaf (h : Placed a ancestors allowed)
    (hleaf : ∀ child, kind.permits child = false) (span : Span) :
    Placed (a.add kind span ancestors) ancestors allowed := by
  refine ⟨h.level.extend rfl (shape_add ..), .inr ⟨a.directives.size, rfl, ?_⟩⟩
  intro child
  rw [permits_eq, getElem?_shape_add]
  exact hleaf child

/-! ## Parentheses -/

theorem shape_openContext (a : Assembly) (span : Span) :
    shape (a.openContext span).directives = shape a.directives := by
  rw [openContext]
  split
  · rfl
  · exact shape_modify fun _ => rfl

theorem shape_closeContext (a : Assembly) (span : Span) :
    shape (a.closeContext span).directives = shape a.directives := by
  rw [closeContext]
  split
  · rfl
  · dsimp only
    split
    · exact shape_modify fun _ => rfl
    · rfl

theorem openContext_add (a : Assembly) (kind : Kind) (span paren : Span) (chain : List Nat) :
    ((a.add kind span chain).openContext paren).chain = a.directives.size :: chain ∧
      ((a.add kind span chain).openContext paren).contexts = chain.length :: a.contexts := by
  have hsome : (a.add kind span chain).directives.isEmpty = false := by
    simp [add]
  rw [openContext, hsome, if_neg Bool.false_ne_true]
  exact ⟨rfl, rfl⟩

/-- The inside of the context of a new directive is a level. -/
theorem Placed.openContext (a : Assembly) (kind : Kind) (span paren : Span) (chain : List Nat) :
    Placed ((a.add kind span chain).openContext paren) (a.directives.size :: chain)
      kind.permits := by
  obtain ⟨hchain, hcontexts⟩ := openContext_add a kind span paren chain
  have howner := getElem?_shape_add a kind span chain
  rw [← shape_openContext _ paren] at howner
  have hhead : ((a.add kind span chain).openContext paren).contexts.head? = some chain.length := by
    rw [hcontexts]
    rfl
  exact ⟨.inside howner hhead, .inl hchain⟩

/-- Behind a context the chain leads up from the level around it. -/
theorem Placed.closeContext {owner : Nat} {outer contexts : List Nat}
    (h : Placed a (owner :: outer) allowed) (hctx : a.contexts = outer.length :: contexts)
    (span : Span) :
    (a.closeContext span).chain = outer ∧ (a.closeContext span).contexts = contexts := by
  simp only [Assembly.closeContext, hctx]
  refine ⟨?_, trivial⟩
  rcases h.chain with hchain | ⟨last, hchain, -⟩
  · rw [hchain, List.length_cons, Nat.add_sub_cancel_left]
    rfl
  · have hlen : (last :: owner :: outer).length - outer.length = 2 := by
      simp only [List.length_cons]
      omega
    rw [hchain, hlen]
    rfl

end Assembly

end ApiDoc
