import ApiDoc.Proofs.Document.Placement
import Mathlib.Logic.Relation

/-!
# Lineages

Directives name their parents by index. Following the parents from a
directive gives its lineage (`Lineage`), a path that ends at the top level:

* **determinism** (`Lineage.unique`): a directive has at most one parent, so it
  has at most one lineage;
* **descent** (`Lineage.mem_iff_beneath`): what stands above a directive in its
  lineage are exactly the directives it descends from;
* **order** (`Lineage.decreasing`): where parents come before their children,
  indices decrease along a lineage;
* **frames** (`Lineage.extend`, `beneath_extend`): directives that are added
  later change neither the lineages nor the descent of those that are there.
-/

namespace ApiDoc

/-- The directive directly above the one at `i`. -/
def parent? (directives : Array Directive) (i : Nat) : Option Nat :=
  (directives[i]?).bind (·.parent)

/-- `Lineage directives start line`: from `start` the parents lead up along
`line` to the top level. -/
inductive Lineage (directives : Array Directive) : Option Nat → List Nat → Prop
  | top : Lineage directives none []
  | link {i : Nat} {above : List Nat} (hi : i < directives.size)
      (h : Lineage directives (parent? directives i) above) :
      Lineage directives (some i) (i :: above)

/-- The directive at the first index is a proper descendant of the one at the
second. -/
def Beneath (directives : Array Directive) : Nat → Nat → Prop :=
  Relation.TransGen fun i parent => parent? directives i = some parent

/-- Parents come before their children. -/
def ParentsFirst (directives : Array Directive) : Prop :=
  ∀ ⦃i parent : Nat⦄, parent? directives i = some parent → parent < i

variable {directives directives' : Array Directive} {start : Option Nat} {i x : Nat}
  {line above : List Nat}

/-! ## Lineages -/

namespace Lineage

theorem unique {line' : List Nat} (h : Lineage directives start line)
    (h' : Lineage directives start line') : line = line' := by
  induction h generalizing line' with
  | top =>
    cases h'
    rfl
  | link _ _ ih =>
    cases h' with
    | link _ h' => rw [ih h']

theorem head?_eq (h : Lineage directives start line) : line.head? = start := by
  cases h with
  | top => rfl
  | link _ _ => rfl

theorem lt_size (h : Lineage directives start line) : ∀ i ∈ line, i < directives.size := by
  induction h with
  | top =>
    intro i hi
    cases hi
  | link hi _ ih =>
    intro j hj
    rcases List.mem_cons.mp hj with rfl | hj
    · exact hi
    · exact ih j hj

/-- A lineage can be entered further up. -/
theorem suffix {front : List Nat} (h : Lineage directives start (front ++ line)) :
    Lineage directives line.head? line := by
  induction front generalizing start with
  | nil => exact h.head?_eq ▸ h
  | cons i front ih =>
    cases h with
    | link _ h => exact ih h

/-- What stands above a directive is what it descends from. -/
theorem mem_iff_beneath (h : Lineage directives (some i) (i :: above)) :
    x ∈ above ↔ Beneath directives i x := by
  constructor
  · intro hx
    induction above generalizing i with
    | nil => cases hx
    | cons p above ih =>
      cases h with
      | link _ h =>
        -- the first directive above is the parent
        have hp : parent? directives i = some p := h.head?_eq.symm
        rw [hp] at h
        rcases List.mem_cons.mp hx with rfl | hx
        · exact .single hp
        · exact .head hp (ih h hx)
  · intro hx
    induction hx using Relation.TransGen.head_induction_on generalizing above with
    | single hp =>
      cases h with
      | link _ h =>
        rw [hp] at h
        exact List.mem_of_mem_head? (h.head?_eq ▸ rfl)
    | @head i p hp _ ih =>
      cases h with
      | link _ h =>
        rw [hp] at h
        cases h with
        | link hsize h => exact List.mem_cons_of_mem _ (ih (.link hsize h))

/-- Indices decrease along a lineage. -/
theorem decreasing (hfirst : ParentsFirst directives) (h : Lineage directives start line) :
    line.Pairwise (· > ·) := by
  induction h with
  | top => exact .nil
  | @link i above hi h ih =>
    refine .cons ?_ ih
    cases above with
    | nil =>
      intro x hx
      cases hx
    | cons p above =>
      have hp : p < i := hfirst h.head?_eq.symm
      intro x hx
      rcases List.mem_cons.mp hx with rfl | hx
      · exact hp
      · exact Nat.lt_trans (List.rel_of_pairwise_cons ih hx) hp

end Lineage

/-- A descendant comes after what it descends from. -/
theorem Beneath.lt (hfirst : ParentsFirst directives) (h : Beneath directives i x) : x < i := by
  induction h with
  | single hp => exact hfirst hp
  | tail _ hp ih => exact Nat.lt_trans (hfirst hp) ih

/-! ## Directives that are added -/

theorem parent?_eq_shape (directives : Array Directive) (i : Nat) :
    parent? directives i = ((shape directives)[i]?).bind (·.2) := by
  rw [parent?, getElem?_shape]
  cases directives[i]? with
  | none => rfl
  | some d => rfl

theorem size_le_of_shape (h : shape directives <+: shape directives') :
    directives.size ≤ directives'.size := by
  rw [← length_shape, ← length_shape]
  exact h.length_le

theorem parent?_extend (h : shape directives <+: shape directives')
    (hi : i < directives.size) : parent? directives' i = parent? directives i := by
  obtain ⟨more, hmore⟩ := h
  rw [parent?_eq_shape, parent?_eq_shape, ← hmore,
    List.getElem?_append_left (by rwa [length_shape])]

theorem Lineage.extend (h : Lineage directives start line)
    (hshape : shape directives <+: shape directives') : Lineage directives' start line := by
  induction h with
  | top => exact .top
  | link hi _ ih =>
    refine .link (Nat.lt_of_lt_of_le hi (size_le_of_shape hshape)) ?_
    rw [parent?_extend hshape hi]
    exact ih

/-- Descent is told by the directives up to the descendant. -/
theorem beneath_extend (hfirst : ParentsFirst directives)
    (hshape : shape directives <+: shape directives') (hi : i < directives.size) :
    Beneath directives' i x ↔ Beneath directives i x := by
  constructor
  · intro h
    induction h using Relation.TransGen.head_induction_on with
    | single hp =>
      rw [parent?_extend hshape hi] at hp
      exact .single hp
    | head hp _ ih =>
      rw [parent?_extend hshape hi] at hp
      exact .head hp (ih (Nat.lt_trans (hfirst hp) hi))
  · intro h
    induction h using Relation.TransGen.head_induction_on with
    | single hp =>
      rw [← parent?_extend hshape hi] at hp
      exact .single hp
    | head hp _ ih =>
      have hlt := Nat.lt_trans (hfirst hp) hi
      rw [← parent?_extend hshape hi] at hp
      exact .head hp (ih hlt)

/-! ## Directives that are amended -/

theorem size_congr (h : shape directives' = shape directives) :
    directives'.size = directives.size := by
  rw [← length_shape, h, length_shape]

theorem ParentsFirst.congr (hfirst : ParentsFirst directives)
    (h : shape directives' = shape directives) : ParentsFirst directives' := by
  intro i parent hi
  rw [parent?_eq_shape, h, ← parent?_eq_shape] at hi
  exact hfirst hi

theorem Lineage.congr (hline : Lineage directives start line)
    (h : shape directives' = shape directives) : Lineage directives' start line :=
  hline.extend (h ▸ List.prefix_refl _)

end ApiDoc
