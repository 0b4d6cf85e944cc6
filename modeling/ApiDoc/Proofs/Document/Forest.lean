import ApiDoc.Document
import ApiDoc.Proofs.Directive.Spelling
import Mathlib.Data.List.Induction

/-!
# Forests of directives

A forest is what the context grammar describes: directives beneath directives,
in order, each with the word that spells it. It is held as a binary tree, the
first directive with what stands beneath it and what stands beside it.

* **Printing** (`print`): a directive encloses what stands beneath it in
  parentheses, except for a description, which is a line of its own.
* **Outline** (`outline`): the kinds in the order of the text, each with the
  index of its parent.
* **Look-up** (`outline_siblings`, `outline_children`): the indices with a given
  parent are the siblings at the top, or those beneath a directive.
-/

namespace ApiDoc

/-- Whether a word opens a directive of a kind: it is its spelling or, for a
response, a code. -/
def Kind.spelledBy (kind : Kind) (word : List UInt8) : Bool :=
  match kind.spelling? with
  | some text => word == Utf8.bytes text
  | none => Keyword.isCode word

theorem Kind.spells_of_spelledBy {kind : Kind} {word : List UInt8}
    (h : kind.spelledBy word = true) : Keyword.Spells word kind := by
  unfold Kind.spelledBy at h
  split at h
  · rename_i text htext
    rw [beq_iff_eq] at h
    subst h
    exact .inl (Keyword.mem_entries_of_spelling? htext)
  · rename_i hnone
    refine .inr ⟨?_, h⟩
    revert hnone
    cases kind <;> decide

/-- A word that opens a directive. -/
structure Heading where
  kind : Kind
  word : List UInt8
  spelled : kind.spelledBy word = true

theorem Heading.spells (heading : Heading) : Keyword.Spells heading.word heading.kind :=
  Kind.spells_of_spelledBy heading.spelled

/-- The directives of one level, each with the directives beneath it. -/
inductive Forest where
  | nil
  | node (heading : Heading) (beneath beside : Forest)

namespace Forest

/-- The number of directives. -/
def size : Forest → Nat
  | nil => 0
  | node _ beneath beside => 1 + beneath.size + beside.size

/-- Whether every directive may stand where it stands; `allowed` tells of the
first level. -/
def conforms (allowed : Kind → Bool) : Forest → Bool
  | nil => true
  | node heading beneath beside =>
    allowed heading.kind && beneath.conforms heading.kind.permits && beside.conforms allowed

/-- Where nothing is allowed, nothing stands. -/
theorem eq_nil_of_conforms {forest : Forest} {allowed : Kind → Bool}
    (hnone : ∀ kind, allowed kind = false) (h : forest.conforms allowed = true) :
    forest = nil := by
  cases forest with
  | nil => rfl
  | node heading beneath beside =>
    rw [conforms, hnone] at h
    cases h

/-- The text of a forest. -/
def print : Forest → List UInt8
  | nil => []
  | node heading beneath beside =>
    heading.word ++
      (if heading.kind = .description then Byte.lineFeed :: beside.print
      else Byte.space :: Byte.openParen :: Byte.lineFeed ::
        (beneath.print ++ Byte.closeParen :: Byte.lineFeed :: beside.print))

/-- How deep the printed parentheses are nested. -/
def nesting : Forest → Nat
  | nil => 0
  | node heading beneath beside =>
    max (if heading.kind = .description then 0 else beneath.nesting + 1) beside.nesting

/-- The kinds in the order of the text, each with the index of its parent. The
first directive has the index `base`, and those of the first level have the
parent given. -/
def outline : Nat → Option Nat → Forest → List (Kind × Option Nat)
  | _, _, nil => []
  | base, parent, node heading beneath beside =>
    (heading.kind, parent) :: (beneath.outline (base + 1) (some base) ++
      beside.outline (base + 1 + beneath.size) parent)

/-- The indices of the first level. -/
def siblings : Nat → Forest → List Nat
  | _, nil => []
  | base, node _ beneath beside => base :: beside.siblings (base + 1 + beneath.size)

/-- The indices directly beneath the directive with the index `i`. -/
def children (i : Nat) : Nat → Forest → List Nat
  | _, nil => []
  | base, node _ beneath beside =>
    if i = base then beneath.siblings (base + 1)
    else if i < base + 1 + beneath.size then beneath.children i (base + 1)
    else beside.children i (base + 1 + beneath.size)

theorem length_outline (forest : Forest) (base : Nat) (parent : Option Nat) :
    (forest.outline base parent).length = forest.size := by
  induction forest generalizing base parent with
  | nil => rfl
  | node heading beneath beside ihBeneath ihBeside =>
    rw [outline, List.length_cons, List.length_append, ihBeneath, ihBeside, size]
    omega

/-- A parent in an outline is the one given or has an index from `base` on. -/
theorem parent_of_mem_outline {forest : Forest} {base : Nat} {parent : Option Nat}
    {entry : Kind × Option Nat} (h : entry ∈ forest.outline base parent) :
    entry.2 = parent ∨ ∃ j, entry.2 = some j ∧ base ≤ j ∧ j < base + forest.size := by
  induction forest generalizing base parent with
  | nil => cases h
  | node heading beneath beside ihBeneath ihBeside =>
    rw [size]
    rcases List.mem_cons.mp h with rfl | h
    · exact .inl rfl
    · rcases List.mem_append.mp h with h | h
      · rcases ihBeneath h with hparent | ⟨j, hj, hle, hlt⟩
        · exact .inr ⟨base, hparent, by omega, by omega⟩
        · exact .inr ⟨j, hj, by omega, by omega⟩
      · rcases ihBeside h with hparent | ⟨j, hj, hle, hlt⟩
        · exact .inl hparent
        · exact .inr ⟨j, hj, by omega, by omega⟩

/-- The indices, counted from `base`, of the entries with this parent. -/
def withParent (parent : Option Nat) (outline : List (Kind × Option Nat)) (base : Nat) :
    List Nat :=
  outline.findIdxs (fun entry => entry.2 == parent) base

theorem withParent_eq_nil {forest : Forest} {base : Nat} {parent p : Option Nat}
    (hne : parent ≠ p) (hout : ∀ j, p = some j → j < base ∨ base + forest.size ≤ j) :
    withParent p (forest.outline base parent) base = [] := by
  rw [withParent, List.findIdxs_eq_nil_iff]
  intro entry hentry
  rw [beq_eq_false_iff_ne]
  rintro rfl
  rcases parent_of_mem_outline hentry with hparent | ⟨j, hj, hle, hlt⟩
  · exact hne hparent.symm
  · rcases hout j hj with h | h <;> omega

theorem withParent_node (p : Option Nat) (heading : Heading) (beneath beside : Forest) (base : Nat)
    (parent : Option Nat) :
    withParent p ((node heading beneath beside).outline base parent) base
      = (if parent = p then [base] else []) ++
        withParent p (beneath.outline (base + 1) (some base)) (base + 1) ++
        withParent p (beside.outline (base + 1 + beneath.size) parent)
          (base + 1 + beneath.size) := by
  rw [withParent, outline, List.findIdxs_cons, List.findIdxs_append, length_outline]
  by_cases h : parent = p
  · rw [if_pos (by simp [h]), if_pos h, List.append_assoc]
    rfl
  · rw [if_neg (by simp [h]), if_neg h, List.nil_append]
    rfl

/-- The entries with the parent given are those of the first level. -/
theorem outline_siblings {forest : Forest} {base : Nat} {parent : Option Nat}
    (hparent : ∀ j, parent = some j → j < base) :
    withParent parent (forest.outline base parent) base = forest.siblings base := by
  induction forest generalizing base with
  | nil => rfl
  | node heading beneath beside ihBeneath ihBeside =>
    have hne : some base ≠ parent := by
      intro heq
      have := hparent base heq.symm
      omega
    have hbeneath : withParent parent (beneath.outline (base + 1) (some base)) (base + 1) = [] :=
      withParent_eq_nil hne fun j hj => .inl (Nat.lt_succ_of_lt (hparent j hj))
    have hbeside := @ihBeside (base + 1 + beneath.size) fun j hj => by
      have := hparent j hj
      omega
    rw [withParent_node, if_pos rfl, hbeneath, hbeside, siblings]
    rfl

/-- The entries whose parent is a directive of the forest stand beneath it. -/
theorem outline_children {forest : Forest} {base i : Nat} {parent : Option Nat} (hi : base ≤ i)
    (hparent : parent ≠ some i) :
    withParent (some i) (forest.outline base parent) base = forest.children i base := by
  induction forest generalizing base parent with
  | nil => rfl
  | node heading beneath beside ihBeneath ihBeside =>
    rw [withParent_node, if_neg hparent, List.nil_append, children]
    -- the index is the first one, or it falls beneath it or beside it
    by_cases hbase : i = base
    · subst hbase
      have hbeneath : withParent (some i) (beneath.outline (i + 1) (some i)) (i + 1)
          = beneath.siblings (i + 1) := by
        apply outline_siblings
        intro j hj
        cases hj
        exact Nat.lt_succ_self i
      have hbeside : withParent (some i) (beside.outline (i + 1 + beneath.size) parent)
          (i + 1 + beneath.size) = [] := by
        refine withParent_eq_nil hparent fun j hj => .inl ?_
        cases hj
        omega
      rw [if_pos rfl, hbeneath, hbeside, List.append_nil]
    · have hne : some base ≠ some i := fun heq => hbase (Option.some.inj heq).symm
      rw [if_neg hbase]
      by_cases hin : i < base + 1 + beneath.size
      · have hbeside : withParent (some i) (beside.outline (base + 1 + beneath.size) parent)
            (base + 1 + beneath.size) = [] := by
          refine withParent_eq_nil hparent fun j hj => .inl ?_
          cases hj
          exact hin
        rw [if_pos hin, ihBeneath (by omega) hne, hbeside, List.append_nil]
      · have hbeneath : withParent (some i) (beneath.outline (base + 1) (some base)) (base + 1)
            = [] := by
          refine withParent_eq_nil hne fun j hj => .inr ?_
          cases hj
          omega
        rw [if_neg hin, hbeneath, List.nil_append, ihBeside (by omega) hparent]

end Forest

/-! ## Documents -/

/-- The kinds of the directives, each with its parent. -/
def shape (directives : Array Directive) : List (Kind × Option Nat) :=
  directives.toList.map fun d => (d.kind, d.parent)

/-- The indices of a list at which `p` holds, by look-up and by position. -/
theorem filter_range_eq_findIdxs {α : Type} (p : α → Bool) (l : List α) :
    (List.range l.length).filter (fun i => l[i]?.any p) = l.findIdxs p := by
  induction l using List.reverseRec with
  | nil => rfl
  | append_singleton l x ih =>
    have hold : (List.range l.length).filter (fun i => (l ++ [x])[i]?.any p)
        = (List.range l.length).filter (fun i => l[i]?.any p) := by
      apply List.filter_congr
      intro i hi
      rw [List.getElem?_append_left (List.mem_range.mp hi)]
    rw [List.length_append, List.length_singleton, List.range_succ, List.filter_append, hold, ih,
      List.findIdxs_append, List.findIdxs_singleton]
    simp [List.filter_cons]

/-- A document is looked up by its shape. -/
theorem Document.withParent_eq (d : Document) (parent : Option Nat) :
    d.withParent parent = Forest.withParent parent (shape d.directives) 0 := by
  have hany : ∀ i : Nat, (d.directives[i]?).any (fun entry : Directive => entry.parent == parent)
      = d.directives.toList[i]?.any fun entry : Directive => entry.parent == parent := by
    intro i
    rw [Array.getElem?_toList]
  rw [Document.withParent, Forest.withParent, shape, List.findIdxs_map]
  simp only [hany, ← Array.length_toList]
  exact filter_range_eq_findIdxs _ _

end ApiDoc
