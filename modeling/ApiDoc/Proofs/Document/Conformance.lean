import ApiDoc.Proofs.Document.Acceptance
import ApiDoc.Proofs.Document.Lineage
import Mathlib.Data.List.Nodup

/-!
# Documents are forests of the context grammar

Whatever events an assembly takes, in whatever order, the directives it ends
with form a forest that the context grammar allows. No order of the events is
assumed: parentheses may be missing, or close nothing.

* **Conformance** (`Conforming`): a directive stands beneath an earlier one that
  permits it, or at the top level if its kind may stand there. Only a keyword
  adds to this, and what it adds has its place (`Places.mayStand`).
* **Roots** (`existsUnique_root`): parents come first, so that links do not run
  in circles and every directive descends from exactly one root.
* **Look-up** (`perm_range`): the roots and the children of all directives list
  every directive once.
-/

namespace ApiDoc

/-! ## Conformance -/

/-- Where the context grammar lets a directive of this kind stand that comes
behind `i` others. -/
def MayStand (entries : List (Kind × Option Nat)) (i : Nat) (kind : Kind) : Option Nat → Prop
  | none => kind.allowedAtRoot = true
  | some p => p < i ∧ ∃ above, entries[p]? = some above ∧ above.1.permits kind = true

/-- Every directive stands where the grammar lets it stand. -/
def Conforming (entries : List (Kind × Option Nat)) : Prop :=
  ∀ ⦃i : Nat⦄ ⦃entry : Kind × Option Nat⦄, entries[i]? = some entry →
    MayStand entries i entry.1 entry.2

variable {entries more : List (Kind × Option Nat)} {kind : Kind} {parent : Option Nat} {i : Nat}

theorem MayStand.append (h : MayStand entries i kind parent) :
    MayStand (entries ++ more) i kind parent := by
  cases parent with
  | none => exact h
  | some p =>
    obtain ⟨hlt, above, habove, hpermits⟩ := h
    refine ⟨hlt, above, ?_, hpermits⟩
    rw [List.getElem?_append_left (List.getElem?_eq_some_iff.mp habove).1]
    exact habove

theorem conforming_nil : Conforming [] := by
  intro i entry h
  cases h

theorem Conforming.concat (h : Conforming entries)
    (hnew : MayStand entries entries.length kind parent) :
    Conforming (entries ++ [(kind, parent)]) := by
  intro i entry hi
  rw [List.getElem?_append] at hi
  split at hi
  · exact (h hi).append
  · rename_i hge
    rw [List.getElem?_singleton] at hi
    split at hi
    · rename_i hlast
      cases hi
      obtain rfl : i = entries.length := by omega
      exact hnew.append
    · cases hi

namespace Assembly

variable {source : Source} {a a' : Assembly} {e : Event} {events : List Event} {above : List Nat}

/-- A directive is placed where it may stand. -/
theorem Places.mayStand (h : a.Places kind above) :
    MayStand (shape a.directives) a.directives.size kind above.head? := by
  have hfind := h.find?_reach
  cases h with
  | top _ _ hroot => exact hroot
  | beneath h =>
    obtain ⟨n, hn, rfl, -⟩ := chainFor?_eq_some h
    have hlt : n < a.chain.length := by omega
    rw [List.head?_drop, List.getElem?_eq_getElem hlt] at hfind ⊢
    have hpermits := List.find?_some hfind
    rw [permits_eq, Option.any_eq_true] at hpermits
    obtain ⟨entry, hentry, hallows⟩ := hpermits
    refine ⟨?_, entry, hentry, hallows⟩
    rw [← length_shape]
    exact (List.getElem?_eq_some_iff.mp hentry).1

theorem Accepts.conforming (hconf : Conforming (shape a.directives))
    (h : a.Accepts source e a') : Conforming (shape a'.directives) := by
  cases h with
  | keyword _ hplace =>
    rw [shape_add]
    refine hconf.concat ?_
    rw [length_shape]
    exact hplace.mayStand
  | opened =>
    rw [shape_openContext]
    exact hconf
  | closed =>
    rw [shape_closeContext]
    exact hconf
  | amended _ hsame =>
    rw [hsame.shape_eq]
    exact hconf

/-- Events of any kind and in any order give directives that conform. -/
theorem acceptAll_conforming (h : acceptAll source {} events = .ok a) :
    Conforming (shape a.directives) := by
  have hstart : Conforming (shape ({} : Assembly).directives) := conforming_nil
  exact acceptAll_preserves (P := fun _ b => Conforming (shape b.directives)) hstart
    (fun hconf haccepts => haccepts.conforming hconf) h

end Assembly

/-! ## Roots -/

variable {directives : Array Directive} {r : Nat}

theorem Conforming.parentsFirst (h : Conforming (shape directives)) : ParentsFirst directives := by
  intro i p hp
  rw [parent?_eq_shape] at hp
  obtain ⟨entry, hentry, hparent⟩ := Option.bind_eq_some_iff.mp hp
  have hstand := h hentry
  rw [hparent] at hstand
  exact hstand.1

/-- The directive at `r` stands at the top level, and the one at `i` is it or
descends from it. -/
structure IsRootOf (directives : Array Directive) (i r : Nat) : Prop where
  lt_size : r < directives.size
  top : parent? directives r = none
  descends : i = r ∨ Beneath directives i r

theorem IsRootOf.refl (hi : i < directives.size) (htop : parent? directives i = none) :
    IsRootOf directives i i :=
  ⟨hi, htop, .inl rfl⟩

/-- A directive has the roots of its parent. -/
theorem isRootOf_iff_of_parent? {p : Nat} (hp : parent? directives i = some p) :
    IsRootOf directives i r ↔ IsRootOf directives p r := by
  constructor
  · rintro ⟨hlt, htop, rfl | hbeneath⟩
    · rw [hp] at htop
      cases htop
    · refine ⟨hlt, htop, ?_⟩
      -- the first link from `i` leads to `p`
      rcases Relation.TransGen.head'_iff.mp hbeneath with ⟨q, hq, hrest⟩
      rw [hp] at hq
      obtain rfl := Option.some.inj hq
      rcases Relation.reflTransGen_iff_eq_or_transGen.mp hrest with heq | hrest
      · exact .inl heq.symm
      · exact .inr hrest
  · rintro ⟨hlt, htop, rfl | hbeneath⟩
    · exact ⟨hlt, htop, .inr (.single hp)⟩
    · exact ⟨hlt, htop, .inr (.head hp hbeneath)⟩

/-- Every directive has exactly one root. -/
theorem existsUnique_root (hfirst : ParentsFirst directives) (hi : i < directives.size) :
    ∃! r, IsRootOf directives i r := by
  induction i using Nat.strong_induction_on with
  | _ i ih =>
    cases hp : parent? directives i with
    | none =>
      refine ⟨i, .refl hi hp, ?_⟩
      rintro r ⟨-, -, rfl | hbeneath⟩
      · rfl
      · -- nothing stands above a directive at the top level
        obtain ⟨q, hq, -⟩ := Relation.TransGen.head'_iff.mp hbeneath
        rw [hp] at hq
        cases hq
    | some p =>
      have hiff : ∀ r, IsRootOf directives i r ↔ IsRootOf directives p r :=
        fun r => isRootOf_iff_of_parent? hp
      rw [existsUnique_congr hiff]
      exact ih p (hfirst hp) (Nat.lt_trans (hfirst hp) hi)

/-! ## Look-up -/

namespace Document

variable {doc : Document}

theorem mem_withParent {parent : Option Nat} :
    i ∈ doc.withParent parent ↔ ∃ d, doc.directives[i]? = some d ∧ d.parent = parent := by
  simp only [withParent, List.mem_filter, List.mem_range, Option.any_eq_true, beq_iff_eq]
  constructor
  · rintro ⟨-, hd⟩
    exact hd
  · rintro ⟨d, hd, hparent⟩
    exact ⟨(Array.getElem?_eq_some_iff.mp hd).1, d, hd, hparent⟩

theorem mem_roots {r : Nat} :
    r ∈ doc.roots ↔ r < doc.directives.size ∧ parent? doc.directives r = none := by
  rw [roots, mem_withParent]
  constructor
  · rintro ⟨d, hd, hparent⟩
    refine ⟨(Array.getElem?_eq_some_iff.mp hd).1, ?_⟩
    rw [parent?, hd]
    exact hparent
  · rintro ⟨hlt, hparent⟩
    have hd := Array.getElem?_eq_getElem hlt
    rw [parent?, hd] at hparent
    exact ⟨_, hd, hparent⟩

/-- Directives are listed in the order of the source. -/
theorem withParent_sorted (doc : Document) (parent : Option Nat) :
    (doc.withParent parent).Pairwise (· < ·) :=
  List.pairwise_lt_range.sublist List.filter_sublist

theorem withParent_nodup (doc : Document) (parent : Option Nat) :
    (doc.withParent parent).Nodup :=
  List.nodup_range.sublist List.filter_sublist

/-- No directive is listed for two parents. -/
theorem withParent_disjoint {p q : Option Nat} (hne : p ≠ q) :
    List.Disjoint (doc.withParent p) (doc.withParent q) := by
  intro i hp hq
  obtain ⟨d, hd, hparent⟩ := mem_withParent.mp hp
  obtain ⟨d', hd', hparent'⟩ := mem_withParent.mp hq
  rw [hd] at hd'
  cases hd'
  exact hne (hparent.symm.trans hparent')

/-- The roots and the children of all directives list every directive once. -/
theorem perm_range (hfirst : ParentsFirst doc.directives) :
    (doc.roots ++ (List.range doc.directives.size).flatMap doc.children).Perm
      (List.range doc.directives.size) := by
  have hnodup : (doc.roots ++ (List.range doc.directives.size).flatMap doc.children).Nodup := by
    refine List.Nodup.append (doc.withParent_nodup none) ?_ ?_
    · refine List.nodup_flatMap.mpr ⟨fun p _ => doc.withParent_nodup (some p), ?_⟩
      refine List.nodup_range.imp ?_
      intro p q hne
      exact withParent_disjoint fun heq => hne (Option.some.inj heq)
    · intro i hroot hchild
      obtain ⟨p, -, hp⟩ := List.mem_flatMap.mp hchild
      exact withParent_disjoint (Option.some_ne_none p).symm hroot hp
  refine (List.perm_ext_iff_of_nodup hnodup List.nodup_range).mpr ?_
  intro i
  rw [List.mem_append, List.mem_flatMap, List.mem_range]
  constructor
  · rintro (hroot | ⟨p, -, hchild⟩)
    · obtain ⟨d, hd, -⟩ := mem_withParent.mp hroot
      exact (Array.getElem?_eq_some_iff.mp hd).1
    · obtain ⟨d, hd, -⟩ := mem_withParent.mp hchild
      exact (Array.getElem?_eq_some_iff.mp hd).1
  · intro hi
    have hd := Array.getElem?_eq_getElem hi
    cases hparent : doc.directives[i].parent with
    | none => exact .inl (mem_withParent.mpr ⟨_, hd, hparent⟩)
    | some p =>
      have hp : parent? doc.directives i = some p := by
        rw [parent?, hd]
        exact hparent
      have hlt : p < doc.directives.size := Nat.lt_trans (hfirst hp) hi
      exact .inr ⟨p, List.mem_range.mpr hlt, mem_withParent.mpr ⟨_, hd, hparent⟩⟩

/-- What is no directive has no children. -/
theorem children_eq_nil (hfirst : ParentsFirst doc.directives) {p : Nat}
    (hp : doc.directives.size ≤ p) : doc.children p = [] := by
  rw [List.eq_nil_iff_forall_not_mem]
  intro i hi
  obtain ⟨d, hd, hparent⟩ := mem_withParent.mp hi
  have hlt : p < i := hfirst (by rw [parent?, hd]; exact hparent)
  have hsize := (Array.getElem?_eq_some_iff.mp hd).1
  omega

end Document

/-- What is validated is a forest of the context grammar, whatever events it was
made from: parents come first and permit their children, and what has no parent
may stand at the top level. So links do not run in circles, every directive has
one root, and the roots and the children of all directives list each of them
once, in order. -/
theorem validate_conforms {source : Source} {events : List Event} {directives : Array Directive}
    (h : source.validate events = .ok directives) :
    (∀ (i : Nat) (d : Directive), directives[i]? = some d →
      (∀ p, d.parent = some p → p < i ∧
        ∃ above : Directive, directives[p]? = some above ∧ above.kind.permits d.kind = true) ∧
      (d.parent = none → d.kind.allowedAtRoot = true)) ∧
    (∀ i, ¬ Beneath directives i i) ∧
    (∀ i, i < directives.size → ∃! r, IsRootOf directives i r) ∧
    ∀ doc : Document, doc.directives = directives →
      (∀ r, r ∈ doc.roots ↔ r < directives.size ∧ parent? directives r = none) ∧
      (doc.roots ++ (List.range directives.size).flatMap doc.children).Perm
        (List.range directives.size) ∧
      (∀ p, directives.size ≤ p → doc.children p = []) ∧
      doc.roots.Pairwise (· < ·) ∧ ∀ p, (doc.children p).Pairwise (· < ·) := by
  obtain ⟨a, ha, rfl⟩ := Source.validate_eq_ok_iff.mp h
  have hconf := Assembly.acceptAll_conforming ha
  have hfirst := hconf.parentsFirst
  refine ⟨?_, ?_, fun i hi => existsUnique_root hfirst hi, ?_⟩
  · intro i d hd
    have hentry : (shape a.directives)[i]? = some (d.kind, d.parent) := by
      rw [getElem?_shape, hd]
      rfl
    have hstand := hconf hentry
    refine ⟨?_, ?_⟩
    · intro p hp
      rw [hp] at hstand
      obtain ⟨hlt, entry, hentry, hpermits⟩ := hstand
      rw [getElem?_shape] at hentry
      obtain ⟨above, habove, rfl⟩ := Option.map_eq_some_iff.mp hentry
      exact ⟨hlt, above, habove, hpermits⟩
    · intro hp
      rw [hp] at hstand
      exact hstand
  · intro i hcycle
    exact Nat.lt_irrefl i (hcycle.lt hfirst)
  · rintro doc hdoc
    rw [← hdoc] at hfirst ⊢
    exact ⟨fun r => Document.mem_roots, Document.perm_range hfirst,
      fun p hp => Document.children_eq_nil hfirst hp, doc.withParent_sorted none,
      fun p => doc.withParent_sorted (some p)⟩

/-- A resource with a method and one more resource, among parentheses that close
nothing, are opened before any keyword, or twice. -/
theorem validate_conforms_unmatched :
    let source : Source := ⟨"", Utf8.bytes "URL GET URL", by decide⟩
    let opening : Event := ⟨⟨.context, .opening⟩, .point 3⟩
    let closing : Event := ⟨⟨.context, .closing⟩, ⟨3, 7⟩⟩
    let word : Span → Event := fun span => ⟨⟨.keyword, .closing⟩, span⟩
    let directives : Array Directive :=
      #[{ kind := .url, keyword := ⟨0, 2⟩, parent := none, context := some ⟨3, 7⟩ },
        { kind := .get, keyword := ⟨4, 6⟩, parent := some 0 },
        { kind := .url, keyword := ⟨8, 10⟩, parent := none }]
    source.validate [closing, opening, word ⟨0, 2⟩, opening, opening, word ⟨4, 6⟩, closing,
        closing, closing, word ⟨8, 10⟩] = .ok directives ∧
      (∃! r, IsRootOf directives 1 r) ∧ (Document.mk source directives).roots = [0, 2] ∧
      ([0, 2] ++ (List.range 3).flatMap (Document.mk source directives).children).Perm
        (List.range 3) := by
  intro source opening closing word directives
  have h : source.validate [closing, opening, word ⟨0, 2⟩, opening, opening, word ⟨4, 6⟩, closing,
      closing, closing, word ⟨8, 10⟩] = .ok directives := by
    decide +kernel
  have hroots : (Document.mk source directives).roots = [0, 2] := by
    decide
  obtain ⟨-, -, hroot, hdoc⟩ := validate_conforms h
  obtain ⟨-, hperm, -⟩ := hdoc ⟨source, directives⟩ rfl
  rw [hroots] at hperm
  exact ⟨h, hroot 1 (by decide), hroots, hperm⟩

end ApiDoc
