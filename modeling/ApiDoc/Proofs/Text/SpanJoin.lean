import ApiDoc.Proofs.Machine.Checked
import Mathlib.Order.Interval.Basic
import Mathlib.Order.Lattice.Nat

/-!
# Spans as intervals

A set span is an interval of offsets, and every unset span is the empty one, whatever
offsets it holds. What is seen of a span through `get?` is this interval.

* **Merging is a join** (`interval_merge`): it is the join of the intervals, so that the laws
  of a join hold of it, and an unset side leaves no trace in the offsets of the result.
* **Hulls** (`isHull_merge`): two set spans are merged to the least set span over both.
* **Shifting** (`shift_eq_ok_iff`): where each sum is checked, a set span can be shifted just
  if an offset holds the sum for its last byte.
-/

namespace ApiDoc

namespace Span

variable {s t u : Span} {offset : Nat}

/-! ## Bytes of a span -/

/-- The span has a byte at `offset`. -/
def Names (s : Span) (offset : Nat) : Prop :=
  s.first ≤ offset ∧ offset ≤ s.last

/-- Every byte of `s` is one of `t`. -/
def Within (s t : Span) : Prop :=
  ∀ offset, s.Names offset → t.Names offset

/-- `u` is the least set span over `s` and `t`. -/
structure IsHull (s t u : Span) : Prop where
  isSet : u.isSet = true
  left : s.Within u
  right : t.Within u
  least : ∀ v : Span, v.isSet = true → s.Within v → t.Within v → u.Within v

/-- The offsets of the bytes. -/
def interval (s : Span) : Interval Nat :=
  if h : s.first ≤ s.last then Interval.coe ⟨(s.first, s.last), h⟩ else ⊥

theorem interval_of_isSet (h : s.isSet = true) :
    s.interval = Interval.coe ⟨(s.first, s.last), of_decide_eq_true h⟩ :=
  dif_pos (of_decide_eq_true h)

theorem interval_eq_bot (h : s.isSet = false) : s.interval = ⊥ :=
  dif_neg (of_decide_eq_false h)

theorem mem_interval : offset ∈ s.interval ↔ s.Names offset := by
  cases h : s.isSet with
  | true =>
    rw [interval_of_isSet h]
    exact NonemptyInterval.mem_mk
  | false =>
    rw [interval_eq_bot h]
    refine iff_of_false (fun hmem => hmem) fun hnames => ?_
    exact of_decide_eq_false h (Nat.le_trans hnames.1 hnames.2)

theorem within_iff : s.Within t ↔ s.interval ≤ t.interval := by
  rw [← Interval.coe_subset_coe, Set.subset_def]
  simp only [SetLike.mem_coe, mem_interval]
  rfl

theorem get?_eq_iff : s.get? = t.get? ↔ s.interval = t.interval := by
  rw [get?, get?]
  cases hs : s.isSet <;> cases ht : t.isSet
  · rw [interval_eq_bot hs, interval_eq_bot ht]
    exact iff_of_true rfl rfl
  · rw [interval_eq_bot hs, interval_of_isSet ht]
    exact iff_of_false nofun nofun
  · rw [interval_of_isSet hs, interval_eq_bot ht]
    exact iff_of_false nofun nofun
  · rw [interval_of_isSet hs, interval_of_isSet ht, Interval.coe_inj, NonemptyInterval.ext_iff,
      if_pos rfl, if_pos rfl, Option.some.injEq]

/-! ## Merging -/

theorem interval_merge (s t : Span) : (s.merge t).interval = s.interval ⊔ t.interval := by
  rw [merge]
  cases hs : s.isSet with
  | false => rw [interval_eq_bot hs, bot_sup_eq]
  | true =>
    cases ht : t.isSet with
    | false => rw [interval_eq_bot ht, sup_bot_eq]
    | true =>
      rw [interval_of_isSet hs, interval_of_isSet ht]
      exact dif_pos _

theorem isSet_merge (hs : s.isSet = true) (ht : t.isSet = true) : (s.merge t).isSet = true := by
  have hfirst : s.first ≤ s.last := of_decide_eq_true hs
  rw [merge, hs, ht]
  exact decide_eq_true ((Nat.min_le_left _ _).trans (hfirst.trans (Nat.le_max_left _ _)))

theorem isHull_merge (hs : s.isSet = true) (ht : t.isSet = true) : IsHull s t (s.merge t) where
  isSet := isSet_merge hs ht
  left := by
    rw [within_iff, interval_merge]
    exact le_sup_left
  right := by
    rw [within_iff, interval_merge]
    exact le_sup_right
  least v _ hsv htv := by
    rw [within_iff] at hsv htv
    rw [within_iff, interval_merge]
    exact sup_le hsv htv

/-! ## Shifting -/

/-- An offset holds the last byte of the shifted span. -/
def Movable (delta : Nat) (s : Span) : Prop :=
  s.isSet = true → s.last + delta ≤ maxOffset

theorem movable_of_unset {delta : Nat} (h : s.isSet = false) : s.Movable delta :=
  fun hs => absurd (hs.symm.trans h) nofun

theorem movable_iff {delta : Nat} (h : s.isSet = true) :
    s.Movable delta ↔ s.last + delta ≤ maxOffset :=
  forall_prop_of_true h

theorem movable_merge {delta : Nat} :
    (s.merge t).Movable delta ↔ s.Movable delta ∧ t.Movable delta := by
  cases hs : s.isSet with
  | false =>
    have hmerge : s.merge t = t := by rw [merge, hs]
    rw [hmerge, and_iff_right (movable_of_unset hs)]
  | true =>
    cases ht : t.isSet with
    | false =>
      have hmerge : s.merge t = s := by rw [merge, hs, ht]
      rw [hmerge, and_iff_left (movable_of_unset ht)]
    | true =>
      have hlast : (s.merge t).last = max s.last t.last := by rw [merge, hs, ht]
      rw [movable_iff (isSet_merge hs ht), movable_iff hs, movable_iff ht, hlast]
      omega

theorem shift_of_unset {delta : Nat} (h : s.isSet = false) : s.shift delta = s := by
  rw [shift, h]
  rfl

theorem shift_of_isSet {delta : Nat} (h : s.isSet = true) :
    s.shift delta = ⟨s.first + delta, s.last + delta⟩ := by
  rw [shift, if_pos h]

@[simp]
theorem isSet_shift (delta : Nat) (s : Span) : (s.shift delta).isSet = s.isSet := by
  cases h : s.isSet with
  | false => rw [shift_of_unset h, h]
  | true =>
    rw [shift_of_isSet h]
    exact decide_eq_true (Nat.add_le_add_right (of_decide_eq_true h) delta)

theorem movable_shift {delta more : Nat} :
    s.Movable delta ∧ (s.shift delta).Movable more ↔ s.Movable (delta + more) := by
  cases h : s.isSet with
  | false =>
    rw [shift_of_unset h]
    exact iff_of_true ⟨movable_of_unset h, movable_of_unset h⟩ (movable_of_unset h)
  | true =>
    rw [movable_iff h, movable_iff h, movable_iff ((isSet_shift delta s).trans h), shift_of_isSet h]
    dsimp only
    omega

theorem length_shift (delta : Nat) (s : Span) : (s.shift delta).length = s.length := by
  cases h : s.isSet with
  | false => rw [shift_of_unset h]
  | true => rw [length, length, isSet_shift, shift_of_isSet h, h, Nat.add_sub_add_right]

theorem shift_merge (delta : Nat) (s t : Span) :
    (s.merge t).shift delta = (s.shift delta).merge (t.shift delta) := by
  rw [merge, merge, isSet_shift, isSet_shift]
  cases hs : s.isSet with
  | false => rfl
  | true =>
    cases ht : t.isSet with
    | false => rfl
    | true =>
      have hmerge := isSet_merge hs ht
      rw [merge, hs, ht] at hmerge
      dsimp only at hmerge ⊢
      rw [shift_of_isSet hmerge, shift_of_isSet hs, shift_of_isSet ht, Nat.add_min_add_right,
        Nat.add_max_add_right]

theorem shift_shift (delta more : Nat) (s : Span) :
    (s.shift delta).shift more = s.shift (delta + more) := by
  cases h : s.isSet with
  | false => rw [shift_of_unset h, shift_of_unset h, shift_of_unset h]
  | true =>
    rw [shift_of_isSet ((isSet_shift delta s).trans h), shift_of_isSet h, shift_of_isSet h,
      Nat.add_assoc, Nat.add_assoc]

end Span

/-! ## Checked sums -/

namespace Checked

variable {s t : Span} {delta : Nat}

/-- The same bytes, counted from `delta` bytes further back. -/
def shift (delta : Nat) (s : Span) : Checked Span :=
  if s.isSet then do
    let first ← sum s.first delta
    let last ← sum s.last delta
    pure ⟨first, last⟩
  else pure s

/-- The number of bytes covered. No offset holds it for the span of all offsets. -/
def length (s : Span) : Checked Nat :=
  if s.isSet then do
    let behind ← difference s.last s.first
    sum behind 1
  else pure 0

/-- The offsets are in order, so the sum for the last one decides. -/
theorem shift_eq_ok_iff : shift delta s = .ok t ↔ s.Movable delta ∧ s.shift delta = t := by
  cases h : s.isSet with
  | false => simp [shift, h, Span.movable_of_unset h, Span.shift_of_unset h]
  | true =>
    have hle : s.first ≤ s.last := of_decide_eq_true h
    rw [shift, if_pos h, Span.movable_iff h, Span.shift_of_isSet h]
    simp only [bind_eq_ok_iff, sum_eq_ok_iff, pure_eq, Except.ok.injEq]
    constructor
    · rintro ⟨first, ⟨-, rfl⟩, last, ⟨hlast, rfl⟩, rfl⟩
      exact ⟨hlast, rfl⟩
    · rintro ⟨hlast, rfl⟩
      exact ⟨_, ⟨by omega, rfl⟩, _, ⟨hlast, rfl⟩, rfl⟩

theorem length_shift (delta : Nat) (s : Span) : length (s.shift delta) = length s := by
  cases h : s.isSet with
  | false => rw [Span.shift_of_unset h]
  | true =>
    have hle : s.first ≤ s.last := of_decide_eq_true h
    rw [length, length, Span.isSet_shift, h, Span.shift_of_isSet h]
    dsimp only
    rw [difference_eq hle, difference_eq (Nat.add_le_add_right hle delta), Nat.add_sub_add_right]

end Checked

/-- **Merging spans is a join.** Through `get?` it is associative, commutative and
idempotent, with `Span.unset` as its identity, and two set spans are merged to the least set
span over both. With each sum checked, a merged span can be shifted just if both sides can,
to what these are merged to; a shifted span is set as before and covers as many bytes; and
two shifts are one by the sum of their distances. -/
theorem merge_joins (s t u : Span) (delta more : Nat) :
    ((s.merge t).merge u).get? = (s.merge (t.merge u)).get? ∧
    (s.merge t).get? = (t.merge s).get? ∧
    (s.merge s).get? = s.get? ∧
    (Span.unset.merge s).get? = s.get? ∧ (s.merge Span.unset).get? = s.get? ∧
    (s.isSet = true → t.isSet = true → Span.IsHull s t (s.merge t)) ∧
    (∀ v, Checked.shift delta (s.merge t) = .ok v ↔
      (do
        let moved ← Checked.shift delta s
        let other ← Checked.shift delta t
        pure (moved.merge other)) = .ok v) ∧
    (∀ v, Checked.shift delta s = .ok v →
      v = s.shift delta ∧ v.isSet = s.isSet ∧ v.length = s.length ∧
        Checked.length v = Checked.length s) ∧
    (∀ total, Checked.sum delta more = .ok total → ∀ v,
      (Checked.shift delta s >>= Checked.shift more) = .ok v ↔ Checked.shift total s = .ok v) := by
  have hunset : Span.unset.interval = ⊥ := Span.interval_eq_bot Span.isSet_unset
  simp only [Span.get?_eq_iff, Span.interval_merge, Checked.bind_eq_ok_iff, Checked.pure_eq,
    Except.ok.injEq]
  refine ⟨sup_assoc _ _ _, sup_comm _ _, sup_idem _, ?_, ?_, Span.isHull_merge, ?_, ?_, ?_⟩
  · rw [hunset, bot_sup_eq]
  · rw [hunset, sup_bot_eq]
  · intro v
    simp only [Checked.shift_eq_ok_iff, Span.movable_merge, Span.shift_merge]
    constructor
    · rintro ⟨⟨hs, ht⟩, hv⟩
      exact ⟨_, ⟨hs, rfl⟩, _, ⟨ht, rfl⟩, hv⟩
    · rintro ⟨_, ⟨hs, rfl⟩, _, ⟨ht, rfl⟩, hv⟩
      exact ⟨⟨hs, ht⟩, hv⟩
  · intro v hv
    obtain ⟨-, rfl⟩ := Checked.shift_eq_ok_iff.mp hv
    exact ⟨rfl, s.isSet_shift delta, s.length_shift delta, Checked.length_shift delta s⟩
  · intro total htotal v
    obtain ⟨-, rfl⟩ := Checked.sum_eq_ok_iff.mp htotal
    simp only [Checked.shift_eq_ok_iff, ← Span.movable_shift, ← Span.shift_shift]
    constructor
    · rintro ⟨_, ⟨hs, rfl⟩, hmore, hv⟩
      exact ⟨⟨hs, hmore⟩, hv⟩
    · rintro ⟨⟨hs, hmore⟩, hv⟩
      exact ⟨_, ⟨hs, rfl⟩, hmore, hv⟩

/-- Two spans with a gap between them, moved ten bytes on. -/
theorem merge_joins_moved :
    (Span.mk 2 4).IsHull ⟨8, 9⟩ ⟨2, 9⟩ ∧
    Checked.shift 10 ((Span.mk 2 4).merge ⟨8, 9⟩) = .ok ⟨12, 19⟩ ∧
    (Checked.shift 10 ⟨2, 4⟩ >>= Checked.shift 5) = .ok ⟨17, 19⟩ := by
  obtain ⟨-, -, -, -, -, hhull, hmerge, -, hsum⟩ := merge_joins ⟨2, 4⟩ ⟨8, 9⟩ ⟨7, 3⟩ 10 5
  exact ⟨hhull rfl rfl, (hmerge _).mpr rfl, (hsum 15 rfl _).mpr rfl⟩

end ApiDoc
