import ApiDoc.Directive.Recogniser
import ApiDoc.Proofs.Text.Utf8
import Mathlib.Data.List.Basic

/-!
# Spelled keywords

`Spells word kind` says that a word is a keyword of a kind: an entry of the
table or a response code. Both readers of keywords are exact for it:

* **bisection** (`lookup?_eq_some_iff`) — the look-up finds a word iff the
  table holds it, because the table is sorted;
* **recognition** (`recognise_eq_found_iff`) — the recogniser finds a kind iff
  a spelled word stands there and the word ends behind it.

Both rest on the order of the table. The entries that start with `read` stand in one
run (`Narrows`), and the recogniser holds the bounds of this run after `read`. In a run
the next bytes ascend, so the partition points of the next byte cut the narrower run out
of it (`Narrows.feed?_cases`), and an entry that is read to its end stands first
(`Narrows.complete?_eq_some_iff`). One induction over the bytes then carries both
directions (`Narrows.run_eq_found_iff`).
-/

namespace ApiDoc.Keyword

/-- `word` is a keyword of this kind. -/
def Spells (word : List UInt8) (kind : Kind) : Prop :=
  (word, kind) ∈ entries ∨ (kind = .responseCode ∧ isCode word = true)

/-- Whether a keyword ends before these bytes. -/
def atBoundary : List UInt8 → Bool
  | [] => true
  | b :: _ => isBoundary b

/-! ## The table -/

theorem entries_sorted : entries.Pairwise fun a b => compare a.1 b.1 = .lt := by
  decide

/-- The table holds the spelling of every kind that has one. -/
theorem mem_entries_of_spelling? {kind : Kind} {text : String} (h : kind.spelling? = some text) :
    (Utf8.bytes text, kind) ∈ entries := by
  have key : ∀ k ∈ Kind.all, k.spelling?.all fun t => (Utf8.bytes t, k) ∈ entries := by decide
  have hall := key kind kind.mem_all
  rw [h] at hall
  exact of_decide_eq_true hall

theorem entries_letters : ∀ e ∈ entries,
    e.1 ≠ [] ∧ ∀ b ∈ e.1, Byte.isAlphanumeric b = true ∧ Byte.isDigit b = false := by
  have key : ∀ e ∈ entries,
      e.1 ≠ [] ∧ e.1.all (fun b => Byte.isAlphanumeric b && ! Byte.isDigit b) = true := by
    decide
  intro e he
  obtain ⟨hne, hall⟩ := key e he
  refine ⟨hne, ?_⟩
  intro b hb
  simpa using List.all_eq_true.mp hall b hb

theorem isBoundary_of_isAlphanumeric {b : UInt8} (h : Byte.isAlphanumeric b = true) :
    isBoundary b = false := by
  by_contra hb
  simp only [isBoundary, Byte.isBlank, Byte.isBreak, Bool.not_eq_false, Bool.or_eq_true,
    beq_iff_eq] at hb
  rcases hb with ((rfl | rfl | rfl) | rfl | rfl) | rfl <;> revert h <;> decide

theorem isDigit_of_isCodeLead {b : UInt8} (h : isCodeLead b = true) : Byte.isDigit b = true := by
  simp only [isCodeLead, Byte.isDigit, Bool.and_eq_true, decide_eq_true_eq,
    UInt8.le_iff_toNat_le] at h ⊢
  obtain ⟨h1, h2⟩ := h
  simp only [UInt8.toNat_ofNat] at h1 h2 ⊢
  omega

theorem isAlphanumeric_of_isDigit {b : UInt8} (h : Byte.isDigit b = true) :
    Byte.isAlphanumeric b = true := by
  simp [Byte.isAlphanumeric, h]

/-! ## Bisection -/

/-- What bisection finds is an entry with that word. -/
theorem bisect_sound {es : Array (List UInt8 × Kind)} {word : List UInt8} {lo hi : Nat}
    {bound : hi ≤ es.size} {kind : Kind} (h : bisect es word lo hi bound = some kind) :
    (word, kind) ∈ es := by
  fun_induction bisect es word lo hi bound with
  | case1 lo hi bound _ mid hmid heq =>
    have hword : es[mid].1 = word := Std.LawfulEqOrd.eq_of_compare heq
    have hkind : es[mid].2 = kind := Option.some.inj h
    rw [← hword, ← hkind]
    exact Array.getElem_mem hmid
  | case2 _ _ _ _ _ _ _ ih => exact ih h
  | case3 _ _ _ _ _ _ _ ih => exact ih h
  | case4 => cases h

/-- In a sorted table, bisection finds every entry between its bounds. -/
theorem bisect_complete {es : Array (List UInt8 × Kind)} {word : List UInt8} {lo hi i : Nat}
    {bound : hi ≤ es.size} (sorted : es.toList.Pairwise fun a b => compare a.1 b.1 = .lt)
    (hlo : lo ≤ i) (hhi : i < hi) {e : List UInt8 × Kind} (he : es[i]? = some e)
    (hword : e.1 = word) : bisect es word lo hi bound = some e.2 := by
  have lt_of_lt : ∀ {j k : Nat} (hj : j < es.size) (hk : k < es.size), j < k →
      compare es[j].1 es[k].1 = .lt := fun hj hk hjk =>
    List.pairwise_iff_getElem.mp sorted _ _ hj hk hjk
  have hisize : i < es.size := Nat.lt_of_lt_of_le hhi bound
  have hei : es[i] = e := by
    rw [Array.getElem?_eq_getElem hisize] at he
    exact Option.some.inj he
  fun_induction bisect es word lo hi bound with
  | case1 lo hi bound _ mid hmid heq =>
    -- an entry on either side of `mid` has a smaller or a greater word
    rcases Nat.lt_trichotomy i mid with hlt | rfl | hgt
    · have := lt_of_lt hisize hmid hlt
      rw [hei, hword, ← Std.LawfulEqOrd.eq_of_compare heq, Std.ReflOrd.compare_self] at this
      cases this
    · rw [hei]
    · have := lt_of_lt hmid hisize hgt
      rw [hei, hword, heq] at this
      cases this
  | case2 lo hi bound _ mid hmid hcmp ih =>
    -- the entry is not left of `mid`, nor `mid` itself
    refine ih ?_ hhi
    by_contra hle
    rcases Nat.lt_or_eq_of_le (Nat.le_of_not_lt hle) with hlt | rfl
    · have hgt := lt_of_lt hisize hmid hlt
      rw [hei, hword, Std.OrientedOrd.eq_swap, hcmp] at hgt
      cases hgt
    · rw [hei, hword, Std.ReflOrd.compare_self] at hcmp
      cases hcmp
  | case3 lo hi bound _ mid hmid hcmp ih =>
    refine ih hlo ?_
    by_contra hle
    rcases Nat.lt_or_eq_of_le (Nat.le_of_not_lt hle) with hlt | rfl
    · have hgt := lt_of_lt hmid hisize hlt
      rw [hei, hword, hcmp] at hgt
      cases hgt
    · rw [hei, hword, Std.ReflOrd.compare_self] at hcmp
      cases hcmp
  | case4 lo hi bound hlt => omega

/-- A word is found iff it is in the table. -/
theorem lookup?_eq_some_iff {word : List UInt8} {kind : Kind} :
    lookup? word = some kind ↔ (word, kind) ∈ entries := by
  constructor
  · intro h
    exact List.mem_toArray.mp (bisect_sound h)
  · intro h
    obtain ⟨i, hi, he⟩ := List.mem_iff_getElem.mp h
    have hget : entries.toArray[i]? = some (word, kind) := by
      rw [List.getElem?_toArray, List.getElem?_eq_getElem hi, he]
    exact bisect_complete entries_sorted (Nat.zero_le i) hi hget rfl

/-! ## Partition points -/

section Partition

variable {α : Type} {p : α → Bool} {xs : Array α} {lo hi : Nat} {bound : hi ≤ xs.size}

theorem partitionFrom_mem (hle : lo ≤ hi) :
    lo ≤ partitionFrom p xs lo hi bound ∧ partitionFrom p xs lo hi bound ≤ hi := by
  fun_induction partitionFrom p xs lo hi bound with
  | case1 lo hi bound hlt mid hmid hholds ih =>
    obtain ⟨hlo, hhi⟩ := ih (by omega)
    exact ⟨by omega, hhi⟩
  | case2 lo hi bound hlt mid hmid hfails ih =>
    obtain ⟨hlo, hhi⟩ := ih (by omega)
    exact ⟨hlo, by omega⟩
  | case3 lo hi bound hlt => exact ⟨Nat.le_refl lo, hle⟩

/-- The halves that are left out are decided by the element in the middle. -/
theorem lt_partitionFrom_iff {i : Nat} (h : i < xs.size) (hlo : lo ≤ i) (hhi : i < hi)
    (mono : ∀ j k (hj : j < xs.size) (hk : k < xs.size), j ≤ k → p xs[k] = true → p xs[j] = true) :
    i < partitionFrom p xs lo hi bound ↔ p xs[i] = true := by
  fun_induction partitionFrom p xs lo hi bound with
  | case1 lo hi bound hlt mid hmid hholds ih =>
    rcases Nat.lt_or_ge mid i with hafter | hbefore
    · exact ih hafter hhi
    · have hmem : mid + 1 ≤ partitionFrom p xs (mid + 1) hi bound :=
        (partitionFrom_mem (by omega)).1
      exact iff_of_true (by omega) (mono i mid h hmid hbefore hholds)
  | case2 lo hi bound hlt mid hmid hfails ih =>
    rcases Nat.lt_or_ge i mid with hbefore | hafter
    · exact ih hlo hbefore
    · have hmem : partitionFrom p xs lo mid (by omega) ≤ mid := (partitionFrom_mem (by omega)).2
      exact iff_of_false (by omega) fun hholds => hfails (mono mid i hmid h hafter hholds)
  | case3 lo hi bound hlt => omega

theorem partitionPoint_le : partitionPoint p xs ≤ xs.size :=
  (partitionFrom_mem (Nat.zero_le _)).2

/-- The point parts the elements that `p` holds of from the others. -/
theorem lt_partitionPoint_iff {i : Nat} (h : i < xs.size)
    (mono : ∀ j k (hj : j < xs.size) (hk : k < xs.size), j ≤ k → p xs[k] = true → p xs[j] = true) :
    i < partitionPoint p xs ↔ p xs[i] = true :=
  lt_partitionFrom_iff h (Nat.zero_le i) h mono

end Partition

/-! ## The order of words -/

theorem compare_append (read left right : List UInt8) :
    compare (read ++ left) (read ++ right) = compare left right := by
  induction read with
  | nil => rfl
  | cons b read ih =>
    rw [List.cons_append, List.cons_append, List.compare_cons_cons, Std.ReflOrd.compare_self, ih]
    rfl

/-- Of two words that go on from `read` in order, the next bytes are in order, too. -/
theorem next?_ascends {read word word' : List UInt8} (hword : read <+: word)
    (hword' : read <+: word') (hlt : compare word word' = .lt) {q : UInt8 → Bool}
    (hq : ∀ b c, b ≤ c → q c = true → q b = true) (h : word'[read.length]?.all q = true) :
    word[read.length]?.all q = true := by
  obtain ⟨left, rfl⟩ := hword
  obtain ⟨right, rfl⟩ := hword'
  rw [compare_append] at hlt
  rw [List.getElem?_append_right (Nat.le_refl _), Nat.sub_self] at h ⊢
  cases left with
  | nil => rfl
  | cons b left =>
    cases right with
    | nil => cases hlt
    | cons c right =>
      have hle : b ≤ c := by
        apply Std.isLE_compare.mp
        rw [List.compare_cons_cons] at hlt
        cases hbc : compare b c with
        | lt => rfl
        | eq => rfl
        | gt =>
          rw [hbc] at hlt
          cases hlt
      exact hq b c hle h

/-- The next byte is told by what comes before it. -/
theorem eq_some_iff_all {next : Option UInt8} {b : UInt8} :
    next = some b ↔ next.all (· ≤ b) = true ∧ ¬ next.all (· < b) = true := by
  cases next with
  | none => exact iff_of_false nofun fun h => h.2 rfl
  | some c =>
    simp only [Option.some.injEq, Option.all_some, decide_eq_true_eq]
    constructor
    · rintro rfl
      exact ⟨UInt8.le_refl c, UInt8.lt_irrefl c⟩
    · rintro ⟨hle, hlt⟩
      exact UInt8.le_antisymm hle (UInt8.not_lt.mp hlt)

theorem concat_prefix_iff {read word : List UInt8} {b : UInt8} :
    read ++ [b] <+: word ↔ read <+: word ∧ word[read.length]? = some b := by
  constructor
  · rintro ⟨left, rfl⟩
    rw [List.append_assoc]
    refine ⟨List.prefix_append _ _, ?_⟩
    rw [List.getElem?_append_right (Nat.le_refl _), Nat.sub_self]
    rfl
  · rintro ⟨⟨left, rfl⟩, hnext⟩
    rw [List.getElem?_append_right (Nat.le_refl _), Nat.sub_self] at hnext
    cases left with
    | nil => cases hnext
    | cons c left =>
      obtain rfl : c = b := Option.some.inj hnext
      exact ⟨left, List.append_assoc _ _ _⟩

/-- A word stands before all longer ones that start with it. -/
theorem compare_prefix_ne_lt {word longer : List UInt8} (h : word <+: longer) :
    compare longer word ≠ .lt := by
  obtain ⟨left, rfl⟩ := h
  have hsame := compare_append word left []
  rw [List.append_nil] at hsame
  rw [hsame]
  cases left <;> exact nofun

/-! ## Recognition of the table -/

namespace Progress

/-- The entries from `lo` up to `hi` are those that start with `read`. -/
def Narrows (read : List UInt8) (lo hi : Nat) : Prop :=
  ∀ i (h : i < entries.length), read <+: entries[i].1 ↔ lo ≤ i ∧ i < hi

variable {read : List UInt8} {lo hi : Nat} {b : UInt8} {kind : Kind}

theorem narrows_nil : Narrows [] 0 entries.length :=
  fun i h => iff_of_true List.nil_prefix ⟨Nat.zero_le i, h⟩

theorem size_between (lo hi : Nat) : (between lo hi).size = min hi entries.length - lo := by
  rw [between, Array.size_extract, List.size_toArray]

theorem getElem_between {i : Nat} (h : i < (between lo hi).size) :
    ∃ hlt : lo + i < entries.length, (between lo hi)[i] = entries[lo + i] ∧ lo + i < hi := by
  rw [size_between] at h
  refine ⟨by omega, ?_, by omega⟩
  simp only [between, Array.getElem_extract, List.getElem_toArray]

theorem finish_eq_found_iff {p : Progress} {bytes rest : List UInt8} {kind : Kind} :
    p.finish bytes = .found kind rest ↔ p.complete? = some kind ∧ bytes = rest := by
  unfold finish
  cases p.complete? with
  | none => simp
  | some k => simp

namespace Narrows

/-- In a run the next bytes ascend, so that those which `q` takes come first. -/
theorem point (h : Narrows read lo hi) {q : UInt8 → Bool}
    (hq : ∀ b c, b ≤ c → q c = true → q b = true) {i : Nat} (hlt : i < entries.length)
    (hread : read <+: entries[i].1) :
    i < lo + partitionPoint (fun e => e.1[read.length]?.all q) (between lo hi) ↔
      entries[i].1[read.length]?.all q = true := by
  have mono : ∀ j k (hj : j < (between lo hi).size) (hk : k < (between lo hi).size), j ≤ k →
      (between lo hi)[k].1[read.length]?.all q = true →
      (between lo hi)[j].1[read.length]?.all q = true := by
    intro j k hj hk hle hholds
    obtain ⟨hj', hgetj, hjhi⟩ := getElem_between hj
    obtain ⟨hk', hgetk, hkhi⟩ := getElem_between hk
    rw [hgetk] at hholds
    rw [hgetj]
    rcases Nat.lt_or_eq_of_le hle with hjk | rfl
    · have hfirst := (h _ hj').mpr ⟨Nat.le_add_right lo j, hjhi⟩
      have hsecond := (h _ hk').mpr ⟨Nat.le_add_right lo k, hkhi⟩
      have hsorted := List.pairwise_iff_getElem.mp entries_sorted _ _ hj' hk' (by omega)
      exact next?_ascends hfirst hsecond hsorted hq hholds
    · exact hholds
  obtain ⟨hlo, hhi⟩ := (h i hlt).mp hread
  obtain ⟨k, rfl⟩ := Nat.exists_eq_add_of_le hlo
  have hk : k < (between lo hi).size := by
    rw [size_between]
    omega
  obtain ⟨_, hget, -⟩ := getElem_between hk
  rw [Nat.add_lt_add_iff_left, ← hget]
  exact lt_partitionPoint_iff hk mono

/-- The partition points of the next byte cut out the run of the entries that go on with
it. -/
theorem concat (h : Narrows read lo hi) (b : UInt8) :
    Narrows (read ++ [b])
      (lo + partitionPoint (fun e => e.1[read.length]?.all (· < b)) (between lo hi))
      (lo + partitionPoint (fun e => e.1[read.length]?.all (· ≤ b)) (between lo hi)) := by
  have hdown : ∀ c d : UInt8, c ≤ d → decide (d < b) = true → decide (c < b) = true :=
    fun c d hcd hd => decide_eq_true (UInt8.lt_of_le_of_lt hcd (of_decide_eq_true hd))
  have hdown' : ∀ c d : UInt8, c ≤ d → decide (d ≤ b) = true → decide (c ≤ b) = true :=
    fun c d hcd hd => decide_eq_true (UInt8.le_trans hcd (of_decide_eq_true hd))
  intro i hlt
  rw [concat_prefix_iff]
  by_cases hread : read <+: entries[i].1
  · have hfirst := h.point hdown hlt hread
    have hstop := h.point hdown' hlt hread
    rw [and_iff_right hread, eq_some_iff_all, ← hfirst, ← hstop, Nat.not_lt]
    exact and_comm
  · refine iff_of_false (fun hnext => hread hnext.1) ?_
    rintro ⟨hfirst, hstop⟩
    have hle : partitionPoint (fun e => e.1[read.length]?.all (· ≤ b)) (between lo hi)
        ≤ min hi entries.length - lo := size_between lo hi ▸ partitionPoint_le
    exact hread ((h i hlt).mpr ⟨by omega, by omega⟩)

/-- A letter narrows the run, unless no entry goes on with it. -/
theorem feed?_cases (h : Narrows read lo hi) (hcode : ¬ (read.length = 0 ∧ isCodeLead b = true)) :
    ((letters lo hi read.length).feed? b = none ∧ ∀ e ∈ entries, ¬ read ++ [b] <+: e.1) ∨
      ∃ lo' hi', (letters lo hi read.length).feed? b = some (letters lo' hi' (read ++ [b]).length) ∧
        Narrows (read ++ [b]) lo' hi' := by
  rw [feed?, if_neg hcode]
  dsimp only
  have hnext := h.concat b
  generalize partitionPoint (fun e => e.1[read.length]?.all (· < b)) (between lo hi) = first at *
  generalize partitionPoint (fun e => e.1[read.length]?.all (· ≤ b)) (between lo hi) = stop at *
  by_cases hempty : first = stop
  · rw [if_pos hempty]
    refine .inl ⟨rfl, ?_⟩
    intro e he hpre
    obtain ⟨i, hi, rfl⟩ := List.mem_iff_getElem.mp he
    have hbetween := (hnext i hi).mp hpre
    omega
  · rw [if_neg hempty]
    refine .inr ⟨lo + first, lo + stop, ?_, hnext⟩
    rw [List.length_append, List.length_singleton]

/-- A word is complete iff it is in the table. -/
theorem complete?_eq_some_iff (h : Narrows read lo hi) (hread : read ≠ []) :
    (letters lo hi read.length).complete? = some kind ↔ (read, kind) ∈ entries := by
  have hdepth : 0 < read.length := List.length_pos_iff.mpr hread
  rw [complete?, List.getElem?_toArray]
  constructor
  · intro hcomplete
    split at hcomplete
    · rename_i hrun
      split at hcomplete
      · rename_i spelling k hget
        split at hcomplete
        · rename_i hlength
          obtain ⟨hlt, hget⟩ := List.getElem?_eq_some_iff.mp hget
          have hpre := (h lo hlt).mpr ⟨Nat.le_refl lo, hrun.2⟩
          rw [hget] at hpre
          have hword : read = spelling := hpre.eq_of_length hlength.symm
          rw [hword, ← Option.some.inj hcomplete, ← hget]
          exact List.getElem_mem hlt
        · cases hcomplete
      · cases hcomplete
    · cases hcomplete
  · intro hmem
    obtain ⟨i, hlt, hget⟩ := List.mem_iff_getElem.mp hmem
    have hword : entries[i].1 = read := congrArg Prod.fst hget
    obtain ⟨hlo, hhi⟩ := (h i hlt).mp (hword ▸ List.prefix_refl _)
    -- a smaller entry that starts with the word would stand before the word
    have hfirst : lo = i := by
      rcases Nat.lt_or_eq_of_le hlo with hsmaller | heq
      · have hlolt : lo < entries.length := Nat.lt_trans hsmaller hlt
        have hpre := (h lo hlolt).mpr ⟨Nat.le_refl lo, Nat.lt_of_le_of_lt hlo hhi⟩
        have hsorted := List.pairwise_iff_getElem.mp entries_sorted lo i hlolt hlt hsmaller
        rw [hget] at hsorted
        exact absurd hsorted (compare_prefix_ne_lt hpre)
      · exact heq
    rw [if_pos ⟨hdepth, Nat.lt_of_le_of_lt hlo hhi⟩, hfirst, List.getElem?_eq_getElem hlt, hget]
    exact if_pos rfl

/-- Past its first byte the recogniser finds exactly the entries that go on from what was
read. -/
theorem run_eq_found_iff (h : Narrows read lo hi) (hread : read ≠ []) {bytes rest : List UInt8} :
    (letters lo hi read.length).run bytes = .found kind rest ↔
      ∃ more, bytes = more ++ rest ∧ (read ++ more, kind) ∈ entries ∧ atBoundary rest = true := by
  induction bytes generalizing read lo hi with
  | nil =>
    rw [run, finish_eq_found_iff, h.complete?_eq_some_iff hread]
    constructor
    · rintro ⟨hmem, rfl⟩
      exact ⟨[], rfl, by rwa [List.append_nil], rfl⟩
    · rintro ⟨more, hnil, hmem, -⟩
      obtain ⟨rfl, rfl⟩ := List.append_eq_nil_iff.mp hnil.symm
      exact ⟨by rwa [List.append_nil] at hmem, rfl⟩
  | cons b tail ih =>
    cases hb : isBoundary b with
    | true =>
      rw [run, if_pos hb, finish_eq_found_iff, h.complete?_eq_some_iff hread]
      constructor
      · rintro ⟨hmem, rfl⟩
        exact ⟨[], rfl, by rwa [List.append_nil], hb⟩
      · rintro ⟨more, hsplit, hmem, -⟩
        cases more with
        | nil => exact ⟨by rwa [List.append_nil] at hmem, hsplit⟩
        | cons c more =>
          -- a boundary is no letter, so it cannot stand in a word
          obtain ⟨rfl, -⟩ := List.cons.inj hsplit
          have := isBoundary_of_isAlphanumeric ((entries_letters _ hmem).2 b (by simp)).1
          rw [hb] at this
          cases this
    | false =>
      have hstep : (∃ more, b :: tail = more ++ rest ∧ (read ++ more, kind) ∈ entries
            ∧ atBoundary rest = true) ↔
          ∃ more, tail = more ++ rest ∧ ((read ++ [b]) ++ more, kind) ∈ entries
            ∧ atBoundary rest = true := by
        constructor
        · rintro ⟨more, hsplit, hmem, hend⟩
          cases more with
          | nil =>
            rw [List.nil_append] at hsplit
            rw [← hsplit, atBoundary, hb] at hend
            cases hend
          | cons c more =>
            obtain ⟨rfl, htail⟩ := List.cons.inj hsplit
            exact ⟨more, htail, by rwa [List.append_assoc, List.singleton_append], hend⟩
        · rintro ⟨more, rfl, hmem, hend⟩
          exact ⟨b :: more, rfl, by rwa [List.append_assoc, List.singleton_append] at hmem, hend⟩
      have hcode : ¬ (read.length = 0 ∧ isCodeLead b = true) :=
        fun hlead => hread (List.length_eq_zero_iff.mp hlead.1)
      rw [hstep, run, if_neg (by simp [hb])]
      rcases h.feed?_cases hcode with ⟨hnone, hleft⟩ | ⟨lo', hi', hsome, hnext⟩
      · rw [hnone]
        constructor
        · intro hfound
          cases hfound
        · rintro ⟨more, -, hmem, -⟩
          exact absurd (List.prefix_append _ _) (hleft _ hmem)
      · rw [hsome]
        exact ih hnext (by simp)

end Narrows

/-! ## Recognition of response codes -/

/-- Past its first digit the recogniser finds exactly the codes that go on
from there. -/
theorem run_digits {count : Nat} (hcount : count ≤ 3) {bytes rest : List UInt8} {kind : Kind} :
    (digits count).run bytes = .found kind rest ↔ kind = .responseCode ∧
      ∃ more, bytes = more ++ rest ∧ count + more.length = 3 ∧ more.all Byte.isDigit = true
        ∧ atBoundary rest = true := by
  have hcomplete : ∀ {n : Nat} {k : Kind}, (digits n).complete? = some k ↔
      n = 3 ∧ k = .responseCode := by
    intro n k
    unfold complete?
    split
    · rename_i h
      cases h
    · rename_i h
      cases h
      simp [eq_comm]
    · rename_i hne h
      cases h
      simp only [reduceCtorEq, false_iff, not_and]
      intro h3
      exact absurd rfl (h3 ▸ hne)
  induction bytes generalizing count with
  | nil =>
    rw [run, finish_eq_found_iff, hcomplete]
    constructor
    · rintro ⟨⟨rfl, rfl⟩, rfl⟩
      exact ⟨rfl, [], rfl, rfl, rfl, rfl⟩
    · rintro ⟨rfl, more, hnil, hlen, -, -⟩
      obtain ⟨rfl, rfl⟩ := List.append_eq_nil_iff.mp hnil.symm
      exact ⟨⟨hlen, rfl⟩, rfl⟩
  | cons b tail ih =>
    cases hb : isBoundary b with
    | true =>
      rw [run, if_pos hb, finish_eq_found_iff, hcomplete]
      constructor
      · rintro ⟨⟨rfl, rfl⟩, rfl⟩
        exact ⟨rfl, [], rfl, rfl, rfl, hb⟩
      · rintro ⟨rfl, more, hsplit, hlen, hall, -⟩
        cases more with
        | nil => exact ⟨⟨hlen, rfl⟩, hsplit⟩
        | cons c more =>
          obtain ⟨rfl, -⟩ := List.cons.inj hsplit
          have hdigit := List.all_eq_true.mp hall b List.mem_cons_self
          rw [isBoundary_of_isAlphanumeric (isAlphanumeric_of_isDigit hdigit)] at hb
          cases hb
    | false =>
      rw [run, if_neg (by simp [hb])]
      simp only [feed?]
      by_cases hnext : count < 3 ∧ Byte.isDigit b = true
      · rw [if_pos hnext]
        have hcount' : count + 1 ≤ 3 := by omega
        refine (ih hcount').trans ?_
        constructor
        · rintro ⟨rfl, more, rfl, hlen, hall, hend⟩
          refine ⟨rfl, b :: more, rfl, ?_, ?_, hend⟩
          · simp only [List.length_cons]
            omega
          · simp [hnext.2, hall]
        · rintro ⟨rfl, more, hsplit, hlen, hall, hend⟩
          cases more with
          | nil =>
            simp only [List.length_nil] at hlen
            omega
          | cons c more =>
            obtain ⟨rfl, htail⟩ := List.cons.inj hsplit
            simp only [List.length_cons, List.all_cons, Bool.and_eq_true] at hlen hall
            exact ⟨rfl, more, htail, by omega, hall.2, hend⟩
      · rw [if_neg hnext]
        constructor
        · intro h
          cases h
        · rintro ⟨rfl, more, hsplit, hlen, hall, hend⟩
          exfalso
          cases more with
          | nil =>
            rw [List.nil_append] at hsplit
            rw [← hsplit, atBoundary, hb] at hend
            cases hend
          | cons c more =>
            obtain ⟨rfl, -⟩ := List.cons.inj hsplit
            simp only [List.length_cons, List.all_cons, Bool.and_eq_true] at hlen hall
            exact hnext ⟨by omega, hall.1⟩

end Progress

/-! ## Recognition -/

theorem isCode_cons_iff {b : UInt8} {more : List UInt8} :
    isCode (b :: more) = true ↔
      isCodeLead b = true ∧ more.length = 2 ∧ more.all Byte.isDigit = true := by
  match more with
  | [] => simp [isCode]
  | [_] => simp [isCode]
  | [c, d] => simp [isCode, opensCode, and_assoc]
  | _ :: _ :: _ :: _ => simp [isCode]

theorem Spells.ne_nil {word : List UInt8} {kind : Kind} (h : Spells word kind) : word ≠ [] := by
  rcases h with h | ⟨-, h⟩
  · exact (entries_letters _ h).1
  · rintro rfl
    cases h

/-- A keyword consists of letters and digits. -/
theorem Spells.isAlphanumeric {word : List UInt8} {kind : Kind} (h : Spells word kind) :
    ∀ b ∈ word, Byte.isAlphanumeric b = true := by
  intro b hb
  rcases h with h | ⟨-, h⟩
  · exact ((entries_letters _ h).2 b hb).1
  · obtain ⟨c, more, rfl⟩ := List.exists_cons_of_ne_nil (List.ne_nil_of_mem hb)
    obtain ⟨hlead, -, hall⟩ := isCode_cons_iff.mp h
    rcases List.mem_cons.mp hb with rfl | hb
    · exact isAlphanumeric_of_isDigit (isDigit_of_isCodeLead hlead)
    · exact isAlphanumeric_of_isDigit (List.all_eq_true.mp hall b hb)

/-- The recogniser finds a kind iff one of its keywords stands there and ends
there. -/
theorem recognise_eq_found_iff {bytes rest : List UInt8} {kind : Kind} :
    recognise bytes = .found kind rest ↔
      ∃ word, bytes = word ++ rest ∧ Spells word kind ∧ atBoundary rest = true := by
  rw [recognise]
  cases bytes with
  | nil =>
    rw [Progress.run, Progress.finish_eq_found_iff, Progress.complete?_start]
    constructor
    · rintro ⟨h, -⟩
      cases h
    · rintro ⟨word, hnil, hspells, -⟩
      exact absurd (List.append_eq_nil_iff.mp hnil.symm).1 hspells.ne_nil
  | cons b tail =>
    -- the first byte decides between the table and the codes
    have hsplit : (∃ word, b :: tail = word ++ rest ∧ Spells word kind ∧ atBoundary rest = true) ↔
        ∃ more, tail = more ++ rest ∧ Spells (b :: more) kind ∧ atBoundary rest = true := by
      constructor
      · rintro ⟨word, hword, hspells, hend⟩
        obtain ⟨c, more, rfl⟩ := List.exists_cons_of_ne_nil hspells.ne_nil
        obtain ⟨rfl, htail⟩ := List.cons.inj hword
        exact ⟨more, htail, hspells, hend⟩
      · rintro ⟨more, rfl, hspells, hend⟩
        exact ⟨b :: more, rfl, hspells, hend⟩
    rw [hsplit]
    by_cases hb : isBoundary b = true
    · rw [Progress.run, if_pos hb, Progress.finish_eq_found_iff, Progress.complete?_start]
      constructor
      · rintro ⟨h, -⟩
        cases h
      · rintro ⟨more, -, hspells, -⟩
        have := isBoundary_of_isAlphanumeric (hspells.isAlphanumeric b List.mem_cons_self)
        rw [hb] at this
        cases this
    · rw [Progress.run, if_neg hb]
      by_cases hlead : isCodeLead b = true
      · have hcode : Progress.start.feed? b = some (.digits 1) := if_pos ⟨rfl, hlead⟩
        rw [hcode]
        dsimp only
        rw [Progress.run_digits (by omega)]
        constructor
        · rintro ⟨rfl, more, rfl, hlen, hall, hend⟩
          exact ⟨more, rfl, .inr ⟨rfl, isCode_cons_iff.mpr ⟨hlead, by omega, hall⟩⟩, hend⟩
        · rintro ⟨more, rfl, hmem | ⟨rfl, hcode⟩, hend⟩
          · have := ((entries_letters _ hmem).2 b List.mem_cons_self).2
            rw [isDigit_of_isCodeLead hlead] at this
            cases this
          · obtain ⟨-, hlen, hall⟩ := isCode_cons_iff.mp hcode
            exact ⟨rfl, more, rfl, by omega, hall, hend⟩
      · have hnotLead : ¬ (([] : List UInt8).length = 0 ∧ isCodeLead b = true) :=
          fun h => hlead h.2
        have hnotCode : ∀ more, isCode (b :: more) ≠ true :=
          fun more h => hlead (isCode_cons_iff.mp h).1
        rcases Progress.narrows_nil.feed?_cases hnotLead with
          ⟨hnone, hleft⟩ | ⟨lo, hi, hsome, hnext⟩
        · have hstuck : Progress.start.feed? b = none := hnone
          rw [hstuck]
          constructor
          · intro hfound
            cases hfound
          · rintro ⟨more, -, hmem | ⟨-, hcode⟩, -⟩
            · exact absurd (List.prefix_append [b] more) (hleft _ hmem)
            · exact absurd hcode (hnotCode more)
        · have hfed : Progress.start.feed? b = some (.letters lo hi [b].length) := hsome
          rw [hfed]
          refine (hnext.run_eq_found_iff (List.cons_ne_nil b [])).trans ?_
          constructor
          · rintro ⟨more, rfl, hmem, hend⟩
            exact ⟨more, rfl, .inl hmem, hend⟩
          · rintro ⟨more, rfl, hmem | ⟨-, hcode⟩, hend⟩
            · exact ⟨more, rfl, hmem, hend⟩
            · exact absurd hcode (hnotCode more)

/-! ## Words -/

theorem lt_of_isAlphanumeric {b : UInt8} (h : Byte.isAlphanumeric b = true) : b < 0x80 := by
  simp only [Byte.isAlphanumeric, Byte.isDigit, Bool.or_eq_true, Bool.and_eq_true,
    decide_eq_true_eq, UInt8.le_iff_toNat_le] at h
  rw [UInt8.lt_iff_toNat_lt]
  simp only [UInt8.toNat_ofNat] at h ⊢
  omega

/-- No entry of the table is a response code. -/
theorem lookup?_of_isCode {word : List UInt8} (h : isCode word = true) : lookup? word = none := by
  cases hl : lookup? word with
  | none => rfl
  | some kind =>
    obtain ⟨-, hletters⟩ := entries_letters _ (lookup?_eq_some_iff.mp hl)
    match word, h with
    | b :: more, h =>
      have hlead := (isCode_cons_iff.mp h).1
      have hdigit := (hletters b List.mem_cons_self).2
      rw [isDigit_of_isCodeLead hlead] at hdigit
      cases hdigit

/-- A spelled word is classified by its kind. -/
theorem Spells.classify? {word : List UInt8} {kind : Kind} (h : Spells word kind) :
    classify? (Utf8.lossy word) = some kind := by
  have hascii : Utf8.bytes (Utf8.lossy word) = word :=
    Utf8.bytes_lossy_of_ascii fun b hb => lt_of_isAlphanumeric (h.isAlphanumeric b hb)
  rw [Keyword.classify?, hascii]
  rcases h with hmem | ⟨rfl, hcode⟩
  · rw [lookup?_eq_some_iff.mpr hmem]
    rfl
  · rw [lookup?_of_isCode hcode]
    simp [hcode]

/-! ## Lines -/

/-- A line opens a directive iff a spelled word stands there and ends. -/
theorem opensDirective_iff {bytes : List UInt8} :
    opensDirective bytes = true ↔
      ∃ word kind rest, bytes = word ++ rest ∧ Spells word kind ∧ endsWord rest = true := by
  simp only [opensDirective, Bool.or_eq_true, Bool.and_eq_true, List.any_eq_true,
    List.isPrefixOf_iff_prefix]
  constructor
  · rintro (⟨hcode, hends⟩ | ⟨⟨word, kind⟩, hmem, ⟨rest, rfl⟩, hends⟩)
    · match bytes, hcode with
      | a :: b :: c :: rest, hcode =>
        exact ⟨[a, b, c], .responseCode, rest, rfl, .inr ⟨rfl, hcode⟩, hends⟩
    · refine ⟨word, kind, rest, rfl, .inl hmem, ?_⟩
      rwa [List.drop_left] at hends
  · rintro ⟨word, kind, rest, rfl, hmem | ⟨-, hcode⟩, hends⟩
    · refine .inr ⟨(word, kind), hmem, List.prefix_append word rest, ?_⟩
      rwa [List.drop_left]
    · match word, hcode with
      | [a, b, c], hcode => exact .inl ⟨hcode, hends⟩

end ApiDoc.Keyword
