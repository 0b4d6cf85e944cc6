import ApiDoc.Text.Line
import Mathlib.Data.List.DropRight
import Mathlib.Data.List.TakeWhile

/-!
# Lines partition a source

Line numbers count dominant breaks, line bounds look for the nearest ones. Both come
from one division of the source: a line runs from behind one dominant break up to the
next.

* **Lines** (`IsLine`): a line holds no dominant break and stands between two, or at an
  end of the source. Lines that share an offset are the same (`IsLine.unique`).
* **Look-up** (`isLine_at`): the line found for an offset is the one it stands on.
* **Numbers** (`lineNumber_eq_iff`): two offsets have the same number iff no dominant
  break stands between them.
* **Bounds** (`IsLine.untrimmed`): of the bytes of a line only a paired break at either
  side is left out.
* **Partition** (`lines_partition`): numbers and bounds tell the same lines apart, the
  lines are in order, and what is in none of them is a break.
-/

namespace ApiDoc

theorem Byte.pairedBreak_ne (b : UInt8) : pairedBreak b ≠ b := by
  rw [pairedBreak]
  split
  · rename_i h
    rw [beq_iff_eq.mp h]
    decide
  · rename_i h
    intro heq
    exact h (beq_iff_eq.mpr heq.symm)

theorem Byte.isBreak_pairedBreak (b : UInt8) : isBreak (pairedBreak b) = true := by
  rw [pairedBreak]
  split <;> rfl

namespace Source

variable {s : Source} {a b a' b' i offset offset' : Nat}

/-! ## Lines -/

/-- The bytes from `start` up to `stop` are what stands between two dominant breaks, or
between one and an end of the source. -/
structure IsLine (s : Source) (start stop : Nat) : Prop where
  le : start ≤ stop
  le_length : stop ≤ s.length
  plain : ∀ i, start ≤ i → i < stop → s.byte? i ≠ some s.dominantBreak
  opens : start = 0 ∨ ∃ j, start = j + 1 ∧ s.byte? j = some s.dominantBreak
  closes : stop = s.length ∨ s.byte? stop = some s.dominantBreak

namespace IsLine

/-- What starts behind the start of a line starts behind its end. -/
theorem stop_lt (h : s.IsLine a b) (k : s.IsLine a' b') (hlt : a < a') : b < a' := by
  rcases k.opens with rfl | ⟨j, rfl, hj⟩
  · exact absurd hlt (Nat.not_lt_zero a)
  · by_contra hle
    exact h.plain j (by omega) (by omega) hj

/-- A line that ends before another ends starts before it does. -/
theorem stop_lt_start (h : s.IsLine a b) (k : s.IsLine a' b') (hlt : b < b') : b < a' := by
  rcases h.closes with rfl | hb
  · exact absurd k.le_length (by omega)
  · by_contra hle
    exact k.plain b (by omega) hlt hb

/-- Lines that share an offset are the same. -/
theorem unique (h : s.IsLine a b) (k : s.IsLine a' b') (ha : a ≤ offset) (hb : offset ≤ b)
    (ha' : a' ≤ offset) (hb' : offset ≤ b') : a = a' ∧ b = b' := by
  have hstart : ¬ a < a' := fun hlt => by
    have := h.stop_lt k hlt
    omega
  have hstart' : ¬ a' < a := fun hlt => by
    have := k.stop_lt h hlt
    omega
  have hstop : ¬ b < b' := fun hlt => by
    have := h.stop_lt_start k hlt
    omega
  have hstop' : ¬ b' < b := fun hlt => by
    have := k.stop_lt_start h hlt
    omega
  omega

/-- Bytes without a dominant break are a line, if one stands on either side of them. -/
theorem of_split {front line back : List UInt8} (hbytes : s.bytes = front ++ line ++ back)
    (hopens : front = [] ∨ front.getLast? = some s.dominantBreak)
    (hplain : ∀ b ∈ line, b ≠ s.dominantBreak)
    (hcloses : back = [] ∨ back.head? = some s.dominantBreak) :
    s.IsLine front.length (front.length + line.length) where
  le := Nat.le_add_right _ _
  le_length := by
    rw [length, hbytes, List.length_append, List.length_append]
    exact Nat.le_add_right _ _
  plain i hi hlt hbyte := by
    rw [byte?, hbytes, List.getElem?_append_left (by rwa [List.length_append]),
      List.getElem?_append_right hi] at hbyte
    exact hplain _ (List.mem_of_getElem? hbyte) rfl
  opens := by
    rcases hopens with rfl | hlast
    · exact .inl rfl
    · obtain ⟨more, rfl⟩ := List.getLast?_eq_some_iff.mp hlast
      refine .inr ⟨more.length, List.length_append, ?_⟩
      rw [byte?, hbytes, List.append_assoc, List.append_assoc,
        List.getElem?_append_right (Nat.le_refl _), Nat.sub_self]
      rfl
  closes := by
    rcases hcloses with rfl | hhead
    · left
      rw [length, hbytes, List.append_nil, List.length_append]
    · obtain ⟨more, rfl⟩ := List.head?_eq_some_iff.mp hhead
      right
      rw [← List.length_append, byte?, hbytes, List.getElem?_append_right (Nat.le_refl _),
        Nat.sub_self]
      rfl

end IsLine

/-! ## Look-up -/

/-- Offsets past the end are on the line of the end. -/
theorem take_clamp (s : Source) (offset : Nat) :
    s.bytes.take (min offset s.length) = s.bytes.take offset :=
  List.take_eq_take_min.symm

theorem lineNumber_clamp (s : Source) (offset : Nat) :
    s.lineNumber (min offset s.length) = s.lineNumber offset := by
  rw [lineNumber, take_clamp, lineNumber]

theorem lineStart_clamp (s : Source) (offset : Nat) :
    s.lineStart (min offset s.length) = s.lineStart offset := by
  rw [lineStart, take_clamp, lineStart]

theorem lineStop_clamp (s : Source) (offset : Nat) :
    s.lineStop (min offset s.length) = s.lineStop offset := by
  have hdrop : s.bytes.drop (min offset s.length) = s.bytes.drop offset := by
    rcases Nat.le_total offset s.length with hle | hle
    · rw [Nat.min_eq_left hle]
    · rw [Nat.min_eq_right hle, List.drop_eq_nil_of_le hle]
      exact List.drop_length
  rw [lineStop, hdrop, Nat.min_assoc, Nat.min_self, lineStop]

theorem lineBounds_clamp (s : Source) (offset : Nat) :
    s.lineBounds (min offset s.length) = s.lineBounds offset := by
  simp only [lineBounds, lineStart_clamp, lineStop_clamp]

/-- Looking back for a break stops behind one, or at the start. -/
theorem opens_rdropWhile (d : UInt8) (bytes : List UInt8) :
    bytes.rdropWhile (· != d) = [] ∨ (bytes.rdropWhile (· != d)).getLast? = some d := by
  by_cases hne : bytes.rdropWhile (· != d) = []
  · exact .inl hne
  · rw [List.getLast?_eq_some_getLast hne]
    exact .inr (by simpa using List.rdropWhile_last_not (· != d) _ hne)

/-- Looking for one onwards stops before it, or at the end. -/
theorem closes_dropWhile (d : UInt8) (bytes : List UInt8) :
    bytes.dropWhile (· != d) = [] ∨ (bytes.dropWhile (· != d)).head? = some d := by
  have hstop := List.head?_dropWhile_not (· != d) bytes
  cases hback : bytes.dropWhile (· != d) with
  | nil => exact .inl rfl
  | cons b tail => exact .inr (by simpa [hback] using hstop)

/-- The line found for an offset is a line, and the offset stands on it. -/
theorem isLine_at (hoffset : offset ≤ s.length) :
    s.IsLine (s.lineStart offset) (s.lineStop offset) ∧ s.lineStart offset ≤ offset ∧
      offset ≤ s.lineStop offset := by
  let p : UInt8 → Bool := (· != s.dominantBreak)
  let front := (s.bytes.take offset).rdropWhile p
  let before := (s.bytes.take offset).rtakeWhile p
  let behind := (s.bytes.drop offset).takeWhile p
  let back := (s.bytes.drop offset).dropWhile p
  have htake : s.bytes.take offset = front ++ before := List.rdropWhile_append_rtakeWhile.symm
  have hbytes : s.bytes = front ++ (before ++ behind) ++ back := by
    rw [← List.append_assoc, ← htake, List.append_assoc, List.takeWhile_append_dropWhile,
      List.take_append_drop]
  have hplain : ∀ b ∈ before ++ behind, b ≠ s.dominantBreak := by
    intro b hb
    rcases List.mem_append.mp hb with hb | hb
    · simpa [p] using List.mem_rtakeWhile_imp hb
    · simpa [p] using List.mem_takeWhile_imp hb
  have hoffset' : front.length + before.length = offset := by
    rw [← List.length_append, ← htake, List.length_take]
    exact Nat.min_eq_left hoffset
  have hstart : s.lineStart offset = front.length := by
    have hbefore : ((s.bytes.take offset).reverse.takeWhile p).length = before.length :=
      List.length_reverse.symm
    show (s.bytes.take offset).length - ((s.bytes.take offset).reverse.takeWhile p).length = _
    rw [hbefore, htake, List.length_append, Nat.add_sub_cancel]
  have hstop : s.lineStop offset = front.length + (before ++ behind).length := by
    show min offset s.length + behind.length = _
    rw [Nat.min_eq_left hoffset, List.length_append, ← Nat.add_assoc, hoffset']
  rw [hstart, hstop]
  refine ⟨.of_split hbytes (opens_rdropWhile _ _) hplain (closes_dropWhile _ _), ?_, ?_⟩
  · omega
  · rw [List.length_append]
    omega

/-- So the line of an offset is found where it stands. -/
theorem IsLine.found (h : s.IsLine a b) (ha : a ≤ offset) (hb : offset ≤ b) :
    s.lineStart offset = a ∧ s.lineStop offset = b := by
  obtain ⟨hline, hstart, hstop⟩ := isLine_at (Nat.le_trans hb h.le_length)
  exact hline.unique h hstart hstop ha hb

/-! ## Numbers -/

theorem lineNumber_mono (s : Source) (h : offset ≤ offset') :
    s.lineNumber offset ≤ s.lineNumber offset' := by
  have hsub : (s.bytes.take offset).Sublist (s.bytes.take offset') :=
    List.take_sublist_take_left h
  exact Nat.succ_le_succ (hsub.count_le _)

/-- Two offsets have the same number iff no dominant break stands between them. -/
theorem lineNumber_eq_iff (h : offset ≤ offset') :
    s.lineNumber offset = s.lineNumber offset' ↔
      ∀ i, offset ≤ i → i < offset' → s.byte? i ≠ some s.dominantBreak := by
  have hsplit : s.bytes.take offset'
      = s.bytes.take offset ++ (s.bytes.drop offset).take (offset' - offset) := by
    rw [← List.take_add, Nat.add_sub_cancel' h]
  have hcount : s.lineNumber offset' = s.lineNumber offset
      + ((s.bytes.drop offset).take (offset' - offset)).count s.dominantBreak := by
    rw [lineNumber, hsplit, List.count_append, lineNumber]
    omega
  rw [hcount, Nat.left_eq_add, List.count_eq_zero, List.mem_iff_getElem?]
  constructor
  · intro hnone i hi hlt hbyte
    refine hnone ⟨i - offset, ?_⟩
    rw [List.getElem?_take_of_lt (by omega), List.getElem?_drop, Nat.add_sub_cancel' hi]
    exact hbyte
  · rintro hnone ⟨k, hk⟩
    rw [List.getElem?_take] at hk
    split at hk
    · rw [List.getElem?_drop] at hk
      exact hnone (offset + k) (by omega) (by omega) hk
    · cases hk

/-- Offsets of the same number stand on the same line. -/
theorem lineEnds_of_lineNumber (hle : offset ≤ offset') (hoffset : offset' ≤ s.length)
    (h : s.lineNumber offset = s.lineNumber offset') :
    s.lineStart offset = s.lineStart offset' ∧ s.lineStop offset = s.lineStop offset' := by
  obtain ⟨hline, hstart, hstop⟩ := isLine_at (Nat.le_trans hle hoffset)
  have hreach : offset' ≤ s.lineStop offset := by
    by_contra hlt
    rcases hline.closes with hend | hbreak
    · omega
    · exact (lineNumber_eq_iff hle).mp h _ hstop (by omega) hbreak
  obtain ⟨hstart', hstop'⟩ := hline.found (Nat.le_trans hstart hle) hreach
  exact ⟨hstart'.symm, hstop'.symm⟩

/-- An offset of a greater number stands on a line further down. -/
theorem lineStop_lt_of_lineNumber (hoffset : offset ≤ s.length) (hoffset' : offset' ≤ s.length)
    (h : s.lineNumber offset < s.lineNumber offset') :
    s.lineStop offset < s.lineStart offset' := by
  obtain ⟨hline, hstart, hstop⟩ := isLine_at hoffset
  obtain ⟨hline', hstart', hstop'⟩ := isLine_at hoffset'
  have hle : offset ≤ offset' := by
    by_contra hlt
    have := lineNumber_mono s (Nat.le_of_not_le hlt)
    omega
  -- a dominant break stands between the offsets, and so between the lines
  obtain ⟨i, hi, hlt, hbyte⟩ : ∃ i, offset ≤ i ∧ i < offset' ∧
      s.byte? i = some s.dominantBreak := by
    by_contra hnone
    have hsame := (lineNumber_eq_iff (s := s) hle).mpr fun i hi hlt hbyte =>
      hnone ⟨i, hi, hlt, hbyte⟩
    omega
  have hbefore : s.lineStop offset ≤ i := by
    by_contra hover
    exact hline.plain i (by omega) (by omega) hbyte
  have hbehind : i < s.lineStart offset' := by
    by_contra hover
    exact hline'.plain i (by omega) (by omega) hbyte
  omega

/-! ## Bounds -/

theorem pairedAt_iff : s.pairedAt i = true ↔
    s.byte? i = some (Byte.pairedBreak s.dominantBreak) := by
  rw [pairedAt, beq_iff_eq]

theorem isBreak_dominantBreak (s : Source) : Byte.isBreak s.dominantBreak = true := by
  rw [dominantBreak]
  cases hfind : s.bytes.find? Byte.isBreak with
  | none => rfl
  | some d => exact List.find?_some hfind

/-- A paired break is not the dominant one. -/
theorem not_dominant_of_pairedAt (h : s.pairedAt i = true) :
    s.byte? i ≠ some s.dominantBreak := by
  rw [pairedAt_iff.mp h]
  intro heq
  exact Byte.pairedBreak_ne _ (Option.some.inj heq)

theorem lt_length_of_byte? {b : UInt8} (h : s.byte? i = some b) : i < s.length :=
  (List.getElem?_eq_some_iff.mp h).1

/-- No source starts with the paired break, for its first break is the dominant one. -/
theorem not_pairedAt_zero (s : Source) : ¬ s.pairedAt 0 = true := by
  intro h
  rw [pairedAt_iff, byte?] at h
  obtain ⟨tail, hbytes⟩ : ∃ tail, s.bytes = Byte.pairedBreak s.dominantBreak :: tail :=
    List.head?_eq_some_iff.mp (List.head?_eq_getElem?.trans h)
  have hbreak := Byte.isBreak_pairedBreak s.dominantBreak
  have hdominant : s.dominantBreak = Byte.pairedBreak s.dominantBreak := by
    conv_lhs => rw [dominantBreak, hbytes, List.find?_cons_of_pos hbreak]
    rfl
  exact Byte.pairedBreak_ne _ hdominant.symm

/-- A paired break at the start of a line is part of it. -/
theorem IsLine.lt_of_pairedAt (h : s.IsLine a b) (hpaired : s.pairedAt a = true) : a < b := by
  refine Nat.lt_of_le_of_ne h.le ?_
  rintro rfl
  rcases h.closes with hend | hbreak
  · have := lt_length_of_byte? (pairedAt_iff.mp hpaired)
    omega
  · exact not_dominant_of_pairedAt hpaired hbreak

/-- The bounds of a line are its ends, or a paired break at an end is left out. -/
structure Trims (s : Source) (start stop : Nat) (bounds : LineBounds) : Prop where
  first : bounds.first = start ∧ ¬ s.pairedAt start = true ∨
    bounds.first = start + 1 ∧ s.pairedAt start = true
  stop : bounds.stop = stop ∨ bounds.stop + 1 = stop ∧ s.pairedAt bounds.stop = true
  le : bounds.first ≤ bounds.stop

theorem trims_lineBounds (h : s.IsLine (s.lineStart offset) (s.lineStop offset)) :
    s.Trims (s.lineStart offset) (s.lineStop offset) (s.lineBounds offset) := by
  have hle := h.le
  have hlt := h.lt_of_pairedAt
  dsimp only [lineBounds]
  generalize s.lineStart offset = start at *
  generalize s.lineStop offset = finish at *
  generalize hfirst : (if s.pairedAt start = true then start + 1 else start) = first
  obtain ⟨hstart, hbound⟩ : (first = start ∧ ¬ s.pairedAt start = true ∨
      first = start + 1 ∧ s.pairedAt start = true) ∧ first ≤ finish := by
    rw [← hfirst]
    split
    · rename_i hpaired
      exact ⟨.inr ⟨rfl, hpaired⟩, hlt hpaired⟩
    · rename_i hpaired
      exact ⟨.inl ⟨rfl, hpaired⟩, hle⟩
  by_cases hstop : first < finish ∧ s.pairedAt (finish - 1) = true
  · rw [if_pos hstop, Nat.max_eq_left (Nat.le_sub_one_of_lt hstop.1)]
    exact ⟨hstart, .inr ⟨Nat.sub_add_cancel (by omega), hstop.2⟩, Nat.le_sub_one_of_lt hstop.1⟩
  · rw [if_neg hstop, Nat.max_eq_left hbound]
    exact ⟨hstart, .inl rfl, hbound⟩

/-- Of the bytes of a line only a paired break beside a dominant one, or at the end of
the source, is left out. -/
theorem Trims.untrimmed {bounds : LineBounds} (h : s.Trims a b bounds) (hline : s.IsLine a b)
    (ha : a ≤ i) (hb : i < b) (hout : ¬ (bounds.first ≤ i ∧ i < bounds.stop)) :
    s.pairedAt i = true ∧ (s.byte? (i + 1) = some s.dominantBreak ∨
      (∃ j, i = j + 1 ∧ s.byte? j = some s.dominantBreak) ∨ i + 1 = s.length) := by
  by_cases hfirst : bounds.first ≤ i
  · rcases h.stop with hstop | ⟨hstop, hpaired⟩
    · omega
    · obtain rfl : bounds.stop = i := by omega
      refine ⟨hpaired, ?_⟩
      rcases hline.closes with hend | hbreak
      · exact .inr (.inr (hstop.trans hend))
      · exact .inl (hstop ▸ hbreak)
  · rcases h.first with hstart | ⟨hstart, hpaired⟩
    · omega
    · obtain rfl : a = i := by omega
      refine ⟨hpaired, ?_⟩
      rcases hline.opens with rfl | hbreak
      · exact absurd hpaired s.not_pairedAt_zero
      · exact .inr (.inl hbreak)

/-- The bounds of an offset trim the line it stands on. -/
theorem lineBounds_trims (s : Source) (offset : Nat) :
    ∃ start stop, s.IsLine start stop ∧ start ≤ min offset s.length ∧
      min offset s.length ≤ stop ∧ s.Trims start stop (s.lineBounds offset) := by
  obtain ⟨hline, hstart, hstop⟩ := isLine_at (Nat.min_le_right offset s.length)
  have htrims := trims_lineBounds hline
  rw [lineBounds_clamp] at htrims
  exact ⟨_, _, hline, hstart, hstop, htrims⟩

/-- A line without paired breaks, but maybe one at its start, has these bounds. -/
theorem lineBounds_of_isLine (h : s.IsLine a b) (ha : a ≤ offset) (hb : offset ≤ b) {first : Nat}
    (hfirst : first = a ∧ ¬ s.pairedAt a = true ∨ first = a + 1 ∧ s.pairedAt a = true)
    (hplain : ∀ i, first ≤ i → i < b → ¬ s.pairedAt i = true) :
    s.lineBounds offset = ⟨first, b⟩ := by
  obtain ⟨hstart, hstop⟩ := h.found ha hb
  have htrims : s.Trims a b (s.lineBounds offset) := by
    have hline : s.IsLine (s.lineStart offset) (s.lineStop offset) := by rwa [hstart, hstop]
    have htrims := trims_lineBounds hline
    rwa [hstart, hstop] at htrims
  have hsame : (s.lineBounds offset).first = first := by
    rcases hfirst with ⟨rfl, hnot⟩ | ⟨rfl, hpaired⟩
    · rcases htrims.first with ⟨heq, -⟩ | ⟨-, hpaired⟩
      · exact heq
      · exact absurd hpaired hnot
    · rcases htrims.first with ⟨-, hnot⟩ | ⟨heq, -⟩
      · exact absurd hpaired hnot
      · exact heq
  have hend : (s.lineBounds offset).stop = b := by
    rcases htrims.stop with heq | ⟨heq, hpaired⟩
    · exact heq
    · exact absurd hpaired (hplain _ (hsame ▸ htrims.le) (by omega))
  rw [← hsame, ← hend]

theorem lineBounds_first_le (s : Source) (offset : Nat) :
    (s.lineBounds offset).first ≤ (s.lineBounds offset).stop := by
  obtain ⟨_, _, -, -, -, htrims⟩ := s.lineBounds_trims offset
  exact htrims.le

theorem lineBounds_eq_of_lineNumber (h : s.lineNumber offset = s.lineNumber offset') :
    s.lineBounds offset = s.lineBounds offset' := by
  rw [← s.lineNumber_clamp offset, ← s.lineNumber_clamp offset'] at h
  rw [← s.lineBounds_clamp offset, ← s.lineBounds_clamp offset']
  have hends : s.lineStart (min offset s.length) = s.lineStart (min offset' s.length) ∧
      s.lineStop (min offset s.length) = s.lineStop (min offset' s.length) := by
    rcases Nat.le_total (min offset s.length) (min offset' s.length) with hle | hle
    · exact lineEnds_of_lineNumber hle (Nat.min_le_right _ _) h
    · obtain ⟨hstart, hstop⟩ := lineEnds_of_lineNumber hle (Nat.min_le_right _ _) h.symm
      exact ⟨hstart.symm, hstop.symm⟩
  simp only [lineBounds, hends]

theorem lineBounds_lt_of_lineNumber (h : s.lineNumber offset < s.lineNumber offset') :
    (s.lineBounds offset).stop < (s.lineBounds offset').first := by
  rw [← s.lineNumber_clamp offset, ← s.lineNumber_clamp offset'] at h
  rw [← s.lineBounds_clamp offset, ← s.lineBounds_clamp offset']
  have hlt := lineStop_lt_of_lineNumber (Nat.min_le_right _ _) (Nat.min_le_right _ _) h
  have htrims := trims_lineBounds (isLine_at (Nat.min_le_right offset s.length)).1
  have htrims' := trims_lineBounds (isLine_at (Nat.min_le_right offset' s.length)).1
  have hstop := htrims.stop
  have hfirst := htrims'.first
  omega

/-- And offsets of the same bounds have the same number. -/
theorem lineNumber_eq_of_lineBounds (h : s.lineBounds offset = s.lineBounds offset') :
    s.lineNumber offset = s.lineNumber offset' := by
  have hle := s.lineBounds_first_le offset
  have hle' := s.lineBounds_first_le offset'
  rcases Nat.lt_trichotomy (s.lineNumber offset) (s.lineNumber offset') with
    hless | hsame | hmore
  · have := lineBounds_lt_of_lineNumber hless
    rw [h] at this
    omega
  · exact hsame
  · have := lineBounds_lt_of_lineNumber hmore
    rw [h] at this
    omega

/-- A byte outside the bounds of its line is a break that has been left out of them. -/
theorem break_of_outside {byte : UInt8} (hbyte : s.byte? i = some byte)
    (hout : ¬ ((s.lineBounds i).first ≤ i ∧ i < (s.lineBounds i).stop)) :
    byte = s.dominantBreak ∨ byte = Byte.pairedBreak s.dominantBreak ∧
      (s.byte? (i + 1) = some s.dominantBreak ∨
        (∃ j, i = j + 1 ∧ s.byte? j = some s.dominantBreak) ∨ i + 1 = s.length) := by
  have hlt := lt_length_of_byte? hbyte
  obtain ⟨start, stop, hline, hstart, hstop, htrims⟩ := s.lineBounds_trims i
  rw [Nat.min_eq_left (Nat.le_of_lt hlt)] at hstart hstop
  by_cases hi : i < stop
  · obtain ⟨hpaired, hbeside⟩ := htrims.untrimmed hline hstart hi hout
    rw [pairedAt_iff, hbyte] at hpaired
    exact .inr ⟨Option.some.inj hpaired, hbeside⟩
  · -- the offset is where its line ends
    obtain rfl : i = stop := by omega
    rcases hline.closes with hend | hbreak
    · omega
    · rw [hbyte] at hbreak
      exact .inl (Option.some.inj hbreak)

end Source

/-! ## Partition -/

/-- Line numbers and line bounds describe one partition of a source. Bounds lie in the
source and hold no dominant break; two offsets have the same number iff they have the same
bounds, and a greater number means bounds further down; offsets past the end answer as the
end does; a byte outside all bounds is a dominant break, or a paired one that stands beside
a dominant one or ends the source. -/
theorem lines_partition (s : Source) :
    (∀ o, (s.lineBounds o).first ≤ (s.lineBounds o).stop ∧ (s.lineBounds o).stop ≤ s.length ∧
      ∀ i, (s.lineBounds o).first ≤ i → i < (s.lineBounds o).stop →
        s.byte? i ≠ some s.dominantBreak) ∧
    (∀ o o', s.lineNumber o = s.lineNumber o' ↔ s.lineBounds o = s.lineBounds o') ∧
    (∀ o o', s.lineNumber o < s.lineNumber o' →
      (s.lineBounds o).stop < (s.lineBounds o').first) ∧
    (∀ o, s.length ≤ o → s.lineNumber o = s.lineNumber s.length ∧
      s.lineBounds o = s.lineBounds s.length) ∧
    ∀ i b, s.byte? i = some b →
      (∀ o, ¬ ((s.lineBounds o).first ≤ i ∧ i < (s.lineBounds o).stop)) →
      b = s.dominantBreak ∨ b = Byte.pairedBreak s.dominantBreak ∧
        (s.byte? (i + 1) = some s.dominantBreak ∨
          (∃ j, i = j + 1 ∧ s.byte? j = some s.dominantBreak) ∨ i + 1 = s.length) := by
  refine ⟨?_, ?_, fun o o' => Source.lineBounds_lt_of_lineNumber, ?_, ?_⟩
  · intro o
    obtain ⟨start, stop, hline, -, -, htrims⟩ := s.lineBounds_trims o
    have hfirst := htrims.first
    have hstop := htrims.stop
    have hlength := hline.le_length
    exact ⟨htrims.le, by omega, fun i hi hlt => hline.plain i (by omega) (by omega)⟩
  · intro o o'
    exact ⟨Source.lineBounds_eq_of_lineNumber, Source.lineNumber_eq_of_lineBounds⟩
  · intro o ho
    rw [← s.lineNumber_clamp o, ← s.lineBounds_clamp o, Nat.min_eq_right ho]
    exact ⟨rfl, rfl⟩
  · intro i b hbyte hout
    exact Source.break_of_outside hbyte (hout i)

/-- A source that counts its lines by carriage returns, with line feeds before, behind and
between them; of the second line nothing is left. -/
theorem lines_partition_mixed :
    let source : Source := ⟨"", Utf8.bytes "a\r\n\n\rb\nc\r\r\n", by decide⟩
    source.lineNumber 1 < source.lineNumber 2 ∧
      (source.lineBounds 1).stop < (source.lineBounds 2).first ∧
      source.lineNumber 2 = source.lineNumber 4 ∧ source.lineBounds 2 = source.lineBounds 4 ∧
      source.byte? 3 = some Byte.lineFeed ∧
      (∀ o, ¬ ((source.lineBounds o).first ≤ 3 ∧ 3 < (source.lineBounds o).stop)) ∧
      source.byte? 4 = some source.dominantBreak := by
  intro source
  obtain ⟨-, hsame, hless, -, houtside⟩ := lines_partition source
  have hout : ∀ o, ¬ ((source.lineBounds o).first ≤ 3 ∧ 3 < (source.lineBounds o).stop) := by
    intro o
    have hall : ∀ k ≤ 11, ¬ ((source.lineBounds k).first ≤ 3 ∧ 3 < (source.lineBounds k).stop) := by
      decide
    rw [← source.lineBounds_clamp o]
    exact hall _ (Nat.min_le_right _ _)
  have hbeside := houtside 3 Byte.lineFeed (by decide) hout
  refine ⟨by decide, hless 1 2 (by decide), by decide, (hsame 2 4).mp (by decide), by decide,
    hout, ?_⟩
  rcases hbeside with heq | ⟨-, hnext | ⟨j, hj, hbefore⟩ | hlast⟩
  · exact absurd heq (by decide)
  · exact hnext
  · obtain rfl : j = 2 := by omega
    exact absurd hbefore (by decide)
  · exact absurd hlast (by decide)

end ApiDoc
