import ApiDoc.Proofs.Text.Utf8
import Mathlib.Algebra.Group.Nat.Defs

/-!
# What decoded items stand for

Bytes are decoded one at a time, with a sequence under way between them. Nothing but gaps
is lost on the way: the items divide the bytes, in order, into the encodings of the
characters and short runs for the gaps.

* **Encodings** (`encodeChar_two`, `encodeChar_three`, `encodeChar_four`): a lead byte and
  a trail of bytes of six bits each.
* **Sequences** (`Spells`): the bytes read for a sequence are how the encoding of every
  character starts that it can still come to. A lead byte opens such a sequence
  (`spells_open`), each byte it takes leaves one (`Spells.resume`) and the last one
  completes the encoding (`Spells.complete`).
* **Items** (`encodes_decode`): decoded items stand for the decoded bytes.
* **Text** (`length_bytes_lossy_le`): a character is shown as it was read, a gap in up to two
  bytes more than it stands for.
-/

namespace ApiDoc.Utf8

variable {b : UInt8} {n : Nat} {s : Sequence} {front rest : List UInt8} {items : List Item}

/-! ## Encodings -/

/-- The last `k` bytes of an encoding of the value `n` that has more than `k` bytes. -/
def trail (n : Nat) : Nat → List UInt8
  | 0 => []
  | k + 1 => UInt8.ofNat (n / 64 ^ k % 64 + 0x80) :: trail n k

theorem toNat_ofNat (h : n.isValidChar) : (Char.ofNat n).val.toNat = n := by
  rw [Char.ofNat, dif_pos h]
  rfl

theorem encodeChar_two (hlow : 0x80 ≤ n) (hhigh : n ≤ 0x7FF) :
    String.utf8EncodeChar (Char.ofNat n) = UInt8.ofNat (n / 64 % 32 + 0xC0) :: trail n 1 := by
  have hvalue : (Char.ofNat n).val.toNat = n := toNat_ofNat (.inl (by omega))
  rw [String.utf8EncodeChar, hvalue]
  simp only [trail, Nat.reducePow, Nat.div_one]
  rw [if_neg (by omega), if_pos hhigh]

theorem encodeChar_three (hlow : 0x800 ≤ n) (hhigh : n ≤ 0xFFFF) (hvalid : n.isValidChar) :
    String.utf8EncodeChar (Char.ofNat n) = UInt8.ofNat (n / 4096 % 16 + 0xE0) :: trail n 2 := by
  rw [String.utf8EncodeChar, toNat_ofNat hvalid]
  simp only [trail, Nat.reducePow, Nat.div_one]
  rw [if_neg (by omega), if_neg (by omega), if_pos hhigh]

theorem encodeChar_four (hlow : 0x10000 ≤ n) (hhigh : n ≤ 0x10FFFF) :
    String.utf8EncodeChar (Char.ofNat n) = UInt8.ofNat (n / 262144 % 8 + 0xF0) :: trail n 3 := by
  have hvalue : (Char.ofNat n).val.toNat = n := toNat_ofNat (.inr (by omega))
  rw [String.utf8EncodeChar, hvalue]
  simp only [trail, Nat.reducePow, Nat.div_one]
  rw [if_neg (by omega), if_neg (by omega), if_neg (by omega)]

/-! ## Sequences -/

/-- A value whose encoding can go on after `s`. -/
structure Sequence.Admits (s : Sequence) (n : Nat) : Prop where
  value : n / 64 ^ s.owed = s.value
  low : s.low.toNat ≤ n / 64 ^ (s.owed - 1) % 64 + 0x80
  high : n / 64 ^ (s.owed - 1) % 64 + 0x80 ≤ s.high.toNat

/-- `front` is what has been read of `s`: the encoding of every value that `s` admits is
`front` and as many bytes as are owed. -/
structure Sequence.Spells (s : Sequence) (front : List UInt8) : Prop where
  owed : 0 < s.owed
  low : 0x80 ≤ s.low.toNat
  high : s.high.toNat ≤ 0xBF
  read : front ≠ []
  length_le : front.length + s.owed ≤ 4
  encodes : ∀ n, s.Admits n →
    String.utf8EncodeChar (Char.ofNat n) = front ++ trail n s.owed

theorem ofNat_eq {m : Nat} (h : m = b.toNat) : UInt8.ofNat m = b := by
  rw [h, UInt8.ofNat_toNat]

variable {value : Nat} {low high : UInt8}

theorem spells_two (hlow : 2 ≤ value) (hhigh : value < 32) (hb : value + 0xC0 = b.toNat) :
    Sequence.Spells ⟨value, 1, 0x80, 0xBF⟩ [b] where
  owed := Nat.zero_lt_succ _
  low := Nat.le_refl 0x80
  high := Nat.le_refl 0xBF
  read := List.cons_ne_nil b []
  length_le := Nat.le_add_left 2 2
  encodes n h := by
    have hvalue : n / 64 = value := h.value
    rw [encodeChar_two (by omega) (by omega), ofNat_eq (by omega : _ = b.toNat)]
    rfl

theorem spells_three (hb : value + 0xE0 = b.toNat) (hvalue : value < 16)
    (hlow : 0x80 ≤ low.toNat) (hhigh : high.toNat ≤ 0xBF)
    (hleast : value = 0 → 0xA0 ≤ low.toNat) (hsurrogate : value = 13 → high.toNat ≤ 0x9F) :
    Sequence.Spells ⟨value, 2, low, high⟩ [b] where
  owed := Nat.zero_lt_succ _
  low := hlow
  high := hhigh
  read := List.cons_ne_nil b []
  length_le := Nat.le_add_left 3 1
  encodes n h := by
    have hn : n / 4096 = value := h.value
    have hdigit : low.toNat ≤ n / 64 % 64 + 0x80 := h.low
    have hdigit' : n / 64 % 64 + 0x80 ≤ high.toNat := h.high
    have hvalid : n < 0xD800 ∨ 0xDFFF < n ∧ n < 0x110000 := by omega
    rw [encodeChar_three (by omega) (by omega) hvalid, ofNat_eq (by omega : _ = b.toNat)]
    rfl

theorem spells_four (hb : value + 0xF0 = b.toNat) (hvalue : value < 5)
    (hlow : 0x80 ≤ low.toNat) (hhigh : high.toNat ≤ 0xBF)
    (hleast : value = 0 → 0x90 ≤ low.toNat) (hmost : value = 4 → high.toNat ≤ 0x8F) :
    Sequence.Spells ⟨value, 3, low, high⟩ [b] where
  owed := Nat.zero_lt_succ _
  low := hlow
  high := hhigh
  read := List.cons_ne_nil b []
  length_le := Nat.le_refl 4
  encodes n h := by
    have hn : n / 262144 = value := h.value
    have hdigit : low.toNat ≤ n / 4096 % 64 + 0x80 := h.low
    have hdigit' : n / 4096 % 64 + 0x80 ≤ high.toNat := h.high
    rw [encodeChar_four (by omega) (by omega), ofNat_eq (by omega : _ = b.toNat)]
    rfl

/-- The ranges that follow some lead bytes keep out what has a shorter encoding or none. -/
theorem spells_open (h : Sequence.open? b = some s) : s.Spells [b] := by
  simp only [Sequence.open?, UInt8.le_iff_toNat_le, UInt8.toNat_inj.symm, UInt8.reduceToNat] at h
  split at h
  · cases h
    exact spells_two (by omega) (by omega) (by omega)
  split at h
  · cases h
    exact spells_three (by omega) (by decide) (by decide) (by decide) (by decide) (by decide)
  split at h
  · cases h
    exact spells_three (by omega) (by decide) (by decide) (by decide) (by decide) (by decide)
  split at h
  · cases h
    exact spells_three (by omega) (by omega) (by decide) (by decide) (by omega) (by omega)
  split at h
  · cases h
    exact spells_four (by omega) (by decide) (by decide) (by decide) (by decide) (by decide)
  split at h
  · cases h
    exact spells_four (by omega) (by omega) (by decide) (by decide) (by omega) (by omega)
  split at h
  · cases h
    exact spells_four (by omega) (by decide) (by decide) (by decide) (by decide) (by decide)
  · cases h

namespace Sequence.Spells

/-- A byte that `s` takes is a digit of the values it admits. -/
theorem digit (h : s.Spells front) (hlow : s.low ≤ b) (hhigh : b ≤ s.high) :
    b.toNat % 64 + 0x80 = b.toNat := by
  have hleast := h.low
  have hmost := h.high
  have hlow' : s.low.toNat ≤ b.toNat := hlow
  have hhigh' : b.toNat ≤ s.high.toNat := hhigh
  omega

/-- With `b` read, the values admitted are those that have it for their next digit. -/
theorem encodes_next (h : s.Spells front) (hlow : s.low ≤ b) (hhigh : b ≤ s.high) {k : Nat}
    (howed : s.owed = k + 1) (hn : n / 64 ^ k = s.value * 64 + b.toNat % 64) :
    String.utf8EncodeChar (Char.ofNat n) = front ++ [b] ++ trail n k := by
  have hdigit := h.digit hlow hhigh
  have hnext : n / 64 ^ k % 64 + 0x80 = b.toNat := by
    rw [hn]
    omega
  have hadmits : s.Admits n := by
    refine ⟨?_, ?_, ?_⟩
    · rw [howed, Nat.pow_succ, ← Nat.div_div_eq_div_mul, hn]
      omega
    · rw [howed, Nat.add_sub_cancel, hnext]
      exact hlow
    · rw [howed, Nat.add_sub_cancel, hnext]
      exact hhigh
  rw [h.encodes n hadmits, howed, trail, ofNat_eq hnext, List.append_assoc]
  rfl

/-- The last byte completes an encoding. -/
theorem complete (h : s.Spells front) (hlow : s.low ≤ b) (hhigh : b ≤ s.high)
    (hlast : s.owed = 1) :
    String.utf8EncodeChar (Char.ofNat (s.value * 64 + b.toNat % 64)) = front ++ [b] := by
  have hencodes := h.encodes_next hlow hhigh (k := 0) hlast (Nat.div_one _)
  rwa [trail, List.append_nil] at hencodes

/-- Any other byte leaves a sequence that has read one byte more. -/
theorem resume (h : s.Spells front) (hlow : s.low ≤ b) (hhigh : b ≤ s.high)
    (hmore : 1 < s.owed) :
    Spells ⟨s.value * 64 + b.toNat % 64, s.owed - 1, 0x80, 0xBF⟩ (front ++ [b]) where
  owed := Nat.sub_pos_of_lt hmore
  low := Nat.le_refl 0x80
  high := Nat.le_refl 0xBF
  read := by simp
  length_le := by
    have hlength := h.length_le
    rw [List.length_append, List.length_singleton]
    show front.length + 1 + (s.owed - 1) ≤ 4
    omega
  encodes n hn := h.encodes_next hlow hhigh (Nat.sub_add_cancel h.owed).symm hn.value

end Sequence.Spells

/-! ## Items -/

/-- The items stand for the bytes: a character for its encoding, a gap for a run of at most
three bytes. -/
inductive Encodes : List UInt8 → List Item → Prop
  | nil : Encodes [] []
  | char (c : Char) {rest : List UInt8} {items : List Item} :
      Encodes rest items → Encodes (String.utf8EncodeChar c ++ rest) (some c :: items)
  | gap {run rest : List UInt8} {items : List Item} (hread : run ≠ []) (hshort : run.length ≤ 3) :
      Encodes rest items → Encodes (run ++ rest) (none :: items)

/-- What holds of the bytes behind `b` holds from `b` on. -/
theorem encodes_start (b : UInt8) (hplain : Encodes rest (decodeAfter none rest))
    (hwithin : ∀ s front, Sequence.Spells s front →
      Encodes (front ++ rest) (decodeAfter (some s) rest)) :
    Encodes (b :: rest) ((start b).1 ++ decodeAfter (start b).2 rest) := by
  rw [start]
  by_cases hascii : b < 0x80
  · rw [if_pos hascii]
    have hchar := Encodes.char (Char.ofNat b.toNat) hplain
    rwa [encodeChar_of_ascii hascii] at hchar
  · rw [if_neg hascii]
    cases hopen : Sequence.open? b with
    | some s => exact hwithin s [b] (spells_open hopen)
    | none => exact .gap (List.cons_ne_nil b []) (Nat.le_add_left 1 2) hplain

/-- Items stand for the bytes they were decoded from, those of the sequence under way
among them. -/
theorem encodes_decodeAfter (bytes : List UInt8) :
    Encodes bytes (decodeAfter none bytes) ∧
      ∀ s front, Sequence.Spells s front →
        Encodes (front ++ bytes) (decodeAfter (some s) bytes) := by
  induction bytes with
  | nil =>
    refine ⟨.nil, fun s front h => ?_⟩
    have hlength := h.length_le
    have howed := h.owed
    exact .gap h.read (by omega) .nil
  | cons b rest ih =>
    obtain ⟨hplain, hwithin⟩ := ih
    have hstart := encodes_start b hplain hwithin
    refine ⟨hstart, fun s front h => ?_⟩
    rw [decodeAfter, resume]
    by_cases hrange : s.low ≤ b ∧ b ≤ s.high
    · rw [if_pos hrange]
      by_cases hlast : s.owed ≤ 1
      · have hchar := Encodes.char (Char.ofNat (s.value * 64 + b.toNat % 64)) hplain
        rw [h.complete hrange.1 hrange.2 (Nat.le_antisymm hlast h.owed), List.append_assoc]
          at hchar
        rwa [if_pos hlast]
      · have hmore := hwithin _ _ (h.resume hrange.1 hrange.2 (Nat.lt_of_not_le hlast))
        rw [List.append_assoc] at hmore
        rwa [if_neg hlast]
    · rw [if_neg hrange]
      have hlength := h.length_le
      have howed := h.owed
      exact .gap h.read (by omega) hstart

/-- Decoded items stand for the decoded bytes. -/
theorem encodes_decode (bytes : List UInt8) : Encodes bytes (decode bytes) :=
  (encodes_decodeAfter bytes).1

/-! ## Text -/

/-- The number of gaps in `bytes`. -/
def gaps (bytes : List UInt8) : Nat :=
  (decode bytes).count none

theorem Encodes.length_items_le {bytes : List UInt8} (h : Encodes bytes items) :
    items.length ≤ bytes.length := by
  induction h with
  | nil => exact Nat.le_refl 0
  | char c _ ih =>
    have hpos := c.utf8Size_pos
    rw [List.length_cons, List.length_append, String.length_utf8EncodeChar]
    omega
  | gap hread _ _ ih =>
    have hpos := List.length_pos_iff.mpr hread
    rw [List.length_cons, List.length_append]
    omega

theorem Encodes.length_shown_le {bytes : List UInt8} (h : Encodes bytes items) :
    (items.flatMap fun i => String.utf8EncodeChar (i.getD '\uFFFD')).length
      ≤ bytes.length + 2 * items.count none := by
  induction h with
  | nil => exact Nat.le_refl 0
  | char c _ ih =>
    rw [List.flatMap_cons, List.length_append, List.length_append, Option.getD_some,
      List.count_cons_of_ne (by simp)]
    omega
  | gap hread _ _ ih =>
    have hpos := List.length_pos_iff.mpr hread
    have hmark : (String.utf8EncodeChar '\uFFFD').length = 3 := by decide
    rw [List.flatMap_cons, List.length_append, List.length_append, Option.getD_none, hmark,
      List.count_cons_self]
    omega

theorem bytes_lossy (bs : List UInt8) : bytes (lossy bs)
    = (decode bs).flatMap fun i => String.utf8EncodeChar (i.getD '\uFFFD') := by
  rw [bytes, lossy, String.toList_ofList, List.flatMap_map]

theorem length_lossy_le (bs : List UInt8) : (lossy bs).length ≤ bs.length := by
  rw [lossy, String.length_ofList, List.length_map]
  exact (encodes_decode bs).length_items_le

/-- A gap is shown in up to two bytes more than it stands for. -/
theorem length_bytes_lossy_le (bs : List UInt8) :
    (bytes (lossy bs)).length ≤ bs.length + 2 * gaps bs := by
  rw [bytes_lossy]
  exact (encodes_decode bs).length_shown_le

theorem gaps_le_length (bs : List UInt8) : gaps bs ≤ bs.length :=
  Nat.le_trans List.count_le_length (encodes_decode bs).length_items_le

end ApiDoc.Utf8
