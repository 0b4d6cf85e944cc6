import ApiDoc.Text.Utf8

/-!
# Text and bytes

ASCII bytes stand for themselves: the text they spell has the same bytes
(`bytes_lossy_of_ascii`).
-/

namespace ApiDoc.Utf8

theorem bytes_append (text other : String) :
    bytes (text ++ other) = bytes text ++ bytes other := by
  rw [bytes, String.toList_append, List.flatMap_append]
  rfl

theorem encodeChar_of_ascii {b : UInt8} (h : b < 0x80) :
    String.utf8EncodeChar (Char.ofNat b.toNat) = [b] := by
  have key : ∀ n : Fin 128, String.utf8EncodeChar (Char.ofNat n) = [UInt8.ofNat n] := by decide
  have := key ⟨b.toNat, UInt8.lt_iff_toNat_lt.mp h⟩
  rwa [UInt8.ofNat_toNat] at this

theorem decode_of_ascii {bytes : List UInt8} (h : ∀ b ∈ bytes, b < 0x80) :
    decode bytes = bytes.map fun b => some (Char.ofNat b.toNat) := by
  unfold decode
  induction bytes with
  | nil => rfl
  | cons b rest ih =>
    have hb : b < 0x80 := h b List.mem_cons_self
    have hstart : start b = ([some (Char.ofNat b.toNat)], none) := if_pos hb
    rw [decodeAfter, hstart, List.map_cons, ih fun c hc => h c (List.mem_cons_of_mem b hc)]
    rfl

theorem bytes_lossy_of_ascii {word : List UInt8} (h : ∀ b ∈ word, b < 0x80) :
    bytes (lossy word) = word := by
  rw [bytes, lossy, decode_of_ascii h, String.toList_ofList, List.map_map]
  induction word with
  | nil => rfl
  | cons b rest ih =>
    have hb : String.utf8EncodeChar (Char.ofNat b.toNat) = [b] :=
      encodeChar_of_ascii (h b List.mem_cons_self)
    rw [List.map_cons, List.flatMap_cons, ih fun c hc => h c (List.mem_cons_of_mem b hc)]
    show String.utf8EncodeChar (Char.ofNat b.toNat) ++ rest = _
    rw [hb, List.singleton_append]

end ApiDoc.Utf8
