import ApiDoc.Proofs.Scan.Reading
import ApiDoc.Proofs.Text.Utf8

/-!
# Quoted values

A value is quoted by a backslash before each of its quotes and backslashes, and a
quote on either side. It is read back twice: the scanner looks for the closing
quote among bytes, and the parameter is unquoted among characters.

* **Characters** (`unquote_quote`): unquoting gives the value back.
* **Bytes** (`bytes_quote`): the bytes of a quoted text are the quoted bytes of the
  text, since no other character has the byte of a quote or of a backslash.
* **Scanning** (`quotedRest_escaped`): the scanner stops at the closing quote, and at
  no quote before it.
-/

namespace ApiDoc

/-! ## Characters -/

namespace Parameter

/-- A character as it stands between quotes. -/
def escape (c : Char) : List Char :=
  if c = '"' ∨ c = '\\' then ['\\', c] else [c]

/-- A value as a parameter in quotes. -/
def quote (value : String) : String :=
  String.ofList ('"' :: (value.toList.flatMap escape ++ ['"']))

/-- A character that is no backslash stands for itself. -/
theorem unescape_cons {c : Char} (h : c ≠ '\\') (rest : List Char) :
    unescape (c :: rest) = c :: unescape rest := by
  cases rest with
  | nil => rfl
  | cons d rest => rw [unescape, if_neg h]

theorem unescape_escape (text : List Char) : unescape (text.flatMap escape) = text := by
  induction text with
  | nil => rfl
  | cons c rest ih =>
    rw [List.flatMap_cons, escape]
    by_cases hc : c = '"' ∨ c = '\\'
    · rw [if_pos hc]
      show unescape ('\\' :: c :: rest.flatMap escape) = c :: rest
      rw [unescape, if_pos rfl, if_pos hc, ih]
    · rw [if_neg hc]
      show unescape (c :: rest.flatMap escape) = c :: rest
      rw [unescape_cons fun h => hc (.inr h), ih]

/-- A quoted value is unquoted to itself. -/
theorem unquote_quote (value : String) : unquote (quote value) = value := by
  have hbetween : between? '"' '"' (quote value).toList
      = some (value.toList.flatMap escape) := by
    rw [quote, String.toList_ofList, between?, List.getLast?_concat, List.dropLast_concat]
    rfl
  rw [unquote, hbetween]
  show String.ofList (unescape (value.toList.flatMap escape)) = value
  rw [unescape_escape, String.ofList_toList]

end Parameter

/-! ## Bytes -/

namespace Byte

/-- A byte as it stands between quotes. -/
def escape (b : UInt8) : List UInt8 :=
  if b = quote ∨ b = backslash then [backslash, b] else [b]

/-- A value as a parameter in quotes. -/
def quoted (value : List UInt8) : List UInt8 :=
  quote :: (value.flatMap escape ++ [quote])

/-- Bytes of one line in which a backslash takes the byte behind it, and no quote
stands without one. -/
inductive Escaped : List UInt8 → Prop
  | nil : Escaped []
  | plain {b : UInt8} {rest : List UInt8} (hbreak : isBreak b = false) (hquote : b ≠ quote)
      (hback : b ≠ backslash) (h : Escaped rest) : Escaped (b :: rest)
  | pair {b : UInt8} {rest : List UInt8} (hbreak : isBreak b = false) (h : Escaped rest) :
      Escaped (backslash :: b :: rest)

/-- A parameter in quotes. -/
def IsQuoted (word : List UInt8) : Prop :=
  ∃ inner, Escaped inner ∧ word = quote :: (inner ++ [quote])

theorem IsQuoted.ne_nil {word : List UInt8} (h : IsQuoted word) : word ≠ [] := by
  obtain ⟨inner, -, rfl⟩ := h
  exact List.cons_ne_nil _ _

/-- A value of one line may be quoted. -/
theorem isQuoted_quoted {value : List UInt8} (h : ∀ b ∈ value, isBreak b = false) :
    IsQuoted (quoted value) := by
  refine ⟨_, ?_, rfl⟩
  induction value with
  | nil => exact .nil
  | cons b value ih =>
    have hrest := ih fun d hd => h d (List.mem_cons_of_mem b hd)
    have hbreak := h b List.mem_cons_self
    rw [List.flatMap_cons, escape]
    by_cases hb : b = quote ∨ b = backslash
    · rw [if_pos hb]
      exact .pair hbreak hrest
    · rw [if_neg hb]
      exact .plain hbreak (fun heq => hb (.inl heq)) (fun heq => hb (.inr heq)) hrest

end Byte

namespace Utf8

/-- A byte of a character is no ASCII byte, or all there is of it. -/
theorem mem_encodeChar {c : Char} {b : UInt8} (h : b ∈ String.utf8EncodeChar c) :
    0x80 ≤ b ∨ String.utf8EncodeChar c = [b] ∧ c = Char.ofNat b.toNat := by
  by_cases hc : c.val ≤ 127
  · have hone : String.utf8EncodeChar c = [c.val.toUInt8] :=
      String.utf8EncodeChar_eq_singleton (Char.utf8Size_eq_one_iff.mpr hc)
    rw [hone, List.mem_singleton] at h
    refine .inr ⟨by rw [hone, h], ?_⟩
    have hlt : c.val.toNat < 256 := by
      have : c.val.toNat ≤ 127 := UInt32.le_iff_toNat_le.mp hc
      omega
    rw [h, UInt32.toNat_toUInt8, Nat.mod_eq_of_lt hlt]
    exact (Char.ofNat_toNat c).symm
  · -- every byte of a longer sequence has its highest bit set
    have hlong : ¬ c.val.toNat ≤ 127 := fun hle => hc (UInt32.le_iff_toNat_le.mpr hle)
    left
    rw [UInt8.le_iff_toNat_le]
    unfold String.utf8EncodeChar at h
    simp only [if_neg hlong] at h
    split at h
    · simp only [List.mem_cons, List.not_mem_nil, or_false] at h
      rcases h with rfl | rfl <;> simp [UInt8.toNat_ofNat'] <;> omega
    · split at h
      · simp only [List.mem_cons, List.not_mem_nil, or_false] at h
        rcases h with rfl | rfl | rfl <;> simp [UInt8.toNat_ofNat'] <;> omega
      · simp only [List.mem_cons, List.not_mem_nil, or_false] at h
        rcases h with rfl | rfl | rfl | rfl <;> simp [UInt8.toNat_ofNat'] <;> omega

/-- An ASCII byte of a text is one of its characters. -/
theorem mem_bytes {text : String} {b : UInt8} (hb : b < 0x80) (h : b ∈ bytes text) :
    Char.ofNat b.toNat ∈ text.toList := by
  obtain ⟨c, hc, hmem⟩ := List.mem_flatMap.mp h
  rcases mem_encodeChar hmem with hle | ⟨-, rfl⟩
  · exact absurd hb (UInt8.not_lt.mpr hle)
  · exact hc

/-- A text on one line has no byte that ends one. -/
theorem isBreak_of_mem_bytes {text : String} (hfeed : '\n' ∉ text.toList)
    (hreturn : '\r' ∉ text.toList) {b : UInt8} (hb : b ∈ bytes text) :
    Byte.isBreak b = false := by
  apply Bool.eq_false_iff.mpr
  intro hbreak
  rcases Byte.isBreak_iff.mp hbreak with rfl | rfl
  · exact hfeed (mem_bytes (by decide) hb)
  · exact hreturn (mem_bytes (by decide) hb)

/-- The bytes of a character between quotes. -/
theorem bytes_escape (c : Char) :
    (Parameter.escape c).flatMap String.utf8EncodeChar
      = (String.utf8EncodeChar c).flatMap Byte.escape := by
  by_cases hc : c = '"' ∨ c = '\\'
  · rcases hc with rfl | rfl <;> decide
  · have hsame : ∀ b ∈ String.utf8EncodeChar c, Byte.escape b = [b] := by
      intro b hb
      refine if_neg ?_
      rintro (rfl | rfl)
      · rcases mem_encodeChar hb with hle | ⟨-, hquote⟩
        · exact absurd hle (by decide)
        · exact hc (.inl hquote)
      · rcases mem_encodeChar hb with hle | ⟨-, hback⟩
        · exact absurd hle (by decide)
        · exact hc (.inr hback)
    rw [Parameter.escape, if_neg hc, List.flatMap_singleton, List.flatMap_congr hsame]
    exact (List.flatMap_singleton' _).symm

theorem bytes_quote (value : String) :
    bytes (Parameter.quote value) = Byte.quoted (bytes value) := by
  have hinner : (value.toList.flatMap Parameter.escape).flatMap String.utf8EncodeChar
      = (bytes value).flatMap Byte.escape := by
    rw [bytes, List.flatMap_assoc, List.flatMap_assoc]
    exact List.flatMap_congr fun c _ => bytes_escape c
  rw [bytes, Parameter.quote, String.toList_ofList, List.flatMap_cons, List.flatMap_append, hinner]
  rfl

end Utf8

/-! ## Scanning -/

namespace Scan

/-- The scanner passes over what stands between quotes and stops at the second. -/
theorem quotedRest_escaped {inner : List UInt8} (h : Byte.Escaped inner) (rest : List UInt8) :
    quotedRest false (inner ++ Byte.quote :: rest) = Byte.quote :: rest := by
  induction h with
  | nil => rfl
  | @plain b inner hbreak hquote hback _ ih =>
    show quotedRest false (b :: (inner ++ Byte.quote :: rest)) = _
    rw [quotedRest, if_neg (by simp [hbreak]), if_neg Bool.false_ne_true, if_neg hback,
      if_neg hquote, ih]
  | @pair b inner hbreak _ ih =>
    show quotedRest false (Byte.backslash :: b :: (inner ++ Byte.quote :: rest)) = _
    -- the backslash takes away the meaning of the byte behind it
    rw [quotedRest, if_neg (by decide), if_neg Bool.false_ne_true, if_pos rfl, quotedRest,
      if_neg (by simp [hbreak]), if_pos rfl, ih]

end Scan

end ApiDoc
