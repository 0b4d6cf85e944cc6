import ApiDoc.Proofs.Text.Decoding

/-!
# Text and its characters

The bytes of a text are read back as that text, and they may be cut wherever a character
may start.

* **Encodings** (`encodeChar_cases`): an ASCII byte, or a byte that leads and a trail of
  bytes that continue what it opens.
* **Reading back** (`lossy_bytes`): the characters of a text are decoded from its bytes, and
  no gap is.
* **Cuts** (`cut`, `cut_behind`): a cut before a byte that continues nothing, or behind an
  ASCII byte, cuts the text between two characters.
-/

namespace ApiDoc.Utf8

variable {b : UInt8} {c : Char} {n k : Nat} {s : Sequence} {front back rest : List UInt8}

/-! ## Encodings -/

theorem isContinuation_of_ascii (h : b < 0x80) : isContinuation b = false := by
  rw [isContinuation, decide_eq_false (UInt8.not_le.mpr h), Bool.false_and]

theorem isContinuation_of_mem_trail (h : b ∈ trail n k) : isContinuation b = true := by
  induction k with
  | zero => cases h
  | succ k ih =>
    rcases List.mem_cons.mp h with rfl | hmem
    · have hlt : n / 64 ^ k % 64 < 64 := Nat.mod_lt _ (by decide)
      simp only [isContinuation, Bool.and_eq_true, decide_eq_true_eq, UInt8.le_iff_toNat_le,
        UInt8.toNat_ofNat', UInt8.reduceToNat]
      omega
    · exact ih hmem

/-- `b` leads the encoding of `n`: it opens a sequence that admits `n` and owes `k` bytes. -/
structure Leads (b : UInt8) (n k : Nat) : Prop where
  not_ascii : ¬ b < 0x80
  not_continuation : isContinuation b = false
  opens : ∃ s, Sequence.open? b = some s ∧ s.owed = k + 1 ∧ s.Admits n

/-- What opens a sequence is greater than every continuation byte. -/
theorem leads_of_open? (hopen : Sequence.open? b = some s) (howed : s.owed = k + 1)
    (hadmits : s.Admits n) (hb : 0xBF < b.toNat) : Leads b n k where
  not_ascii hlt := by
    have hlt' : b.toNat < 128 := hlt
    omega
  not_continuation := by
    have hnot : ¬ b ≤ 0xBF := fun hle => by
      have hle' : b.toNat ≤ 191 := hle
      omega
    rw [isContinuation, decide_eq_false hnot, Bool.and_false]
  opens := ⟨s, hopen, howed, hadmits⟩

theorem leads_two (hlow : 0x80 ≤ n) (hhigh : n ≤ 0x7FF) :
    Leads (UInt8.ofNat (n / 64 % 32 + 0xC0)) n 0 := by
  have hb : (UInt8.ofNat (n / 64 % 32 + 0xC0)).toNat = n / 64 + 0xC0 := by
    rw [UInt8.toNat_ofNat']
    omega
  generalize UInt8.ofNat (n / 64 % 32 + 0xC0) = b at *
  refine leads_of_open? (s := ⟨b.toNat % 32, 1, 0x80, 0xBF⟩) ?_ rfl ⟨?_, ?_, ?_⟩ (by omega)
  · simp only [Sequence.open?, UInt8.le_iff_toNat_le, UInt8.reduceToNat]
    rw [if_pos (by omega)]
  · show n / 64 = b.toNat % 32
    omega
  · show 0x80 ≤ n / 1 % 64 + 0x80
    omega
  · show n / 1 % 64 + 0x80 ≤ 0xBF
    omega

theorem leads_three (hlow : 0x800 ≤ n) (hhigh : n ≤ 0xFFFF) (hvalid : n.isValidChar) :
    Leads (UInt8.ofNat (n / 4096 % 16 + 0xE0)) n 1 := by
  have hb : (UInt8.ofNat (n / 4096 % 16 + 0xE0)).toNat = n / 4096 + 0xE0 := by
    rw [UInt8.toNat_ofNat']
    omega
  have hscalar : n < 0xD800 ∨ 0xDFFF < n ∧ n < 0x110000 := hvalid
  generalize UInt8.ofNat (n / 4096 % 16 + 0xE0) = b at *
  have hopen : ∃ low high : UInt8, Sequence.open? b = some ⟨b.toNat % 16, 2, low, high⟩ ∧
      low.toNat ≤ n / 64 % 64 + 0x80 ∧ n / 64 % 64 + 0x80 ≤ high.toNat := by
    simp only [Sequence.open?, UInt8.le_iff_toNat_le, UInt8.toNat_inj.symm, UInt8.reduceToNat]
    rw [if_neg (by omega)]
    by_cases hleast : b.toNat = 0xE0
    · rw [if_pos hleast]
      exact ⟨0xA0, 0xBF, by rw [hleast], by simp only [UInt8.reduceToNat]; omega,
        by simp only [UInt8.reduceToNat]; omega⟩
    · rw [if_neg hleast]
      by_cases hsurrogate : b.toNat = 0xED
      · rw [if_pos hsurrogate]
        exact ⟨0x80, 0x9F, by rw [hsurrogate], by simp only [UInt8.reduceToNat]; omega,
          by simp only [UInt8.reduceToNat]; omega⟩
      · rw [if_neg hsurrogate, if_pos (by omega)]
        exact ⟨0x80, 0xBF, rfl, by simp only [UInt8.reduceToNat]; omega,
          by simp only [UInt8.reduceToNat]; omega⟩
  obtain ⟨low, high, hopen, hdigit, hdigit'⟩ := hopen
  refine leads_of_open? hopen rfl ⟨?_, hdigit, hdigit'⟩ (by omega)
  show n / 4096 = b.toNat % 16
  omega

theorem leads_four (hlow : 0x10000 ≤ n) (hhigh : n ≤ 0x10FFFF) :
    Leads (UInt8.ofNat (n / 262144 % 8 + 0xF0)) n 2 := by
  have hb : (UInt8.ofNat (n / 262144 % 8 + 0xF0)).toNat = n / 262144 + 0xF0 := by
    rw [UInt8.toNat_ofNat']
    omega
  generalize UInt8.ofNat (n / 262144 % 8 + 0xF0) = b at *
  have hopen : ∃ low high : UInt8, Sequence.open? b = some ⟨b.toNat % 8, 3, low, high⟩ ∧
      low.toNat ≤ n / 4096 % 64 + 0x80 ∧ n / 4096 % 64 + 0x80 ≤ high.toNat := by
    simp only [Sequence.open?, UInt8.le_iff_toNat_le, UInt8.toNat_inj.symm, UInt8.reduceToNat]
    rw [if_neg (by omega), if_neg (by omega), if_neg (by omega), if_neg (by omega)]
    by_cases hleast : b.toNat = 0xF0
    · rw [if_pos hleast]
      exact ⟨0x90, 0xBF, by rw [hleast], by simp only [UInt8.reduceToNat]; omega,
        by simp only [UInt8.reduceToNat]; omega⟩
    · rw [if_neg hleast]
      by_cases hmost : b.toNat = 0xF4
      · rw [if_neg (by omega), if_pos hmost]
        exact ⟨0x80, 0x8F, by rw [hmost], by simp only [UInt8.reduceToNat]; omega,
          by simp only [UInt8.reduceToNat]; omega⟩
      · rw [if_pos (by omega)]
        exact ⟨0x80, 0xBF, rfl, by simp only [UInt8.reduceToNat]; omega,
          by simp only [UInt8.reduceToNat]; omega⟩
  obtain ⟨low, high, hopen, hdigit, hdigit'⟩ := hopen
  refine leads_of_open? hopen rfl ⟨?_, hdigit, hdigit'⟩ (by omega)
  show n / 262144 = b.toNat % 8
  omega

/-- A character is encoded by itself if it is ASCII, or else by a byte that leads and a
trail. -/
theorem encodeChar_cases (c : Char) :
    (∃ b, b < 0x80 ∧ Char.ofNat b.toNat = c ∧ String.utf8EncodeChar c = [b]) ∨
      ∃ b k, Leads b c.toNat k ∧ String.utf8EncodeChar c = b :: trail c.toNat (k + 1) := by
  have hvalid : c.toNat.isValidChar := c.valid
  have hscalar : c.toNat < 0xD800 ∨ 0xDFFF < c.toNat ∧ c.toNat < 0x110000 := hvalid
  have hc : Char.ofNat c.toNat = c := Char.ofNat_toNat c
  by_cases hone : c.toNat < 0x80
  · have hb : (UInt8.ofNat c.toNat).toNat = c.toNat := by
      rw [UInt8.toNat_ofNat']
      omega
    have hascii : UInt8.ofNat c.toNat < 0x80 := UInt8.lt_iff_toNat_lt.mpr (by rw [hb]; exact hone)
    refine .inl ⟨UInt8.ofNat c.toNat, hascii, by rw [hb, hc], ?_⟩
    rw [← encodeChar_of_ascii hascii, hb, hc]
  by_cases htwo : c.toNat ≤ 0x7FF
  · have hencoded := encodeChar_two (n := c.toNat) (by omega) htwo
    rw [hc] at hencoded
    exact .inr ⟨_, 0, leads_two (by omega) htwo, hencoded⟩
  by_cases hthree : c.toNat ≤ 0xFFFF
  · have hencoded := encodeChar_three (by omega) hthree hvalid
    rw [hc] at hencoded
    exact .inr ⟨_, 1, leads_three (by omega) hthree hvalid, hencoded⟩
  · have hencoded := encodeChar_four (n := c.toNat) (by omega) (by omega)
    rw [hc] at hencoded
    exact .inr ⟨_, 2, leads_four (by omega) (by omega), hencoded⟩

/-! ## Reading back -/

/-- What a sequence makes of the next byte of a value that it admits. -/
theorem resume_trail (hadmits : s.Admits n) (howed : s.owed = k + 1) :
    resume s (UInt8.ofNat (n / 64 ^ k % 64 + 0x80)) =
      if k = 0 then ([some (Char.ofNat (n / 64 ^ k))], none)
      else ([], some ⟨n / 64 ^ k, k, 0x80, 0xBF⟩) := by
  have hvalue := hadmits.value
  have hlow := hadmits.low
  have hhigh := hadmits.high
  rw [howed, Nat.pow_succ, ← Nat.div_div_eq_div_mul] at hvalue
  rw [howed, Nat.add_sub_cancel] at hlow hhigh
  have hdigit : (UInt8.ofNat (n / 64 ^ k % 64 + 0x80)).toNat = n / 64 ^ k % 64 + 0x80 := by
    rw [UInt8.toNat_ofNat']
    omega
  have hnext : s.value * 64 + (UInt8.ofNat (n / 64 ^ k % 64 + 0x80)).toNat % 64 = n / 64 ^ k := by
    rw [hdigit]
    omega
  rw [resume, if_pos ⟨UInt8.le_iff_toNat_le.mpr (by rwa [hdigit]),
    UInt8.le_iff_toNat_le.mpr (by rwa [hdigit])⟩, hnext, howed, Nat.add_sub_cancel]
  by_cases hlast : k = 0
  · rw [if_pos hlast, if_pos (by omega)]
  · rw [if_neg hlast, if_neg (by omega)]

/-- A trail completes every value that the sequence under way admits. -/
theorem decodeAfter_trail (hadmits : s.Admits n) (howed : s.owed = k + 1) :
    decodeAfter (some s) (trail n (k + 1) ++ rest)
      = some (Char.ofNat n) :: decodeAfter none rest := by
  induction k generalizing s with
  | zero =>
    rw [trail, List.cons_append, decodeAfter, resume_trail hadmits howed, if_pos rfl,
      Nat.pow_zero, Nat.div_one]
    rfl
  | succ k ih =>
    have hdigit : n / 64 ^ k % 64 ≤ 63 := Nat.le_of_lt_succ (Nat.mod_lt _ (by decide))
    have hnext : Sequence.Admits ⟨n / 64 ^ (k + 1), k + 1, 0x80, 0xBF⟩ n :=
      ⟨rfl, Nat.le_add_left _ _, Nat.add_le_add_right hdigit _⟩
    rw [trail, List.cons_append, decodeAfter, resume_trail hadmits howed,
      if_neg (Nat.succ_ne_zero k)]
    exact ih hnext rfl

/-- A character is decoded from its encoding. -/
theorem decodeAfter_encodeChar (c : Char) (rest : List UInt8) :
    decodeAfter none (String.utf8EncodeChar c ++ rest) = some c :: decodeAfter none rest := by
  rcases encodeChar_cases c with ⟨b, hascii, hc, hencoded⟩ | ⟨b, k, hleads, hencoded⟩
  · have hstart : start b = ([some c], none) := by rw [start, if_pos hascii, hc]
    rw [hencoded, List.singleton_append, decodeAfter, hstart]
    rfl
  · obtain ⟨s, hopen, howed, hadmits⟩ := hleads.opens
    have hstart : start b = ([], some s) := by rw [start, if_neg hleads.not_ascii, hopen]
    rw [hencoded, List.cons_append, decodeAfter, hstart]
    show decodeAfter (some s) _ = _
    rw [decodeAfter_trail hadmits howed, Char.ofNat_toNat]

/-- The characters of a text are decoded from its bytes. -/
theorem decode_bytes (text : String) : decode (bytes text) = text.toList.map some := by
  rw [bytes, decode]
  induction text.toList with
  | nil => rfl
  | cons c more ih => rw [List.flatMap_cons, decodeAfter_encodeChar, ih, List.map_cons]

/-- Text is shown as it is. -/
theorem lossy_bytes (text : String) : lossy (bytes text) = text := by
  have hplain : (fun i : Item => i.getD '\uFFFD') ∘ some = id := rfl
  rw [lossy, decode_bytes, List.map_map, hplain, List.map_id, String.ofList_toList]

/-! ## Cuts -/

/-- The first byte of a character continues nothing, and all others do. -/
theorem encodeChar_eq (c : Char) : ∃ b more, String.utf8EncodeChar c = b :: more ∧
    isContinuation b = false ∧ (∀ d ∈ more, isContinuation d = true) ∧
    (b < 0x80 → more = []) := by
  rcases encodeChar_cases c with ⟨b, hascii, -, hencoded⟩ | ⟨b, k, hleads, hencoded⟩
  · exact ⟨b, [], hencoded, isContinuation_of_ascii hascii, by simp, fun _ => rfl⟩
  · exact ⟨b, _, hencoded, hleads.not_continuation, fun d hd => isContinuation_of_mem_trail hd,
      fun hascii => absurd hascii hleads.not_ascii⟩

/-- Whether no character is under way before the first of these bytes. -/
def startsFresh (bytes : List UInt8) : Bool :=
  bytes.head?.all (! isContinuation ·)

theorem startsFresh_bytes (text : String) : startsFresh (bytes text) = true := by
  rw [bytes]
  cases text.toList with
  | nil => rfl
  | cons c more =>
    obtain ⟨b, tail, hencoded, hfresh, -⟩ := encodeChar_eq c
    rw [List.flatMap_cons, hencoded]
    simp [startsFresh, hfresh]

theorem cut_chars {chars : List Char}
    (h : chars.flatMap String.utf8EncodeChar = front ++ back) (hback : startsFresh back = true) :
    ∃ before behind, chars = before ++ behind ∧
      before.flatMap String.utf8EncodeChar = front ∧
      behind.flatMap String.utf8EncodeChar = back := by
  induction chars generalizing front with
  | nil =>
    obtain ⟨rfl, rfl⟩ := List.append_eq_nil_iff.mp h.symm
    exact ⟨[], [], rfl, rfl, rfl⟩
  | cons c more ih =>
    cases front with
    | nil => exact ⟨[], c :: more, rfl, rfl, h⟩
    | cons b front =>
      obtain ⟨lead, tail, hencoded, -, htail, -⟩ := encodeChar_eq c
      rw [List.flatMap_cons, hencoded, List.cons_append, List.cons_append] at h
      obtain ⟨rfl, hrest⟩ := List.cons.inj h
      rcases List.append_eq_append_iff.mp hrest with ⟨rest, hfront, hmore⟩ | ⟨rest, htails, hrest⟩
      · obtain ⟨before, behind, rfl, hbefore, hbehind⟩ := ih hmore
        refine ⟨c :: before, behind, rfl, ?_, hbehind⟩
        rw [List.flatMap_cons, hencoded, hbefore, hfront, List.cons_append]
      · cases rest with
        | nil =>
          refine ⟨[c], more, rfl, ?_, hrest.symm⟩
          rw [List.flatMap_singleton, hencoded, htails, List.append_nil]
        | cons d rest =>
          -- the cut would be before a byte that continues `c`
          have hd : isContinuation d = true := htail d (by simp [htails])
          rw [startsFresh, hrest, List.cons_append, List.head?_cons, Option.all_some, hd] at hback
          cases hback

/-- Before a byte that continues nothing a text may be cut. -/
theorem cut {text : String} (h : bytes text = front ++ back) (hback : startsFresh back = true) :
    ∃ before behind, text = before ++ behind ∧ bytes before = front ∧ bytes behind = back := by
  obtain ⟨before, behind, hchars, hbefore, hbehind⟩ := cut_chars h hback
  refine ⟨String.ofList before, String.ofList behind, ?_, ?_, ?_⟩
  · rw [← String.ofList_append, ← hchars, String.ofList_toList]
  · rw [bytes, String.toList_ofList, hbefore]
  · rw [bytes, String.toList_ofList, hbehind]

/-- Behind an ASCII byte a text may be cut. -/
theorem cut_behind {text : String} (h : bytes text = front ++ back)
    (hfront : front.getLast?.all (· < 0x80) = true) : ∃ behind, bytes behind = back := by
  rcases List.eq_nil_or_concat front with rfl | ⟨front, b, rfl⟩
  · exact ⟨text, h⟩
  rw [List.concat_eq_append] at h hfront
  have hascii : b < 0x80 := by simpa using hfront
  have hfresh : startsFresh (b :: back) = true := by
    simp [startsFresh, isContinuation_of_ascii hascii]
  rw [List.append_assoc, List.singleton_append] at h
  obtain ⟨-, behind, -, -, hbehind⟩ := cut h hfresh
  -- `b` is the whole encoding of the first character behind the cut before it
  rw [bytes] at hbehind
  cases hchars : behind.toList with
  | nil =>
    rw [hchars] at hbehind
    cases hbehind
  | cons c more =>
    obtain ⟨lead, tail, hencoded, -, -, hshort⟩ := encodeChar_eq c
    rw [hchars, List.flatMap_cons, hencoded, List.cons_append] at hbehind
    obtain ⟨rfl, hrest⟩ := List.cons.inj hbehind
    rw [hshort hascii, List.nil_append] at hrest
    exact ⟨String.ofList more, by rw [bytes, String.toList_ofList, hrest]⟩

end ApiDoc.Utf8
