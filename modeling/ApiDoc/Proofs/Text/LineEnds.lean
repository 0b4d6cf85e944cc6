import ApiDoc.Proofs.Text.Respelling
import ApiDoc.Text.Line
import Mathlib.Data.List.Count

/-!
# Two ways to respell line ends

* **Exchange**: every line feed is written as a carriage return and every
  carriage return as a line feed. Every text suits this (`suits_exchange`), and
  its lines stay as they are (`Source.lines_exchange`).
* **Pairs**: every line feed is written as a carriage return and a line feed. A
  text suits this if it holds no carriage returns and does not escape its line
  feeds (`suits_pairs`). Its offsets move, and stay on their lines
  (`Source.lineNumber_pairs`).
-/

namespace ApiDoc

/-- The other break, if the byte is one. -/
def Byte.exchange (b : UInt8) : UInt8 :=
  if b = lineFeed then carriageReturn else if b = carriageReturn then lineFeed else b

/-- A line feed with a carriage return before it; any other byte by itself. -/
def Byte.paired (b : UInt8) : List UInt8 :=
  if b = lineFeed then [carriageReturn, lineFeed] else [b]

namespace Byte

variable {a b : UInt8}

theorem exchange_of_not_isBreak (h : isBreak b = false) : exchange b = b := by
  rw [← Bool.not_eq_true, isBreak_iff, not_or] at h
  rw [exchange, if_neg h.1, if_neg h.2]

@[simp]
theorem exchange_exchange (b : UInt8) : exchange (exchange b) = b := by
  by_cases hbreak : isBreak b = true
  · rcases isBreak_iff.mp hbreak with rfl | rfl <;> decide
  · rw [Bool.not_eq_true] at hbreak
    rw [exchange_of_not_isBreak hbreak, exchange_of_not_isBreak hbreak]

theorem exchange_injective : Function.Injective exchange :=
  Function.LeftInverse.injective exchange_exchange

theorem isBreak_exchange (b : UInt8) : isBreak (exchange b) = isBreak b := by
  by_cases hbreak : isBreak b = true
  · rcases isBreak_iff.mp hbreak with rfl | rfl <;> decide
  · rw [Bool.not_eq_true] at hbreak
    rw [exchange_of_not_isBreak hbreak]

/-- The break that pairs with a break is the other one. -/
theorem pairedBreak_exchange (h : isBreak b = true) :
    pairedBreak (exchange b) = exchange (pairedBreak b) := by
  rcases isBreak_iff.mp h with rfl | rfl <;> decide

end Byte

/-! ## Exchange -/

namespace Respelling

/-- Each break is written as the other one. -/
def exchange : Respelling where
  spell b := [Byte.exchange b]
  plain h := by rw [Byte.exchange_of_not_isBreak h]
  breaks {b} h := by
    refine ⟨List.cons_ne_nil _ _, ?_⟩
    intro d hd
    rw [List.mem_singleton.mp hd, Byte.isBreak_exchange, h]

theorem text_exchange (bytes : List UInt8) : exchange.text bytes = bytes.map Byte.exchange :=
  List.map_eq_flatMap.symm

theorem breakLength_exchange (bytes : List UInt8) :
    Cursor.breakLength (bytes.map Byte.exchange) = Cursor.breakLength bytes := by
  have hne : ∀ a b : UInt8, (Byte.exchange b != Byte.exchange a) = (b != a) := by
    intro a b
    rw [Bool.eq_iff_iff, bne_iff_ne, bne_iff_ne, Byte.exchange_injective.ne_iff]
  match bytes with
  | [] => rfl
  | [a] => simp only [List.map_cons, List.map_nil, Cursor.breakLength, Byte.isBreak_exchange]
  | a :: b :: rest =>
    simp only [List.map_cons, Cursor.breakLength, Byte.isBreak_exchange, hne]

theorem suits_exchange (bytes : List UInt8) : exchange.Suits bytes where
  lineEnds {back} _ := by
    rw [text_exchange, text_exchange, breakLength_exchange, List.length_map, List.length_take,
      Nat.min_eq_left (Cursor.breakLength_le back)]
  escapes _ := ⟨_, rfl⟩

/-! ## Pairs -/

/-- Each line feed is written with a carriage return before it. -/
def pairs : Respelling where
  spell := Byte.paired
  plain {b} h := by
    rw [← Bool.not_eq_true, Byte.isBreak_iff, not_or] at h
    exact if_neg h.1
  breaks {b} h := by
    rcases Byte.isBreak_iff.mp h with rfl | rfl
    · exact ⟨nofun, List.forall_mem_cons.mpr ⟨rfl, List.forall_mem_singleton.mpr rfl⟩⟩
    · exact ⟨nofun, List.forall_mem_singleton.mpr rfl⟩

/-- Text that ends its lines with line feeds, and does not escape them. -/
structure Feeds (bytes : List UInt8) : Prop where
  feeds : Byte.carriageReturn ∉ bytes
  unescaped : ¬ [Byte.backslash, Byte.lineFeed] <:+: bytes

variable {bytes : List UInt8}

theorem text_lineFeed (bytes : List UInt8) :
    pairs.text (Byte.lineFeed :: bytes)
      = Byte.carriageReturn :: Byte.lineFeed :: pairs.text bytes :=
  text_cons Byte.lineFeed bytes

/-- A byte is a line feed or kept, if there are no carriage returns. -/
theorem eq_lineFeed_or {b : UInt8} (h : b ≠ Byte.carriageReturn) :
    b = Byte.lineFeed ∨ Byte.isBreak b = false := by
  cases hb : Byte.isBreak b with
  | false => exact .inr rfl
  | true => exact .inl ((Byte.isBreak_iff.mp hb).resolve_right h)

theorem length_text_pairs (bytes : List UInt8) :
    (pairs.text bytes).length = bytes.length + bytes.count Byte.lineFeed := by
  induction bytes with
  | nil => rfl
  | cons b bytes ih =>
    rw [text_cons, List.length_append, ih, List.length_cons, List.count_cons]
    by_cases hb : b = Byte.lineFeed
    · subst hb
      rw [if_pos (beq_self_eq_true _)]
      show 2 + _ = _
      omega
    · have hone : pairs.spell b = [b] := if_neg hb
      rw [hone, if_neg (by simpa using hb), List.length_singleton]
      omega

/-- A line feed ends its line alone, and behind a carriage return together with
it. -/
theorem lineEnds_pairs (h : Byte.carriageReturn ∉ bytes) :
    Cursor.breakLength (pairs.text bytes)
      = (pairs.text (bytes.take (Cursor.breakLength bytes))).length := by
  cases bytes with
  | nil => rfl
  | cons a tail =>
    obtain ⟨ha, htail⟩ := List.ne_and_not_mem_of_not_mem_cons h
    rcases eq_lineFeed_or (Ne.symm ha) with rfl | hplain
    · have hone : Cursor.breakLength (Byte.lineFeed :: tail) = 1 := by
        cases tail with
        | nil => rfl
        | cons b rest =>
          have hb := (List.ne_and_not_mem_of_not_mem_cons htail).1
          rcases eq_lineFeed_or (Ne.symm hb) with rfl | hplain
          · rfl
          · rw [Cursor.breakLength, hplain]
            rfl
      rw [hone, text_lineFeed]
      rfl
    · have hzero : ∀ more, Cursor.breakLength (a :: more) = 0 := by
        intro more
        cases more with
        | nil => rw [Cursor.breakLength, hplain]; rfl
        | cons b rest => rw [Cursor.breakLength, hplain]; rfl
      rw [text_plain hplain, hzero, hzero]
      rfl

theorem suits_pairs (h : Feeds bytes) : pairs.Suits bytes where
  lineEnds {back} hback := lineEnds_pairs fun hmem => h.feeds (hback.subset hmem)
  escapes {b back} hback := by
    refine ⟨b, if_neg ?_⟩
    rintro rfl
    refine h.unescaped ?_
    exact (List.prefix_append [Byte.backslash, Byte.lineFeed] back).isInfix.trans hback.isInfix

/-- The place of an offset behind the line feeds before it. -/
def pairPlace (bytes : List UInt8) (offset : Nat) : Nat :=
  offset + (bytes.take offset).count Byte.lineFeed

end Respelling

/-! ## Lines -/

namespace Source

open Respelling

variable {source other : Source}

/-- Lines are counted in the bytes alone. -/
theorem lines_eq (h : other.bytes = source.bytes) (offset : Nat) :
    other.lineNumber offset = source.lineNumber offset ∧
      other.lineBounds offset = source.lineBounds offset := by
  obtain ⟨name, bytes, fits⟩ := source
  obtain ⟨name', bytes', fits'⟩ := other
  obtain rfl : bytes' = bytes := h
  exact ⟨rfl, rfl⟩

/-- A source without breaks is kept by every respelling. -/
theorem bytes_eq_of_find? {r : Respelling} (h : other.bytes = r.text source.bytes)
    (hnone : source.bytes.find? Byte.isBreak = none) : other.bytes = source.bytes := by
  rw [List.find?_eq_none] at hnone
  rw [h, text_line fun b hb => by simpa using hnone b hb]

section

variable (h : other.bytes = source.bytes.map Byte.exchange) {newline : UInt8}
  (hnewline : source.bytes.find? Byte.isBreak = some newline)

include h

theorem find?_exchange :
    other.bytes.find? Byte.isBreak = (source.bytes.find? Byte.isBreak).map Byte.exchange := by
  have hsame : Byte.isBreak ∘ Byte.exchange = Byte.isBreak := funext Byte.isBreak_exchange
  rw [h, List.find?_map, hsame]

include hnewline

theorem dominantBreak_exchange :
    other.dominantBreak = Byte.exchange source.dominantBreak := by
  rw [dominantBreak, dominantBreak, find?_exchange h, hnewline]
  rfl

/-- The bytes before and behind the next dominant break. -/
theorem length_takeWhile_exchange (bytes : List UInt8) :
    ((bytes.map Byte.exchange).takeWhile (· != other.dominantBreak)).length
      = (bytes.takeWhile (· != source.dominantBreak)).length := by
  have hsame : (fun b => b != other.dominantBreak) ∘ Byte.exchange
      = fun b => b != source.dominantBreak := by
    funext b
    rw [Function.comp_apply, dominantBreak_exchange h hnewline, Bool.eq_iff_iff, bne_iff_ne,
      bne_iff_ne, Byte.exchange_injective.ne_iff]
  rw [List.takeWhile_map, hsame, List.length_map]

theorem lineNumber_exchange (offset : Nat) :
    other.lineNumber offset = source.lineNumber offset := by
  rw [lineNumber, lineNumber, dominantBreak_exchange h hnewline, h, ← List.map_take,
    List.count_map_of_injective _ _ Byte.exchange_injective]

theorem pairedAt_exchange (offset : Nat) : other.pairedAt offset = source.pairedAt offset := by
  have hbreak : Byte.isBreak source.dominantBreak = true := by
    rw [dominantBreak, hnewline]
    exact List.find?_some hnewline
  rw [pairedAt, pairedAt, dominantBreak_exchange h hnewline, Byte.pairedBreak_exchange hbreak,
    byte?, byte?, h, List.getElem?_map, ← Option.map_some, Bool.eq_iff_iff, beq_iff_eq, beq_iff_eq]
  exact (Option.map_injective Byte.exchange_injective).eq_iff

theorem lineBounds_exchange (offset : Nat) :
    other.lineBounds offset = source.lineBounds offset := by
  have hlength : other.length = source.length := by rw [length, length, h, List.length_map]
  have hstart : other.lineStart offset = source.lineStart offset := by
    simp only [lineStart]
    rw [h, ← List.map_take, List.length_map, ← List.map_reverse,
      length_takeWhile_exchange h hnewline]
  have hstop : other.lineStop offset = source.lineStop offset := by
    simp only [lineStop]
    rw [h, ← List.map_drop, hlength, length_takeWhile_exchange h hnewline]
  simp only [lineBounds, hstart, hstop, pairedAt_exchange h hnewline]

end

/-- Lines stay as they are if the breaks are exchanged. -/
theorem lines_exchange (h : other.bytes = source.bytes.map Byte.exchange) (offset : Nat) :
    other.lineNumber offset = source.lineNumber offset ∧
      other.lineBounds offset = source.lineBounds offset := by
  cases hfind : source.bytes.find? Byte.isBreak with
  | none => exact lines_eq (bytes_eq_of_find? (h.trans (text_exchange _).symm) hfind) offset
  | some newline => exact ⟨lineNumber_exchange h hfind offset, lineBounds_exchange h hfind offset⟩

/-- In pairs the carriage returns count as the line feeds did. -/
theorem count_pairs {bytes : List UInt8} (h : Byte.carriageReturn ∉ bytes) :
    (pairs.text bytes).count Byte.carriageReturn = bytes.count Byte.lineFeed := by
  induction bytes with
  | nil => rfl
  | cons b bytes ih =>
    obtain ⟨hb, htail⟩ := List.ne_and_not_mem_of_not_mem_cons h
    rcases eq_lineFeed_or (Ne.symm hb) with rfl | hplain
    · rw [text_lineFeed, List.count_cons_self, List.count_cons_of_ne (by decide), ih htail,
        List.count_cons_self]
    · have hne : b ≠ Byte.lineFeed := by
        rintro rfl
        cases hplain
      rw [text_plain hplain, List.count_cons_of_ne (Ne.symm hb), ih htail,
        List.count_cons_of_ne hne]

theorem find?_pairs {bytes : List UInt8} (h : Byte.carriageReturn ∉ bytes) :
    (pairs.text bytes).find? Byte.isBreak
      = (bytes.find? Byte.isBreak).map fun _ => Byte.carriageReturn := by
  induction bytes with
  | nil => rfl
  | cons b bytes ih =>
    obtain ⟨hb, htail⟩ := List.ne_and_not_mem_of_not_mem_cons h
    rcases eq_lineFeed_or (Ne.symm hb) with rfl | hplain
    · rw [text_lineFeed]
      rfl
    · rw [text_plain hplain, List.find?_cons_of_neg (by simp [hplain]), ih htail,
        List.find?_cons_of_neg (by simp [hplain])]

/-- Offsets stay on their lines if line feeds are written as pairs. -/
theorem lineNumber_pairs (h : other.bytes = pairs.text source.bytes)
    (hfeeds : Byte.carriageReturn ∉ source.bytes) {offset : Nat} (hoffset : offset ≤ source.length) :
    other.lineNumber (pairPlace source.bytes offset) = source.lineNumber offset := by
  cases hfind : source.bytes.find? Byte.isBreak with
  | none =>
    have hzero : (source.bytes.take offset).count Byte.lineFeed = 0 := by
      rw [List.count_eq_zero]
      intro hmem
      exact List.find?_eq_none.mp hfind _ (List.mem_of_mem_take hmem) rfl
    rw [pairPlace, hzero]
    exact (lines_eq (bytes_eq_of_find? h hfind) offset).1
  | some newline =>
    have hdominant : source.dominantBreak = Byte.lineFeed := by
      have hmem := List.mem_of_find?_eq_some hfind
      rw [dominantBreak, hfind]
      rcases Byte.isBreak_iff.mp (List.find?_some hfind) with hlf | hcr
      · exact hlf
      · exact absurd (hcr ▸ hmem) hfeeds
    have hdominant' : other.dominantBreak = Byte.carriageReturn := by
      rw [dominantBreak, h, find?_pairs hfeeds, hfind]
      rfl
    have htake : other.bytes.take (pairPlace source.bytes offset)
        = pairs.text (source.bytes.take offset) := by
      have hlength : pairPlace source.bytes offset
          = (pairs.text (source.bytes.take offset)).length := by
        rw [length_text_pairs, pairPlace, List.length_take]
        rw [Source.length] at hoffset
        omega
      rw [h, hlength]
      nth_rewrite 2 [← List.take_append_drop offset source.bytes]
      rw [text_append, List.take_left]
    rw [lineNumber, lineNumber, hdominant, hdominant', htake,
      count_pairs fun hmem => hfeeds (List.mem_of_mem_take hmem)]

end Source

end ApiDoc
