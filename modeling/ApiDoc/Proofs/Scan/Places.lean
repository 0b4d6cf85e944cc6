import ApiDoc.Proofs.Scan.Coverage
import ApiDoc.Proofs.Scan.Extension
import ApiDoc.Proofs.Scan.Failure
import ApiDoc.Proofs.Text.Respelling

/-!
# Cursors in a respelt source

A respelling moves the bytes of a source. Where they go is told by a map of
offsets, `place`, that fits the respelling (`Converts`). Every move of a cursor
is then a move in the respelt source, from place to place:

* **Moves** (`Converts.takes`): what a cursor passes over is respelt. So each
  move commutes with the respelling.
* **Looks**: what a cursor sees ahead is the same, up to the spelling of breaks.
* **Lexemes** (`Converts.events`): one that does not end with a break has its
  first and its last byte in their places.
-/

namespace ApiDoc

/-- A respelling for which the source is fit, and the places of its offsets. -/
structure Converts (r : Respelling) (source : Source) (place : Nat → Nat) : Prop where
  suits : r.Suits source.bytes
  length : ∀ {front back}, source.bytes = front ++ back →
    place front.length = (r.text front).length
  fits : (r.text source.bytes).length ≤ maxOffset

def Span.relocate (place : Nat → Nat) (span : Span) : Span :=
  ⟨place span.first, place span.last⟩

/-- The event with both ends of its span in their places. -/
def Event.relocate (place : Nat → Nat) (e : Event) : Event :=
  { e with span := e.span.relocate place }

/-- The cursor in the respelt source. -/
def Cursor.respell (r : Respelling) (place : Nat → Nat) (c : Cursor) : Cursor :=
  ⟨place c.pos, r.text c.rest⟩

/-- Where the recogniser stops in the respelt text. -/
def Keyword.Outcome.respell (r : Respelling) : Keyword.Outcome → Keyword.Outcome
  | .found kind rest => .found kind (r.text rest)
  | .stuck progress rest => .stuck progress (r.text rest)

namespace Respelling

/-! ## Words -/

variable {r : Respelling} {bytes word : List UInt8}

theorem isPrefixOf_text (h : ∀ b ∈ word, Byte.isBreak b = false) :
    word.isPrefixOf (r.text bytes) = word.isPrefixOf bytes := by
  rw [Bool.eq_iff_iff, List.isPrefixOf_iff_prefix, List.isPrefixOf_iff_prefix]
  constructor
  · rintro ⟨rest, hrest⟩
    obtain ⟨tail, rfl, -⟩ := of_text_eq_append h hrest.symm
    exact List.prefix_append word tail
  · rintro ⟨tail, rfl⟩
    rw [text_line_append h]
    exact List.prefix_append word _

theorem endsWord_text : Keyword.endsWord (r.text bytes) = Keyword.endsWord bytes := by
  have hbreak : ∀ {b tail}, Byte.isBreak b = true → Keyword.endsWord (b :: tail) = true := by
    intro b tail hb
    rw [Keyword.endsWord, hb, Bool.or_true, Bool.true_or]
  rcases r.head_cases bytes with
    ⟨rfl, h⟩ | ⟨b, tail, rfl, -, h⟩ | ⟨b, tail, d, more, rfl, hb, h, hd⟩
  · rw [h]
  · rw [h]
    rfl
  · rw [h, hbreak hd, hbreak hb]

/-- A line opens a directive as before. -/
theorem opensDirective_text (r : Respelling) (bytes : List UInt8) :
    Keyword.opensDirective (r.text bytes) = Keyword.opensDirective bytes := by
  rw [Bool.eq_iff_iff, Keyword.opensDirective_iff, Keyword.opensDirective_iff]
  constructor
  · rintro ⟨word, kind, rest, htext, hspells, hends⟩
    obtain ⟨tail, rfl, rfl⟩ := of_text_eq_append hspells.isBreak htext
    exact ⟨word, kind, tail, rfl, hspells, endsWord_text ▸ hends⟩
  · rintro ⟨word, kind, tail, rfl, hspells, hends⟩
    refine ⟨word, kind, r.text tail, text_line_append hspells.isBreak tail, hspells, ?_⟩
    rw [endsWord_text]
    exact hends

theorem finish_text (p : Keyword.Progress) (bytes : List UInt8) :
    p.finish (r.text bytes) = (p.finish bytes).respell r := by
  unfold Keyword.Progress.finish
  cases p.complete? with
  | none => rfl
  | some kind => rfl

theorem run_text (p : Keyword.Progress) (bytes : List UInt8) :
    p.run (r.text bytes) = (p.run bytes).respell r := by
  induction bytes generalizing p with
  | nil => exact finish_text p []
  | cons b tail ih =>
    have hbreak : ∀ {b}, Byte.isBreak b = true → Keyword.isBoundary b = true := by
      intro b hb
      rw [Keyword.isBoundary, hb, Bool.or_true, Bool.true_or]
    cases hb : Byte.isBreak b with
    | true =>
      obtain ⟨d, more, htext, hd⟩ := text_break (r := r) hb tail
      rw [Keyword.Progress.run, if_pos (hbreak hb), htext, Keyword.Progress.run,
        if_pos (hbreak hd), ← htext, finish_text]
    | false =>
      have htext : r.text (b :: tail) = b :: r.text tail := text_plain hb tail
      rw [htext, Keyword.Progress.run, Keyword.Progress.run]
      split
      · rw [← htext, finish_text]
      · split
        · exact ih _
        · rw [← htext]
          rfl

theorem recognise_text (bytes : List UInt8) :
    Keyword.recognise (r.text bytes) = (Keyword.recognise bytes).respell r :=
  run_text .start bytes

theorem quotedRest_text (escaped : Bool) (bytes : List UInt8) :
    Scan.quotedRest escaped (r.text bytes) = r.text (Scan.quotedRest escaped bytes) := by
  fun_induction Scan.quotedRest escaped bytes with
  | case1 => rfl
  | case2 escaped b tail hb =>
    obtain ⟨d, more, htext, hd⟩ := text_break (r := r) hb tail
    rw [htext, Scan.quotedRest, if_pos hd]
  | case3 b tail hb ih =>
    rw [text_plain (by simpa using hb), Scan.quotedRest, if_neg hb, if_pos rfl, ih]
  | case4 escaped tail hescaped hb ih =>
    rw [text_plain rfl, Scan.quotedRest, if_neg hb, if_neg hescaped, if_pos rfl, ih]
  | case5 escaped tail hescaped hb hback =>
    rw [text_plain rfl, Scan.quotedRest, if_neg hb, if_neg hescaped, if_neg hback, if_pos rfl]
  | case6 escaped b tail hb hescaped hback hquote ih =>
    rw [text_plain (by simpa using hb), Scan.quotedRest, if_neg hb, if_neg hescaped, if_neg hback,
      if_neg hquote, ih]

theorem endsText_text (inContext : Bool) (bytes : List UInt8) :
    Scan.endsText inContext (r.text bytes) = Scan.endsText inContext bytes := by
  have hopens := opensDirective_text r bytes
  rcases r.head_cases bytes with
    ⟨rfl, h⟩ | ⟨b, tail, rfl, -, h⟩ | ⟨b, tail, d, more, rfl, hb, h, hd⟩
  · rfl
  · rw [h] at hopens ⊢
    rw [Scan.endsText, Scan.endsText, hopens]
  · rw [h] at hopens ⊢
    have hparen : ∀ {x}, Byte.isBreak x = true → (x == Byte.closeParen) = false := by
      intro x hx
      exact beq_false_of_ne fun heq => by rw [heq] at hx; cases hx
    rw [Scan.endsText, Scan.endsText, hopens, hparen hd, hparen hb]

theorem opensItem_text (bytes : List UInt8) :
    Scan.opensItem (r.text bytes) = Scan.opensItem bytes := by
  have hopens := opensDirective_text r bytes
  have hblock : [Byte.slash, Byte.hash].isPrefixOf (r.text bytes) = _ :=
    isPrefixOf_text (List.forall_mem_cons.mpr ⟨rfl, List.forall_mem_singleton.mpr rfl⟩)
  rcases r.head_cases bytes with
    ⟨rfl, h⟩ | ⟨b, tail, rfl, -, h⟩ | ⟨b, tail, d, more, rfl, hb, h, hd⟩
  · rfl
  · rw [h] at hopens hblock ⊢
    rw [Scan.opensItem, Scan.opensItem, hopens, hblock]
  · rw [h] at hopens hblock ⊢
    have hmark : ∀ {x y}, Byte.isBreak x = true → Byte.isBreak y = false → (x == y) = false := by
      intro x y hx hy
      exact beq_false_of_ne fun heq => by rw [heq, hy] at hx; cases hx
    rw [Scan.opensItem, Scan.opensItem, hopens, hblock, hmark hd rfl, hmark hd rfl, hmark hd rfl,
      hmark hb rfl, hmark hb rfl, hmark hb rfl]

end Respelling

namespace Converts

open Respelling

variable {r : Respelling} {source : Source} {place : Nat → Nat} {c d : Cursor}
  {taken rest word : List UInt8} {b : UInt8} {tail : List UInt8}

theorem suits_rest (h : Converts r source place) (hc : source.Holds c) : r.Suits c.rest := by
  obtain ⟨front, hfront⟩ := hc
  exact h.suits.of_suffix ⟨front, hfront.rest.symm⟩

theorem place_pos (h : Converts r source place) (hfront : source.cursor.Takes taken c) :
    place c.pos = (r.text taken).length := by
  have hpos : c.pos = taken.length := hfront.pos.trans (Nat.zero_add _)
  rw [hpos]
  exact h.length hfront.rest

/-! ## Moves -/

/-- A move in the source is a move in the respelt source. -/
theorem takes (h : Converts r source place) (hc : source.Holds c) (k : c.Takes taken d) :
    (c.respell r place).Takes (r.text taken) (d.respell r place) := by
  obtain ⟨front, hfront⟩ := hc
  refine ⟨?_, ?_⟩
  · show r.text c.rest = r.text taken ++ r.text d.rest
    rw [k.rest, text_append]
  · show place d.pos = place c.pos + (r.text taken).length
    rw [h.place_pos (hfront.trans k), h.place_pos hfront, text_append, List.length_append]

theorem eatWhile (h : Converts r source place) (hc : source.Holds c) {p : UInt8 → Bool}
    (hp : Uniform p) : (c.respell r place).eatWhile p = (c.eatWhile p).respell r place := by
  have hmove := (c.respell r place).takes_eatWhile p
  have htext : (c.respell r place).rest.takeWhile p = r.text (c.rest.takeWhile p) :=
    takeWhile_text hp c.rest
  rw [htext] at hmove
  exact hmove.unique (h.takes hc (c.takes_eatWhile p))

theorem eatBlanks (h : Converts r source place) (hc : source.Holds c) :
    (c.respell r place).eatBlanks = c.eatBlanks.respell r place :=
  h.eatWhile hc uniform_isBlank

theorem eatWhite (h : Converts r source place) (hc : source.Holds c) :
    (c.respell r place).eatWhite = c.eatWhite.respell r place :=
  h.eatWhile hc uniform_isWhite

theorem eatLine (h : Converts r source place) (hc : source.Holds c) :
    (c.respell r place).eatLine = c.eatLine.respell r place :=
  h.eatWhile hc uniform_isBreak.not

/-- Moves past a word, respelt. -/
theorem advance (h : Converts r source place) (hc : source.Holds c) (hr : c.rest = word ++ rest) :
    (c.respell r place).advance (r.text word).length
      = (c.advance word.length).respell r place := by
  have hword : c.Takes word (c.advance word.length) := by
    have := c.takes_advance word.length
    rwa [hr, List.take_left] at this
  have htext : (c.respell r place).rest = r.text word ++ r.text rest := by
    rw [← text_append, ← hr]
    rfl
  have hmove := (c.respell r place).takes_advance (r.text word).length
  rw [htext, List.take_left] at hmove
  exact hmove.unique (h.takes hc hword)

theorem advance_one (h : Converts r source place) (hc : source.Holds c)
    (hr : c.rest = b :: tail) (hb : Byte.isBreak b = false) :
    (c.respell r place).advance = c.advance.respell r place := by
  have hmove := h.advance hc (List.singleton_append ▸ hr)
  rwa [text_plain hb, text_nil] at hmove

theorem eatBreak (h : Converts r source place) (hc : source.Holds c) :
    (c.respell r place).eatBreak = c.eatBreak.respell r place := by
  have hlength : Cursor.breakLength (r.text c.rest) = _ :=
    (h.suits_rest hc).lineEnds (List.suffix_refl _)
  have hmove := h.advance hc (List.take_append_drop (Cursor.breakLength c.rest) _).symm
  rwa [← hlength, List.length_take, Nat.min_eq_left (Cursor.breakLength_le c.rest)] at hmove

theorem moveTo (h : Converts r source place) (hc : source.Holds c) (hr : rest <:+ c.rest) :
    (c.respell r place).moveTo (r.text rest) = (c.moveTo rest).respell r place := by
  obtain ⟨taken, htaken⟩ := hr
  have htext : (c.respell r place).rest = r.text taken ++ r.text rest := by
    rw [← text_append, htaken]
    rfl
  exact (Cursor.takes_moveTo htext).unique (h.takes hc (Cursor.takes_moveTo htaken.symm))

/-! ## Looks -/

theorem line (c : Cursor) : (c.respell r place).line = c.line := by
  have htext : (c.respell r place).line = r.text c.line := takeWhile_text uniform_isBreak.not c.rest
  rw [htext, text_line fun b hb => Cursor.isBreak_of_mem_line hb]

theorem atLineEnd (c : Cursor) : (c.respell r place).atLineEnd = c.atLineEnd := by
  have hrest : (c.respell r place).rest = r.text c.rest := rfl
  unfold Cursor.atLineEnd
  rw [hrest]
  rcases r.head_cases c.rest with
    ⟨hr, h⟩ | ⟨b, tail, hr, -, h⟩ | ⟨b, tail, d, more, hr, hb, h, hd⟩
  · rw [h, hr]
  · rw [h, hr]
  · rw [h, hr]
    exact hd.trans hb.symm

theorem atBreak (h : Converts r source place) (hc : source.Holds c) :
    (c.respell r place).atBreak = c.atBreak := by
  have hlength : Cursor.breakLength (r.text c.rest) = _ :=
    (h.suits_rest hc).lineEnds (List.suffix_refl _)
  rw [Bool.eq_iff_iff, Cursor.atBreak, Cursor.atBreak, bne_iff_ne, bne_iff_ne]
  refine not_congr ?_
  show Cursor.breakLength (r.text c.rest) = 0 ↔ _
  rw [hlength, List.length_eq_zero_iff, text_eq_nil_iff, List.take_eq_nil_iff]
  constructor
  · rintro (hzero | hnil)
    · exact hzero
    · rw [hnil]
      rfl
  · exact .inl

theorem current_eq_iff (c : Cursor) {x : UInt8} (hx : Byte.isBreak x = false) :
    (c.respell r place).current = x ↔ c.current = x :=
  headD_text hx

theorem isBlank_current (c : Cursor) :
    Byte.isBlank (c.respell r place).current = Byte.isBlank c.current := by
  show Byte.isBlank ((r.text c.rest).headD 0) = Byte.isBlank (c.rest.headD 0)
  rcases r.head_cases c.rest with
    ⟨hr, h⟩ | ⟨b, tail, hr, -, h⟩ | ⟨b, tail, d, more, hr, hb, h, hd⟩
  · rw [h, hr]
  · rw [h, hr]
    rfl
  · rw [h, hr]
    exact uniform_isBlank d b hd hb

theorem peek_eq_iff (hr : c.rest = b :: tail) (hb : Byte.isBreak b = false) {x : UInt8}
    (hx : Byte.isBreak x = false) : (c.respell r place).peek = x ↔ c.peek = x := by
  have htext : (c.respell r place).rest = b :: r.text tail := by
    rw [← text_plain hb, ← hr]
    rfl
  rw [Cursor.peek, Cursor.peek, htext, hr]
  exact headD_text hx

theorem endsDirectiveLine (c : Cursor) :
    Scan.endsDirectiveLine (c.respell r place) = Scan.endsDirectiveLine c := by
  have hcurrent : ((c.respell r place).current == Byte.hash) = (c.current == Byte.hash) := by
    rw [Bool.eq_iff_iff, beq_iff_eq, beq_iff_eq]
    exact current_eq_iff c rfl
  have hslashes : (c.respell r place).startsWith [Byte.slash, Byte.slash]
      = c.startsWith [Byte.slash, Byte.slash] :=
    isPrefixOf_text (List.forall_mem_cons.mpr ⟨rfl, List.forall_mem_singleton.mpr rfl⟩)
  rw [Scan.endsDirectiveLine, Scan.endsDirectiveLine, atLineEnd, hslashes, hcurrent]

/-! ## Places -/

/-- Offsets keep their order. -/
theorem place_le (h : Converts r source place) {p q : Nat} (hpq : p ≤ q) (hq : q ≤ source.length) :
    place p ≤ place q := by
  have hplace : ∀ {n}, n ≤ source.length → place n = (r.text (source.bytes.take n)).length := by
    intro n hn
    have := h.length (List.take_append_drop n source.bytes).symm
    rwa [List.length_take, ← Source.length, Nat.min_eq_left hn] at this
  have hsplit : source.bytes.take q
      = source.bytes.take p ++ (source.bytes.take q).drop p := by
    have := (List.take_append_drop p (source.bytes.take q)).symm
    rwa [List.take_take, Nat.min_eq_left hpq] at this
  rw [hplace (Nat.le_trans hpq hq), hplace hq, hsplit, text_append, List.length_append]
  exact Nat.le_add_right _ _

theorem place_max (h : Converts r source place) {p q : Nat} (hp : p ≤ source.length)
    (hq : q ≤ source.length) : max (place p) (place q) = place (max p q) := by
  rcases Nat.le_total p q with hpq | hqp
  · rw [Nat.max_eq_right hpq, Nat.max_eq_right (h.place_le hpq hq)]
  · rw [Nat.max_eq_left hqp, Nat.max_eq_left (h.place_le hqp hp)]

/-- The text of the line, as a word that is taken. -/
theorem takes_textEnd (c : Cursor) :
    ∃ d, c.Takes (Cursor.trimEnd c.line) d ∧ d.pos = c.textEnd := by
  obtain ⟨back, htakes, -⟩ := Scan.takes_eatLine_text c
  obtain ⟨d, htext, -⟩ := htakes.split
  exact ⟨d, htext, htext.pos⟩

theorem textEnd_le (hc : source.Holds c) : c.textEnd ≤ source.length := by
  obtain ⟨d, htakes, hd⟩ := takes_textEnd c
  rw [← hd, ← (hc.move htakes).stop]
  exact Nat.le_add_right _ _

theorem textEnd (h : Converts r source place) (hc : source.Holds c) :
    (c.respell r place).textEnd = place c.textEnd := by
  obtain ⟨d, htakes, hd⟩ := takes_textEnd c
  have hpos := (h.takes hc htakes).pos
  have htext : r.text (Cursor.trimEnd c.line) = Cursor.trimEnd c.line := by
    apply text_line
    intro b hb
    rw [Cursor.trimEnd_eq_rdropWhile] at hb
    exact Cursor.isBreak_of_mem_line ((List.rdropWhile_prefix _ _).subset hb)
  rw [htext] at hpos
  rw [Cursor.textEnd, line, ← hd]
  exact hpos.symm

/-- A lexeme that does not end with a break has its ends in their places. -/
theorem events (h : Converts r source place) (hc : source.Holds c) (k : c.Takes word d)
    (hne : word ≠ []) (hlast : endsLine word = false) (part : Part) :
    part.events (place c.pos) (place d.pos)
      = (part.events c.pos d.pos).map (Event.relocate place) := by
  obtain ⟨init, b, rfl⟩ : ∃ init b, word = init ++ [b] :=
    ⟨word.dropLast, word.getLast hne, (List.dropLast_append_getLast hne).symm⟩
  rw [endsLine_append_of_ne_nil (List.cons_ne_nil b []), endsLine_singleton] at hlast
  -- `e` stands before the last byte
  obtain ⟨e, hinit, hbyte⟩ := k.split
  have hpos : d.pos = e.pos + 1 := hbyte.pos
  have hplace : place d.pos = place e.pos + 1 := by
    have := (h.takes (hc.move hinit) hbyte).pos
    rwa [text_plain hlast] at this
  have hle := hinit.pos
  have hle' : place e.pos = place c.pos + (r.text init).length := (h.takes hc hinit).pos
  rw [Part.events, Part.events, Span.ofRange_of_lt (by omega), Span.ofRange_of_lt (by omega), hplace,
    hpos]
  rfl

theorem lineEvents (h : Converts r source place) (hc : source.Holds c) (hr : c.rest = b :: tail)
    (hb : Byte.isWhite b = false) (part : Part) :
    Scan.lineEvents part (c.respell r place)
      = (Scan.lineEvents part c).map (Event.relocate place) := by
  obtain ⟨d, htakes, hd⟩ := takes_textEnd c
  have hne : Cursor.trimEnd c.line ≠ [] := by
    intro hnil
    have := Cursor.pos_lt_textEnd hr hb
    rw [Cursor.textEnd, hnil] at this
    exact Nat.lt_irrefl _ this
  have hevents := h.events hc htakes hne (Scan.endsLine_trimEnd c) part
  rw [hd] at hevents
  rw [Scan.lineEvents, h.textEnd hc]
  exact hevents

end Converts

end ApiDoc
