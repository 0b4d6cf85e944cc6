import ApiDoc.Proofs.Scan.Run
import ApiDoc.Proofs.Scan.TextLines

/-!
# Tilings of a text

A tiling cuts a text into white bytes, lexemes and single parentheses that
belong to no lexeme. The events of a step tile what the step takes
(`Performs.tiles`), and tilings of neighbouring texts are put together by
`Tiling.append`, so the events of a run tile what the run takes.

* **Order** (`Tiling.pairwise`): the lexemes follow one another and do not
  overlap.
* **Coverage** (`Tiling.covered_or_paren`): every byte that is not white is in
  a lexeme or is one of the parentheses, and no parenthesis is in a lexeme.
* **Moves** (`Cursor.Tiles`): a tiling of what lies between two cursors.
-/

namespace ApiDoc

/-- Whether the byte at `i` is one of the span. -/
def Span.Covers (s : Span) (i : Nat) : Prop :=
  s.first ≤ i ∧ i ≤ s.last

instance (s : Span) (i : Nat) : Decidable (s.Covers i) :=
  inferInstanceAs (Decidable (s.first ≤ i ∧ i ≤ s.last))

/-- The bytes an event accounts for. A context is accounted for by its two
parentheses, any other part as a whole when it closes. -/
def Event.lexeme? (e : Event) : Option Span :=
  match e.mark.part, e.mark.edge with
  | .context, .opening => some e.span
  | .context, .closing => some (.point e.span.last)
  | _, .opening => none
  | _, .closing => some e.span

/-- The lexemes of a stream of events, in the order of the stream. -/
def lexemes (events : List Event) : List Span :=
  events.filterMap Event.lexeme?

theorem lexemes_append (events more : List Event) :
    lexemes (events ++ more) = lexemes events ++ lexemes more :=
  List.filterMap_append

theorem lexemes_events {part : Part} (hpart : part ≠ .context) (start stop : Nat) :
    lexemes (part.events start stop) = [.ofRange start stop] := by
  cases part <;> first | rfl | exact absurd rfl hpart

/-- Both events of a part bear its mark. -/
theorem part_of_mem_events {part : Part} {start stop : Nat} {e : Event}
    (h : e ∈ part.events start stop) : e.mark.part = part := by
  rcases List.mem_pair.mp h with rfl | rfl
  · rfl
  · rfl

theorem Span.ofRange_of_lt {start stop : Nat} (h : start < stop) :
    Span.ofRange start stop = ⟨start, stop - 1⟩ :=
  if_pos h

theorem Span.last_ofRange {start stop : Nat} (h : start < stop) :
    (Span.ofRange start stop).last + 1 = stop := by
  rw [ofRange_of_lt h]
  exact Nat.sub_add_cancel (Nat.one_le_of_lt h)

/-! ## Tilings -/

/-- `Tiling p bytes spans parens`: the bytes, of which the first stands at `p`,
are white bytes, the lexemes `spans` and the single bytes `parens`. -/
inductive Tiling : Nat → List UInt8 → List Span → List Nat → Prop
  | nil (p : Nat) : Tiling p [] [] []
  | white {p : Nat} {b : UInt8} {rest : List UInt8} {spans : List Span} {parens : List Nat}
      (hb : Byte.isWhite b = true) (h : Tiling (p + 1) rest spans parens) :
      Tiling p (b :: rest) spans parens
  | lexeme {p : Nat} {word rest : List UInt8} {spans : List Span} {parens : List Nat}
      (hw : word ≠ []) (h : Tiling (p + word.length) rest spans parens) :
      Tiling p (word ++ rest) (⟨p, p + word.length - 1⟩ :: spans) parens
  | paren {p : Nat} {b : UInt8} {rest : List UInt8} {spans : List Span} {parens : List Nat}
      (h : Tiling (p + 1) rest spans parens) : Tiling p (b :: rest) spans (p :: parens)

namespace Tiling

variable {p : Nat} {bytes : List UInt8} {spans : List Span} {parens : List Nat}

theorem append (h : Tiling p bytes spans parens) {more : List UInt8} {spans' : List Span}
    {parens' : List Nat} (k : Tiling (p + bytes.length) more spans' parens') :
    Tiling p (bytes ++ more) (spans ++ spans') (parens ++ parens') := by
  induction h with
  | nil p => exact k
  | white hb _ ih =>
    rw [List.length_cons, Nat.add_comm _ 1, ← Nat.add_assoc] at k
    exact .white hb (ih k)
  | lexeme hw _ ih =>
    rw [List.length_append, ← Nat.add_assoc] at k
    rw [List.append_assoc]
    exact .lexeme hw (ih k)
  | paren _ ih =>
    rw [List.length_cons, Nat.add_comm _ 1, ← Nat.add_assoc] at k
    exact .paren (ih k)

theorem ofWhite {bytes : List UInt8} (hall : ∀ b ∈ bytes, Byte.isWhite b = true) (p : Nat) :
    Tiling p bytes [] [] := by
  induction bytes generalizing p with
  | nil => exact .nil p
  | cons b rest ih =>
    exact .white (hall b List.mem_cons_self) (ih (fun c hc => hall c (List.mem_cons_of_mem _ hc)) _)

theorem bounds (h : Tiling p bytes spans parens) :
    ∀ s ∈ spans, p ≤ s.first ∧ s.first ≤ s.last ∧ s.last < p + bytes.length := by
  induction h with
  | nil p => simp
  | white hb _ ih =>
    intro s hs
    have := ih s hs
    simp only [List.length_cons]
    omega
  | @lexeme p word rest spans parens hw _ ih =>
    intro s hs
    have hpos := List.length_pos_iff.mpr hw
    simp only [List.length_append]
    rcases List.mem_cons.mp hs with rfl | hs
    · exact ⟨Nat.le_refl p, by dsimp only; omega, by dsimp only; omega⟩
    · have := ih s hs
      omega
  | paren _ ih =>
    intro s hs
    have := ih s hs
    simp only [List.length_cons]
    omega

/-- Each lexeme ends before the next one starts. -/
theorem pairwise (h : Tiling p bytes spans parens) :
    spans.Pairwise fun s t => s.last < t.first := by
  induction h with
  | nil p => exact .nil
  | white _ _ ih => exact ih
  | @lexeme p word rest spans parens hw htail ih =>
    refine .cons ?_ ih
    intro t ht
    have hpos := List.length_pos_iff.mpr hw
    have := (htail.bounds t ht).1
    show p + word.length - 1 < t.first
    omega
  | paren _ ih => exact ih

/-- A byte that is not white is in a lexeme, or it is one of the parentheses
and in none. -/
theorem covered_or_paren (h : Tiling p bytes spans parens) {i : Nat} {b : UInt8}
    (hi : bytes[i]? = some b) (hb : Byte.isWhite b = false) :
    (∃ s ∈ spans, s.Covers (p + i)) ∨
      (∀ s ∈ spans, ¬ s.Covers (p + i)) ∧ p + i ∈ parens := by
  induction h generalizing i with
  | nil p => simp at hi
  | white hwhite _ ih =>
    cases i with
    | zero =>
      rw [List.getElem?_cons_zero, Option.some.injEq] at hi
      rw [← hi, hwhite] at hb
      cases hb
    | succ i =>
      rw [List.getElem?_cons_succ] at hi
      rw [show ∀ q, q + (i + 1) = q + 1 + i by omega]
      exact ih hi
  | @lexeme p word rest spans parens hw _ ih =>
    by_cases hlt : i < word.length
    · refine .inl ⟨_, List.mem_cons_self, ?_⟩
      show p ≤ p + i ∧ p + i ≤ p + word.length - 1
      omega
    · rw [List.getElem?_append_right (Nat.le_of_not_lt hlt)] at hi
      have heq : p + word.length + (i - word.length) = p + i := by omega
      rcases ih hi with ⟨s, hs, hcov⟩ | ⟨hnone, hmem⟩
      · exact .inl ⟨s, List.mem_cons_of_mem _ hs, heq ▸ hcov⟩
      · refine .inr ⟨?_, heq ▸ hmem⟩
        intro s hs
        rcases List.mem_cons.mp hs with rfl | hs
        · rintro ⟨-, hle⟩
          have hle : p + i ≤ p + word.length - 1 := hle
          have hpos := List.length_pos_iff.mpr hw
          omega
        · exact heq ▸ hnone s hs
  | @paren p b rest spans parens htail ih =>
    cases i with
    | zero =>
      refine .inr ⟨?_, List.mem_cons_self⟩
      rintro s hs ⟨hle, -⟩
      have := (htail.bounds s hs).1
      omega
    | succ i =>
      rw [List.getElem?_cons_succ] at hi
      rw [show ∀ q, q + (i + 1) = q + 1 + i by omega]
      rcases ih hi with hcov | ⟨hnone, hmem⟩
      · exact .inl hcov
      · exact .inr ⟨hnone, List.mem_cons_of_mem _ hmem⟩

end Tiling

/-! ## Tiled moves -/

/-- What lies between `c` and `d` is tiled. -/
def Cursor.Tiles (c d : Cursor) (spans : List Span) (parens : List Nat) : Prop :=
  ∃ taken, c.Takes taken d ∧ Tiling c.pos taken spans parens

namespace Cursor.Tiles

open Scan

variable {c d e : Cursor} {spans : List Span} {parens : List Nat}

theorem trans (h : c.Tiles d spans parens) {spans' : List Span} {parens' : List Nat}
    (k : d.Tiles e spans' parens') : c.Tiles e (spans ++ spans') (parens ++ parens') := by
  obtain ⟨taken, htakes, htiling⟩ := h
  obtain ⟨more, hmore, hrest⟩ := k
  rw [htakes.pos] at hrest
  exact ⟨_, htakes.trans hmore, htiling.append hrest⟩

/-- White bytes before a tiled move. -/
theorem after (h : d.Tiles e spans parens) (k : c.Tiles d [] []) : c.Tiles e spans parens :=
  k.trans h

/-- White bytes behind a tiled move. -/
theorem before (h : c.Tiles d spans parens) (k : d.Tiles e [] []) : c.Tiles e spans parens := by
  have := h.trans k
  rwa [List.append_nil, List.append_nil] at this

theorem ofWhite {taken : List UInt8} (h : c.Takes taken d) (hwhite : White taken) :
    c.Tiles d [] [] :=
  ⟨taken, h, .ofWhite hwhite _⟩

theorem eatBlanks (c : Cursor) : c.Tiles c.eatBlanks [] [] :=
  ofWhite c.takes_eatBlanks (white_blanks _)

theorem eatWhite (c : Cursor) : c.Tiles c.eatWhite [] [] :=
  ofWhite c.takes_eatWhite fun _ hb => List.mem_takeWhile_imp hb

theorem eatBreak (c : Cursor) : c.Tiles c.eatBreak [] [] :=
  ofWhite c.takes_eatBreak (white_break _)

/-- The bytes of a part are tiled by its two events. -/
theorem ofEvents {part : Part} (hpart : part ≠ .context) {word : List UInt8}
    (h : c.Takes word d) (hw : word ≠ []) {start stop : Nat} (hstart : start = c.pos)
    (hstop : stop = d.pos) : c.Tiles d (lexemes (part.events start stop)) [] := by
  have hpos := List.length_pos_iff.mpr hw
  have hd := h.pos
  refine ⟨word, h, ?_⟩
  rw [lexemes_events hpart, Span.ofRange_of_lt (by omega), hstart, hstop, hd]
  have hone := Tiling.lexeme hw (.nil (c.pos + word.length))
  rwa [List.append_nil] at hone

/-- A part that runs to the end of its line. -/
theorem lineEvents {part : Part} (hpart : part ≠ .context) {b : UInt8} {tail : List UInt8}
    (hr : c.rest = b :: tail) (hb : Byte.isWhite b = false) :
    c.Tiles c.eatLine (lexemes (lineEvents part c)) [] := by
  obtain ⟨back, htakes, hback⟩ := takes_eatLine_text c
  have hlt := pos_lt_textEnd hr hb
  have hne : trimEnd c.line ≠ [] := by
    intro hnil
    rw [textEnd, hnil] at hlt
    exact absurd hlt (Nat.lt_irrefl _)
  obtain ⟨d, htext, hwhite⟩ := htakes.split
  exact (ofEvents hpart htext hne rfl htext.pos.symm).before (ofWhite hwhite hback)

/-- A lexeme of one byte. -/
theorem single {b : UInt8} {tail : List UInt8} (hr : c.rest = b :: tail) :
    c.Tiles c.advance [.point c.pos] [] :=
  ⟨[b], takes_advance_one hr, .lexeme (List.cons_ne_nil b []) (.nil _)⟩

/-- A parenthesis outside all lexemes. -/
theorem paren {b : UInt8} {tail : List UInt8} (hr : c.rest = b :: tail) :
    c.Tiles c.advance [] [c.pos] :=
  ⟨[b], takes_advance_one hr, .paren (.nil _)⟩

end Cursor.Tiles

/-! ## Tiled steps -/

namespace Scan

/-- A parenthesis around text that the scanner passes over without an
event. -/
inductive TextParen (s : State) : Task → Nat → Prop
  | opening {line : Line} {tail : List UInt8} (htext : line.kind.hasTextBody = true)
      (hopen : line.opened = false) (hr : s.cursor.eatBlanks.rest = Byte.openParen :: tail)
      (hend : endsDirectiveLine s.cursor.eatBlanks.advance.eatBlanks = true) :
      TextParen s (.tail line) s.cursor.eatBlanks.pos
  | closing {line : Line} {range : Option (Nat × Nat)} {behind : Cursor} {tail : List UInt8}
      (htext : line.kind.hasTextBody = true) (hopen : line.opened = true)
      (hlines : parenLines none s.cursor.eatBlanks = (range, behind))
      (hr : behind.rest = Byte.closeParen :: tail) : TextParen s (.body line) behind.pos

/-- A schema is tiled by its two events. -/
theorem tiles_schema {grammar : Grammar} {c : Cursor} {n : Nat}
    (hn : Schema.extent grammar c.rest = .ok n) :
    c.Tiles (c.advance n) (lexemes (Part.schema.events c.pos (c.pos + n))) [] := by
  obtain ⟨hpos, hle⟩ := Schema.extent_bounds hn
  have htakes := c.takes_advance n
  have hlen : (c.rest.take n).length = n := List.length_take_of_le hle
  refine .ofEvents (by decide) htakes ?_ rfl (by rw [htakes.pos, hlen])
  rw [← List.length_pos_iff, hlen]
  exact hpos

theorem not_isWhite_hash : Byte.isWhite Byte.hash = false := by
  decide

/-- The events of a rule tile what it takes. -/
theorem Performs.tiles {limit : Nat} {s : State} {task : Task} {m : Move}
    (h : Performs limit s task m) :
    ∃ parens, s.cursor.Tiles m.next.cursor (lexemes m.events) parens ∧
      ∀ i ∈ parens, TextParen s task i := by
  have hblanks := Cursor.Tiles.eatBlanks s.cursor
  have plain : ∀ {d : Cursor} {spans : List Span}, s.cursor.Tiles d spans [] →
      ∃ parens, s.cursor.Tiles d spans parens ∧ ∀ i ∈ parens, TextParen s task i :=
    fun h => ⟨[], h, fun i hi => absurd hi List.not_mem_nil⟩
  cases h with
  | finish => exact plain hblanks
  | blankLine => exact plain (hblanks.before (.eatBreak _))
  | lineComment hr => exact plain (.after (.lineEvents (by decide) hr not_isWhite_hash) hblanks)
  | @blockComment tail rest hr hclose =>
    obtain ⟨inner, rfl, -⟩ := Comment.afterClose?_split hclose
    have hsplit : s.cursor.eatBlanks.rest
        = (Byte.slash :: Byte.hash :: inner ++ [Byte.hash, Byte.slash]) ++ rest := by
      rw [hr]
      simp
    exact plain (.after (.ofEvents (by decide) (Cursor.takes_moveTo hsplit) (by simp) rfl rfl)
      hblanks)
  | closeContext hr => exact plain (.after (.single hr) hblanks)
  | @keyword kind rest hk =>
    obtain ⟨word, hsplit, hspells, -⟩ := Keyword.recognise_eq_found_iff.mp hk
    exact plain (.after (.ofEvents (by decide) (Cursor.takes_moveTo hsplit) hspells.ne_nil rfl rfl)
      hblanks)
  | lineOver => exact plain (hblanks.before (.eatBreak _))
  | note hr => exact plain (.after (.lineEvents (by decide) hr (by decide)) hblanks)
  | tailComment hr => exact plain (.after (.lineEvents (by decide) hr not_isWhite_hash) hblanks)
  | textParen hopen hr hend htext =>
    refine ⟨[s.cursor.eatBlanks.pos], .after (.paren hr) hblanks, ?_⟩
    intro i hi
    rw [List.mem_singleton.mp hi]
    exact .opening htext hopen hr hend
  | contextParen _ hr => exact plain (.after (.single hr) hblanks)
  | inlineSchema _ _ _ _ _ hn => exact plain (.after (tiles_schema hn) hblanks)
  | quoted _ hr hclose =>
    obtain ⟨word, htakes, hne, -⟩ := takes_quoted hr hclose
    exact plain (.after (.ofEvents (by decide) htakes hne rfl rfl) hblanks)
  | @bare line b tail _ hr hbreak =>
    have hb : Byte.isWhite b = false :=
      Byte.isWhite_eq_false_iff.mpr ⟨Cursor.head_eatBlanks hr, hbreak⟩
    refine plain (.after (.ofEvents (by decide) (Cursor.takes_eatWhile _ _) ?_ rfl rfl) hblanks)
    rw [hr]
    simp [hb]
  | bodiless | noSchema | noText => exact plain (.ofWhite (.refl _) white_nil)
  | schema _ _ _ _ hn => exact plain (.after (tiles_schema hn) (.eatWhite _))
  | @text line _ _ hends =>
    rw [← s.cursor.eatWhite_eatWhite] at hends
    obtain ⟨text, back, hreads⟩ :=
      textLines_reads (Nat.le_refl s.cursor.eatWhite.pos) hends
    obtain ⟨d, htext, hwhite⟩ := hreads.takes.split
    have hstop := hreads.stop.trans htext.pos.symm
    exact plain (.after (.before (.ofEvents (by decide) htext hreads.ne_nil rfl hstop)
      (.ofWhite hwhite hreads.white)) (.eatWhite _))
  | @parenText line range behind tail hopen htext hlines hr =>
    obtain ⟨taken, htakes, hrange⟩ := takes_parenLines none s.cursor.eatBlanks
    rw [hlines] at htakes hrange
    have hparen : ∀ i ∈ [behind.pos], TextParen s (.body line) i := fun i hi => by
      rw [List.mem_singleton.mp hi]
      exact .closing htext hopen hlines hr
    rcases hrange with ⟨rfl, hwhite⟩ | ⟨front, text, back, rfl, hne, -, hfront, hback, rfl⟩
    · exact ⟨_, .after (.paren hr) (hblanks.before (.ofWhite htakes hwhite)), hparen⟩
    · obtain ⟨e, hmost, hb⟩ := htakes.split
      obtain ⟨d, hf, ht⟩ := hmost.split
      have hlex : s.cursor.eatBlanks.Tiles behind
          (lexemes (Part.text.events (s.cursor.eatBlanks.pos + front.length)
            (s.cursor.eatBlanks.pos + front.length + text.length))) [] :=
        .after (.before (.ofEvents (by decide) ht hne hf.pos.symm (by rw [ht.pos, hf.pos]))
          (.ofWhite hb hback)) (.ofWhite hf hfront)
      have htiles := hlex.trans (.paren hr)
      rw [List.append_nil] at htiles
      exact ⟨_, .after htiles hblanks, hparen⟩
  | lineEnd => exact plain (hblanks.before (.eatBreak _))
  | endComment hr =>
    exact plain (.after (.before (.lineEvents (by decide) hr not_isWhite_hash) (.eatBreak _))
      hblanks)

end Scan

end ApiDoc
