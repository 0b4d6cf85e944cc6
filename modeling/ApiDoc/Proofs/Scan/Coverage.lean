import ApiDoc.Proofs.Scan.Tiling

/-!
# Every byte is accounted for

A scan that succeeds accounts for its whole source (`scan_covers`):

* **Spans**: every event names bytes of the source.
* **Order**: the lexemes follow one another in the order of the events and do
  not overlap.
* **Coverage**: a byte that is not white is in exactly one lexeme. The
  parentheses around text are the only other bytes, and in no lexeme.

The first two and the cover are read off a tiling of the source. Which
parentheses are left out is told by an invariant (`Ahead`): on the line of a
directive with a text body only blanks and parameters lie behind the scanner,
and in its text no line has started with a closing parenthesis yet.
-/

namespace ApiDoc

/-! ## Places in a source -/

/-- Whether only blanks stand before the offset on its line. -/
def Source.lineHead (s : Source) : Nat → Bool
  | 0 => true
  | i + 1 =>
    match s.byte? i with
    | some b => if Byte.isBlank b then s.lineHead i else Byte.isBreak b
    | none => false

/-- From the keyword of a directive of this kind up to the offset stand blanks
and parameters, and no line ends. -/
def OnLineOf (source : Source) (events : List Event) (kind : Kind) (i : Nat) : Prop :=
  ∃ k : Span, ⟨⟨.keyword, .closing⟩, k⟩ ∈ events ∧ Keyword.Spells (source.covered k) kind ∧
    k.last < i ∧ ∀ j, k.last < j → j < i → ∃ b, source.byte? j = some b ∧
      Byte.isBreak b = false ∧
      (Byte.isBlank b = true ∨ ∃ p : Span, ⟨⟨.parameter, .closing⟩, p⟩ ∈ events ∧ p.Covers j)

/-- At the offset stands the parenthesis that ends the line of a directive with
a text body. -/
def OpensText (source : Source) (events : List Event) (i : Nat) : Prop :=
  source.byte? i = some Byte.openParen ∧
    (∃ kind : Kind, kind.hasTextBody = true ∧ OnLineOf source events kind i) ∧
    Scan.endsDirectiveLine (⟨i + 1, source.bytes.drop (i + 1)⟩ : Cursor).eatBlanks = true

/-- No line from `i` up to `stop` starts with a closing parenthesis. -/
def Unclosed (source : Source) (i stop : Nat) : Prop :=
  ∀ x, i < x → x < stop → source.byte? x = some Byte.closeParen → source.lineHead x = false

/-- At the offset stands the parenthesis that closes the text of a directive:
the first one at the head of a line behind the one that opens it. -/
def ClosesText (source : Source) (events : List Event) (j : Nat) : Prop :=
  source.byte? j = some Byte.closeParen ∧ source.lineHead j = true ∧
    ∃ i, i < j ∧ OpensText source events i ∧ Unclosed source i j

theorem OnLineOf.mono {source : Source} {events more : List Event} {kind : Kind} {i : Nat}
    (h : OnLineOf source events kind i) : OnLineOf source (events ++ more) kind i := by
  obtain ⟨k, hk, hspells, hlt, hall⟩ := h
  refine ⟨k, List.mem_append_left _ hk, hspells, hlt, ?_⟩
  intro j hj hji
  obtain ⟨b, hb, hbreak, hblank | ⟨p, hp, hcov⟩⟩ := hall j hj hji
  · exact ⟨b, hb, hbreak, .inl hblank⟩
  · exact ⟨b, hb, hbreak, .inr ⟨p, List.mem_append_left _ hp, hcov⟩⟩

theorem OnLineOf.extend {source : Source} {events : List Event} {kind : Kind} {p q : Nat}
    (h : OnLineOf source events kind p) (hle : p ≤ q)
    (hmore : ∀ j, p ≤ j → j < q → ∃ b, source.byte? j = some b ∧ Byte.isBreak b = false ∧
      (Byte.isBlank b = true ∨ ∃ t : Span, ⟨⟨.parameter, .closing⟩, t⟩ ∈ events ∧ t.Covers j)) :
    OnLineOf source events kind q := by
  obtain ⟨k, hk, hspells, hlt, hall⟩ := h
  refine ⟨k, hk, hspells, Nat.lt_of_lt_of_le hlt hle, ?_⟩
  intro j hj hji
  by_cases hp : j < p
  · exact hall j hj hp
  · exact hmore j (Nat.le_of_not_lt hp) hji

theorem OpensText.mono {source : Source} {events more : List Event} {i : Nat}
    (h : OpensText source events i) : OpensText source (events ++ more) i := by
  obtain ⟨hb, ⟨kind, htext, hline⟩, hend⟩ := h
  exact ⟨hb, ⟨kind, htext, hline.mono⟩, hend⟩

theorem ClosesText.mono {source : Source} {events more : List Event} {j : Nat}
    (h : ClosesText source events j) : ClosesText source (events ++ more) j := by
  obtain ⟨hb, hhead, i, hij, hopens, hclear⟩ := h
  exact ⟨hb, hhead, i, hij, hopens.mono, hclear⟩

theorem Unclosed.extend {source : Source} {i p q : Nat} (h : Unclosed source i p)
    (hmore : ∀ x, p ≤ x → x < q → source.byte? x = some Byte.closeParen →
      source.lineHead x = false) : Unclosed source i q := by
  intro x hi hx hb
  by_cases hp : x < p
  · exact h x hi hp hb
  · exact hmore x (Nat.le_of_not_lt hp) hx hb

/-! ## Cursors in a source -/

/-- The cursor stands in the source. -/
def Source.Holds (source : Source) (c : Cursor) : Prop :=
  ∃ taken, source.cursor.Takes taken c

namespace Source.Holds

variable {source : Source} {c d : Cursor} {taken : List UInt8}

theorem move (h : source.Holds c) (k : c.Takes taken d) : source.Holds d := by
  obtain ⟨front, hfront⟩ := h
  exact ⟨_, hfront.trans k⟩

theorem stop (h : source.Holds c) : c.pos + c.rest.length = source.length := by
  obtain ⟨front, hfront⟩ := h
  have hstop := hfront.stop
  rwa [Source.cursor, Nat.zero_add] at hstop

theorem drop_pos (h : source.Holds c) : source.bytes.drop c.pos = c.rest := by
  obtain ⟨front, hrest, hpos⟩ := h
  have hbytes : source.bytes = front ++ c.rest := hrest
  have hlen : c.pos = front.length := hpos.trans (Nat.zero_add _)
  rw [hbytes, hlen, List.drop_left]

theorem byte? (h : source.Holds c) (i : Nat) : source.byte? (c.pos + i) = c.rest[i]? := by
  rw [← h.drop_pos, List.getElem?_drop]
  rfl

theorem byte?_pos (h : source.Holds c) {b : UInt8} {tail : List UInt8}
    (hr : c.rest = b :: tail) : source.byte? c.pos = some b := by
  have := h.byte? 0
  rwa [hr] at this

/-- The bytes of the source between two cursors. -/
theorem byte?_between (h : source.Holds c) (k : c.Takes taken d) {x : Nat} (hc : c.pos ≤ x)
    (hd : x < d.pos) : ∃ b ∈ taken, source.byte? x = some b := by
  have hlt : x - c.pos < taken.length := by
    have := k.pos
    omega
  refine ⟨taken[x - c.pos], List.getElem_mem hlt, ?_⟩
  have hx := h.byte? (x - c.pos)
  rwa [Nat.add_sub_cancel' hc, k.getElem? hlt, List.getElem?_eq_getElem hlt] at hx

/-- The bytes between two cursors are those of the span between them. -/
theorem covered (h : source.Holds c) (k : c.Takes taken d) (hne : taken ≠ []) :
    source.covered (.ofRange c.pos d.pos) = taken := by
  have hpos := List.length_pos_iff.mpr hne
  have hd := k.pos
  have hlen : c.pos + c.rest.length ≤ source.length := by
    obtain ⟨front, hrest, hfront⟩ := h
    have hbytes : source.bytes = front ++ c.rest := hrest
    have hzero : source.cursor.pos = 0 := rfl
    rw [Source.length, hbytes, List.length_append]
    omega
  have hrest := k.rest
  have hcut : taken.length ≤ c.rest.length := by
    rw [hrest, List.length_append]
    exact Nat.le_add_right _ _
  rw [Span.ofRange_of_lt (by omega), Source.covered, Span.get?, Span.isSet,
    if_pos (by rw [decide_eq_true_eq]; dsimp only; omega)]
  dsimp only
  rw [if_pos (by omega), slice, h.drop_pos, hrest]
  have hcount : d.pos - 1 + 1 - c.pos = taken.length := by omega
  rw [hcount, List.take_left]

end Source.Holds

/-! ## Heads of lines -/

namespace Source

variable {source : Source} {c d : Cursor} {taken : List UInt8}

theorem lineHead_succ {i : Nat} {b : UInt8} (hb : source.byte? i = some b) :
    source.lineHead (i + 1) = if Byte.isBlank b then source.lineHead i else Byte.isBreak b := by
  rw [lineHead, hb]

/-- Blanks leave the head of a line where it is. -/
theorem Holds.lineHead_blanks (h : source.Holds c) (k : c.Takes taken d)
    (hall : ∀ b ∈ taken, Byte.isBlank b = true) {x : Nat} (hc : c.pos ≤ x) (hd : x ≤ d.pos) :
    source.lineHead x = source.lineHead c.pos := by
  induction x, hc using Nat.le_induction with
  | base => rfl
  | succ x hx ih =>
    obtain ⟨b, hmem, hb⟩ := h.byte?_between k hx (Nat.lt_of_succ_le hd)
    rw [lineHead_succ hb, if_pos (hall b hmem), ih (Nat.le_of_succ_le hd)]

/-- Behind something else than blanks, a line has no head until it ends. -/
theorem Holds.lineHead_line (h : source.Holds c) (k : c.Takes taken d)
    (hall : ∀ b ∈ taken, Byte.isBreak b = false) (hhead : source.lineHead c.pos = false)
    {x : Nat} (hc : c.pos ≤ x) (hd : x ≤ d.pos) : source.lineHead x = false := by
  induction x, hc using Nat.le_induction with
  | base => exact hhead
  | succ x hx ih =>
    obtain ⟨b, hmem, hb⟩ := h.byte?_between k hx (Nat.lt_of_succ_le hd)
    rw [lineHead_succ hb, hall b hmem, ih (Nat.le_of_succ_le hd), ite_self]

/-- A line starts behind a line end. -/
theorem Holds.lineHead_eatBreak (h : source.Holds c) {b : UInt8} {tail : List UInt8}
    (hr : c.rest = b :: tail) (hb : Byte.isBreak b = true) :
    source.lineHead c.eatBreak.pos = true := by
  have htakes := c.takes_eatBreak
  have hpos : 0 < (c.rest.take (Cursor.breakLength c.rest)).length := by
    rw [hr]
    exact List.length_pos_iff.mpr (Cursor.take_breakLength_ne_nil hb)
  have hstop := htakes.pos
  obtain ⟨d, hmem, hd⟩ := h.byte?_between htakes (x := c.eatBreak.pos - 1) (by omega) (by omega)
  have hbreak := Cursor.isBreak_of_mem_take_breakLength hmem
  have hblank : Byte.isBlank d = false := by
    by_contra hblank
    rw [Bool.not_eq_false] at hblank
    rw [Byte.isBreak_eq_false_of_isBlank hblank] at hbreak
    cases hbreak
  have := lineHead_succ hd
  rwa [Nat.sub_add_cancel (by omega), hblank, if_neg Bool.false_ne_true, hbreak] at this

end Source

/-! ## Lines of text -/

/-- The cursor stands at the head of a line, or at the end, behind a
parenthesis at `i` that no line has closed. -/
structure AtTextLine (source : Source) (i : Nat) (c : Cursor) : Prop where
  held : source.Holds c
  behind : i < c.pos
  head : c.rest = [] ∨ source.lineHead c.pos = true
  unclosed : Unclosed source i c.pos

namespace AtTextLine

variable {source : Source} {i : Nat} {c : Cursor}

theorem eatBlanks (h : AtTextLine source i c) : AtTextLine source i c.eatBlanks := by
  have htakes := c.takes_eatBlanks
  have hpos := htakes.pos
  have hblank : ∀ b ∈ c.rest.takeWhile Byte.isBlank, Byte.isBlank b = true :=
    fun _ hb => List.mem_takeWhile_imp hb
  refine ⟨h.held.move htakes, Nat.lt_of_lt_of_le h.behind (by omega), ?_,
    h.unclosed.extend ?_⟩
  · rcases h.head with hr | hhead
    · exact .inl (Cursor.rest_eatBlanks_of_nil hr)
    · rw [← hhead]
      exact .inr (h.held.lineHead_blanks htakes hblank (by omega) (Nat.le_refl _))
  · intro x hx hlt hb
    obtain ⟨d, hmem, hd⟩ := h.held.byte?_between htakes hx hlt
    rw [hd, Option.some.injEq] at hb
    rw [hb] at hmem
    cases hblank _ hmem

/-- Behind its first byte nothing on a line stands at the head of it. -/
theorem lineHead_inner {b : UInt8} {tail : List UInt8} (hheld : source.Holds c)
    (hr : c.rest = b :: tail) (hblank : Byte.isBlank b = false) {x : Nat} (hx : c.pos < x)
    (hlt : x < c.eatLine.pos) : source.lineHead x = false := by
  have hline := c.takes_eatLine
  cases hbreak : Byte.isBreak b with
  | true =>
    have hend : c.atLineEnd = true := Cursor.atLineEnd_iff.mpr (.inr ⟨b, tail, hr, hbreak⟩)
    have hpos := hline.pos
    rw [Cursor.line_eq_nil hend, List.length_nil] at hpos
    omega
  | false =>
    have hcons := Cursor.line_cons hr hbreak
    have hone := Cursor.takes_advance_one hr
    have hrest : c.advance.Takes (⟨c.pos, tail⟩ : Cursor).line c.eatLine := by
      refine ⟨?_, ?_⟩
      · have := hline.rest
        rw [hr, hcons, List.cons_append, List.cons.injEq] at this
        rw [Cursor.advance, hr]
        exact this.2
      · rw [hone.pos, hline.pos, hcons, List.length_cons, List.length_singleton, Nat.add_assoc,
          Nat.add_comm 1]
    have hfalse : source.lineHead c.advance.pos = false := by
      rw [hone.pos, List.length_singleton, Source.lineHead_succ (hheld.byte?_pos hr), hblank,
        if_neg Bool.false_ne_true, hbreak]
    have hstart : c.advance.pos ≤ x := by
      rw [hone.pos, List.length_singleton]
      exact hx
    exact (hheld.move hone).lineHead_line hrest (fun d hd => Cursor.isBreak_of_mem_line hd) hfalse
      hstart (Nat.le_of_lt hlt)

/-- A line that does not start with a closing parenthesis is passed over. -/
theorem nextLine (h : AtTextLine source i c) {b : UInt8} {tail : List UInt8}
    (hr : c.rest = b :: tail) (hblank : Byte.isBlank b = false) (hclose : b ≠ Byte.closeParen) :
    AtTextLine source i c.eatLine.eatBreak := by
  have hline := c.takes_eatLine
  have hbreak := c.eatLine.takes_eatBreak
  have hend := h.held.move hline
  have hpos := hline.pos
  have hstop := hbreak.pos
  refine ⟨hend.move hbreak, Nat.lt_of_lt_of_le h.behind (by omega), ?_,
    h.unclosed.extend ?_⟩
  · rcases Cursor.atLineEnd_iff.mp c.atLineEnd_eatLine with hr | ⟨d, more, hr, hd⟩
    · rw [Cursor.eatBreak_of_nil hr]
      exact .inl hr
    · exact .inr (hend.lineHead_eatBreak hr hd)
  · intro x hx hlt hb
    by_cases hfirst : x = c.pos
    · rw [hfirst, h.held.byte?_pos hr, Option.some.injEq] at hb
      exact absurd hb hclose
    · by_cases hinner : x < c.eatLine.pos
      · exact lineHead_inner h.held hr hblank (by omega) hinner
      · -- the bytes of the line end are no parentheses
        obtain ⟨d, hmem, hd⟩ := hend.byte?_between hbreak (by omega) hlt
        rw [hd, Option.some.injEq] at hb
        rw [hb] at hmem
        cases Cursor.isBreak_of_mem_take_breakLength hmem

/-- Text in parentheses is read up to a line that starts with a closing one. -/
theorem parenLines (h : AtTextLine source i c) (range : Option (Nat × Nat))
    (hblank : ∀ b tail, c.rest = b :: tail → Byte.isBlank b = false) :
    AtTextLine source i (Scan.parenLines range c).2 := by
  fun_induction Scan.parenLines range c with
  | case1 range c _ => exact h
  | case2 range c _ _ => exact h
  | case3 range c b tail hr hclose ih =>
    exact ih (h.nextLine hr (hblank b tail hr) hclose).eatBlanks
      fun d more hd => Cursor.head_eatBlanks hd

end AtTextLine

namespace Scan

/-! ## What lies behind the scanner -/

/-- What is known before a task about the directive it belongs to, if that has
a text body. -/
def Ahead (source : Source) (events : List Event) (c : Cursor) : Task → Prop
  | .tail line => line.kind.hasTextBody = true →
      if line.opened = true then
        ∃ i, i < c.pos ∧ OpensText source events i ∧
          ∀ x, i < x → x ≤ c.pos → source.lineHead x = false
      else OnLineOf source events line.kind c.pos ∨ c.atLineEnd = true
  | .body line => line.kind.hasTextBody = true → line.opened = true →
      ∃ i, OpensText source events i ∧ AtTextLine source i c
  | _ => True

section

variable {limit : Nat} {source : Source} {events : List Event} {s : State} {task : Task}
  {kind : Kind} {m : Move} {c d : Cursor} {word : List UInt8}

theorem OnLineOf.eatBlanks (h : OnLineOf source events kind c.pos) (hheld : source.Holds c) :
    OnLineOf source events kind c.eatBlanks.pos := by
  have htakes := c.takes_eatBlanks
  refine h.extend (by rw [htakes.pos]; omega) ?_
  intro j hj hlt
  obtain ⟨b, hmem, hb⟩ := hheld.byte?_between htakes hj hlt
  have hblank : Byte.isBlank b = true := List.mem_takeWhile_imp hmem
  exact ⟨b, hb, Byte.isBreak_eq_false_of_isBlank hblank, .inl hblank⟩

/-- One more parameter leaves the scanner on the line of its directive. -/
theorem OnLineOf.parameter (h : OnLineOf source events kind c.pos) (hheld : source.Holds c)
    (htakes : c.Takes word d) (hline : ∀ b ∈ word, Byte.isBreak b = false) :
    OnLineOf source (events ++ Part.parameter.events c.pos d.pos) kind d.pos := by
  have hpos := htakes.pos
  refine h.mono.extend (by omega) ?_
  intro j hj hlt
  obtain ⟨b, hmem, hb⟩ := hheld.byte?_between htakes hj hlt
  refine ⟨b, hb, hline b hmem, .inr ⟨.ofRange c.pos d.pos, ?_, ?_⟩⟩
  · exact List.mem_append_right _ (List.mem_cons_of_mem _ (List.mem_singleton_self _))
  · rw [Span.ofRange_of_lt (by omega)]
    exact ⟨hj, by dsimp only; omega⟩

/-- On a line whose parenthesis is not read, something else than the end of the
line shows that no remark has been read either. -/
theorem onLineOf_of_ahead {line : Line} (hheld : source.Holds s.cursor)
    (h : Ahead source events s.cursor (.tail line)) (htext : line.kind.hasTextBody = true)
    (hopen : line.opened = false) {b : UInt8} {tail : List UInt8}
    (hr : s.cursor.eatBlanks.rest = b :: tail) (hb : Byte.isBreak b = false) :
    OnLineOf source events line.kind s.cursor.eatBlanks.pos := by
  have hahead := h htext
  rw [hopen, if_neg Bool.false_ne_true] at hahead
  rcases hahead with hline | hend
  · exact OnLineOf.eatBlanks hline hheld
  · exact absurd hend (Cursor.not_atLineEnd hr hb)

/-- The parentheses that no lexeme covers stand around text. -/
theorem TextParen.excepted {i : Nat} (h : TextParen s task i) (hheld : source.Holds s.cursor)
    (hahead : Ahead source events s.cursor task) :
    OpensText source events i ∨ ClosesText source events i := by
  have hblanks := hheld.move s.cursor.takes_eatBlanks
  cases h with
  | @opening line tail htext hopen hr hend =>
    refine .inl ⟨hblanks.byte?_pos hr, ⟨line.kind, htext, ?_⟩, ?_⟩
    · exact onLineOf_of_ahead hheld hahead htext hopen hr (by decide)
    · have hone := Cursor.takes_advance_one hr
      have hdrop := (hblanks.move hone).drop_pos
      rw [hone.pos] at hdrop
      rw [List.length_singleton] at hdrop
      rw [hdrop]
      exact hend
  | @closing line range behind tail htext hopen hlines hr =>
    obtain ⟨i, hopens, hline⟩ := hahead htext hopen
    have hbehind := hline.eatBlanks.parenLines none fun b tail hr => Cursor.head_eatBlanks hr
    rw [hlines] at hbehind
    refine .inr ⟨hbehind.held.byte?_pos hr, ?_, i, hbehind.behind, hopens, hbehind.unclosed⟩
    rcases hbehind.head with hnil | hhead
    · rw [hr] at hnil
      cases hnil
    · exact hhead

theorem ahead_parameter {line : Line} (hheld : source.Holds s.cursor)
    (h : Ahead source events s.cursor (.tail line)) (hopen : line.opened = false)
    {b : UInt8} {tail : List UInt8} (hr : s.cursor.eatBlanks.rest = b :: tail)
    (hb : Byte.isBreak b = false) (htakes : s.cursor.eatBlanks.Takes word d)
    (hline : ∀ b ∈ word, Byte.isBreak b = false) (raw : List UInt8) :
    Ahead source (events ++ Part.parameter.events s.cursor.eatBlanks.pos d.pos) d
      (.tail (line.declare raw)) := by
  intro htext
  rw [line.declare_kind] at htext
  rw [line.declare_opened, hopen, line.declare_kind, if_neg Bool.false_ne_true]
  exact .inl (OnLineOf.parameter (onLineOf_of_ahead hheld h htext hopen hr hb)
    (hheld.move s.cursor.takes_eatBlanks) htakes hline)

/-- A remark takes the scanner to the end of the line. -/
theorem ahead_remark {line : Line} (hheld : source.Holds s.cursor)
    (h : Ahead source events s.cursor (.tail line)) (more : List Event) :
    Ahead source (events ++ more) s.cursor.eatBlanks.eatLine (.tail line) := by
  intro htext
  have hahead := h htext
  have hblanks := s.cursor.takes_eatBlanks
  have hline := s.cursor.eatBlanks.takes_eatLine
  have hpos := (hblanks.trans hline).pos
  cases hopen : line.opened with
  | false =>
    rw [if_neg Bool.false_ne_true]
    exact .inr (Cursor.atLineEnd_eatLine _)
  | true =>
    rw [hopen, if_pos rfl] at hahead
    rw [if_pos rfl]
    obtain ⟨i, hi, hopens, hnone⟩ := hahead
    refine ⟨i, by omega, hopens.mono, ?_⟩
    intro x hx hle
    by_cases hc : x ≤ s.cursor.pos
    · exact hnone x hx hc
    · refine hheld.lineHead_line (hblanks.trans hline) ?_
        (hnone _ hi (Nat.le_refl _)) (by omega) hle
      intro b hb
      rcases List.mem_append.mp hb with hb | hb
      · exact Byte.isBreak_eq_false_of_isBlank (List.mem_takeWhile_imp hb)
      · exact Cursor.isBreak_of_mem_line hb

/-- Behind the line of a directive its text starts. -/
theorem ahead_body {line : Line} (hheld : source.Holds s.cursor)
    (h : Ahead source events s.cursor (.tail line))
    (hend : s.cursor.eatBlanks.atLineEnd = true) :
    Ahead source events s.cursor.eatBlanks.eatBreak (.body line) := by
  intro htext hopen
  have hahead := h htext
  rw [hopen, if_pos rfl] at hahead
  obtain ⟨i, hi, hopens, hnone⟩ := hahead
  have hblanks := s.cursor.takes_eatBlanks
  have hbreak := s.cursor.eatBlanks.takes_eatBreak
  have hpos := hblanks.pos
  have hstop := hbreak.pos
  have hnext := hheld.move hblanks
  refine ⟨i, hopens, hnext.move hbreak, by omega, ?_, ?_⟩
  · rcases Cursor.atLineEnd_iff.mp hend with hr | ⟨b, tail, hr, hb⟩
    · rw [Cursor.eatBreak_of_nil hr]
      exact .inl hr
    · exact .inr (hnext.lineHead_eatBreak hr hb)
  · intro x hx hlt hb
    by_cases hc : x ≤ s.cursor.pos
    · exact hnone x hx hc
    · -- only white bytes lie between
      obtain ⟨d, hmem, hd⟩ := hheld.byte?_between (hblanks.trans hbreak) (Nat.le_of_not_le hc) hlt
      rw [hd, Option.some.injEq] at hb
      rw [hb] at hmem
      rcases List.mem_append.mp hmem with hmem | hmem
      · cases white_blanks _ _ hmem
      · cases white_break _ _ hmem

/-- Behind a keyword starts the line of its directive. -/
theorem ahead_keyword (hheld : source.Holds c) {rest : List UInt8}
    (hk : Keyword.recognise c.rest = .found kind rest) :
    Ahead source (events ++ Part.keyword.events c.pos (c.moveTo rest).pos) (c.moveTo rest)
      (.tail { kind := kind }) := by
  intro _
  rw [if_neg Bool.false_ne_true]
  obtain ⟨word, hsplit, hspells, -⟩ := Keyword.recognise_eq_found_iff.mp hk
  have htakes := Cursor.takes_moveTo hsplit
  have hpos := htakes.pos
  have hne := List.length_pos_iff.mpr hspells.ne_nil
  refine .inl ⟨.ofRange c.pos (c.moveTo rest).pos, ?_, ?_, ?_, ?_⟩
  · exact List.mem_append_right _ (List.mem_cons_of_mem _ (List.mem_singleton_self _))
  · rw [hheld.covered htakes hspells.ne_nil]
    exact hspells
  · rw [Span.ofRange_of_lt (by omega)]
    show (c.moveTo rest).pos - 1 < _
    omega
  · intro j hj hlt
    rw [Span.ofRange_of_lt (by omega)] at hj
    have hj : (c.moveTo rest).pos - 1 < j := hj
    omega

theorem ahead_paren {line : Line} (hheld : source.Holds s.cursor)
    (h : Ahead source events s.cursor (.tail line)) (hopen : line.opened = false)
    {tail : List UInt8} (hr : s.cursor.eatBlanks.rest = Byte.openParen :: tail)
    (hend : endsDirectiveLine s.cursor.eatBlanks.advance.eatBlanks = true)
    (more : List Event) :
    Ahead source (events ++ more) s.cursor.eatBlanks.advance
      (.tail { line with opened := true }) := by
  intro htext
  rw [if_pos rfl]
  have hblanks := hheld.move s.cursor.takes_eatBlanks
  have hone := Cursor.takes_advance_one hr
  have hpos := hone.pos
  rw [List.length_singleton] at hpos
  have hparen : TextParen s (.tail line) s.cursor.eatBlanks.pos := .opening htext hopen hr hend
  refine ⟨s.cursor.eatBlanks.pos, by omega, ?_, ?_⟩
  · rcases hparen.excepted hheld h with hopens | ⟨hclose, -⟩
    · exact hopens.mono
    · rw [hblanks.byte?_pos hr] at hclose
      cases hclose
  · intro x hx hle
    obtain rfl : x = s.cursor.eatBlanks.pos + 1 := by omega
    rw [Source.lineHead_succ (hblanks.byte?_pos hr)]
    rfl

theorem Performs.ahead (h : Performs limit s task m) (hheld : source.Holds s.cursor)
    (hreg : Regular (task :: s.agenda)) (hahead : Ahead source events s.cursor task)
    {next : Task} {later : List Task} (hnext : m.next.agenda = next :: later) :
    Ahead source (events ++ m.events) m.next.cursor next := by
  have hblanks := hheld.move s.cursor.takes_eatBlanks
  cases h with
  | finish | bodiless | noSchema | noText | text | lineEnd | endComment =>
    cases hreg.eq_items hnext
    trivial
  | blankLine | lineComment | blockComment | closeContext | inlineSchema | schema | parenText =>
    obtain ⟨rfl, -⟩ := List.cons.inj hnext
    trivial
  | keyword hk =>
    obtain ⟨rfl, -⟩ := List.cons.inj hnext
    exact ahead_keyword hblanks hk
  | lineOver hend =>
    obtain ⟨rfl, -⟩ := List.cons.inj hnext
    rw [List.append_nil]
    exact ahead_body hheld hahead hend
  | note | tailComment =>
    obtain ⟨rfl, -⟩ := List.cons.inj hnext
    exact ahead_remark hheld hahead _
  | textParen hopen hr hend | contextParen hopen hr hend =>
    obtain ⟨rfl, -⟩ := List.cons.inj hnext
    exact ahead_paren hheld hahead hopen hr hend _
  | quoted hopen hr hclose =>
    obtain ⟨rfl, -⟩ := List.cons.inj hnext
    obtain ⟨word, htakes, -, hline⟩ := takes_quoted hr hclose
    exact ahead_parameter hheld hahead hopen hr (by decide) htakes hline _
  | @bare line b tail hopen hr hbreak =>
    obtain ⟨rfl, -⟩ := List.cons.inj hnext
    refine ahead_parameter hheld hahead hopen hr hbreak (Cursor.takes_eatWhile _ _)
      ?_ _
    intro d hd
    have hwhite : Byte.isWhite d = false := by simpa using List.mem_takeWhile_imp hd
    exact (Byte.isWhite_eq_false_iff.mp hwhite).2

/-! ## The invariant of a run -/

/-- What holds between two steps of a scan of `source` that has given
`events`. -/
structure Accounted (source : Source) (events : List Event) (s : State) : Prop where
  /-- What lies behind the scanner is tiled. -/
  tiled : ∃ parens, source.cursor.Tiles s.cursor (lexemes events) parens ∧
    ∀ i ∈ parens, OpensText source events i ∨ ClosesText source events i
  spans : ∀ e ∈ events, e.span.isSet = true ∧ e.span.last < s.cursor.pos
  contexts : ∀ p ∈ s.contexts, p < s.cursor.pos
  regular : Regular s.agenda
  ahead : ∀ {task later}, s.agenda = task :: later → Ahead source events s.cursor task
  done : s.agenda = [] → s.cursor.rest = [] ∧ s.contexts = []

theorem accounted_start (source : Source) : Accounted source [] (State.start source.bytes) where
  tiled := ⟨[], ⟨[], .refl _, .nil _⟩, by simp⟩
  spans := by simp
  contexts := by simp [State.start]
  regular := .items
  ahead h := by
    obtain ⟨rfl, -⟩ := List.cons.inj h
    trivial
  done h := by cases h

theorem Accounted.holds (h : Accounted source events s) : source.Holds s.cursor := by
  obtain ⟨parens, ⟨taken, htakes, -⟩, -⟩ := h.tiled
  exact ⟨taken, htakes⟩

/-- The events of a step lie in what the step takes, and a context that is
closed was opened before. -/
theorem Gives.bounds (h : Gives s m) {parens : List Nat}
    (htiles : s.cursor.Tiles m.next.cursor (lexemes m.events) parens)
    (hctx : ∀ p ∈ s.contexts, p < s.cursor.pos) :
    (∀ e ∈ m.events, e.span.isSet = true ∧ e.span.last < m.next.cursor.pos) ∧
      ∀ p ∈ m.next.contexts, p < m.next.cursor.pos := by
  obtain ⟨taken, htakes, htiling⟩ := htiles
  have hpos := htakes.pos
  have hbounds := htiling.bounds
  have hkeep : ∀ p ∈ s.contexts, p < m.next.cursor.pos := fun p hp => by
    have := hctx p hp
    omega
  cases h with
  | silent hsame => exact ⟨by simp, by rwa [hsame]⟩
  | @lexeme part start stop next hpart hsame =>
    refine ⟨?_, by rwa [hsame]⟩
    rw [lexemes_events hpart] at hbounds
    obtain ⟨-, hle, hlast⟩ := hbounds _ (List.mem_singleton_self _)
    have hlt : start < stop := by
      by_contra hge
      rw [Span.ofRange, if_neg hge] at hle
      exact absurd hle (by decide)
    rw [Span.ofRange_of_lt hlt] at hle hlast
    intro e he
    simp only [Part.events, List.mem_cons, List.not_mem_nil, or_false] at he
    dsimp only at hle hlast
    rcases he with rfl | rfl
    · exact ⟨Span.isSet_point start, by show start < _; omega⟩
    · rw [Span.ofRange_of_lt hlt]
      exact ⟨decide_eq_true hle, by show stop - 1 < _; omega⟩
  | opened hr hnew =>
    obtain ⟨-, -, hlast⟩ := hbounds (.point s.cursor.eatBlanks.pos) (List.mem_singleton_self _)
    have hlast : s.cursor.eatBlanks.pos < s.cursor.pos + taken.length := hlast
    refine ⟨?_, ?_⟩
    · intro e he
      rw [List.mem_singleton.mp he]
      exact ⟨Span.isSet_point _, by show s.cursor.eatBlanks.pos < _; omega⟩
    · intro p hp
      rw [hnew] at hp
      rcases List.mem_cons.mp hp with rfl | hp
      · omega
      · exact hkeep p hp
  | @closed _ start next hr hold =>
    obtain ⟨-, -, hlast⟩ := hbounds (.point s.cursor.eatBlanks.pos) (List.mem_singleton_self _)
    have hlast : s.cursor.eatBlanks.pos < s.cursor.pos + taken.length := hlast
    rw [hold] at hctx hkeep
    have hstart := hctx start List.mem_cons_self
    have hblanks := s.cursor.takes_eatBlanks.pos
    refine ⟨?_, fun p hp => hkeep p (List.mem_cons_of_mem _ hp)⟩
    intro e he
    rw [List.mem_singleton.mp he]
    refine ⟨decide_eq_true ?_, ?_⟩
    · show start ≤ s.cursor.eatBlanks.pos
      omega
    · show s.cursor.eatBlanks.pos < _
      omega

theorem Performs.accounted {later : List Task} (ha : s.agenda = task :: later)
    (h : Performs limit (s.drop later) task m) (hs : Accounted source events s) :
    Accounted source (events ++ m.events) m.next := by
  obtain ⟨parens, htiled, hparens⟩ := hs.tiled
  obtain ⟨more, htiles, hmore⟩ := h.tiles
  have hheld : source.Holds (s.drop later).cursor := ⟨_, htiled.choose_spec.1⟩
  have hreg : Regular (task :: (s.drop later).agenda) := ha ▸ hs.regular
  have hahead := hs.ahead ha
  obtain ⟨hspans, hcontexts⟩ := h.gives.bounds htiles hs.contexts
  have hpos : s.cursor.pos ≤ m.next.cursor.pos := by
    obtain ⟨taken, htakes, -⟩ := htiles
    rw [htakes.pos]
    exact Nat.le_add_right _ _
  refine ⟨⟨parens ++ more, ?_, ?_⟩, ?_, hcontexts, h.regular hreg,
    fun hnext => h.ahead hheld hreg hahead hnext, ?_⟩
  · rw [lexemes_append]
    exact htiled.trans htiles
  · intro i hi
    rcases List.mem_append.mp hi with hi | hi
    · exact (hparens i hi).imp .mono .mono
    · exact ((hmore i hi).excepted hheld hahead).imp .mono .mono
  · intro e he
    rcases List.mem_append.mp he with he | he
    · exact ⟨(hs.spans e he).1, Nat.lt_of_lt_of_le (hs.spans e he).2 hpos⟩
    · exact hspans e he
  · intro hdone
    obtain ⟨-, hr, hctx, rfl⟩ := h.done hreg hdone
    exact ⟨hr, hctx⟩

theorem Run.accounted {t : State} {before : List Event} (h : Run limit s events t)
    (hs : Accounted source before s) : Accounted source (before ++ events) t :=
  h.preserves (fun ha hperf hs => hperf.accounted ha hs) before hs

end

end Scan

/-- A run is the beginning of the scan. -/
theorem Scan.Run.remainder {source : Source} {limit : Nat} {events all : List Event}
    {s : Scan.State} (h : Scan.Run limit (.start source.bytes) events s)
    (hscan : source.scan limit = .ok all) :
    ∃ more t, Scan.Run limit s more t ∧ all = events ++ more := by
  have houtcome := Scan.State.outcome_eq_ok_iff.mpr (Source.scan_eq_ok_iff.mp hscan)
  rw [h.outcome_eq] at houtcome
  cases hrest : s.outcome limit with
  | error fault =>
    rw [hrest] at houtcome
    cases houtcome
  | ok more =>
    rw [hrest] at houtcome
    cases houtcome
    obtain ⟨t, hrun, -⟩ := Scan.State.outcome_eq_ok_iff.mp hrest
    exact ⟨more, t, hrun, rfl⟩

/-- A scan that succeeds ends at the end of its source. -/
theorem Source.run_end {source : Source} {limit : Nat} {events : List Event} {t : Scan.State}
    (h : Scan.Run limit (.start source.bytes) events t) (hdone : t.agenda = []) :
    t.cursor = ⟨source.length, []⟩ := by
  have ht := h.accounted (Scan.accounted_start source)
  obtain ⟨parens, ⟨taken, htakes, -⟩, -⟩ := ht.tiled
  have hrest := (ht.done hdone).1
  have hall := htakes.rest
  rw [hrest, List.append_nil] at hall
  refine htakes.unique ⟨?_, ?_⟩
  · rw [hall, List.append_nil]
  · rw [← hall]
    exact (Nat.zero_add _).symm

/-- The spans of a scan lie in its source. -/
theorem Source.spans_within {source : Source} {limit : Nat} {events : List Event}
    (h : source.scan limit = .ok events) :
    ∀ e ∈ events, e.span.isSet = true ∧ e.span.last < source.length := by
  obtain ⟨t, hrun, hdone⟩ := Source.scan_eq_ok_iff.mp h
  have hspans := (hrun.accounted (Scan.accounted_start source)).spans
  rw [List.nil_append, Source.run_end hrun hdone] at hspans
  exact hspans

/-- Lexemes that follow one another have no byte in common. -/
theorem eq_of_covers {spans : List Span} (h : spans.Pairwise fun s t => s.last < t.first)
    {s t : Span} (hs : s ∈ spans) (ht : t ∈ spans) {i : Nat} (hsi : s.Covers i)
    (hti : t.Covers i) : s = t := by
  have hapart : ∀ {s t : Span}, s.last < t.first → s.Covers i → t.Covers i → False := by
    rintro s t hlt ⟨-, hlast⟩ ⟨hfirst, -⟩
    omega
  have hsame : ∀ s ∈ spans, ∀ t ∈ spans, s.Covers i → t.Covers i → s = t :=
    List.Pairwise.forall_of_forall_of_flip (fun _ _ _ _ => rfl)
      (h.imp fun hlt hs ht => (hapart hlt hs ht).elim)
      (h.imp fun hlt hs ht => (hapart hlt ht hs).elim)
  exact hsame s hs t ht hsi hti

/-- A scan that succeeds accounts for every byte of its source that is not
white, and for none twice. -/
theorem scan_covers {source : Source} {limit : Nat} {events : List Event}
    (h : source.scan limit = .ok events) :
    (∀ e ∈ events, e.span.isSet = true ∧ e.span.last < source.length) ∧
      (lexemes events).Pairwise (fun s t => s.last < t.first) ∧
      ∀ i b, source.byte? i = some b → Byte.isWhite b = false →
        (∃! s, s ∈ lexemes events ∧ s.Covers i) ∨
          (∀ s ∈ lexemes events, ¬ s.Covers i) ∧
            (OpensText source events i ∨ ClosesText source events i) := by
  obtain ⟨t, hrun, hdone⟩ := Source.scan_eq_ok_iff.mp h
  have ht := hrun.accounted (Scan.accounted_start source)
  rw [List.nil_append] at ht
  obtain ⟨parens, ⟨taken, htakes, htiling⟩, hparens⟩ := ht.tiled
  -- the run has taken the whole source
  obtain rfl : taken = source.bytes := by
    have hrest := htakes.rest
    rw [(ht.done hdone).1, List.append_nil] at hrest
    exact hrest.symm
  have hend : t.cursor.pos = source.length := htakes.pos.trans (Nat.zero_add _)
  refine ⟨fun e he => hend ▸ ht.spans e he, htiling.pairwise, ?_⟩
  intro i b hb hwhite
  have hcovered := htiling.covered_or_paren hb hwhite
  rw [show source.cursor.pos + i = i from Nat.zero_add i] at hcovered
  rcases hcovered with ⟨s, hs, hcov⟩ | ⟨hnone, hmem⟩
  · exact .inl ⟨s, ⟨hs, hcov⟩, fun u hu => eq_of_covers htiling.pairwise hu.1 hs hu.2 hcov⟩
  · exact .inr ⟨hnone, hparens i hmem⟩

/-- Text in parentheses: they are in no lexeme. -/
theorem scan_covers_described :
    let source : Source := ⟨"", Utf8.bytes "Description (\n hi\n)", by decide⟩
    let events := Part.keyword.events 0 11 ++ Part.text.events 15 17
    source.scan 0 = .ok events ∧
      ∀ i ∈ [12, 18], OpensText source events i ∨ ClosesText source events i := by
  have h : (⟨"", Utf8.bytes "Description (\n hi\n)", by decide⟩ : Source).scan 0
      = .ok (Part.keyword.events 0 11 ++ Part.text.events 15 17) := by
    decide +kernel
  refine ⟨h, ?_⟩
  intro i hi
  obtain ⟨-, -, hcover⟩ := scan_covers h
  have hin : ∀ i ∈ [12, 18],
      ∀ s ∈ lexemes (Part.keyword.events 0 11 ++ Part.text.events 15 17), ¬ s.Covers i := by
    decide
  have hbyte : ∃ b, (⟨"", Utf8.bytes "Description (\n hi\n)", by decide⟩ : Source).byte? i = some b
      ∧ Byte.isWhite b = false := by
    rcases List.mem_pair.mp hi with rfl | rfl
    · exact ⟨Byte.openParen, by decide +kernel, by decide⟩
    · exact ⟨Byte.closeParen, by decide +kernel, by decide⟩
  obtain ⟨b, hb, hwhite⟩ := hbyte
  rcases hcover i b hb hwhite with ⟨s, ⟨hs, hcov⟩, -⟩ | ⟨-, hparen⟩
  · exact absurd hcov (hin i hi s hs)
  · exact hparen

end ApiDoc
