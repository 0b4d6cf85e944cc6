import ApiDoc.Proofs.Scan.Places
import ApiDoc.Proofs.Schema.Respelt

/-!
# Scans of a respelt source

The scanner does the same in a source and in its respelling, step by step: it
gives the same events, with their ends in their places, and reaches the state in
the respelt source that corresponds to its own; or it fails in both, with the
same code (`respell_step`). So the whole scans correspond (`respell_outcome`).

A failure is found in its place. There is one exception: a schema that does not
end is blamed at the last byte of the source, and that may be the last of the
breaks by which a break is spelt.
-/

namespace ApiDoc.Scan

open Respelling

/-! ## States -/

def State.respell (r : Respelling) (place : Nat → Nat) (s : State) : State :=
  ⟨s.cursor.respell r place, s.agenda, s.contexts.map place⟩

def Move.respell (r : Respelling) (place : Nat → Nat) (m : Move) : Move :=
  ⟨m.events.map (Event.relocate place), m.next.respell r place⟩

/-- The same failure, in the source and in its respelling. -/
structure Fault.Matches (source : Source) (place : Nat → Nat) (fault fault' : Fault) : Prop where
  code : fault'.cause.code = fault.cause.code
  offset : fault'.offset = place fault.offset ∨
    fault.offset + 1 = source.length ∧ fault'.offset + 1 = place source.length

/-- The same result, in the source and in its respelling. -/
inductive Answers (r : Respelling) (source : Source) (place : Nat → Nat) :
    Except Fault Move → Except Fault Move → Prop
  | moved (m : Move) : Answers r source place (.ok m) (.ok (m.respell r place))
  | failed {fault fault' : Fault} (h : fault.Matches source place fault') :
      Answers r source place (.error fault) (.error fault')

variable {r : Respelling} {source : Source} {place : Nat → Nat} {limit : Nat} {s : State}
  {c : Cursor} {line : Line} {b : UInt8} {tail : List UInt8}

/-- Events that are in their places, and a cursor that is. -/
theorem Answers.proceed {events events' : List Event} {d d' : Cursor}
    (hevents : events' = events.map (Event.relocate place)) (hd : d' = d.respell r place)
    (s : State) (tasks : List Task) :
    Answers r source place (.ok ⟨events, s.proceed d tasks⟩)
      (.ok ⟨events', (s.respell r place).proceed d' tasks⟩) := by
  subst hevents hd
  exact .moved _

theorem Answers.unexpected {d d' : Cursor} (hd : d' = d.respell r place)
    (where₁ expected₁ where₂ expected₂ : String) :
    Answers r source place (.error (Scan.unexpected d where₁ expected₁))
      (.error (Scan.unexpected d' where₂ expected₂)) := by
  subst hd
  have hrest : (d.respell r place).rest = r.text d.rest := rfl
  refine .failed ?_
  unfold Scan.unexpected
  rw [hrest]
  rcases r.head_cases d.rest with
    ⟨hr, h⟩ | ⟨b, tail, hr, -, h⟩ | ⟨b, tail, x, more, hr, -, h, -⟩
  · rw [h, hr]
    exact ⟨rfl, .inl rfl⟩
  · rw [h, hr]
    exact ⟨rfl, .inl rfl⟩
  · rw [h, hr]
    exact ⟨rfl, .inl rfl⟩

section

variable (h : Converts r source place) (hc : source.Holds c)

include h hc

/-! ## Ends of lines -/

theorem respell_lineEnd (ending : Ending) (s : State) :
    Answers r source place (lineEnd ending s c)
      (lineEnd ending (s.respell r place) (c.respell r place)) := by
  have hline : c.eatLine.eatBreak.respell r place = (c.respell r place).eatLine.eatBreak := by
    rw [h.eatLine hc, h.eatBreak (hc.move c.takes_eatLine)]
  have hrest : (c.respell r place).rest = r.text c.rest := rfl
  unfold lineEnd
  rw [hrest]
  rcases r.head_cases c.rest with
    ⟨hr, htext⟩ | ⟨b, tail, hr, hb, htext⟩ | ⟨b, tail, d, more, hr, hb, htext, hd⟩
  · rw [htext, hr]
    exact .proceed rfl rfl s []
  · rw [htext, hr]
    dsimp only
    by_cases hhash : b = Byte.hash
    · subst hhash
      rw [if_pos rfl, if_pos rfl]
      exact .proceed (h.lineEvents hc hr not_isWhite_hash _) hline.symm s []
    · rw [if_neg hhash, if_neg hhash, if_neg (by simp [hb]), if_neg (by simp [hb])]
      exact .unexpected rfl _ _ _ _
  · have hhash : ∀ {x}, Byte.isBreak x = true → x ≠ Byte.hash :=
      fun hx => Schema.ne_of_isBreak hx rfl
    rw [htext, hr]
    dsimp only
    rw [if_neg (hhash hd), if_neg (hhash hb), if_pos hd, if_pos hb]
    exact .proceed rfl (h.eatBreak hc) s []

/-! ## Items -/

theorem respell_blockComment (hr : c.rest = Byte.slash :: Byte.hash :: tail) (s : State) :
    Answers r source place (blockComment s c)
      (blockComment (s.respell r place) (c.respell r place)) := by
  have hrest : (c.respell r place).rest.drop 2 = r.text tail := by
    show (r.text c.rest).drop 2 = _
    rw [hr, text_plain rfl, text_plain rfl]
    rfl
  have hdrop : c.rest.drop 2 = tail := by
    rw [hr]
    rfl
  unfold blockComment
  rw [hrest, hdrop, afterClose?_text]
  cases hclose : Comment.afterClose? tail with
  | none =>
    exact .unexpected (h.moveTo hc List.nil_suffix) _ _ _ _
  | some rest =>
    obtain ⟨inner, hinner, -⟩ := Comment.afterClose?_split hclose
    have hword : c.rest = (Byte.slash :: Byte.hash :: inner ++ [Byte.hash, Byte.slash]) ++ rest := by
      rw [hr, hinner]
      simp
    have hmove := h.moveTo hc ⟨_, hword.symm⟩
    refine .proceed ?_ hmove s _
    show Part.comment.events (place c.pos) ((c.respell r place).moveTo (r.text rest)).pos = _
    rw [hmove]
    refine h.events hc (Cursor.takes_moveTo hword) (by simp) ?_ _
    rw [endsLine_append_of_ne_nil (by simp)]
    rfl

theorem respell_closeContext (hr : c.rest = Byte.closeParen :: tail) (s : State) :
    Answers r source place (closeContext s c)
      (closeContext (s.respell r place) (c.respell r place)) := by
  have hctx : (s.respell r place).contexts = s.contexts.map place := rfl
  unfold closeContext
  rw [hctx]
  cases s.contexts with
  | nil => exact .unexpected rfl _ _ _ _
  | cons start outer =>
    exact .proceed (s := { s with contexts := outer }) rfl (h.advance_one hc hr rfl) _

theorem respell_keyword (s : State) :
    Answers r source place (keyword s c) (keyword (s.respell r place) (c.respell r place)) := by
  have hrest : Keyword.recognise (c.respell r place).rest
      = (Keyword.recognise c.rest).respell r := recognise_text c.rest
  unfold keyword
  rw [hrest]
  cases hk : Keyword.recognise c.rest with
  | found kind rest =>
    obtain ⟨word, hword, hspells, -⟩ := Keyword.recognise_eq_found_iff.mp hk
    have hmove := h.moveTo hc ⟨word, hword.symm⟩
    refine .proceed ?_ hmove s _
    show Part.keyword.events (place c.pos) ((c.respell r place).moveTo (r.text rest)).pos = _
    rw [hmove]
    exact h.events hc (Cursor.takes_moveTo hword) hspells.ne_nil
      (endsLine_of_forall hspells.isBreak) _
  | stuck progress rest =>
    exact .unexpected (h.moveTo hc (Keyword.Progress.suffix_of_run_stuck hk)) _ _ _ _

theorem respell_items (s : State) :
    Answers r source place (items s c) (items (s.respell r place) (c.respell r place)) := by
  have hrest : (c.respell r place).rest = r.text c.rest := rfl
  unfold items
  rw [hrest]
  rcases r.head_cases c.rest with
    ⟨hr, htext⟩ | ⟨b, tail, hr, hb, htext⟩ | ⟨b, tail, d, more, hr, hb, htext, hd⟩
  · have hctx : (s.respell r place).contexts = s.contexts.map place := rfl
    rw [htext, hr]
    dsimp only
    rw [hctx]
    cases s.contexts with
    | nil => exact .proceed rfl rfl s []
    | cons start outer => exact .unexpected rfl _ _ _ _
  · rw [htext, hr]
    dsimp only
    have hpeek : (c.respell r place).peek = Byte.hash ↔ _ := Converts.peek_eq_iff hr hb rfl
    simp only [hb, Bool.false_eq_true, if_false, hpeek]
    by_cases hhash : b = Byte.hash
    · subst hhash
      rw [if_pos rfl, if_pos rfl]
      exact .proceed (h.lineEvents hc hr not_isWhite_hash _) (h.eatLine hc) s _
    · rw [if_neg hhash, if_neg hhash]
      by_cases hblock : b = Byte.slash ∧ c.peek = Byte.hash
      · rw [if_pos hblock, if_pos hblock]
        obtain ⟨rfl, hpeek⟩ := hblock
        obtain ⟨more, hmore⟩ := Cursor.rest_of_peek hr hpeek (by decide)
        exact respell_blockComment h hc hmore s
      · rw [if_neg hblock, if_neg hblock]
        by_cases hclose : b = Byte.closeParen
        · subst hclose
          rw [if_pos rfl, if_pos rfl]
          exact respell_closeContext h hc hr s
        · rw [if_neg hclose, if_neg hclose]
          exact respell_keyword h hc s
  · rw [htext, hr]
    dsimp only
    rw [if_pos hd, if_pos hb]
    exact .proceed rfl (h.eatBreak hc) s _

/-! ## Bodies -/

/-- A schema that cannot be read is blamed in its place, or at the end. -/
theorem matches_schema {front : List UInt8} {stop : Schema.Stop} (hr : c.rest = front ++ stop.rest)
    (hne : c.rest ≠ []) :
    Fault.Matches source place
      ⟨.schema stop.complaint, (stop.fault c.rest.length).offsetFrom c.pos, c.pos⟩
      ⟨.schema stop.complaint, (Schema.Stop.fault (r.text c.rest).length
        ⟨stop.complaint, r.text stop.rest⟩).offsetFrom (place c.pos), place c.pos⟩ := by
  obtain ⟨complaint, rest⟩ := stop
  have htext : r.text c.rest = r.text front ++ r.text rest := by rw [hr, text_append]
  -- the document ends behind both texts, and within bounds
  have hend : c.pos + c.rest.length = source.length := hc.stop
  have hend' : place c.pos + (r.text c.rest).length = place source.length := by
    obtain ⟨taken, htaken⟩ := hc
    have hall : source.cursor.Takes (taken ++ c.rest) ⟨source.length, []⟩ := by
      refine ⟨htaken.rest.trans (List.append_nil _).symm, ?_⟩
      rw [← hend, htaken.pos, List.length_append, Nat.add_assoc]
    rw [h.place_pos htaken, h.place_pos hall, text_append, List.length_append]
  have hfits : source.length ≤ maxOffset :=
    Nat.le_trans source.fits (Nat.sub_le _ _)
  have hfits' : place source.length ≤ maxOffset := by
    have := h.length (List.append_nil source.bytes).symm
    rw [Source.length, this]
    exact h.fits
  have hoffset := Schema.offset_fault front ⟨complaint, rest⟩
  have hoffset' := Schema.offset_fault (r.text front) ⟨complaint, r.text rest⟩
  rw [← hr] at hoffset
  rw [← htext] at hoffset'
  have hlen := congrArg List.length hr
  have hlen' := congrArg List.length htext
  rw [List.length_append] at hlen hlen'
  dsimp only at hoffset hoffset' hlen
  have hpos := List.length_pos_iff.mpr hne
  refine ⟨rfl, ?_⟩
  dsimp only [Schema.Fault.offsetFrom]
  rw [hoffset, hoffset']
  cases rest with
  | nil =>
    have hpos' : 0 < (r.text c.rest).length :=
      List.length_pos_iff.mpr fun hnil => hne (text_eq_nil_iff.mp hnil)
    rw [text_nil, List.length_nil] at *
    exact .inr (by omega)
  | cons x more =>
    have hplace : place (c.pos + front.length) = place c.pos + (r.text front).length := by
      have htakes := Cursor.takes_moveTo hr
      have hmove := (h.takes hc htakes).pos
      rwa [← htakes.pos]
    have hmore : 0 < (r.text (x :: more)).length :=
      List.length_pos_iff.mpr fun hnil => List.cons_ne_nil x more (text_eq_nil_iff.mp hnil)
    rw [List.length_cons] at *
    refine .inl ?_
    rw [Nat.min_eq_left (by omega), Nat.min_eq_left (by omega), Nat.min_eq_left (by omega),
      Nat.min_eq_left (by omega), hplace]

theorem respell_schemaBody (hr : c.rest = b :: tail) (hb : Byte.isBreak b = false) (line : Line)
    (s : State) :
    Answers r source place (schemaBody line s c)
      (schemaBody line (s.respell r place) (c.respell r place)) := by
  have hrest : (c.respell r place).rest = r.text c.rest := rfl
  have hne : c.rest ≠ [] := by
    rw [hr]
    exact List.cons_ne_nil b tail
  have hhead : Schema.Headed c.rest := by
    intro x more hx
    rw [hr] at hx
    cases hx
    exact hb
  unfold schemaBody
  cases line.declared.grammar? with
  | none => exact .failed ⟨rfl, .inl rfl⟩
  | some grammar =>
    dsimp only
    rw [hrest]
    cases hn : Schema.extent grammar c.rest with
    | ok n =>
      obtain ⟨word, rest, hword, hsolid, rfl, htext⟩ :=
        Schema.extent_text (h.suits_rest hc) hhead hn
      have hmove := h.advance hc hword
      have htakes : c.Takes word (c.advance word.length) := by
        have := c.takes_advance word.length
        rwa [hword, List.take_left] at this
      rw [htext]
      refine .proceed ?_ hmove s _
      have hevents := h.events hc htakes hsolid.1 hsolid.2 Part.schema
      rw [htakes.pos] at hevents
      rw [← hevents, ← htakes.pos]
      exact congrArg (Part.schema.events (place c.pos)) (h.takes hc htakes).pos.symm
    | error fault =>
      obtain ⟨front, stop, hfront, rfl, htext⟩ :=
        Schema.extent_text_error (h.suits_rest hc) hhead hn
      rw [htext]
      exact .failed (matches_schema h hc hfront hne)

/-! ## Text -/

theorem respell_textLines (inContext : Bool) {stop : Nat} (hstop : stop ≤ source.length) :
    textLines inContext (c.respell r place) (place stop)
      = (place (textLines inContext c stop).1, (textLines inContext c stop).2.respell r place) := by
  have hends : ∀ {d : Cursor}, endsText inContext (d.respell r place).rest
      = endsText inContext d.rest := fun {d} => endsText_text inContext d.rest
  have hmax : ∀ {c : Cursor} {stop}, source.Holds c → stop ≤ source.length →
      max (c.respell r place).textEnd (place stop) = place (max c.textEnd stop) ∧
        max c.textEnd stop ≤ source.length := by
    intro c stop hc hstop
    have hle := Converts.textEnd_le hc
    rw [h.textEnd hc, h.place_max hle hstop]
    exact ⟨rfl, Nat.max_le.mpr ⟨hle, hstop⟩⟩
  fun_induction textLines inContext c stop with
  | case1 c stop hbreak hover =>
    have hline := hc.move c.takes_eatLine
    have hnext := hline.move c.eatLine.takes_eatBreak
    rw [textLines, h.eatLine hc, h.atBreak hline, if_pos hbreak, h.eatBreak hline,
      h.eatWhite hnext, hends, if_pos hover, (hmax hc hstop).1]
  | case2 c stop hbreak hover ih =>
    have hline := hc.move c.takes_eatLine
    have hnext := hline.move c.eatLine.takes_eatBreak
    rw [textLines, h.eatLine hc, h.atBreak hline, if_pos hbreak, h.eatBreak hline,
      h.eatWhite hnext, hends, if_neg hover, (hmax hc hstop).1, h.eatBlanks hnext]
    exact ih (hnext.move (Cursor.takes_eatBlanks _)) (hmax hc hstop).2
  | case3 c stop hbreak =>
    have hline := hc.move c.takes_eatLine
    rw [textLines, h.eatLine hc, h.atBreak hline, if_neg hbreak, (hmax hc hstop).1]

theorem respell_textBody (hgo : endsText (! s.contexts.isEmpty) c.eatWhite.rest = false) :
    textBody (s.respell r place) (c.respell r place) = (textBody s c).respell r place := by
  have hempty : (s.respell r place).contexts.isEmpty = s.contexts.isEmpty := List.isEmpty_map
  have hle : c.pos ≤ source.length := hc.stop ▸ Nat.le_add_right _ _
  have hlines := respell_textLines h hc (! s.contexts.isEmpty) hle
  obtain ⟨text, back, hreads⟩ := textLines_reads (Nat.le_refl c.pos) hgo
  obtain ⟨d, htext, -⟩ := hreads.takes.split
  have hevents := h.events hc htext hreads.ne_nil hreads.endsLine Part.text
  rw [htext.pos, ← hreads.stop] at hevents
  have hpos : (c.respell r place).pos = place c.pos := rfl
  simp only [textBody, hempty, hpos, hlines, hevents]
  rfl

/-- The range of the text in parentheses, in its place. -/
theorem respell_widen (range : Option (Nat × Nat)) :
    widen (range.map fun (p, q) => (place p, place q)) (place c.pos)
        (c.respell r place).textEnd
      = (widen range c.pos c.textEnd).map fun (p, q) => (place p, place q) := by
  have hiff : place c.pos < (c.respell r place).textEnd ↔ c.pos < c.textEnd := by
    rw [Cursor.textEnd, Cursor.textEnd, Converts.line]
    show place c.pos < place c.pos + _ ↔ _
    omega
  unfold widen
  by_cases hlt : c.pos < c.textEnd
  · rw [if_pos (hiff.mpr hlt), if_pos hlt, h.textEnd hc]
    cases range with
    | none => rfl
    | some range => rfl
  · rw [if_neg (fun hlt' => hlt (hiff.mp hlt')), if_neg hlt]

theorem respell_parenLines (range : Option (Nat × Nat)) :
    parenLines (range.map fun (p, q) => (place p, place q)) (c.respell r place)
      = ((parenLines range c).1.map fun (p, q) => (place p, place q),
          (parenLines range c).2.respell r place) := by
  have hrest : ∀ d : Cursor, (d.respell r place).rest = r.text d.rest := fun _ => rfl
  fun_induction parenLines range c with
  | case1 range c hnil =>
    have htext : (c.respell r place).rest = [] := by rw [hrest, hnil, text_nil]
    rw [parenLines.eq_def]
    split
    · rfl
    · rename_i hcons
      rw [htext] at hcons
      cases hcons
  | case2 range c tail hr =>
    rw [parenLines_cons (c := c.respell r place) (by rw [hrest, hr, text_plain rfl]), if_pos rfl]
  | case3 range c b tail hr hclose ih =>
    have hline := hc.move c.takes_eatLine
    have hnext := hline.move c.eatLine.takes_eatBreak
    obtain ⟨d, more, htext, hd⟩ : ∃ d more, r.text (b :: tail) = d :: more ∧
        d ≠ Byte.closeParen := by
      cases hb : Byte.isBreak b with
      | false => exact ⟨b, _, text_plain hb tail, hclose⟩
      | true =>
        obtain ⟨d, more, htext, hd⟩ := text_break (r := r) hb tail
        exact ⟨d, more, htext, Schema.ne_of_isBreak hd rfl⟩
    rw [parenLines_cons (c := c.respell r place) (by rw [hrest, hr, htext]), if_neg hd]
    show parenLines (widen _ (place c.pos) _) _ = _
    rw [respell_widen h hc, h.eatLine hc, h.eatBreak hline, h.eatBlanks hnext]
    exact ih (hnext.move (Cursor.takes_eatBlanks _))

theorem respell_parenBody (s : State) :
    Answers r source place (parenBody s c)
      (parenBody (s.respell r place) (c.respell r place)) := by
  have hlines := respell_parenLines h hc none
  obtain ⟨taken, htakes, hrange⟩ := takes_parenLines none c
  unfold parenBody
  rw [Option.map_none] at hlines
  rw [hlines]
  cases hp : parenLines none c with
  | mk range behind =>
    rw [hp] at htakes hrange
    have hbehind := hc.move htakes
    have hrest : (behind.respell r place).rest = r.text behind.rest := rfl
    dsimp only
    rw [hrest]
    cases hr : behind.rest with
    | nil => exact .unexpected rfl _ _ _ _
    | cons b tail =>
      obtain rfl := parenLines_rest hp hr
      rw [text_plain rfl]
      refine .proceed ?_ (h.advance_one hbehind hr rfl) s _
      rcases hrange with ⟨rfl, -⟩ | ⟨front, text, back, rfl, hne, hlast, -, -, rfl⟩
      · rfl
      · -- the text stands behind white bytes
        obtain ⟨e, hmost, -⟩ := htakes.split
        obtain ⟨d, hfront, htext⟩ := hmost.split
        have hevents := h.events (hc.move hfront) htext hne hlast Part.text
        rw [htext.pos, hfront.pos] at hevents
        exact hevents

theorem respell_body (line : Line) (hcursor : s.cursor = c) :
    Answers r source place (body line s) (body line (s.respell r place)) := by
  subst hcursor
  have hcursor : (s.respell r place).cursor = s.cursor.respell r place := rfl
  have hempty : (s.respell r place).contexts.isEmpty = s.contexts.isEmpty := List.isEmpty_map
  have hskip : Answers r source place (.ok ⟨[], s.proceed s.cursor []⟩)
      (.ok ⟨[], (s.respell r place).proceed (s.cursor.respell r place) []⟩) :=
    .proceed rfl rfl s []
  have hwhite := hc.move s.cursor.takes_eatWhite
  unfold body
  rw [hcursor, hempty, h.eatBlanks hc, h.eatWhite hc]
  by_cases hopen : line.opened = true
  · rw [if_pos hopen, if_pos hopen]
    by_cases htext : line.kind.hasTextBody = true
    · rw [if_pos htext, if_pos htext]
      exact respell_parenBody h (hc.move s.cursor.takes_eatBlanks) s
    · rw [if_neg htext, if_neg htext]
      exact hskip
  · rw [if_neg hopen, if_neg hopen]
    cases line.kind.body? with
    | none => exact hskip
    | some content =>
      cases content with
      | schema =>
        have hitem : opensItem (s.cursor.eatWhite.respell r place).rest
            = opensItem s.cursor.eatWhite.rest := opensItem_text _
        dsimp only
        rw [hitem]
        cases hrest : s.cursor.eatWhite.rest with
        | nil => exact hskip
        | cons b tail =>
          by_cases hopens : opensItem (b :: tail) = true
          · rw [if_pos hopens, if_pos hopens]
            exact hskip
          · rw [if_neg hopens, if_neg hopens]
            have hb : Byte.isWhite b = false := Cursor.head_eatWhile hrest
            exact respell_schemaBody h hwhite hrest (Byte.isWhite_eq_false_iff.mp hb).2 line s
      | text =>
        have hends : endsText (! s.contexts.isEmpty) (s.cursor.eatWhite.respell r place).rest
            = endsText (! s.contexts.isEmpty) s.cursor.eatWhite.rest := endsText_text _ _
        dsimp only
        rw [hends]
        cases hover : endsText (! s.contexts.isEmpty) s.cursor.eatWhite.rest with
        | true => exact hskip
        | false =>
          rw [← s.cursor.eatWhite_eatWhite] at hover
          rw [respell_textBody h hwhite hover]
          exact .moved _

/-! ## Directive lines -/

theorem respell_parameter {word : List UInt8} {behind : Cursor} (k : c.Takes word behind)
    (hne : word ≠ []) (hword : ∀ b ∈ word, Byte.isBreak b = false) (line : Line) (s : State) :
    parameter line (s.respell r place) (c.respell r place) (behind.respell r place)
      = (parameter line s c behind).respell r place := by
  have htext : r.text word = word := text_line hword
  have hmove := h.takes hc k
  rw [htext] at hmove
  have hraw : ∀ {c d : Cursor}, c.Takes word d → c.rest.take (d.pos - c.pos) = word := by
    intro c d k
    rw [k.pos, Nat.add_sub_cancel_left, k.rest, List.take_left]
  have hevents := h.events hc k hne (endsLine_of_forall hword) Part.parameter
  unfold parameter
  rw [hraw k, hraw hmove]
  show (⟨Part.parameter.events (place c.pos) (place behind.pos), _⟩ : Move) = _
  rw [hevents]
  rfl

theorem respell_openParen (hr : c.rest = Byte.openParen :: tail) (line : Line) (s : State) :
    Answers r source place (openParen limit line s c)
      (openParen limit line (s.respell r place) (c.respell r place)) := by
  have hlength : (s.respell r place).contexts.length = s.contexts.length := List.length_map _
  have hadvance := h.advance_one hc hr rfl
  have hnext := hc.move (Cursor.takes_advance_one hr)
  unfold openParen
  rw [hadvance, h.eatBlanks hnext, Converts.endsDirectiveLine, hlength]
  dsimp only
  by_cases hends : endsDirectiveLine c.advance.eatBlanks = true
  · rw [if_pos hends, if_pos hends]
    by_cases htext : line.kind.hasTextBody = true
    · rw [if_pos htext, if_pos htext]
      exact .proceed rfl rfl s _
    · rw [if_neg htext, if_neg htext]
      by_cases hlimit : limit ≤ s.contexts.length
      · rw [if_pos hlimit, if_pos hlimit]
        exact .failed ⟨rfl, .inl rfl⟩
      · rw [if_neg hlimit, if_neg hlimit]
        exact .proceed (s := { s with contexts := c.pos :: s.contexts }) rfl rfl _
  · rw [if_neg hends, if_neg hends]
    exact .unexpected rfl _ _ _ _

theorem respell_quotedParameter (hr : c.rest = Byte.quote :: tail) (line : Line) (s : State) :
    Answers r source place (quotedParameter line s c)
      (quotedParameter line (s.respell r place) (c.respell r place)) := by
  have hrest : (c.respell r place).rest.tail = r.text tail := by
    show (r.text c.rest).tail = _
    rw [hr, text_plain rfl]
    rfl
  have hsuffix : quotedRest false tail <:+ c.rest := by
    rw [hr]
    exact (quotedRest_suffix false tail).trans (List.suffix_cons _ _)
  unfold quotedParameter
  rw [hrest, quotedRest_text, h.moveTo hc hsuffix, hr]
  dsimp only [List.tail_cons]
  by_cases hquote : (c.moveTo (quotedRest false tail)).current = Byte.quote
  · rw [if_pos hquote, if_pos ((Converts.current_eq_iff _ rfl).mpr hquote)]
    cases hq : quotedRest false tail with
    | nil =>
      -- past the end a zero is read, and that is no quote
      rw [hq] at hquote
      exact absurd hquote (show (0 : UInt8) ≠ Byte.quote by decide)
    | cons b rest =>
      rw [hq] at hquote hsuffix
      obtain rfl : b = Byte.quote := hquote
      obtain ⟨word, htakes, hne, hword⟩ := takes_quoted hr hq
      have hclose := hc.move (Cursor.takes_moveTo hsuffix.choose_spec.symm)
      have hadvance := h.advance_one hclose rfl rfl
      rw [hadvance, Converts.atLineEnd, Converts.isBlank_current]
      split
      · rw [respell_parameter h hc htakes hne hword]
        exact .moved _
      · exact .unexpected rfl _ _ _ _
  · rw [if_neg hquote, if_neg fun hcurrent => hquote ((Converts.current_eq_iff _ rfl).mp hcurrent)]
    exact .unexpected rfl _ _ _ _

theorem respell_bareParameter (hr : c.rest = b :: tail) (hb : Byte.isWhite b = false)
    (line : Line) (s : State) :
    bareParameter line (s.respell r place) (c.respell r place)
      = (bareParameter line s c).respell r place := by
  unfold bareParameter
  rw [h.eatWhile hc uniform_isWhite.not]
  refine respell_parameter h hc (c.takes_eatWhile _) ?_ ?_ line s
  · rw [hr, List.takeWhile_cons_of_pos (by simp [hb])]
    exact List.cons_ne_nil _ _
  · intro x hx
    have hwhite : Byte.isWhite x = false := by simpa using List.mem_takeWhile_imp hx
    exact (Byte.isWhite_eq_false_iff.mp hwhite).2

theorem respell_tail (hblank : ∀ b tail, c.rest = b :: tail → Byte.isBlank b = false)
    (line : Line) (s : State) :
    Answers r source place (Scan.tail limit line s c)
      (Scan.tail limit line (s.respell r place) (c.respell r place)) := by
  have hrest : (c.respell r place).rest = r.text c.rest := rfl
  unfold Scan.tail
  rw [hrest]
  rcases r.head_cases c.rest with
    ⟨hr, htext⟩ | ⟨b, tail, hr, hb, htext⟩ | ⟨b, tail, d, more, hr, hb, htext, hd⟩
  · rw [htext, hr]
    exact .proceed rfl rfl s _
  · have hwhite : Byte.isWhite b = false :=
      Byte.isWhite_eq_false_iff.mpr ⟨hblank b tail hr, hb⟩
    have hpeek : ∀ {x}, Byte.isBreak x = false → ((c.respell r place).peek = x ↔ c.peek = x) :=
      Converts.peek_eq_iff hr hb
    have hopens : opensInlineSchema line b (c.respell r place).peek
        = opensInlineSchema line b c.peek := by
      have hat : ((c.respell r place).peek != Byte.atSign) = (c.peek != Byte.atSign) := by
        rw [Bool.eq_iff_iff, bne_iff_ne, bne_iff_ne]
        exact not_congr (hpeek rfl)
      rw [opensInlineSchema, opensInlineSchema, hat]
    rw [htext, hr]
    simp only [hb, Bool.false_eq_true, if_false,
      hpeek (show Byte.isBreak Byte.slash = false from rfl), hopens]
    by_cases hnote : b = Byte.slash ∧ c.peek = Byte.slash
    · rw [if_pos hnote, if_pos hnote]
      exact .proceed (h.lineEvents hc hr hwhite _) (h.eatLine hc) s _
    · rw [if_neg hnote, if_neg hnote]
      by_cases hhash : b = Byte.hash
      · rw [if_pos hhash, if_pos hhash]
        exact .proceed (h.lineEvents hc hr hwhite _) (h.eatLine hc) s _
      · rw [if_neg hhash, if_neg hhash]
        by_cases hopen : line.opened = true
        · rw [if_pos hopen, if_pos hopen]
          exact .unexpected rfl _ _ _ _
        · rw [if_neg hopen, if_neg hopen]
          by_cases hparen : b = Byte.openParen
          · subst hparen
            rw [if_pos rfl, if_pos rfl]
            exact respell_openParen h hc hr line s
          · rw [if_neg hparen, if_neg hparen]
            by_cases hschema : opensInlineSchema line b c.peek = true
            · rw [if_pos hschema, if_pos hschema]
              exact respell_schemaBody h hc hr hb line s
            · rw [if_neg hschema, if_neg hschema]
              by_cases hquote : b = Byte.quote
              · subst hquote
                rw [if_pos rfl, if_pos rfl]
                exact respell_quotedParameter h hc hr line s
              · rw [if_neg hquote, if_neg hquote, respell_bareParameter h hc hr hwhite]
                exact .moved _
  · rw [htext, hr]
    dsimp only
    rw [if_pos hd, if_pos hb]
    exact .proceed rfl (h.eatBreak hc) s _

/-! ## Scans -/

theorem respell_perform (hcursor : s.cursor = c) (task : Task) :
    Answers r source place (perform limit s task) (perform limit (s.respell r place) task) := by
  subst hcursor
  have hblanks : (s.respell r place).cursor.eatBlanks = s.cursor.eatBlanks.respell r place :=
    h.eatBlanks hc
  have hnext := hc.move s.cursor.takes_eatBlanks
  cases task with
  | items =>
    rw [perform, perform, hblanks]
    exact respell_items h hnext s
  | tail line =>
    rw [perform, perform, hblanks]
    exact respell_tail h hnext (fun _ _ hr => Cursor.head_eatBlanks hr) line s
  | body line => exact respell_body h hc line rfl
  | lineEnd ending =>
    rw [perform, perform, hblanks]
    exact respell_lineEnd h hnext ending s

end

/-- What happens next is the same. -/
inductive StepAnswers (r : Respelling) (source : Source) (place : Nat → Nat) : Step → Step → Prop
  | finished : StepAnswers r source place .finished .finished
  | failed {fault fault' : Fault} (h : fault.Matches source place fault') :
      StepAnswers r source place (.failed fault) (.failed fault')
  | moved (m : Move) : StepAnswers r source place (.moved m) (.moved (m.respell r place))

theorem respell_step (h : Converts r source place) (hc : source.Holds s.cursor) :
    StepAnswers r source place (step limit s) (step limit (s.respell r place)) := by
  have hagenda : (s.respell r place).agenda = s.agenda := rfl
  unfold step
  rw [hagenda]
  cases s.agenda with
  | nil => exact .finished
  | cons task later =>
    have hperform : Answers r source place (perform limit (s.drop later) task)
        (perform limit ((s.drop later).respell r place) task) :=
      respell_perform (s := s.drop later) h hc rfl task
    have hdrop : { s.respell r place with agenda := later } = (s.drop later).respell r place := rfl
    dsimp only
    rw [hdrop]
    generalize perform limit (s.drop later) task = result at hperform
    generalize perform limit ((s.drop later).respell r place) task = result' at hperform
    cases hperform with
    | moved m => exact .moved m
    | failed hmatches => exact .failed hmatches

/-- The same outcome: the events in their places, or the same failure. -/
inductive SameOutcome (source : Source) (place : Nat → Nat) :
    Except Fault (List Event) → Except Fault (List Event) → Prop
  | ok (events : List Event) :
      SameOutcome source place (.ok events) (.ok (events.map (Event.relocate place)))
  | error {fault fault' : Fault} (h : fault.Matches source place fault') :
      SameOutcome source place (.error fault) (.error fault')

/-- The scan of a respelt source comes to the same. -/
theorem respell_outcome (h : Converts r source place) (hc : source.Holds s.cursor) :
    SameOutcome source place (s.outcome limit) ((s.respell r place).outcome limit) := by
  -- every step leaves less work
  induction hw : s.work using Nat.strong_induction_on generalizing s with
  | _ work ih =>
    have hsame : StepAnswers r source place (step limit s) _ := respell_step h hc
    cases hs : step limit s with
    | finished =>
      rw [hs] at hsame
      generalize hs' : step limit (s.respell r place) = next at hsame
      cases hsame
      rw [State.outcome_finished hs, State.outcome_finished hs']
      exact .ok []
    | failed fault =>
      rw [hs] at hsame
      generalize hs' : step limit (s.respell r place) = next at hsame
      cases hsame with
      | failed hmatches =>
        rw [State.outcome_failed hs, State.outcome_failed hs']
        exact .error hmatches
    | moved m =>
      rw [hs] at hsame
      generalize hs' : step limit (s.respell r place) = next at hsame
      cases hsame
      obtain ⟨task, later, ha, hperf⟩ := step_eq_moved_iff.mp hs
      obtain ⟨parens, ⟨taken, htakes, -⟩, -⟩ := hperf.tiles
      have hrest := ih _ (hw ▸ work_step hs) (hc.move htakes) rfl
      rw [State.outcome_moved hs, State.outcome_moved hs']
      show SameOutcome source place _ (Except.map _ ((m.next.respell r place).outcome limit))
      generalize m.next.outcome limit = result at hrest
      generalize (m.next.respell r place).outcome limit = result' at hrest
      cases hrest with
      | ok events =>
        have hall : SameOutcome source place _ _ := .ok (m.events ++ events)
        rwa [List.map_append] at hall
      | error hmatches => exact .error hmatches

end ApiDoc.Scan

namespace ApiDoc

/-- The scans of a source and of its respelling come to the same. -/
theorem Converts.scan {r : Respelling} {source respelt : Source} {place : Nat → Nat}
    (h : Converts r source place) (hbytes : respelt.bytes = r.text source.bytes) (limit : Nat) :
    Scan.SameOutcome source place (Scan.scan limit source.bytes)
      (Scan.scan limit respelt.bytes) := by
  have hzero : place 0 = 0 := h.length (List.nil_append _).symm
  have hstart : (Scan.State.start source.bytes).respell r place
      = Scan.State.start respelt.bytes := by
    rw [hbytes]
    show (⟨⟨place 0, _⟩, _, _⟩ : Scan.State) = _
    rw [hzero]
    rfl
  rw [Scan.scan_eq_outcome, Scan.scan_eq_outcome, ← hstart]
  exact Scan.respell_outcome h ⟨[], .refl _⟩

end ApiDoc
