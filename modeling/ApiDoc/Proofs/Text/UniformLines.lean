import ApiDoc.Proofs.Text.Cursor
import ApiDoc.Proofs.Text.LinePartition

/-!
# Lines of a document with one kind of line end

The scanner takes the two breaks of a line end together, diagnostics count one of them
and trim the other. In a document whose lines all end in the same way both see the same
lines.

* **Documents** (`intercalate_split`): around a line stand the lines before it with their
  ends, and the lines behind it, each with the end before it.
* **Scanner** (`visited_intercalate`): the cursor passes the lines one by one.
* **Diagnostics** (`HasLines.lineNumber`, `HasLines.lineBounds`): an offset on a line has the
  number of the line and its bounds.
* **Agreement** (`lines_coincide`).
-/

namespace ApiDoc

/-- The ways in which a line may end. -/
def lineEnds : List (List UInt8) :=
  [[Byte.lineFeed], [Byte.carriageReturn], [Byte.carriageReturn, Byte.lineFeed],
    [Byte.lineFeed, Byte.carriageReturn]]

/-- The bounds of lines that end with `ending`, the first one at `pos`. -/
def boundsFrom (ending : List UInt8) : Nat → List (List UInt8) → List LineBounds
  | _, [] => []
  | pos, line :: later =>
    ⟨pos, pos + line.length⟩ :: boundsFrom ending (pos + line.length + ending.length) later

/-- The lines that a cursor passes which moves to the end of its line and past the line
end in turn. -/
def Cursor.visited (c : Cursor) : List LineBounds :=
  ⟨c.pos, c.eatLine.pos⟩ ::
    if c.eatLine.atBreak = true then c.eatLine.eatBreak.visited else []
termination_by c.rest.length
decreasing_by
  have := Cursor.length_eatBreak_lt ‹c.eatLine.atBreak = true›
  have := c.length_eatLine_le
  omega

variable {ending line : List UInt8} {front back lines : List (List UInt8)}

/-! ## Documents -/

/-- A line end is one break, or one and the break that pairs with it. -/
theorem lineEnd_cases (h : ending ∈ lineEnds) :
    ∃ d, Byte.isBreak d = true ∧ (ending = [d] ∨ ending = [d, Byte.pairedBreak d]) := by
  simp only [lineEnds, List.mem_cons, List.not_mem_nil, or_false] at h
  rcases h with rfl | rfl | rfl | rfl
  · exact ⟨_, rfl, .inl rfl⟩
  · exact ⟨_, rfl, .inl rfl⟩
  · exact ⟨_, rfl, .inr rfl⟩
  · exact ⟨_, rfl, .inr rfl⟩

theorem lineEnd_head (h : ending ∈ lineEnds) :
    ∃ d more, ending = d :: more ∧ Byte.isBreak d = true := by
  obtain ⟨d, hd, rfl | rfl⟩ := lineEnd_cases h
  · exact ⟨d, _, rfl, hd⟩
  · exact ⟨d, _, rfl, hd⟩

theorem intercalate_cons (ending line : List UInt8) (later : List (List UInt8)) :
    ending.intercalate (line :: later) = line ++ later.flatMap (ending ++ ·) := by
  induction later generalizing line with
  | nil => simp
  | cons next later ih =>
    rw [List.intercalate_cons_cons, ih, List.flatMap_cons]
    simp only [List.append_assoc]

theorem intercalate_split (ending line : List UInt8) (front back : List (List UInt8)) :
    ending.intercalate (front ++ line :: back)
      = front.flatMap (· ++ ending) ++ line ++ back.flatMap (ending ++ ·) := by
  induction front with
  | nil => exact intercalate_cons ending line back
  | cons first front ih =>
    obtain ⟨next, later, hcons⟩ : ∃ next later, front ++ line :: back = next :: later :=
      List.exists_cons_of_ne_nil (by simp)
    rw [List.cons_append, hcons, List.intercalate_cons_cons, ← hcons, ih, List.flatMap_cons]
    simp only [List.append_assoc]

/-! ## Scanner -/

/-- A line end is taken whole and alone, whatever lines stand below it. -/
theorem breakLength_lineEnd (h : ending ∈ lineEnds) (hline : ∀ b ∈ line, Byte.isBreak b = false)
    (later : List (List UInt8)) :
    Cursor.breakLength (ending ++ (line ++ later.flatMap (ending ++ ·))) = ending.length := by
  obtain ⟨d, hd, rfl | rfl⟩ := lineEnd_cases h
  · cases line with
    | nil =>
      cases later with
      | nil => simp [Cursor.breakLength, hd]
      | cons next later => simp [Cursor.breakLength, hd]
    | cons b tail => simp [Cursor.breakLength, hd, hline b List.mem_cons_self]
  · simp [Cursor.breakLength, hd, Byte.isBreak_pairedBreak, Byte.pairedBreak_ne]

/-- At a line end, or the end of the document, the cursor has come to the end of its
line. -/
theorem eatLine_line (hline : ∀ b ∈ line, Byte.isBreak b = false) {rest : List UInt8}
    (hrest : ∀ b tail, rest = b :: tail → Byte.isBreak b = true) (pos : Nat) :
    (⟨pos, line ++ rest⟩ : Cursor).eatLine = ⟨pos + line.length, rest⟩ := by
  refine Cursor.eatWhile_of_word (Byte.all_not_isBreak hline) ?_
  intro b tail hcons
  rw [hrest b tail hcons]
  rfl

/-- The cursor passes the lines one by one. -/
theorem visited_intercalate (h : ending ∈ lineEnds)
    (hlines : ∀ l ∈ line :: back, ∀ b ∈ l, Byte.isBreak b = false) (pos : Nat) :
    (⟨pos, ending.intercalate (line :: back)⟩ : Cursor).visited
      = boundsFrom ending pos (line :: back) := by
  have hline : ∀ b ∈ line, Byte.isBreak b = false := hlines line List.mem_cons_self
  induction back generalizing line pos with
  | nil =>
    have hend : (⟨pos, line ++ []⟩ : Cursor).eatLine = ⟨pos + line.length, []⟩ :=
      eatLine_line hline (by rintro b tail ⟨⟩) pos
    rw [intercalate_cons, List.flatMap_nil, Cursor.visited, hend]
    rfl
  | cons next later ih =>
    have hnext : ∀ b ∈ next, Byte.isBreak b = false := hlines next (by simp)
    have hbelow : ∀ l ∈ next :: later, ∀ b ∈ l, Byte.isBreak b = false :=
      fun l hl => hlines l (List.mem_cons_of_mem line hl)
    have hend : (⟨pos, line ++ (ending ++ ending.intercalate (next :: later))⟩ : Cursor).eatLine
        = ⟨pos + line.length, ending ++ ending.intercalate (next :: later)⟩ := by
      refine eatLine_line hline ?_ pos
      obtain ⟨d, more, rfl, hd⟩ := lineEnd_head h
      rintro b tail ⟨⟩
      exact hd
    have hlength : Cursor.breakLength (ending ++ ending.intercalate (next :: later))
        = ending.length := by
      rw [intercalate_cons]
      exact breakLength_lineEnd h hnext later
    have hbreak : (⟨pos + line.length, ending ++ ending.intercalate (next :: later)⟩
        : Cursor).atBreak = true := by
      obtain ⟨d, more, rfl, hd⟩ := lineEnd_head h
      exact Cursor.atBreak_of_isBreak rfl hd
    rw [List.intercalate_cons_cons, List.append_assoc, Cursor.visited, hend, if_pos hbreak,
      Cursor.eatBreak_of_length rfl hlength, ih hbelow _ hnext]
    rfl

/-! ## Diagnostics -/

/-- Where a break stands in each line end and on no line, it is found once for each
line. -/
theorem count_lines {d : UInt8} (hlines : ∀ l ∈ front, l.count d = 0)
    (hending : front ≠ [] → ending.count d = 1) :
    (front.flatMap (· ++ ending)).count d = front.length := by
  induction front with
  | nil => rfl
  | cons first front ih =>
    have hlater := ih (fun l hl => hlines l (List.mem_cons_of_mem _ hl))
      fun _ => hending (List.cons_ne_nil _ _)
    rw [List.flatMap_cons, List.count_append, List.count_append, hlines first List.mem_cons_self,
      hending (List.cons_ne_nil _ _), hlater, List.length_cons]
    omega

namespace Source

variable {source : Source} {offset : Nat}

/-- The break behind the first line is the one that counts. -/
theorem dominantBreak_of_split {d : UInt8} {rest : List UInt8}
    (hbytes : source.bytes = line ++ d :: rest) (hline : ∀ b ∈ line, Byte.isBreak b = false)
    (hd : Byte.isBreak d = true) : source.dominantBreak = d := by
  have hnone : line.find? Byte.isBreak = none := by
    rw [List.find?_eq_none]
    intro b hb
    rw [hline b hb]
    exact Bool.false_ne_true
  rw [dominantBreak, hbytes, List.find?_append, hnone, List.find?_cons_of_pos hd]
  rfl

/-- The source is made of these lines, with a line end between each two. -/
structure HasLines (source : Source) (ending : List UInt8) (lines : List (List UInt8)) :
    Prop where
  lineEnd : ending ∈ lineEnds
  plain : ∀ line ∈ lines, ∀ b ∈ line, Byte.isBreak b = false
  bytes : source.bytes = ending.intercalate lines

namespace HasLines

/-- With more than one line, the break that counts is the first of a line end. -/
theorem dominant (h : source.HasLines ending (front ++ line :: back))
    (hmore : front ≠ [] ∨ back ≠ []) : ending = [source.dominantBreak] ∨
      ending = [source.dominantBreak, Byte.pairedBreak source.dominantBreak] := by
  obtain ⟨first, next, later, hall⟩ : ∃ first next later,
      front ++ line :: back = first :: next :: later := by
    match front, back, hmore with
    | [], [], hmore => simp at hmore
    | [], next :: later, _ => exact ⟨line, next, later, rfl⟩
    | [first], back, _ => exact ⟨first, line, back, rfl⟩
    | first :: next :: front, back, _ => exact ⟨first, next, _, rfl⟩
  have hbytes := h.bytes
  have hfirst := h.plain first (hall ▸ List.mem_cons_self)
  rw [hall, List.intercalate_cons_cons, List.append_assoc] at hbytes
  obtain ⟨d, hd, rfl | rfl⟩ := lineEnd_cases h.lineEnd
  · rw [dominantBreak_of_split hbytes hfirst hd]
    exact .inl rfl
  · rw [dominantBreak_of_split hbytes hfirst hd]
    exact .inr rfl

/-- The break that counts is on no line. -/
theorem ne_dominantBreak (h : source.HasLines ending lines) (hline : line ∈ lines) :
    ∀ b ∈ line, b ≠ source.dominantBreak := by
  rintro b hb rfl
  have hbreak := source.isBreak_dominantBreak
  rw [h.plain line hline _ hb] at hbreak
  cases hbreak

/-- Each line end before an offset counts once. -/
theorem lineNumber (h : source.HasLines ending (front ++ line :: back))
    (hfirst : (front.flatMap (· ++ ending)).length ≤ offset)
    (hlast : offset ≤ (front.flatMap (· ++ ending)).length + line.length) :
    source.lineNumber offset = front.length + 1 := by
  have hplain : ∀ l ∈ front ++ line :: back, l.count source.dominantBreak = 0 := by
    intro l hl
    rw [List.count_eq_zero]
    exact fun hmem => h.ne_dominantBreak hl _ hmem rfl
  have hfront : (front.flatMap (· ++ ending)).count source.dominantBreak = front.length := by
    apply count_lines fun l hl => hplain l (List.mem_append_left _ hl)
    intro hne
    rcases h.dominant (.inl hne) with heq | heq
    · rw [heq, List.count_singleton_self]
    · rw [heq, List.count_cons_self, List.count_singleton,
        if_neg (by simpa using Byte.pairedBreak_ne _)]
  have hline : (line.take (offset - (front.flatMap (· ++ ending)).length)).count
      source.dominantBreak = 0 := by
    rw [List.count_eq_zero]
    exact fun hmem => h.ne_dominantBreak (by simp) _ (List.mem_of_mem_take hmem) rfl
  rw [Source.lineNumber, h.bytes, intercalate_split, List.append_assoc, List.take_append,
    List.take_of_length_le hfirst, List.take_append_of_le_length (by omega), List.count_append,
    hfront, hline]

/-- No paired break stands on a line. -/
theorem not_pairedAt (h : source.HasLines ending (front ++ line :: back)) {i : Nat}
    (hfirst : (front.flatMap (· ++ ending)).length ≤ i)
    (hlast : i < (front.flatMap (· ++ ending)).length + line.length) :
    ¬ source.pairedAt i = true := by
  intro hpaired
  rw [pairedAt_iff, byte?, h.bytes, intercalate_split,
    List.getElem?_append_left (by rwa [List.length_append]),
    List.getElem?_append_right hfirst] at hpaired
  have hbreak := Byte.isBreak_pairedBreak source.dominantBreak
  rw [h.plain line (by simp) _ (List.mem_of_getElem? hpaired)] at hbreak
  cases hbreak

/-- Behind a line stands the break that counts, or the source ends. -/
theorem closes (h : source.HasLines ending (front ++ line :: back)) :
    back.flatMap (ending ++ ·) = [] ∨
      (back.flatMap (ending ++ ·)).head? = some source.dominantBreak := by
  cases back with
  | nil => exact .inl rfl
  | cons next later =>
    right
    rcases h.dominant (.inr (List.cons_ne_nil _ _)) with heq | heq
    · rw [heq]
      rfl
    · rw [heq]
      rfl

/-- Before a line stands the break that counts, or that break and its pair, or nothing. -/
theorem opens (h : source.HasLines ending (front ++ line :: back)) :
    (front.flatMap (· ++ ending) = [] ∨
      (front.flatMap (· ++ ending)).getLast? = some source.dominantBreak) ∨
    ∃ above, above.getLast? = some source.dominantBreak ∧
      front.flatMap (· ++ ending) = above ++ [Byte.pairedBreak source.dominantBreak] := by
  rcases List.eq_nil_or_concat' front with rfl | ⟨more, last, rfl⟩
  · exact .inl (.inl rfl)
  · have hends : (more ++ [last]).flatMap (· ++ ending)
        = more.flatMap (· ++ ending) ++ last ++ ending := by
      rw [List.flatMap_append, List.flatMap_singleton, List.append_assoc]
    rcases h.dominant (.inl (by simp)) with heq | heq
    · refine .inl (.inr ?_)
      rw [hends, heq, List.getLast?_append]
      rfl
    · refine .inr ⟨more.flatMap (· ++ ending) ++ last ++ [source.dominantBreak], ?_, ?_⟩
      · rw [List.getLast?_append]
        rfl
      · rw [hends, heq, List.append_assoc (_ ++ last)]
        rfl

/-- A line is bounded by its own ends. -/
theorem lineBounds (h : source.HasLines ending (front ++ line :: back))
    (hfirst : (front.flatMap (· ++ ending)).length ≤ offset)
    (hlast : offset ≤ (front.flatMap (· ++ ending)).length + line.length) :
    source.lineBounds offset = ⟨(front.flatMap (· ++ ending)).length,
      (front.flatMap (· ++ ending)).length + line.length⟩ := by
  have hbytes := h.bytes
  rw [intercalate_split] at hbytes
  have hplain : ∀ b ∈ line, b ≠ source.dominantBreak := h.ne_dominantBreak (by simp)
  have hnone := fun i => h.not_pairedAt (i := i)
  rcases h.opens with hopens | ⟨above, habove, hfront⟩
  · have hline := IsLine.of_split hbytes hopens hplain h.closes
    refine lineBounds_of_isLine hline hfirst hlast (.inl ⟨rfl, fun hpaired => ?_⟩) hnone
    exact hnone _ (Nat.le_refl _) (hline.lt_of_pairedAt hpaired) hpaired
  · -- the paired break is at the start of the line that diagnostics find, and trimmed off
    generalize front.flatMap (· ++ ending) = before at *
    subst hfront
    rw [List.append_assoc above] at hbytes
    have hstarts : ∀ b ∈ [Byte.pairedBreak source.dominantBreak] ++ line,
        b ≠ source.dominantBreak := by
      intro b hb
      rcases List.mem_cons.mp hb with rfl | hb
      · exact Byte.pairedBreak_ne _
      · exact hplain b hb
    have hline := IsLine.of_split hbytes (.inr habove) hstarts h.closes
    have hpaired : source.pairedAt above.length = true := by
      rw [pairedAt_iff, byte?, hbytes, List.append_assoc,
        List.getElem?_append_right (Nat.le_refl _), Nat.sub_self]
      rfl
    simp only [List.length_append, List.length_singleton, Nat.add_assoc]
      at hline hfirst hlast hnone ⊢
    exact lineBounds_of_isLine hline (by omega) (by omega) (.inr ⟨rfl, hpaired⟩) hnone

end HasLines

end Source

/-! ## Agreement -/

/-- The bounds of a line are told by the lines before it. -/
theorem boundsFrom_split {pos i : Nat} {bounds : LineBounds}
    (h : (boundsFrom ending pos lines)[i]? = some bounds) :
    ∃ front line back, lines = front ++ line :: back ∧ front.length = i ∧
      bounds = ⟨pos + (front.flatMap (· ++ ending)).length,
        pos + (front.flatMap (· ++ ending)).length + line.length⟩ := by
  induction lines generalizing pos i with
  | nil => cases h
  | cons first later ih =>
    cases i with
    | zero =>
      cases h
      exact ⟨[], first, later, rfl, rfl, rfl⟩
    | succ i =>
      obtain ⟨front, line, back, rfl, rfl, rfl⟩ := ih h
      refine ⟨first :: front, line, back, rfl, rfl, ?_⟩
      simp only [List.flatMap_cons, List.length_append, LineBounds.mk.injEq]
      omega

/-- The bounds hold the lines. -/
theorem slice_boundsFrom {source : Source} {before : List UInt8}
    (hbytes : source.bytes = before ++ ending.intercalate lines) :
    (boundsFrom ending before.length lines).map (fun b => source.slice b.first b.stop)
      = lines := by
  induction lines generalizing before with
  | nil => rfl
  | cons line later ih =>
    have hslice : source.slice before.length (before.length + line.length) = line := by
      rw [Source.slice, hbytes, intercalate_cons, List.drop_left, Nat.add_sub_cancel_left,
        List.take_left]
    cases later with
    | nil => rw [boundsFrom, boundsFrom, List.map_singleton, hslice]
    | cons next later =>
      have hbelow : source.bytes
          = before ++ line ++ ending ++ ending.intercalate (next :: later) := by
        rw [hbytes, List.intercalate_cons_cons]
        simp only [List.append_assoc]
      have hlater := ih hbelow
      rw [List.length_append, List.length_append] at hlater
      rw [boundsFrom, List.map_cons, hslice, hlater]

/-- In a document whose lines end in one way, the scanner and diagnostics see the same
lines: the cursor passes exactly these lines, and each offset from the start of a line up
to behind its last byte has the number of the line and its bounds. -/
theorem lines_coincide {source : Source} (h : source.HasLines ending lines)
    (hne : lines ≠ []) :
    source.cursor.visited = boundsFrom ending 0 lines ∧
      (boundsFrom ending 0 lines).map (fun b => source.slice b.first b.stop) = lines ∧
      ∀ i bounds, (boundsFrom ending 0 lines)[i]? = some bounds →
        ∀ o, bounds.first ≤ o → o ≤ bounds.stop →
          source.lineNumber o = i + 1 ∧ source.lineBounds o = bounds := by
  have hbytes : source.bytes = [] ++ ending.intercalate lines := h.bytes
  refine ⟨?_, slice_boundsFrom hbytes, ?_⟩
  · obtain ⟨line, back, rfl⟩ := List.exists_cons_of_ne_nil hne
    rw [Source.cursor, h.bytes]
    exact visited_intercalate h.lineEnd h.plain 0
  · intro i bounds hbounds o hfirst hlast
    obtain ⟨front, line, back, rfl, rfl, rfl⟩ := boundsFrom_split hbounds
    simp only [Nat.zero_add] at hfirst hlast ⊢
    exact ⟨h.lineNumber hfirst hlast, h.lineBounds hfirst hlast⟩

/-- Lines that end in a line feed and a carriage return, one of them empty, and no line end
behind the last. -/
theorem lines_coincide_pairs :
    let source : Source := ⟨"", Utf8.bytes "a\n\r\n\rbc", by decide⟩
    let lines := [Utf8.bytes "a", [], Utf8.bytes "bc"]
    source.HasLines [Byte.lineFeed, Byte.carriageReturn] lines ∧
      source.cursor.visited = [⟨0, 1⟩, ⟨3, 3⟩, ⟨5, 7⟩] ∧
      source.lineNumber 3 = 2 ∧ source.lineBounds 3 = ⟨3, 3⟩ ∧
      source.lineNumber 6 = 3 ∧ source.lineBounds 6 = ⟨5, 7⟩ := by
  intro source lines
  have hlines : source.HasLines [Byte.lineFeed, Byte.carriageReturn] lines :=
    ⟨by decide, by decide +kernel, by decide⟩
  obtain ⟨hvisited, -, hbounds⟩ := lines_coincide hlines (by decide)
  have hsecond := hbounds 1 ⟨3, 3⟩ rfl 3 (by decide) (by decide)
  have hthird := hbounds 2 ⟨5, 7⟩ rfl 6 (by decide) (by decide)
  exact ⟨hlines, hvisited, hsecond.1, hsecond.2, hthird.1, hthird.2⟩

end ApiDoc
