import ApiDoc.Document.Parse
import ApiDoc.Proofs.Document.Relocation
import ApiDoc.Proofs.Scan.Respelt
import ApiDoc.Proofs.Text.LineEnds

/-!
# Line ends do not matter

Documents are written with line feeds, with carriage returns or with both. Two
conversions are respellings that every reader passes over:

* **Exchange** (`breaks_exchanged`): with every line feed written as a carriage
  return and every carriage return as a line feed, a source is scanned, read and
  counted in lines as before, offset for offset.
* **Pairs** (`breaks_paired`): with every line feed written as a carriage return
  and a line feed, a source without carriage returns is scanned as before. Every
  offset moves by the number of line feeds before it, and stays on its line.

What is read of the words of a document does not depend on breaks, since keywords
and parameters hold none (`Scan.Run.flat`).
-/

namespace ApiDoc

namespace Respelling

/-- Any source may be written with its breaks exchanged. -/
theorem converts_exchange (source : Source) : Converts exchange source id where
  suits := suits_exchange source.bytes
  length {front _} _ := by
    rw [text_exchange, List.length_map]
    rfl
  fits := by
    rw [text_exchange, List.length_map]
    exact Nat.le_trans source.fits (Nat.sub_le _ _)

theorem converts_pairs {source paired : Source} (h : Feeds source.bytes)
    (hbytes : paired.bytes = pairs.text source.bytes) :
    Converts pairs source (pairPlace source.bytes) where
  suits := suits_pairs h
  length {front back} hsplit := by
    rw [pairPlace, hsplit, List.take_left, length_text_pairs]
  fits := by
    rw [← hbytes]
    exact Nat.le_trans paired.fits (Nat.sub_le _ _)

end Respelling

/-! ## Words -/

/-- The words of a stream hold no breaks. -/
def Flat (source : Source) (events : List Event) : Prop :=
  ∀ e ∈ events, e.IsWord → ∀ b ∈ source.covered e.span, Byte.isBreak b = false

namespace Scan

variable {limit : Nat} {source : Source} {events : List Event} {s t : State} {task : Task}
  {m : Move}

theorem flat_nil (source : Source) : Flat source [] :=
  fun _ he => absurd he List.not_mem_nil

/-- Events that are no words. -/
theorem flat_of_part {part : Part} (hkeyword : part ≠ .keyword) (hparameter : part ≠ .parameter)
    (start stop : Nat) : Flat source (part.events start stop) := by
  intro e he hword
  rcases List.mem_cons.mp he with rfl | he
  · rcases hword with h | h
    · cases h
    · cases h
  · rw [List.mem_singleton.mp he] at hword
    rcases hword with h | h
    · exact absurd (congrArg Mark.part h) hkeyword
    · exact absurd (congrArg Mark.part h) hparameter

/-- A word that is taken and holds no breaks. -/
theorem flat_of_takes {c d : Cursor} {word : List UInt8} (hc : source.Holds c)
    (k : c.Takes word d) (hne : word ≠ []) (hword : ∀ b ∈ word, Byte.isBreak b = false)
    (part : Part) : Flat source (part.events c.pos d.pos) := by
  intro e he hclosing
  rcases List.mem_cons.mp he with rfl | he
  · rcases hclosing with h | h
    · cases h
    · cases h
  · rw [List.mem_singleton.mp he, hc.covered k hne]
    exact hword

theorem Performs.flat (h : Performs limit s task m) (hc : source.Holds s.cursor) :
    Flat source m.events := by
  have hblanks := hc.move s.cursor.takes_eatBlanks
  have hcontext : ∀ {edge span}, Flat source [⟨⟨.context, edge⟩, span⟩] := by
    intro edge span e he hword
    rw [List.mem_singleton.mp he] at hword
    rcases hword with h | h
    · cases h
    · cases h
  cases h with
  | finish | blankLine | lineOver | textParen | bodiless | noSchema | noText | lineEnd =>
    exact flat_nil source
  | lineComment | blockComment | note | tailComment | inlineSchema | schema | text | endComment =>
    exact flat_of_part (by decide) (by decide) _ _
  | closeContext | contextParen => exact hcontext
  | keyword hk =>
    obtain ⟨word, hword, hspells, -⟩ := Keyword.recognise_eq_found_iff.mp hk
    exact flat_of_takes hblanks (Cursor.takes_moveTo hword) hspells.ne_nil hspells.isBreak _
  | quoted _ hr hclose =>
    obtain ⟨word, htakes, hne, hword⟩ := takes_quoted hr hclose
    exact flat_of_takes hblanks htakes hne hword _
  | @bare _ b _ _ hr hbreak =>
    have hb : Byte.isWhite b = false :=
      Byte.isWhite_eq_false_iff.mpr ⟨Cursor.head_eatBlanks hr, hbreak⟩
    refine flat_of_takes hblanks (Cursor.takes_eatWhile _ _) ?_ ?_ _
    · rw [hr, List.takeWhile_cons_of_pos (by simp [hb])]
      exact List.cons_ne_nil _ _
    · intro x hx
      have hwhite : Byte.isWhite x = false := by simpa using List.mem_takeWhile_imp hx
      exact (Byte.isWhite_eq_false_iff.mp hwhite).2
  | @parenText _ range =>
    cases range with
    | none => exact flat_nil source
    | some range => exact flat_of_part (by decide) (by decide) _ _

/-- Keywords and parameters hold no breaks. -/
theorem Run.flat (h : Run limit (State.start source.bytes) events t) : Flat source events := by
  refine h.preserves_reached (P := fun events _ => Flat source events) ?_ (flat_nil source)
  intro before u task later m hrun _ hperf hflat e he
  rcases List.mem_append.mp he with he | he
  · exact hflat e he
  · exact hperf.flat (hrun.accounted (accounted_start source)).holds e he

end Scan

/-! ## Documents -/

/-- The same result, or the same failure in the same place. -/
inductive SameResult {α : Type} : Except Diagnostic α → Except Diagnostic α → Prop
  | ok (a : α) : SameResult (.ok a) (.ok a)
  | error {d d' : Diagnostic} (hcode : d'.code = d.code) (hspan : d'.span? = d.span?) :
      SameResult (.error d) (.error d')

/-- The same, if what is done with the result is. -/
theorem SameResult.bind {α β : Type} {x y : Except Diagnostic α} {f g : α → Except Diagnostic β}
    (h : SameResult x y) (hrest : ∀ a, x = .ok a → SameResult (f a) (g a)) :
    SameResult (x >>= f) (y >>= g) := by
  cases h with
  | ok a => exact hrest a rfl
  | error hcode hspan => exact .error hcode hspan

/-- Where nothing moves, what follows is the same. -/
theorem Follows.sameResult {α : Type} {x y : Except Diagnostic α} (h : Follows id id x y) :
    SameResult x y := by
  cases h with
  | ok a => exact .ok a
  | @error d d' hcode _ hspan =>
    have hsame : d.span?.map (Span.relocate id) = d.span? := Option.map_id'
    exact .error hcode (hspan.trans hsame)

/-- Sources with the same words are assembled alike. -/
theorem Assembly.acceptAll_congr {source other : Source} {events : List Event}
    (h : ∀ e ∈ events, e.IsWord → other.text e.span = source.text e.span) (a : Assembly) :
    SameResult (a.acceptAll source events) (a.acceptAll other events) := by
  have hfollows : Follows id (relocate id) _ _ := acceptAll_relocate h a
  have hevents : events.map (Event.relocate id) = events := List.map_id' events
  rw [hevents, relocate_id] at hfollows
  exact hfollows.sameResult

namespace Source

variable {source other : Source} {limit : Nat}

theorem covered_exchange (h : other.bytes = source.bytes.map Byte.exchange) (span : Span) :
    other.covered span = (source.covered span).map Byte.exchange := by
  have hlength : other.length = source.length := by rw [length, length, h, List.length_map]
  unfold covered
  cases span.get? with
  | none => rfl
  | some range =>
    dsimp only
    rw [hlength]
    split
    · rw [slice, slice, h, ← List.map_drop, ← List.map_take]
    · rfl

/-- Words are kept when the breaks are exchanged. -/
theorem text_of_flat (h : other.bytes = source.bytes.map Byte.exchange) {events : List Event}
    (hflat : Flat source events) :
    ∀ e ∈ events, e.IsWord → other.text e.span = source.text e.span := by
  intro e he hword
  have hkept : (source.covered e.span).map Byte.exchange = source.covered e.span := by
    rw [← Respelling.text_exchange]
    exact Respelling.text_line (hflat e he hword)
  rw [text, text, covered_exchange h, hkept]

theorem scan_exchange (h : other.bytes = source.bytes.map Byte.exchange) (limit : Nat) :
    SameResult (source.scan limit) (other.scan limit) := by
  have hsame := (Respelling.converts_exchange source).scan
    (h.trans (Respelling.text_exchange _).symm) limit
  have hid : ∀ e : Event, e.relocate id = e := fun _ => rfl
  unfold Source.scan
  generalize Scan.scan limit source.bytes = result at hsame
  generalize Scan.scan limit other.bytes = result' at hsame
  cases hsame with
  | ok events =>
    rw [funext hid, List.map_id']
    exact .ok events
  | @error fault fault' hmatches =>
    have hoffset : fault'.offset = fault.offset := by
      rcases hmatches.offset with hplace | ⟨hlast, hlast'⟩
      · exact hplace
      · exact Nat.succ.inj (hlast'.trans hlast.symm)
    refine .error hmatches.code ?_
    show some (Span.point fault'.offset) = some (Span.point fault.offset)
    rw [hoffset]

/-- A source is scanned, and the events are assembled. -/
theorem parse_directives (source : Source) (limit : Nat) :
    (source.parse limit).map (·.directives) = source.scan limit >>= fun events =>
      Assembly.acceptAll source {} events >>= fun a => .ok a.directives := by
  unfold Source.parse
  cases source.scan limit with
  | error d => rfl
  | ok events =>
    dsimp only [validate]
    show _ = Assembly.acceptAll source {} events >>= _
    cases Assembly.acceptAll source {} events with
    | error d => rfl
    | ok a => rfl

theorem parse_exchange (h : other.bytes = source.bytes.map Byte.exchange) (limit : Nat) :
    SameResult ((source.parse limit).map (·.directives))
      ((other.parse limit).map (·.directives)) := by
  rw [parse_directives, parse_directives]
  refine (scan_exchange h limit).bind ?_
  intro events hscan
  obtain ⟨t, hrun, -⟩ := scan_eq_ok_iff.mp hscan
  exact (Assembly.acceptAll_congr (text_of_flat h hrun.flat) {}).bind fun a _ => .ok a.directives

end Source

/-- With its breaks exchanged a source is scanned and read as before: with the
same events and the same directives, or with a failure of the same code in the
same place. Its lines have the same numbers and the same bounds. -/
theorem breaks_exchanged {source exchanged : Source}
    (h : exchanged.bytes = source.bytes.map Byte.exchange) (limit : Nat) :
    SameResult (source.scan limit) (exchanged.scan limit) ∧
    SameResult ((source.parse limit).map (·.directives))
      ((exchanged.parse limit).map (·.directives)) ∧
    ∀ offset, exchanged.lineNumber offset = source.lineNumber offset ∧
      exchanged.lineBounds offset = source.lineBounds offset :=
  ⟨Source.scan_exchange h limit, Source.parse_exchange h limit, Source.lines_exchange h⟩

/-- A description over two lines, with breaks of all sorts. -/
theorem breaks_exchanged_mixed :
    let source : Source := ⟨"", Utf8.bytes "GET /a\n\rDescription\r\ra\n b\r", by decide⟩
    let exchanged : Source := ⟨"", Utf8.bytes "GET /a\r\nDescription\n\na\r b\n", by decide⟩
    let events := Part.keyword.events 0 3 ++ Part.parameter.events 4 6
      ++ Part.keyword.events 8 19 ++ Part.text.events 21 25
    source.scan 0 = .ok events ∧ exchanged.scan 0 = .ok events ∧ source.lineNumber 24 = 3 ∧
      exchanged.lineNumber 24 = 3 := by
  intro source exchanged events
  have hbytes : exchanged.bytes = source.bytes.map Byte.exchange := by decide
  have hscan : source.scan 0 = .ok events := by decide +kernel
  have hline : source.lineNumber 24 = 3 := by decide
  obtain ⟨hsame, -, hlines⟩ := breaks_exchanged hbytes 0
  rw [hscan] at hsame
  refine ⟨hscan, ?_, hline, (hlines 24).1.trans hline⟩
  generalize exchanged.scan 0 = result at hsame
  cases hsame
  rfl

/-- With a carriage return before every line feed a source is scanned as before,
if it holds no carriage returns and does not escape its line feeds: with the same
events, each end moved by the number of line feeds before it, or with a failure
of the same code. An offset that is moved so stays on its line. -/
theorem breaks_paired {source paired : Source}
    (h : paired.bytes = source.bytes.flatMap Byte.paired)
    (hfeeds : Byte.carriageReturn ∉ source.bytes)
    (hescapes : ¬ [Byte.backslash, Byte.lineFeed] <:+: source.bytes) (limit : Nat) :
    let place := fun offset => offset + (source.bytes.take offset).count Byte.lineFeed
    (∀ events, paired.scan limit = .ok events ↔
      ∃ events', source.scan limit = .ok events' ∧
        events = events'.map (Event.relocate place)) ∧
    (∀ d, source.scan limit = .error d →
      ∃ d', paired.scan limit = .error d' ∧ d'.code = d.code) ∧
    ∀ offset, offset ≤ source.length →
      paired.lineNumber (place offset) = source.lineNumber offset := by
  intro place
  have hsame := (Respelling.converts_pairs ⟨hfeeds, hescapes⟩ h).scan h limit
  refine ⟨?_, ?_, fun offset hoffset => Source.lineNumber_pairs h hfeeds hoffset⟩
  · intro events
    unfold Source.scan
    generalize Scan.scan limit source.bytes = result at hsame
    generalize Scan.scan limit paired.bytes = result' at hsame
    cases hsame with
    | ok events' =>
      dsimp only
      constructor
      · rintro ⟨rfl⟩
        exact ⟨events', rfl, rfl⟩
      · rintro ⟨_, ⟨rfl⟩, rfl⟩
        rfl
    | error hmatches =>
      constructor
      · intro hok
        cases hok
      · rintro ⟨_, hok, -⟩
        cases hok
  · intro d hd
    unfold Source.scan at hd ⊢
    generalize Scan.scan limit source.bytes = result at hsame hd
    generalize Scan.scan limit paired.bytes = result' at hsame
    cases hsame with
    | ok events' => cases hd
    | error hmatches =>
      cases hd
      exact ⟨_, rfl, hmatches.code⟩

/-- A schema over two lines between line feeds, and an array that is not
closed. -/
theorem breaks_paired_schema :
    (let source : Source := ⟨"", Utf8.bytes "Body\n[1,\n2]\n", by decide⟩
    let paired : Source := ⟨"", Utf8.bytes "Body\r\n[1,\r\n2]\r\n", by decide⟩
    source.scan 0 = .ok (Part.keyword.events 0 4 ++ Part.schema.events 5 11) ∧
      paired.scan 0 = .ok (Part.keyword.events 0 4 ++ Part.schema.events 6 13) ∧
      paired.lineNumber 11 = source.lineNumber 9) ∧
    let source : Source := ⟨"", Utf8.bytes "Body\n[1,\n", by decide⟩
    let paired : Source := ⟨"", Utf8.bytes "Body\r\n[1,\r\n", by decide⟩
    ∃ d d', source.scan 0 = .error d ∧ paired.scan 0 = .error d' ∧ d'.code = d.code := by
  refine ⟨?_, ?_⟩
  · intro source paired
    have hbytes : paired.bytes = source.bytes.flatMap Byte.paired := by decide
    have hscan : source.scan 0 = .ok (Part.keyword.events 0 4 ++ Part.schema.events 5 11) := by
      decide +kernel
    obtain ⟨hok, -, hlines⟩ := breaks_paired hbytes (by decide) (by decide) 0
    exact ⟨hscan, (hok _).mpr ⟨_, hscan, by decide⟩, hlines 9 (by decide)⟩
  · intro source paired
    have hbytes : paired.bytes = source.bytes.flatMap Byte.paired := by decide
    have hscan : source.scan 0
        = .error (.inSource (.schema (.endOfFile "\"]\"")) source (.point 8)) := by
      decide +kernel
    obtain ⟨-, herror, -⟩ := breaks_paired hbytes (by decide) (by decide) 0
    obtain ⟨d, hd, hcode⟩ := herror _ hscan
    exact ⟨_, d, hscan, hd, hcode⟩

end ApiDoc
