import ApiDoc.Proofs.Document.Relocation
import ApiDoc.Proofs.Scan.Interjection

/-!
# Comments do not matter

A comment on a line of its own may stand between two directives. The document is
the same with and without it, its spans moved with the bytes they name.

* **Places** (`moveFrom`): what stands behind the comment moves by its length, and
  nothing else does. No lexeme lies on both sides (`relocate_events`), so that every
  one keeps its text (`text_relocate`).
* **Assembly** (`acceptAll_remarks`): the events of a comment change nothing.
-/

namespace ApiDoc

/-! ## Places -/

/-- Where an offset goes when `n` bytes are put in at `start`. -/
def moveFrom (start n offset : Nat) : Nat :=
  if offset < start then offset else offset + n

namespace Span

variable {span : Span} {start n : Nat}

/-- Before the bytes that are put in nothing moves. -/
theorem relocate_before (hset : span.isSet = true) (hlast : span.last < start) :
    span.relocate (moveFrom start n) = span := by
  have hle : span.first ≤ span.last := of_decide_eq_true hset
  rw [relocate, moveFrom, moveFrom, if_pos hlast, if_pos (by omega)]

/-- Behind the bytes that are put in everything moves. -/
theorem relocate_behind (hset : span.isSet = true) :
    (span.shift start).relocate (moveFrom start n) = span.shift (start + n) := by
  rw [shift, if_pos hset, shift, if_pos hset, relocate, moveFrom, moveFrom,
    if_neg (Nat.not_lt.mpr (Nat.le_add_left _ _)), if_neg (Nat.not_lt.mpr (Nat.le_add_left _ _)),
    Nat.add_assoc, Nat.add_assoc]

end Span

/-- What a span of a part of a source covers is what it covers there. -/
theorem Source.text_shift {whole part : Source} {front back : List UInt8}
    (h : whole.bytes = front ++ (part.bytes ++ back)) {span : Span} (hset : span.isSet = true)
    (hlast : span.last < part.length) : whole.text (span.shift front.length) = part.text span := by
  have hle : span.first ≤ span.last := of_decide_eq_true hset
  have hbytes : part.length = part.bytes.length := rfl
  have hlength : whole.length = front.length + (part.length + back.length) := by
    rw [length, h, List.length_append, List.length_append, length]
  have hset' : (⟨span.first + front.length, span.last + front.length⟩ : Span).isSet = true :=
    decide_eq_true (Nat.add_le_add_right hle _)
  have hslice : whole.slice (span.first + front.length) (span.last + front.length + 1)
      = part.slice span.first (span.last + 1) := by
    have hcount : span.last + front.length + 1 - (span.first + front.length)
        = span.last + 1 - span.first := by
      omega
    rw [slice, slice, h, hcount, Nat.add_comm span.first, List.drop_length_add_append,
      List.drop_append_of_le_length (by omega),
      List.take_append_of_le_length (by rw [List.length_drop]; omega)]
  rw [text, text, covered, covered, Span.shift, if_pos hset, Span.get?, Span.get?, if_pos hset',
    if_pos hset]
  dsimp only
  rw [if_pos (by omega), if_pos hlast, hslice]

/-! ## Events -/

namespace Assembly

theorem accept_remark {e : Event} (he : e.IsRemark) (source : Source) (a : Assembly) :
    a.accept source e = .ok a := by
  obtain ⟨⟨part, edge⟩, span⟩ := e
  cases he
  cases edge with
  | opening | closing => rfl

/-- Comments may stand between the events. -/
theorem acceptAll_remarks {remarks : List Event} (h : ∀ e ∈ remarks, e.IsRemark)
    (source : Source) (front back : List Event) (a : Assembly) :
    a.acceptAll source (front ++ remarks ++ back) = a.acceptAll source (front ++ back) := by
  have hnone : ∀ b : Assembly, b.acceptAll source remarks = .ok b := by
    intro b
    induction remarks with
    | nil => rfl
    | cons e remarks ih =>
      rw [acceptAll, accept_remark (h e List.mem_cons_self)]
      exact ih fun e' he' => h e' (List.mem_cons_of_mem e he')
  rw [acceptAll_append, acceptAll_append, acceptAll_append]
  cases a.acceptAll source front with
  | error d => rfl
  | ok b =>
    show (b.acceptAll source remarks).bind _ = _
    rw [hnone]

end Assembly

/-! ## Two parts and a comment -/

section

variable {limit : Nat} {a b plain commented : Source} {events more : List Event}
  {comment : List UInt8}

/-- Both scans give the same events, the comment apart. -/
theorem relocate_events (ha : a.scan limit = .ok events) (hb : b.scan limit = .ok more) (n : Nat) :
    (events ++ more.map (Event.shift a.length)).map (Event.relocate (moveFrom a.length n))
      = events ++ more.map (Event.shift (a.length + n)) := by
  have hfront : events.map (Event.relocate (moveFrom a.length n)) = events := by
    refine (List.map_congr_left ?_).trans (List.map_id events)
    intro e he
    obtain ⟨hset, hlast⟩ := Source.spans_within ha e he
    rw [Event.relocate, Span.relocate_before hset hlast]
    rfl
  have hback : (more.map (Event.shift a.length)).map (Event.relocate (moveFrom a.length n))
      = more.map (Event.shift (a.length + n)) := by
    rw [List.map_map]
    refine List.map_congr_left ?_
    intro e he
    have hset := (Source.spans_within hb e he).1
    show Event.relocate (moveFrom a.length n) (e.shift a.length) = _
    rw [Event.relocate, Event.shift, Span.relocate_behind hset]
    rfl
  rw [List.map_append, hfront, hback]

/-- Every lexeme keeps its text. -/
theorem text_relocate (hplain : plain.bytes = a.bytes ++ b.bytes)
    (hcommented : commented.bytes = a.bytes ++ (comment ++ Byte.lineFeed :: b.bytes))
    (ha : a.scan limit = .ok events) (hb : b.scan limit = .ok more) :
    ∀ e ∈ events ++ more.map (Event.shift a.length),
      commented.text (e.span.relocate (moveFrom a.length (comment.length + 1)))
        = plain.text e.span := by
  intro e he
  rcases List.mem_append.mp he with he | he
  · obtain ⟨hset, hlast⟩ := Source.spans_within ha e he
    have hshift : e.span.shift ([] : List UInt8).length = e.span := by
      rw [Span.shift, if_pos hset]
      rfl
    have hsame : ∀ {whole : Source} {back}, whole.bytes = [] ++ (a.bytes ++ back) →
        whole.text e.span = a.text e.span := by
      intro whole back hwhole
      have htext := Source.text_shift hwhole hset hlast
      rwa [hshift] at htext
    rw [Span.relocate_before hset hlast, hsame hcommented, hsame hplain]
  · obtain ⟨old, hold, rfl⟩ := List.mem_map.mp he
    obtain ⟨hset, hlast⟩ := Source.spans_within hb old hold
    have hfront : commented.bytes
        = (a.bytes ++ comment ++ [Byte.lineFeed]) ++ (b.bytes ++ []) := by
      simp [hcommented]
    have hlength : a.length + (comment.length + 1)
        = (a.bytes ++ comment ++ [Byte.lineFeed]).length := by
      simp [Source.length]
    rw [Event.shift, Span.relocate_behind hset, hlength, Source.text_shift hfront hset hlast]
    exact (Source.text_shift (by rw [hplain, List.append_nil]) hset hlast).symm

/-- The directives are assembled alike. -/
theorem acceptAll_interject (hplain : plain.bytes = a.bytes ++ b.bytes)
    (hcommented : commented.bytes = a.bytes ++ (comment ++ Byte.lineFeed :: b.bytes))
    (ha : a.scan limit = .ok events) (hb : b.scan limit = .ok more) {remarks : List Event}
    (hremarks : ∀ e ∈ remarks, e.IsRemark) :
    Follows (moveFrom a.length (comment.length + 1))
      (Assembly.relocate (moveFrom a.length (comment.length + 1)))
      (Assembly.acceptAll plain {} (events ++ more.map (Event.shift a.length)))
      (Assembly.acceptAll commented {} (events ++ remarks
        ++ more.map (Event.shift (a.length + (comment.length + 1))))) := by
  have htext := text_relocate hplain hcommented ha hb
  have hfollows := Assembly.acceptAll_relocate (fun e he _ => htext e he) {}
  have hempty : Assembly.relocate (moveFrom a.length (comment.length + 1)) {} = {} := by
    simp [Assembly.relocate]
  rw [relocate_events ha hb, hempty] at hfollows
  rw [Assembly.acceptAll_remarks hremarks]
  exact hfollows

/-- A comment between two directives changes nothing. With and without it a
document has the same directives, the spans in the second part moved by the length
of the comment and its line end and every span with the text that it had; or both
are refused with the same code and message, in the place that is moved alike. The
first part must end with a line end and not with a directive that has text, since
the comment would be part of that. -/
theorem comment_interjected (hplain : plain.bytes = a.bytes ++ b.bytes)
    (hcommented : commented.bytes = a.bytes ++ (comment ++ Byte.lineFeed :: b.bytes))
    (hends : a.bytes = [] ∨ endsLine a.bytes = true) (ha : a.scan limit = .ok events)
    (hlast : LastWithoutText a events) (hcomment : IsComment comment)
    (hopens : Keyword.opensDirective b.bytes = true) :
    let place := moveFrom a.length (comment.length + 1)
    (∃ doc doc', plain.parse limit = .ok doc ∧ commented.parse limit = .ok doc' ∧
      doc'.directives = doc.directives.map (Directive.relocate place) ∧
      ∀ d ∈ doc.directives, d.AllSpans fun span =>
        doc'.text (span.relocate place) = doc.text span) ∨
    ∃ d d', plain.parse limit = .error d ∧ commented.parse limit = .error d' ∧
      d'.code = d.code ∧ d'.message = d.message ∧
      d'.span? = d.span?.map (Span.relocate place) := by
  intro place
  have hb : Opens b.bytes := ⟨[], b.bytes, rfl, by simp, hopens⟩
  have hscan := Scan.scan_append_eq hplain hends ha hb
  obtain ⟨remarks, hremarks, hscan'⟩ :=
    Scan.scan_interject hcommented hends ha hlast hcomment hb
  cases hback : Scan.scan limit b.bytes with
  | error fault =>
    rw [hback] at hscan hscan'
    refine .inr ⟨(fault.shift a.length).diagnostic plain,
      (fault.shift (a.length + (comment.length + 1))).diagnostic commented, ?_, ?_, rfl, rfl, ?_⟩
    · simp only [Source.parse, Source.scan, hscan]
    · simp only [Source.parse, Source.scan, hscan']
    · have hmoved : ((Span.point fault.offset).shift a.length).relocate place = _ :=
        Span.relocate_behind (Span.isSet_point fault.offset)
      rw [Span.shift_point, Span.shift_point] at hmoved
      exact congrArg some hmoved.symm
  | ok more =>
    rw [hback] at hscan hscan'
    have hevents : plain.scan limit = .ok (events ++ more.map (Event.shift a.length)) := by
      rw [Source.scan, hscan]
    have hevents' : commented.scan limit = .ok (events ++ remarks
        ++ more.map (Event.shift (a.length + (comment.length + 1)))) := by
      rw [Source.scan, hscan']
    have hmore : b.scan limit = .ok more := by rw [Source.scan, hback]
    have hfollows := acceptAll_interject hplain hcommented ha hmore hremarks
    generalize hall : Assembly.acceptAll plain {} _ = result at hfollows
    generalize hall' : Assembly.acceptAll commented {} _ = result' at hfollows
    cases hfollows with
    | ok assembly =>
      refine .inl ⟨⟨plain, assembly.directives⟩,
        ⟨commented, (assembly.relocate place).directives⟩,
        Source.parse_eq_ok_iff.mpr ⟨_, _, hevents, hall, rfl⟩,
        Source.parse_eq_ok_iff.mpr ⟨_, _, hevents', hall', rfl⟩, rfl, ?_⟩
      exact Assembly.AllSpans.acceptAll (by simp [Assembly.AllSpans])
        (text_relocate hplain hcommented ha hmore) hall
    | @error d d' hcode hmessage hspan =>
      exact .inr ⟨d, d', Source.parse_of_refused hevents hall,
        Source.parse_of_refused hevents' hall', hcode, hmessage, hspan⟩

end

/-- A block comment that looks like a body, behind a directive that may have one. -/
theorem comment_interjected_request :
    let a : Source := ⟨"", Utf8.bytes "GET\nRequest\n", by decide⟩
    let plain : Source := ⟨"", Utf8.bytes "GET\nRequest\nBody\n[1]", by decide⟩
    let commented : Source :=
      ⟨"", Utf8.bytes "GET\nRequest\n/# Body\n[1] #/\nBody\n[1]", by decide⟩
    let events := Part.keyword.events 0 3 ++ Part.keyword.events 4 11
    let method : Directive := { kind := .get, keyword := ⟨0, 2⟩, parent := none }
    let request : Directive := { kind := .request, keyword := ⟨4, 10⟩, parent := some 0 }
    let body : Directive :=
      { kind := .body, keyword := ⟨12, 15⟩, parent := some 1, body := some ⟨.schema, ⟨17, 19⟩⟩ }
    let moved : Directive :=
      { kind := .body, keyword := ⟨27, 30⟩, parent := some 1, body := some ⟨.schema, ⟨32, 34⟩⟩ }
    a.scan 0 = .ok events ∧ LastWithoutText a events ∧
      plain.parse 0 = .ok ⟨plain, #[method, request, body]⟩ ∧
      commented.parse 0 = .ok ⟨commented, #[method, request, moved]⟩ := by
  intro a plain commented events method request body moved
  let b : Source := ⟨"", Utf8.bytes "Body\n[1]", by decide⟩
  have ha : a.scan 0 = .ok events := by decide +kernel
  have hlast : LastWithoutText a events := by
    intro k kind hk hkind
    obtain rfl : Span.ofRange 4 11 = k := Option.some.inj hk
    have hrequest : Keyword.classify? (a.text (.ofRange 4 11)) = some .request := by
      decide +kernel
    obtain rfl := Option.some.inj (hrequest.symm.trans hkind)
    rfl
  have hcomment : IsComment (Utf8.bytes "/# Body\n[1] #/") :=
    .block ⟨Utf8.bytes " Body\n[1] ", by decide, by decide⟩
  have hplain : plain.bytes = a.bytes ++ b.bytes := by decide
  have hcommented : commented.bytes
      = a.bytes ++ (Utf8.bytes "/# Body\n[1] #/" ++ Byte.lineFeed :: b.bytes) := by
    decide
  have hparse : plain.parse 0 = .ok ⟨plain, #[method, request, body]⟩ := by decide +kernel
  refine ⟨ha, hlast, hparse, ?_⟩
  rcases comment_interjected hplain hcommented (.inr (by decide)) ha hlast hcomment (by decide) with
    ⟨doc, ⟨source, directives⟩, hdoc, hdoc', hdirectives, -⟩ | ⟨d, d', herror, -⟩
  · obtain rfl := Except.ok.inj (hparse.symm.trans hdoc)
    obtain ⟨_, _, _, _, hsource⟩ := Source.parse_eq_ok_iff.mp hdoc'
    obtain rfl : source = commented := congrArg Document.source hsource
    obtain rfl : directives = #[method, request, moved] := hdirectives.trans (by decide +kernel)
    exact hdoc'
  · cases hparse.symm.trans herror

end ApiDoc
