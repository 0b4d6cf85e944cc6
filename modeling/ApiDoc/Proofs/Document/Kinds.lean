import ApiDoc.Proofs.Directive.Agreement
import ApiDoc.Proofs.Document.Acceptance
import ApiDoc.Proofs.Scan.Failure

/-!
# One kind for a directive

The scanner recognises a keyword byte by byte and reads the directive by the
kind it found. The assembly classifies the text of the keyword once more. The
two never differ:

* **No unknown directive** (`parse_knows`): what the scanner takes for a keyword
  the assembly can classify.
* **The same kind** (`Scan.Run.kind`, `parse_kind`): the directive that a scan is
  reading has the kind that the document gives to it.
* **Agreement** (`keywords_agree`): both follow from the agreement of the
  recognisers on words.
-/

namespace ApiDoc

variable {source : Source} {limit : Nat} {events : List Event} {t : Scan.State} {line : Scan.Line}

/-- The failures of a document are those of its scan and of its assembly. -/
theorem Source.parse_eq_error {d : Diagnostic} (h : source.parse limit = .error d) :
    source.scan limit = .error d ∨ ∃ events, source.scan limit = .ok events ∧
      Assembly.acceptAll source {} events = .error d := by
  rw [Source.parse] at h
  cases hscan : source.scan limit with
  | error fault =>
    rw [hscan] at h
    cases h
    exact .inl rfl
  | ok events =>
    rw [hscan] at h
    refine .inr ⟨events, rfl, ?_⟩
    rw [← Source.validate_eq_error_iff]
    cases hvalid : source.validate events with
    | error fault =>
      simp only [hvalid] at h
      cases h
      rfl
    | ok directives =>
      simp only [hvalid] at h
      cases h

/-- No keyword that is scanned is unknown. -/
theorem parse_knows {d : Diagnostic} (h : source.parse limit = .error d) :
    d.code ≠ .unknownDirective := by
  rcases Source.parse_eq_error h with hscan | ⟨events, hscan, haccept⟩
  · intro hcode
    have hreading := Scan.isReading_scan hscan
    rw [hcode] at hreading
    exact absurd hreading (by decide)
  · obtain ⟨fresh, horder⟩ := Source.orderly hscan
    obtain ⟨e, he, b, hrefuses⟩ := Assembly.acceptAll_refuses haccept
    cases hrefuses with
    | unknown hword =>
      obtain ⟨-, kind, hspells⟩ := horder.keyword_spelled (mem_keywords_of_mem he)
      have hclass : Keyword.classify? (source.text _) = some kind := hspells.classify?
      rw [hword] at hclass
      cases hclass
    | misplaced | parameter =>
      intro hcode
      cases hcode

/-- The directive that a scan is reading is that of its last keyword, by kind
and by text. -/
theorem Scan.Run.kind (hrun : Scan.Run limit (.start source.bytes) events t)
    (hline : t.line? = some line) :
    ∃ i k, (keywords events).length = i + 1 ∧ (keywords events)[i]? = some k ∧
      Keyword.classify? (source.text k) = some line.kind := by
  obtain ⟨k, hlast, hspells⟩ := hrun.tracked.announced hline
  obtain ⟨front, hfront⟩ := List.getLast?_eq_some_iff.mp hlast
  refine ⟨front.length, k, ?_, ?_, hspells.classify?⟩
  · rw [hfront, List.length_append, List.length_singleton]
  · rw [hfront]
    exact List.getElem?_concat_length

/-- The document gives a directive the kind with which it was read. -/
theorem parse_kind {doc : Document} (hrun : Scan.Run limit (.start source.bytes) events t)
    (hparse : source.parse limit = .ok doc) {i : Nat} {k : Span} {kind : Kind}
    (hk : (keywords events)[i]? = some k) (hkind : Keyword.classify? (source.text k) = some kind) :
    ∃ d, doc.directives[i]? = some d ∧ d.keyword = k ∧ d.kind = kind := by
  obtain ⟨all, a, hscan, haccept, rfl⟩ := Source.parse_eq_ok_iff.mp hparse
  obtain ⟨more, -, -, rfl⟩ := hrun.remainder hscan
  have hlisted := Assembly.acceptAll_listed haccept
  have hall : (keywords (events ++ more))[i]? = some k := by
    rw [keywords_append, List.getElem?_append_left (List.getElem?_eq_some_iff.mp hk).1]
    exact hk
  have hi : i < a.directives.size := by
    rw [hlisted.size_eq]
    exact (List.getElem?_eq_some_iff.mp hall).1
  obtain ⟨hkeyword, hclass⟩ := hlisted.getElem? (Array.getElem?_eq_getElem hi)
  rw [hall] at hkeyword
  obtain rfl := Option.some.inj hkeyword
  rw [hkind] at hclass
  exact ⟨_, Array.getElem?_eq_getElem hi, rfl, (Option.some.inj hclass).symm⟩

/-- The readers of keywords agree. On a word that a boundary follows, the
recogniser finds the kind that the look-up gives to the word, or that of a
response code, just as the word is classified; the look-up is a search for an
equal spelling; and so no document fails for an unknown directive, and the kind
by which a directive is read is the kind it has in the document. -/
theorem keywords_agree :
    (∀ word rest : List UInt8, (∀ b ∈ word, Keyword.isBoundary b = false) →
      Keyword.atBoundary rest = true → ∀ kind behind,
        (Keyword.recognise (word ++ rest) = .found kind behind ↔
          behind = rest ∧ Keyword.Names word kind) ∧
        (Keyword.Names word kind ↔
          ∃ text, Utf8.bytes text = word ∧ Keyword.classify? text = some kind)) ∧
    (∀ word, Keyword.lookup? word = Keyword.entries.lookup word) ∧
    (∀ (source : Source) limit d, source.parse limit = .error d → d.code ≠ .unknownDirective) ∧
    ∀ (source : Source) limit events t line, Scan.Run limit (.start source.bytes) events t →
      t.line? = some line → ∃ i k, (keywords events).length = i + 1 ∧
        (keywords events)[i]? = some k ∧ Keyword.classify? (source.text k) = some line.kind ∧
        ∀ doc, source.parse limit = .ok doc →
          ∃ d, doc.directives[i]? = some d ∧ d.keyword = k ∧ d.kind = line.kind := by
  refine ⟨?_, Keyword.lookup?_eq_lookup, fun _ _ _ => parse_knows, ?_⟩
  · intro word rest hword hrest kind behind
    rw [Keyword.names_iff_spells]
    exact ⟨Keyword.recognise_append_iff hword hrest, Keyword.spells_iff_exists_classify?⟩
  · intro source limit events t line hrun hline
    obtain ⟨i, k, hlen, hk, hkind⟩ := hrun.kind hline
    exact ⟨i, k, hlen, hk, hkind, fun doc hparse => parse_kind hrun hparse hk hkind⟩

/-- A response code before a blank; a method, as it is read and in the document;
and a title at the top level, which is misplaced but not unknown. -/
theorem keywords_agree_method :
    Keyword.recognise (Utf8.bytes "404" ++ Utf8.bytes " any")
      = .found .responseCode (Utf8.bytes " any") ∧
    (let source : Source := ⟨"", Utf8.bytes "GET", by decide⟩
    ∃ events t line doc d, Scan.Run 0 (.start source.bytes) events t ∧ t.line? = some line ∧
      source.parse 0 = .ok doc ∧ doc.directives[0]? = some d ∧ d.kind = line.kind) ∧
    (let source : Source := ⟨"", Utf8.bytes "Title", by decide⟩
    ∃ d, source.parse 0 = .error d ∧ d.code ≠ .unknownDirective) := by
  obtain ⟨hwords, -, hknown, hkinds⟩ := keywords_agree
  refine ⟨?_, ?_, ?_⟩
  · exact (hwords (Utf8.bytes "404") (Utf8.bytes " any") (by decide +kernel) rfl _ _).1.mpr
      ⟨rfl, .inr ⟨Keyword.lookup?_of_isCode (by decide), by decide, rfl⟩⟩
  · have hstep : Scan.step 0 (.start (Utf8.bytes "GET"))
        = .moved ⟨Part.keyword.events 0 3, ⟨⟨3, []⟩, [.tail { kind := .get }, .items], []⟩⟩ := by
      decide +kernel
    have hparse : Source.parse 0 ⟨"", Utf8.bytes "GET", by decide⟩
        = .ok ⟨⟨"", Utf8.bytes "GET", by decide⟩,
          #[{ kind := .get, keyword := ⟨0, 2⟩, parent := none }]⟩ := by
      decide +kernel
    obtain ⟨i, k, hlen, -, -, hdoc⟩ := hkinds ⟨"", Utf8.bytes "GET", by decide⟩ 0 _ _ _
      (.single hstep) rfl
    obtain rfl : i = 0 := (Nat.succ.inj hlen).symm
    obtain ⟨d, hd, -, hkind⟩ := hdoc _ hparse
    exact ⟨_, _, _, _, d, .single hstep, rfl, hparse, hd, hkind⟩
  · have herror : Source.parse 0 ⟨"", Utf8.bytes "Title", by decide⟩
        = .error (.inSource (.context "the directive \"Title\" is not allowed at the top level")
          ⟨"", Utf8.bytes "Title", by decide⟩ ⟨0, 4⟩) := by
      decide +kernel
    exact ⟨_, herror, hknown _ _ _ herror⟩

end ApiDoc
