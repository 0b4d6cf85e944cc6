import ApiDoc.Document.Loader
import ApiDoc.Proofs.Document.Kinds

/-!
# Failures seen through inclusions

A file that others include fails as it does on its own; only the trace tells the way to it.

* **Failures** (`Loader.Fails`): a file cannot be had or is too long, its bytes cannot be
  read, or a directive is refused. None of these knows of an inclusion.
* **Inclusions** (`foldl_through`): passing inclusions appends to the trace, and to what is
  shown (`render_append`).
* **Included files** (`include_traces`): the document is the same, or all of the failure but
  its trace is.
-/

namespace ApiDoc

variable {load : Loader} {limit : Nat} {name : String} {d : Diagnostic}

/-! ## Failures -/

/-- How a file that is read on its own fails. -/
inductive Loader.Fails (load : Loader) (limit : Nat) (name : String) : Diagnostic → Prop
  | missing {e : LoadError} (h : load name = .error e) :
      Fails load limit name (.ofLoad name e.message)
  | tooLarge {resolved : String} {bytes : List UInt8} {e : TooLarge}
      (h : load name = .ok (resolved, bytes)) (hlong : Source.ofBytes resolved bytes = .error e) :
      Fails load limit name (.ofTooLarge e)
  | unreadable {source : Source} {fault : Scan.Fault} (h : load.source name = .ok source)
      (hscan : Scan.scan limit source.bytes = .error fault) :
      Fails load limit name (fault.diagnostic source)
  | refused {source : Source} {e : Event} {a : Assembly} {d : Diagnostic}
      (h : load.source name = .ok source) (hparse : source.parse limit = .error d)
      (hrefuses : a.Refuses source e d) : Fails load limit name d

/-- The failures of a file are those of its loading and of its document. -/
theorem Loader.parse_eq_error (h : load.parse limit name = .error d) :
    load.source name = .error d ∨
      ∃ source, load.source name = .ok source ∧ source.parse limit = .error d := by
  rw [parse] at h
  cases hsource : load.source name with
  | error e =>
    rw [hsource] at h
    cases h
    exact .inl rfl
  | ok source =>
    rw [hsource] at h
    exact .inr ⟨source, rfl, h⟩

theorem Loader.fails_of_source (h : load.source name = .error d) : load.Fails limit name d := by
  rw [source] at h
  cases hload : load name with
  | error e =>
    rw [hload] at h
    cases h
    exact .missing hload
  | ok file =>
    obtain ⟨resolved, bytes⟩ := file
    rw [hload] at h
    dsimp only at h
    cases hbytes : Source.ofBytes resolved bytes with
    | error e =>
      rw [hbytes] at h
      cases h
      exact .tooLarge hload hbytes
    | ok s =>
      rw [hbytes] at h
      cases h

theorem Loader.fails_of_parse (h : load.parse limit name = .error d) : load.Fails limit name d := by
  rcases parse_eq_error h with hsource | ⟨source, hsource, hparse⟩
  · exact fails_of_source hsource
  · rcases Source.parse_eq_error hparse with hscan | ⟨events, hscan, haccept⟩
    · rw [Source.scan] at hscan
      cases hbytes : Scan.scan limit source.bytes with
      | ok events =>
        rw [hbytes] at hscan
        cases hscan
      | error fault =>
        rw [hbytes] at hscan
        cases hscan
        exact .unreadable hsource hbytes
    · obtain ⟨e, -, a, hrefuses⟩ := Assembly.acceptAll_refuses haccept
      exact .refused hsource hparse hrefuses

/-- A file that fails has passed no inclusion. -/
theorem Loader.Fails.trace_eq_nil (h : load.Fails limit name d) : d.trace = [] := by
  cases h with
  | missing | tooLarge | unreadable => rfl
  | refused _ _ hrefuses => cases hrefuses <;> rfl

/-- It fails because it cannot be had, and no place in it can be pointed at, or by one of
the phases that read it. -/
theorem Loader.Fails.code_cases (h : load.Fails limit name d) :
    d.span? = none ∧ d.code.category = .load ∨
      d.span?.isSome = true ∧
        d.code.category ∈ [.lexical, .schema, .context, .parameter] := by
  cases h with
  | missing | tooLarge => exact .inl ⟨rfl, rfl⟩
  | @unreadable source fault hsource hscan =>
    refine .inr ⟨rfl, ?_⟩
    have hfault : source.scan limit = .error (fault.diagnostic source) := by
      rw [Source.scan, hscan]
    have hreading := Scan.isReading_scan hfault
    revert hreading
    generalize (fault.diagnostic source).code = code
    cases code <;> decide
  | refused _ hparse hrefuses =>
    cases hrefuses with
    | unknown => exact absurd rfl (parse_knows hparse)
    | misplaced => exact .inr ⟨rfl, List.mem_of_mem_drop (i := 2) List.mem_cons_self⟩
    | parameter => exact .inr ⟨rfl, List.mem_of_mem_drop (i := 3) List.mem_cons_self⟩

/-! ## Inclusions -/

/-- The entry that a site leaves in a trace. -/
def Site.inclusion (site : Site) : Inclusion :=
  ⟨site.source.name, site.source.lineNumber site.offset⟩

namespace Diagnostic

/-- Inclusions append to the trace and change nothing else. -/
theorem foldl_through (d : Diagnostic) (sites : List Site) :
    sites.foldl (fun d site => d.through site.source site.offset) d
      = { d with trace := d.trace ++ sites.map Site.inclusion } := by
  induction sites generalizing d with
  | nil => rw [List.foldl_nil, List.map_nil, List.append_nil]
  | cons site outer ih =>
    rw [List.foldl_cons, ih, List.map_cons]
    show { d with trace := (d.trace ++ [site.inclusion]) ++ outer.map Site.inclusion } = _
    rw [List.append_assoc]
    rfl

/-- Entries of a trace are shown behind all else, one on a line. -/
theorem render_append (d : Diagnostic) (more : List Inclusion) :
    { d with trace := d.trace ++ more }.render
      = d.render ++ String.join (more.map fun i => "\n" ++ i.render) := by
  show _ ++ String.join ((d.trace ++ more).map _) = _
  rw [List.map_append, String.join_append, ← String.append_assoc]
  rfl

end Diagnostic

/-! ## Included files -/

/-- A file on its own is one that is included nowhere. -/
theorem Loader.parseIncluded_nil (load : Loader) (limit : Nat) (name : String) :
    load.parseIncluded limit name [] = load.parse limit name := by
  rw [parseIncluded]
  cases load.parse limit name <;> rfl

/-- An included file gives the document that it gives on its own. If it fails on its own, in
whatever phase, it has passed no inclusion, and included it fails with the same code, message
and place; the trace holds the sites in order, each by the name and the line at which it
stands, and each is shown on one line more. -/
theorem include_traces (load : Loader) (limit : Nat) (name : String) (sites : List Site) :
    match load.parse limit name with
    | .ok document => load.parseIncluded limit name sites = .ok document
    | .error alone =>
      alone.trace = [] ∧
      (alone.span? = none ∧ alone.code.category = .load ∨
        alone.span?.isSome = true ∧
          alone.code.category ∈ [.lexical, .schema, .context, .parameter]) ∧
      ∃ d, load.parseIncluded limit name sites = .error d ∧
        d.code = alone.code ∧ d.message = alone.message ∧ d.fileName = alone.fileName ∧
        d.span? = alone.span? ∧ d.line? = alone.line? ∧ d.quote? = alone.quote? ∧
        d.trace = sites.map (fun site =>
          ⟨site.source.name, site.source.lineNumber site.offset⟩) ∧
        d.render = alone.render ++ String.join (sites.map fun site =>
          "\n" ++ (site.source.name ++ ":" ++
            toString (site.source.lineNumber site.offset))) := by
  cases hparse : load.parse limit name with
  | ok document =>
    dsimp only
    rw [Loader.parseIncluded, hparse]
  | error alone =>
    dsimp only
    have hfails := Loader.fails_of_parse hparse
    have htrace := hfails.trace_eq_nil
    have hincluded : load.parseIncluded limit name sites
        = .error { alone with trace := alone.trace ++ sites.map Site.inclusion } := by
      rw [Loader.parseIncluded, hparse]
      exact congrArg Except.error (alone.foldl_through sites)
    refine ⟨htrace, hfails.code_cases, _, hincluded, rfl, rfl, rfl, rfl, rfl, rfl, ?_, ?_⟩
    · rw [htrace]
      rfl
    · rw [Diagnostic.render_append, List.map_map]
      rfl

/-- Each phase fails through a site as it does without: the file is missing, a keyword is
misspelt, a schema is cut short, a response stands at the top level, or a parameter is one too
many. -/
theorem include_traces_phases :
    let load : Loader := fun text =>
      if text = "" then .error (.notFound text) else .ok ("part", Utf8.bytes text)
    let site : Site := ⟨⟨"main", Utf8.bytes "URL /\n\nGET", by decide⟩, 7⟩
    ∀ file ∈ [("", Category.load), ("Pach", .lexical), ("TYPE @a\n[", .schema),
        ("200", .context), ("INFO a", .parameter)],
      ∃ alone d, load.parse 1 file.1 = .error alone ∧
        load.parseIncluded 1 file.1 [site] = .error d ∧
        d.code = alone.code ∧ d.code.category = file.2 ∧
        alone.trace = [] ∧ d.trace = [⟨"main", 3⟩] ∧ d.render = alone.render ++ "\nmain:3" := by
  intro load site file hfile
  have hfails : ∀ f ∈ [("", Category.load), ("Pach", .lexical), ("TYPE @a\n[", .schema),
      ("200", .context), ("INFO a", .parameter)],
      (match load.parse 1 f.1 with
        | .ok _ => none
        | .error alone => some alone.code.category) = some f.2 := by
    decide +kernel
  have hcategory := hfails file hfile
  have hincluded := include_traces load 1 file.1 [site]
  cases hparse : load.parse 1 file.1 with
  | ok document =>
    rw [hparse] at hcategory
    cases hcategory
  | error alone =>
    rw [hparse] at hcategory hincluded
    obtain ⟨htrace, -, d, hd, hcode, -, -, -, -, -, hsites, hrender⟩ := hincluded
    have hline : String.join ([site].map fun s =>
        "\n" ++ (s.source.name ++ ":" ++ toString (s.source.lineNumber s.offset)))
        = "\nmain:3" := by
      decide +kernel
    rw [hline] at hrender
    refine ⟨alone, d, rfl, hd, hcode, ?_, htrace, hsites, hrender⟩
    rw [hcode]
    exact Option.some.inj hcategory

end ApiDoc
