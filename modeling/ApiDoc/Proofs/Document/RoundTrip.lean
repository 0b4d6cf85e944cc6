import ApiDoc.Document.Parse
import ApiDoc.Proofs.Document.Placement
import ApiDoc.Proofs.Scan.Coverage
import ApiDoc.Proofs.Scan.DirectiveLine

/-!
# Printed forests are read back

A forest that conforms to the context grammar, printed and read again, gives a
document of the same outline (`parse_print`).

* **Scanning** (`run_print`): a run over the printed forest gives the events of
  every directive in turn, and leaves the contexts as they were. Behind every
  line stands what ends a text, so no description takes the next line.
* **Assembling** (`acceptAll_events`): taking these events adds the outline of
  the forest, and the next directive belongs to the level that it was read at.
-/

namespace ApiDoc

namespace Forest

/-- The events of a forest whose text starts at `pos`. -/
def events : Nat → Forest → List Event
  | _, nil => []
  | pos, node heading beneath beside =>
    Part.keyword.events pos (pos + heading.word.length) ++
      if heading.kind = .description then beside.events (pos + heading.word.length + 1)
      else
        ⟨⟨.context, .opening⟩, .point (pos + heading.word.length + 1)⟩ ::
          (beneath.events (pos + heading.word.length + 3) ++
            ⟨⟨.context, .closing⟩, ⟨pos + heading.word.length + 1,
              pos + heading.word.length + 3 + beneath.print.length⟩⟩ ::
            beside.events (pos + heading.word.length + 3 + beneath.print.length + 2))

end Forest

/-- Bytes that stand at the cursor may be passed over. -/
theorem Source.Holds.skip {source : Source} {pos pos' : Nat} {bytes rest : List UInt8}
    (h : source.Holds ⟨pos, bytes⟩) (taken : List UInt8) (hbytes : bytes = taken ++ rest)
    (hpos : pos' = pos + taken.length) : source.Holds ⟨pos', rest⟩ :=
  h.move ⟨hbytes, hpos⟩

namespace Scan

variable {limit pos : Nat} {contexts : List Nat} {rest : List UInt8} {kind : Kind}

/-! ## Scanning -/

/-- Where text ends, no white space stands. -/
theorem isWhite_of_endsText {inContext : Bool} (h : endsText inContext rest = true) {b : UInt8}
    {tail : List UInt8} (hr : rest = b :: tail) : Byte.isWhite b = false := by
  subst hr
  simp only [endsText, Bool.or_eq_true, Bool.and_eq_true, beq_iff_eq] at h
  rcases h with hopens | ⟨-, rfl⟩
  · exact isWhite_of_opensDirective hopens
  · decide

theorem isBreak_of_endsText {inContext : Bool} (h : endsText inContext rest = true) {b : UInt8}
    {tail : List UInt8} (hr : rest = b :: tail) : Byte.isBreak b = false :=
  (Byte.isWhite_eq_false_iff.mp (isWhite_of_endsText h hr)).2

/-- Text ends before a forest. -/
theorem endsText_print {inContext : Bool} (forest : Forest) (h : endsText inContext rest = true) :
    endsText inContext (forest.print ++ rest) = true := by
  cases forest with
  | nil => exact h
  | node heading beneath beside =>
    have hopens : Keyword.opensDirective ((Forest.node heading beneath beside).print ++ rest)
        = true := by
      rw [Keyword.opensDirective_iff, Forest.print, List.append_assoc]
      refine ⟨heading.word, heading.kind, _, rfl, heading.spells, ?_⟩
      split <;> rfl
    revert hopens
    cases (Forest.node heading beneath beside).print ++ rest with
    | nil => exact fun _ => rfl
    | cons b tail =>
      intro hopens
      rw [endsText, hopens, Bool.true_or]

/-- A parenthesis ends the line of a directive and opens a context. -/
theorem run_open {inContext : Bool} (htext : kind.hasTextBody = false)
    (hlimit : contexts.length < limit) (hends : endsText inContext rest = true) :
    Run limit
      ⟨⟨pos, Byte.space :: Byte.openParen :: Byte.lineFeed :: rest⟩,
        [.tail { kind := kind }, .items], contexts⟩
      [⟨⟨.context, .opening⟩, .point (pos + 1)⟩]
      ⟨⟨pos + 3, rest⟩, [.items], (pos + 1) :: contexts⟩ := by
  have hparen : Performs limit
      ⟨⟨pos, Byte.space :: Byte.openParen :: Byte.lineFeed :: rest⟩, [.items], contexts⟩
      (.tail { kind := kind })
      ⟨[⟨⟨.context, .opening⟩, .point (pos + 1)⟩],
        ⟨⟨pos + 1 + 1, Byte.lineFeed :: rest⟩,
          [.tail { kind := kind, opened := true }, .items], (pos + 1) :: contexts⟩⟩ :=
    .contextParen rfl rfl rfl htext hlimit
  have hbody : Performs limit ⟨⟨pos + 3, rest⟩, [.items], (pos + 1) :: contexts⟩
      (.body { kind := kind, opened := true })
      ⟨[], ⟨⟨pos + 3, rest⟩, [.items], (pos + 1) :: contexts⟩⟩ :=
    .bodiless (.inl ⟨rfl, htext⟩)
  exact (Run.of_rule hparen).trans
    ((run_lineOver (fun _ _ => isBreak_of_endsText hends) (List.forall_mem_nil _)).trans
      (.of_rule hbody))

/-- A description without text. -/
theorem run_description (hends : endsText (! contexts.isEmpty) rest = true) :
    Run limit
      ⟨⟨pos, Byte.lineFeed :: rest⟩, [.tail { kind := .description }, .items], contexts⟩ []
      ⟨⟨pos + 1, rest⟩, [.items], contexts⟩ := by
  have hwhite : (⟨pos + 1, rest⟩ : Cursor).eatWhite = ⟨pos + 1, rest⟩ := by
    apply Cursor.eatWhile_of_head
    intro b tail hr
    exact isWhite_of_endsText hends hr
  have hbody : Performs limit ⟨⟨pos + 1, rest⟩, [.items], contexts⟩
      (.body { kind := .description }) ⟨[], ⟨⟨pos + 1, rest⟩, [.items], contexts⟩⟩ := by
    refine .noText rfl rfl ?_
    rw [hwhite]
    exact hends
  exact (run_lineOver (fun _ _ => isBreak_of_endsText hends) (List.forall_mem_nil _)).trans
    (.of_rule hbody)

/-- A run over a forest gives its events and leaves the contexts as they were. -/
theorem run_print {forest : Forest} (hlimit : contexts.length + forest.nesting ≤ limit)
    (hends : endsText (! contexts.isEmpty) rest = true) :
    Run limit ⟨⟨pos, forest.print ++ rest⟩, [.items], contexts⟩ (forest.events pos)
      ⟨⟨pos + forest.print.length, rest⟩, [.items], contexts⟩ := by
  induction forest generalizing pos contexts rest with
  | nil => exact .refl _
  | node heading beneath beside ihBeneath ihBeside =>
    -- what comes next is a directive, a closing parenthesis or the end
    have hbeside := endsText_print beside hends
    rw [Forest.nesting] at hlimit
    by_cases hkind : heading.kind = .description
    · rw [if_pos hkind] at hlimit
      have hword : Run limit ⟨⟨pos, heading.word ++ Byte.lineFeed :: (beside.print ++ rest)⟩,
          [.items], contexts⟩ _ _ := run_keyword heading.spells rfl
      rw [hkind] at hword
      have hrun := hword.trans ((run_description hbeside).trans (ihBeside (by omega) hends))
      have hlength : pos + (heading.word ++ Byte.lineFeed :: beside.print).length
          = pos + heading.word.length + 1 + beside.print.length := by
        simp only [List.length_append, List.length_cons]
        omega
      rw [Forest.print, Forest.events, if_pos hkind, if_pos hkind, hlength, List.append_assoc]
      exact hrun
    · have htext : heading.kind.hasTextBody = false := by
        revert hkind
        cases heading.kind <;> decide
      rw [if_neg hkind] at hlimit
      have hword : Run limit ⟨⟨pos, heading.word ++ Byte.space :: Byte.openParen ::
          Byte.lineFeed :: (beneath.print ++ Byte.closeParen :: Byte.lineFeed ::
            (beside.print ++ rest))⟩, [.items], contexts⟩ _ _ := run_keyword heading.spells rfl
      have hinner : endsText true (Byte.closeParen :: Byte.lineFeed :: (beside.print ++ rest))
          = true := by
        rw [endsText, beq_self_eq_true, Bool.true_and, Bool.or_true]
      have hopen := hword.trans
        (run_open htext (by omega) (endsText_print beneath hinner))
      have hbeneath := hopen.trans (ihBeneath (by simp only [List.length_cons]; omega) hinner)
      have hrun := hbeneath.trans
        ((run_close fun _ _ => isBreak_of_endsText hbeside).trans (ihBeside (by omega) hends))
      have hlength : pos + (heading.word ++ Byte.space :: Byte.openParen :: Byte.lineFeed ::
            (beneath.print ++ Byte.closeParen :: Byte.lineFeed :: beside.print)).length
          = pos + heading.word.length + 3 + beneath.print.length + 2 + beside.print.length := by
        simp only [List.length_append, List.length_cons]
        omega
      rw [Forest.print, Forest.events, if_neg hkind, if_neg hkind, hlength]
      simp only [List.append_assoc, List.cons_append, List.nil_append] at hrun ⊢
      exact hrun

end Scan

namespace Assembly

variable {source : Source} {a : Assembly} {ancestors : List Nat} {allowed : Kind → Bool}
  {pos : Nat} {rest : List UInt8}

/-! ## Assembling -/

theorem size_add (a : Assembly) (kind : Kind) (span : Span) (chain : List Nat) :
    (a.add kind span chain).directives.size = a.directives.size + 1 :=
  Array.size_push _

/-- The word of a heading is put beneath the owner of the level. -/
theorem acceptAll_keyword {heading : Heading} (h : Placed a ancestors allowed)
    (hallowed : allowed heading.kind = true)
    (hheld : source.Holds ⟨pos, heading.word ++ rest⟩) :
    a.acceptAll source (Part.keyword.events pos (pos + heading.word.length))
      = .ok (a.add heading.kind (.ofRange pos (pos + heading.word.length)) ancestors) := by
  have htakes : (⟨pos, heading.word ++ rest⟩ : Cursor).Takes heading.word
      ⟨pos + heading.word.length, rest⟩ := ⟨rfl, rfl⟩
  have hcovered : source.covered (.ofRange pos (pos + heading.word.length)) = heading.word :=
    hheld.covered htakes heading.spells.ne_nil
  have hclass : Keyword.classify? (source.text (.ofRange pos (pos + heading.word.length)))
      = some heading.kind := by
    rw [Source.text, hcovered]
    exact heading.spells.classify?
  have hkeyword := h.keyword hallowed hclass
  simp only [Part.events, acceptAll, accept, hkeyword]

/-- Taking the events of a forest adds its outline, and the next directive
belongs to the same level. -/
theorem acceptAll_events {forest : Forest} (h : Placed a ancestors allowed)
    (hconforms : forest.conforms allowed = true)
    (hheld : source.Holds ⟨pos, forest.print ++ rest⟩) :
    ∃ a', a.acceptAll source (forest.events pos) = .ok a' ∧ Placed a' ancestors allowed ∧
      a'.contexts = a.contexts ∧ shape a'.directives
        = shape a.directives ++ forest.outline a.directives.size ancestors.head? := by
  induction forest generalizing a ancestors allowed pos rest with
  | nil => exact ⟨a, rfl, h, rfl, (List.append_nil _).symm⟩
  | node heading beneath beside ihBeneath ihBeside =>
    simp only [Forest.conforms, Bool.and_eq_true] at hconforms
    obtain ⟨⟨hallowed, hbeneath⟩, hbeside⟩ := hconforms
    rw [Forest.print, List.append_assoc] at hheld
    have hword := acceptAll_keyword h hallowed hheld
    have hadd := a.shape_add heading.kind (.ofRange pos (pos + heading.word.length)) ancestors
    by_cases hkind : heading.kind = .description
    · have hleaf : ∀ child, heading.kind.permits child = false := by
        rw [hkind]
        exact fun _ => rfl
      obtain rfl := Forest.eq_nil_of_conforms hleaf hbeneath
      rw [if_pos hkind] at hheld
      have hnext : source.Holds ⟨pos + heading.word.length + 1, beside.print ++ rest⟩ :=
        hheld.skip (heading.word ++ [Byte.lineFeed]) (by simp) (by simp; omega)
      obtain ⟨a', hevents, hplaced, hctx, hshape⟩ := ihBeside (h.add_leaf hleaf _) hbeside hnext
      refine ⟨a', ?_, hplaced, hctx, ?_⟩
      · rw [Forest.events, if_pos hkind, acceptAll_append, hword]
        exact hevents
      · rw [hshape, hadd, size_add, List.append_assoc]
        rfl
    · rw [if_neg hkind] at hheld
      have hinside : source.Holds ⟨pos + heading.word.length + 3,
          beneath.print ++ Byte.closeParen :: Byte.lineFeed :: (beside.print ++ rest)⟩ :=
        hheld.skip (heading.word ++ [Byte.space, Byte.openParen, Byte.lineFeed]) (by simp)
          (by simp; omega)
      have hbehind : source.Holds
          ⟨pos + heading.word.length + 3 + beneath.print.length + 2, beside.print ++ rest⟩ :=
        hinside.skip (beneath.print ++ [Byte.closeParen, Byte.lineFeed]) (by simp)
          (by simp; omega)
      -- inside the parentheses
      let opened := (a.add heading.kind (.ofRange pos (pos + heading.word.length))
        ancestors).openContext (.point (pos + heading.word.length + 1))
      obtain ⟨inner, hevents, hplaced, hctx, hshape⟩ :=
        ihBeneath (Placed.openContext a heading.kind _ _ ancestors) hbeneath hinside
      rw [(openContext_add ..).2] at hctx
      have hopened : opened.directives.size = a.directives.size + 1 := by
        rw [← length_shape, shape_openContext, length_shape, size_add]
      rw [shape_openContext, hadd, hopened] at hshape
      -- behind them
      let closing : Span := ⟨pos + heading.word.length + 1,
        pos + heading.word.length + 3 + beneath.print.length⟩
      obtain ⟨hchain, hcontexts⟩ := hplaced.closeContext hctx closing
      rw [← shape_closeContext inner closing, List.append_assoc] at hshape
      have hclosed : (inner.closeContext closing).directives.size
          = a.directives.size + 1 + beneath.size := by
        rw [← length_shape, hshape, List.length_append, length_shape, List.length_append,
          List.length_singleton, Forest.length_outline, Nat.add_assoc]
      have houter : Placed (inner.closeContext closing) ancestors allowed :=
        ⟨h.level.extend hcontexts hshape, .inl hchain⟩
      obtain ⟨a', hmore, hplaced', hctx', hshape'⟩ := ihBeside houter hbeside hbehind
      refine ⟨a', ?_, hplaced', hctx'.trans hcontexts, ?_⟩
      · rw [Forest.events, if_neg hkind, acceptAll_append, hword]
        show opened.acceptAll source _ = _
        rw [acceptAll_append, hevents]
        exact hmore
      · rw [hshape', hshape, hclosed, List.append_assoc, List.append_assoc]
        rfl

end Assembly

/-! ## Reading -/

/-- A source that holds a printed forest is scanned to its events. -/
theorem scan_print {forest : Forest} {limit : Nat} (hlimit : forest.nesting ≤ limit)
    {source : Source} (hsource : source.bytes = forest.print) :
    source.scan limit = .ok (forest.events 0) := by
  have hrun : Scan.Run limit ⟨⟨0, forest.print ++ []⟩, [.items], []⟩ (forest.events 0)
      ⟨⟨0 + forest.print.length, []⟩, [.items], []⟩ :=
    Scan.run_print (by simpa using hlimit) rfl
  rw [List.append_nil, ← hsource] at hrun
  exact hrun.scan_eq

/-- A forest that conforms to the context grammar is read back from its text:
the document has its kinds in order, with the parents and the siblings of the
forest. -/
theorem parse_print {forest : Forest} (hconforms : forest.conforms Kind.allowedAtRoot = true)
    {limit : Nat} (hlimit : forest.nesting ≤ limit) {source : Source}
    (hsource : source.bytes = forest.print) :
    ∃ doc, source.parse limit = .ok doc ∧ shape doc.directives = forest.outline 0 none ∧
      doc.roots = forest.siblings 0 ∧ ∀ i, doc.children i = forest.children i 0 := by
  have hheld : source.Holds ⟨0, forest.print ++ []⟩ := by
    rw [List.append_nil, ← hsource]
    exact ⟨[], .refl _⟩
  have htop : Assembly.Placed {} [] Kind.allowedAtRoot := ⟨.top rfl, .inl rfl⟩
  obtain ⟨a, haccept, -, -, hshape⟩ := Assembly.acceptAll_events htop hconforms hheld
  have hshape : shape a.directives = forest.outline 0 none := hshape
  refine ⟨⟨source, a.directives⟩, ?_, hshape, ?_, ?_⟩
  · simp only [Source.parse, scan_print hlimit hsource, Source.validate, haccept]
  · rw [Document.roots, Document.withParent_eq]
    show Forest.withParent none (shape a.directives) 0 = _
    rw [hshape]
    apply Forest.outline_siblings
    intro j hj
    cases hj
  · intro i
    rw [Document.children, Document.withParent_eq]
    show Forest.withParent (some i) (shape a.directives) 0 = _
    rw [hshape]
    exact Forest.outline_children (Nat.zero_le i) (Option.some_ne_none i).symm

/-- A resource with a method that answers with a code, and a description and
another method behind it. -/
theorem parse_print_resource :
    ∃ doc, Source.parse 3 ⟨"",
        Utf8.bytes "URL (\nGET (\n404 (\n)\n)\nDescription\nPUT (\n)\n)\n", by decide⟩ = .ok doc ∧
      shape doc.directives = [(.url, none), (.get, some 0), (.responseCode, some 1),
        (.description, some 0), (.put, some 0)] ∧
      doc.roots = [0] ∧ doc.children 0 = [1, 3, 4] := by
  let code : Forest := .node ⟨.responseCode, Utf8.bytes "404", by decide⟩ .nil .nil
  let put : Forest := .node ⟨.put, Utf8.bytes "PUT", by decide⟩ .nil .nil
  let text : Forest := .node ⟨.description, Utf8.bytes "Description", by decide⟩ .nil put
  let get : Forest := .node ⟨.get, Utf8.bytes "GET", by decide⟩ code text
  let resource : Forest := .node ⟨.url, Utf8.bytes "URL", by decide⟩ get .nil
  have hconforms : resource.conforms Kind.allowedAtRoot = true := by decide
  have hlimit : resource.nesting ≤ 3 := by decide
  have hsource : (⟨"", Utf8.bytes "URL (\nGET (\n404 (\n)\n)\nDescription\nPUT (\n)\n)\n",
      by decide⟩ : Source).bytes = resource.print := by
    decide
  obtain ⟨doc, hparse, hshape, hroots, hchildren⟩ := parse_print hconforms hlimit hsource
  exact ⟨doc, hparse, hshape, hroots, hchildren 0⟩

end ApiDoc
