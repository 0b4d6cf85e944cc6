import ApiDoc.Proofs.Scan.Composition
import ApiDoc.Proofs.Scan.DirectiveLine
import ApiDoc.Proofs.Scan.Ledger
import ApiDoc.Proofs.Schema.Words

/-!
# Comments between two parts of a document

A line may be put between two parts of a document that holds nothing but a
comment. The scanner then does the same, the events of the comment apart:

* **Comments** (`IsComment.continues`, `IsComment.run`): a comment is no part of a
  schema, and the scanner comes to the line behind it with nothing else on its
  agenda than before.
* **Texts** (`endsTexts_of_last`): a comment would be part of a text that runs to
  the end of the first part. But behind such a text comes no keyword any more, so
  that its directive is the last one; and this one must have no text.

`scan_interject` puts the two together.
-/

namespace ApiDoc

/-- A comment with its marks. -/
inductive IsComment : List UInt8 → Prop
  | line {text : List UInt8} (htext : Schema.OneLine text) : IsComment (Byte.hash :: text)
  | block {word : List UInt8} (hword : IsBlockComment word) : IsComment word

/-- The directive that comes last is of a kind without text. -/
def LastWithoutText (source : Source) (events : List Event) : Prop :=
  ∀ k kind, (keywords events).getLast? = some k →
    Keyword.classify? (source.text k) = some kind → kind.hasTextBody = false

/-- The event belongs to a comment. -/
def Event.IsRemark (e : Event) : Prop :=
  e.mark.part = .comment

theorem isRemark_events {start stop : Nat} :
    ∀ e ∈ Part.comment.events start stop, e.IsRemark :=
  fun _ he => part_of_mem_events he

namespace Scan

variable {limit : Nat} {s t : State} {task : Task} {m : Move} {events : List Event}

/-! ## The last keyword -/

/-- Only an item that is no white space gives a keyword. -/
theorem Performs.keywords_eq_nil (h : Performs limit s task m)
    (hnone : task ≠ .items ∨ White s.cursor.rest) : keywords m.events = [] := by
  cases h with
  | keyword hk =>
    obtain ⟨b, tail, hr, hb⟩ := keyword_head hk
    rcases hnone with hitems | hwhite
    · exact absurd rfl hitems
    · have hmem : b ∈ s.cursor.rest := by
        rw [s.cursor.takes_eatBlanks.rest, hr]
        exact List.mem_append_right _ List.mem_cons_self
      obtain ⟨hblank, hbreak, -⟩ := not_special_of_isAlphanumeric hb
      have hnot := Byte.isWhite_eq_false_iff.mpr ⟨hblank, hbreak⟩
      rw [hwhite b hmem] at hnot
      cases hnot
  | @parenText _ range =>
    cases range with
    | none | some _ => rfl
  | _ => rfl

/-- In white space there is no keyword. -/
theorem Run.keywords_eq_nil (h : Run limit s events t) (hwhite : White s.cursor.rest) :
    keywords events = [] := by
  have hboth := h.preserves (P := fun events s => White s.cursor.rest ∧ keywords events = [])
    ?_ [] ⟨hwhite, rfl⟩
  · exact hboth.2
  · intro before s task later m _ hperf ⟨hwhite, hbefore⟩
    obtain ⟨parens, ⟨taken, htakes, -⟩, -⟩ := hperf.tiles
    have hrest : s.cursor.rest = taken ++ m.next.cursor.rest := htakes.rest
    refine ⟨fun b hb => hwhite b (hrest ▸ List.mem_append_right _ hb), ?_⟩
    rw [keywords_append, hbefore, hperf.keywords_eq_nil (.inr hwhite), List.append_nil]

/-- Text that runs to the end of a document is that of the last directive. -/
theorem endsTexts_of_last {source : Source} (hscan : source.scan limit = .ok events)
    (hlast : LastWithoutText source events) : EndsTexts limit (.start source.bytes) := by
  intro before u later line m hbefore hagenda htext hstep hend
  obtain ⟨task, later', ha, hperf⟩ := step_eq_moved_iff.mp hstep
  obtain ⟨rfl, rfl⟩ := List.cons.inj (hagenda.symm.trans ha)
  obtain ⟨after, t, hafter, rfl⟩ := (hbefore.trans (.single hstep)).remainder hscan
  have hwhite : White m.next.cursor.rest := List.dropWhile_eq_nil_iff.mp hend
  have hkeywords : keywords (before ++ m.events ++ after) = keywords before := by
    rw [keywords_append, keywords_append, hafter.keywords_eq_nil hwhite,
      hperf.keywords_eq_nil (.inl Task.noConfusion), List.append_nil, List.append_nil]
  have hline : u.line? = some line := by
    rw [State.line?, hagenda]
    rfl
  obtain ⟨k, hk, hspells⟩ := hbefore.tracked.announced hline
  have hnone := hlast k line.kind (hkeywords ▸ hk) hspells.classify?
  rw [htext] at hnone
  cases hnone

/-! ## Comments -/

variable {text word rest : List UInt8}

theorem run_lineComment (htext : Schema.OneLine text)
    (hrest : ∀ b tail, rest = b :: tail → Byte.isBreak b = false) (limit pos : Nat) :
    Run limit ⟨⟨pos, Byte.hash :: text ++ Byte.lineFeed :: rest⟩, [.items], []⟩
      (lineEvents .comment ⟨pos, Byte.hash :: text ++ Byte.lineFeed :: rest⟩)
      ⟨⟨pos + ((Byte.hash :: text).length + 1), rest⟩, [.items], []⟩ := by
  have hblanks : (⟨pos, Byte.hash :: text ++ Byte.lineFeed :: rest⟩ : Cursor).eatBlanks
      = ⟨pos, Byte.hash :: text ++ Byte.lineFeed :: rest⟩ := by
    apply Cursor.eatWhile_of_head
    rintro b tail ⟨⟩
    rfl
  have hline : (⟨pos, Byte.hash :: text ++ Byte.lineFeed :: rest⟩ : Cursor).eatLine
      = ⟨pos + (Byte.hash :: text).length, Byte.lineFeed :: rest⟩ := by
    refine Cursor.eatWhile_of_word ?_ ?_
    · intro b hb
      rcases List.mem_cons.mp hb with rfl | hb
      · rfl
      · simp [htext b hb]
    · rintro b tail ⟨⟩
      rfl
  have hcomment : Performs limit ⟨⟨pos, Byte.hash :: text ++ Byte.lineFeed :: rest⟩, [], []⟩
      .items _ := .lineComment (congrArg Cursor.rest hblanks)
  rw [hblanks, hline] at hcomment
  have hrun := (Run.of_rule hcomment).trans (run_blankLine hrest)
  rw [List.append_nil] at hrun
  exact hrun

theorem run_blockComment (hword : IsBlockComment word)
    (hrest : ∀ b tail, rest = b :: tail → Byte.isBreak b = false) (limit pos : Nat) :
    Run limit ⟨⟨pos, word ++ Byte.lineFeed :: rest⟩, [.items], []⟩
      (Part.comment.events pos (pos + word.length))
      ⟨⟨pos + (word.length + 1), rest⟩, [.items], []⟩ := by
  obtain ⟨text, htext, hmarks⟩ := hword
  have hhead : word ++ Byte.lineFeed :: rest
      = Byte.slash :: Byte.hash :: (text ++ Byte.hash :: Byte.slash :: Byte.lineFeed :: rest) := by
    simp [hmarks]
  have hblanks : (⟨pos, word ++ Byte.lineFeed :: rest⟩ : Cursor).eatBlanks
      = ⟨pos, word ++ Byte.lineFeed :: rest⟩ := by
    apply Cursor.eatWhile_of_head
    intro b tail hr
    obtain rfl := (List.cons.inj (hhead.symm.trans hr)).1
    rfl
  have hmove : (⟨pos, word ++ Byte.lineFeed :: rest⟩ : Cursor).moveTo (Byte.lineFeed :: rest)
      = ⟨pos + word.length, Byte.lineFeed :: rest⟩ :=
    (Cursor.takes_moveTo rfl).unique ⟨rfl, rfl⟩
  have hcomment : Performs limit ⟨⟨pos, word ++ Byte.lineFeed :: rest⟩, [], []⟩ .items _ :=
    .blockComment ((congrArg Cursor.rest hblanks).trans hhead)
      (Comment.afterClose?_eq_some_iff.mpr ⟨text, htext, rfl⟩)
  rw [hblanks, hmove] at hcomment
  have hrun := (Run.of_rule hcomment).trans (run_lineEnd hrest)
  rw [List.append_nil] at hrun
  exact hrun

end Scan

namespace IsComment

variable {word rest : List UInt8}

/-- A comment ends a schema. -/
theorem continues (h : IsComment word) (rest : List UInt8) : Continues (word ++ rest) := by
  cases h with
  | line htext =>
    refine ⟨⟨_, _, rfl, by decide⟩, ?_⟩
    rw [List.cons_append, List.dropWhile_cons_of_neg (by decide)]
    simp [Scan.opensItem]
  | block hword =>
    obtain ⟨text, -, rfl⟩ := hword
    refine ⟨⟨_, _, rfl, by decide⟩, ?_⟩
    rw [List.cons_append, List.dropWhile_cons_of_neg (by decide)]
    simp [Scan.opensItem]

/-- The scanner passes over a comment and the line end behind it. -/
theorem run (h : IsComment word) (hrest : ∀ b tail, rest = b :: tail → Byte.isBreak b = false)
    (limit pos : Nat) :
    ∃ remarks, (∀ e ∈ remarks, e.IsRemark) ∧
      Scan.Run limit ⟨⟨pos, word ++ Byte.lineFeed :: rest⟩, [.items], []⟩ remarks
        ⟨⟨pos + (word.length + 1), rest⟩, [.items], []⟩ := by
  cases h with
  | line htext => exact ⟨_, isRemark_events, Scan.run_lineComment htext hrest limit pos⟩
  | block hword => exact ⟨_, isRemark_events, Scan.run_blockComment hword hrest limit pos⟩

end IsComment

/-- The scan of a document with a comment put in is the scan of its first part,
the comment, and then the scan of the second part, moved behind both. -/
theorem Scan.scan_interject {limit : Nat} {a b whole : Source} {events : List Event}
    {comment : List UInt8}
    (hwhole : whole.bytes = a.bytes ++ (comment ++ Byte.lineFeed :: b.bytes))
    (hends : a.bytes = [] ∨ endsLine a.bytes = true) (ha : a.scan limit = .ok events)
    (hlast : LastWithoutText a events) (hcomment : IsComment comment) (hopens : Opens b.bytes) :
    ∃ remarks, (∀ e ∈ remarks, e.IsRemark) ∧
      scan limit whole.bytes = match scan limit b.bytes with
        | .ok more =>
          .ok (events ++ remarks ++ more.map (Event.shift (a.length + (comment.length + 1))))
        | .error fault => .error (fault.shift (a.length + (comment.length + 1))) := by
  have hfront := Source.run_extend hends ha (hcomment.continues (Byte.lineFeed :: b.bytes))
    (.inr (endsTexts_of_last ha hlast))
  rw [← hwhole] at hfront
  obtain ⟨first, tail, hfirst, hbreak⟩ := hopens.head
  have hrest : ∀ b' tail, b.bytes = b' :: tail → Byte.isBreak b' = false := by
    intro b' tail' hb
    rw [hfirst] at hb
    rw [← (List.cons.inj hb).1]
    exact hbreak
  obtain ⟨remarks, hremarks, hrun⟩ := hcomment.run hrest limit a.length
  exact ⟨remarks, hremarks, scan_of_run (hfront.trans hrun)⟩

end ApiDoc
