import ApiDoc.Proofs.Scan.Reading
import ApiDoc.Proofs.Scan.Run

/-!
# Failures of a scan

The failing of a task is inverted once; what follows goes by its cases.

* **Schemas** (`HandsOver`): where a task finds a schema and has it measured.
* **Failure** (`Fails`): a task fails at a cursor it has moved to, because the
  document does not go on as expected, contexts are nested too deep, or a schema
  is not wanted or cannot be measured.
* **Runs** (`outcome_eq_error_iff`): a scan fails iff a run leads to a state in
  which a step fails.

So a scan fails because its bytes cannot be read and for no other reason: the
code of every fault belongs to the phase that reads bytes (`isReading_scan`).
-/

namespace ApiDoc

/-! ## Where readers stop -/

/-- The recogniser does not lose its place when it is stuck. -/
theorem Keyword.Progress.suffix_of_run_stuck {p q : Progress} {bytes rest : List UInt8}
    (h : p.run bytes = .stuck q rest) : rest <:+ bytes := by
  have hfinish : ∀ {p : Progress} {bytes}, p.finish bytes = .stuck q rest → rest <:+ bytes := by
    intro p bytes h
    unfold Progress.finish at h
    split at h
    · cases h
    · cases h
      exact List.suffix_refl _
  induction bytes generalizing p with
  | nil => exact hfinish h
  | cons b tail ih =>
    unfold Progress.run at h
    split at h
    · exact hfinish h
    · split at h
      · exact (ih h).trans (List.suffix_cons b tail)
      · cases h
        exact List.suffix_refl _

theorem Scan.quotedRest_suffix (escaped : Bool) (bytes : List UInt8) :
    quotedRest escaped bytes <:+ bytes := by
  fun_induction quotedRest escaped bytes with
  | case1 => exact List.suffix_refl _
  | case2 => exact List.suffix_refl _
  | case3 b rest _ ih => exact ih.trans (List.suffix_cons b rest)
  | case4 _ rest _ _ ih => exact ih.trans (List.suffix_cons _ rest)
  | case5 => exact List.suffix_refl _
  | case6 _ b rest _ _ _ _ ih => exact ih.trans (List.suffix_cons b rest)

namespace Scan

/-- `c` stands ahead of `s`, or is it. -/
def State.Reaches (s : State) (c : Cursor) : Prop :=
  ∃ taken, s.cursor.Takes taken c

namespace State.Reaches

variable {s : State} {c : Cursor}

theorem eatBlanks (s : State) : s.Reaches s.cursor.eatBlanks :=
  ⟨_, s.cursor.takes_eatBlanks⟩

theorem eatWhite (s : State) : s.Reaches s.cursor.eatWhite :=
  ⟨_, s.cursor.takes_eatWhite⟩

theorem move (h : s.Reaches c) {d : Cursor} {taken : List UInt8} (k : c.Takes taken d) :
    s.Reaches d := by
  obtain ⟨front, hfront⟩ := h
  exact ⟨_, hfront.trans k⟩

theorem moveTo (h : s.Reaches c) {rest : List UInt8} (hsuffix : rest <:+ c.rest) :
    s.Reaches (c.moveTo rest) := by
  obtain ⟨taken, htaken⟩ := hsuffix
  exact h.move (Cursor.takes_moveTo htaken.symm)

end State.Reaches

/-! ## Failing tasks -/

/-- `HandsOver s task line c`: the task finds a schema at `c`, on the line of a
directive or behind it. -/
inductive HandsOver (s : State) : Task → Line → Cursor → Prop
  | onLine {line : Line} {b : UInt8} {tail : List UInt8}
      (hr : s.cursor.eatBlanks.rest = b :: tail)
      (h : opensInlineSchema line b s.cursor.eatBlanks.peek = true) :
      HandsOver s (.tail line) line s.cursor.eatBlanks
  | behind {line : Line} (hbody : line.kind.body? = some .schema)
      (h : opensItem s.cursor.eatWhite.rest = false) :
      HandsOver s (.body line) line s.cursor.eatWhite

/-- How a task fails in a state whose agenda no longer holds it. -/
inductive Fails (limit : Nat) (s : State) (task : Task) : Fault → Prop
  | unexpected {c : Cursor} (h : s.Reaches c) (place expected : String) :
      Fails limit s task (unexpected c place expected)
  | tooDeep {c : Cursor} {tail : List UInt8} (h : s.Reaches c)
      (hr : c.rest = Byte.openParen :: tail) (hlimit : limit ≤ s.contexts.length) :
      Fails limit s task
        (faultAt c (.plain ("explicit contexts nested deeper than " ++ toString limit)))
  | unwanted {line : Line} {c : Cursor} (h : HandsOver s task line c)
      (hnone : line.declared.grammar? = none) :
      Fails limit s task (faultAt c
        (.plain ("unexpected schema body for notation \"" ++ line.declared.display ++ "\"")))
  | schema {line : Line} {c : Cursor} {grammar : Grammar} {fault : Schema.Fault}
      (h : HandsOver s task line c) (hgrammar : line.declared.grammar? = some grammar)
      (hfault : Schema.extent grammar c.rest = .error fault) :
      Fails limit s task ⟨.schema fault.complaint, fault.offsetFrom c.pos, c.pos⟩

variable {limit : Nat} {line : Line} {s : State} {c : Cursor} {task : Task} {fault : Fault}

theorem HandsOver.reaches (h : HandsOver s task line c) : s.Reaches c := by
  cases h with
  | onLine => exact .eatBlanks s
  | behind => exact .eatWhite s

/-- A schema that is handed over has a first byte. -/
theorem HandsOver.rest_ne_nil (h : HandsOver s task line c) : c.rest ≠ [] := by
  cases h with
  | onLine hr =>
    rw [hr]
    exact List.cons_ne_nil _ _
  | behind _ hitem =>
    intro hnil
    rw [hnil] at hitem
    cases hitem

theorem fails_of_schemaBody (hover : HandsOver s task line c)
    (h : schemaBody line s c = .error fault) : Fails limit s task fault := by
  unfold schemaBody at h
  split at h
  · rename_i hnone
    cases h
    exact .unwanted hover hnone
  · rename_i grammar hgrammar
    split at h
    · cases h
    · rename_i found hfound
      cases h
      exact .schema hover hgrammar hfound

theorem fails_of_items (hreach : s.Reaches c) (h : items s c = .error fault) :
    Fails limit s task fault := by
  unfold items at h
  split at h
  · split at h
    · cases h
    · cases h
      exact .unexpected hreach _ _
  · split at h
    · cases h
    · split at h
      · cases h
      · split at h
        · unfold blockComment at h
          split at h
          · cases h
          · cases h
            exact .unexpected (hreach.moveTo List.nil_suffix) _ _
        · split at h
          · unfold closeContext at h
            split at h
            · cases h
              exact .unexpected hreach _ _
            · cases h
          · unfold keyword at h
            split at h
            · cases h
            · rename_i hstuck
              cases h
              exact .unexpected (hreach.moveTo (Keyword.Progress.suffix_of_run_stuck hstuck)) _ _

theorem fails_of_openParen {tail : List UInt8} (hreach : s.Reaches c)
    (hr : c.rest = Byte.openParen :: tail) (h : openParen limit line s c = .error fault) :
    Fails limit s task fault := by
  simp only [openParen] at h
  split at h
  · split at h
    · cases h
    · split at h
      · rename_i hlimit
        cases h
        exact .tooDeep hreach hr hlimit
      · cases h
  · cases h
    have hbehind := hreach.move (Cursor.takes_advance_one hr)
    exact .unexpected (hbehind.move c.advance.takes_eatBlanks) _ _

theorem fails_of_quotedParameter (hreach : s.Reaches c)
    (h : quotedParameter line s c = .error fault) : Fails limit s task fault := by
  have hclose : s.Reaches (c.moveTo (quotedRest false c.rest.tail)) :=
    hreach.moveTo ((quotedRest_suffix _ _).trans (List.tail_suffix _))
  simp only [quotedParameter] at h
  split at h
  · split at h
    · cases h
    · cases h
      exact .unexpected (hclose.move (Cursor.takes_advance _ 1)) _ _
  · cases h
    exact .unexpected hclose _ _

theorem fails_of_tail (h : tail limit line s s.cursor.eatBlanks = .error fault) :
    Fails limit s (.tail line) fault := by
  have hreach := State.Reaches.eatBlanks s
  unfold tail at h
  split at h
  · cases h
  · rename_i b rest hr
    split at h
    · cases h
    · split at h
      · cases h
      · split at h
        · cases h
        · split at h
          · cases h
            exact .unexpected hreach _ _
          · split at h
            · rename_i hparen
              exact fails_of_openParen hreach (hparen ▸ hr) h
            · split at h
              · rename_i hopens
                exact fails_of_schemaBody (.onLine hr hopens) h
              · split at h
                · exact fails_of_quotedParameter hreach h
                · cases h

theorem fails_of_body (h : body line s = .error fault) : Fails limit s (.body line) fault := by
  unfold body at h
  split at h
  · split at h
    · obtain ⟨taken, htakes, -⟩ := takes_parenLines none s.cursor.eatBlanks
      unfold parenBody at h
      split at h
      rename_i hlines
      rw [hlines] at htakes
      split at h
      · cases h
        exact .unexpected ((State.Reaches.eatBlanks s).move htakes) _ _
      · cases h
    · cases h
  · split at h
    · cases h
    · rename_i hbody
      split at h
      · cases h
      · rename_i hitem
        exact fails_of_schemaBody (.behind hbody (Bool.eq_false_iff.mpr hitem)) h
    · split at h
      · cases h
      · cases h

theorem fails_of_lineEnd {ending : Ending} (hreach : s.Reaches c)
    (h : lineEnd ending s c = .error fault) : Fails limit s task fault := by
  unfold lineEnd at h
  split at h
  · cases h
  · split at h
    · cases h
    · split at h
      · cases h
      · cases h
        exact .unexpected hreach _ _

theorem fails_of_perform (h : perform limit s task = .error fault) : Fails limit s task fault := by
  cases task with
  | items => exact fails_of_items (.eatBlanks s) h
  | tail line => exact fails_of_tail h
  | body line => exact fails_of_body h
  | lineEnd ending => exact fails_of_lineEnd (.eatBlanks s) h

/-- A fault tells an offset that the scanner has reached. -/
theorem Fails.reaches (h : Fails limit s task fault) : ∃ c, s.Reaches c ∧ fault.pos = c.pos := by
  cases h with
  | @unexpected c hreach =>
    refine ⟨c, hreach, ?_⟩
    rw [Scan.unexpected]
    split <;> rfl
  | tooDeep hreach => exact ⟨_, hreach, rfl⟩
  | unwanted hover => exact ⟨_, hover.reaches, rfl⟩
  | schema hover => exact ⟨_, hover.reaches, rfl⟩

/-! ## Runs -/

theorem step_eq_failed {s : State} (h : step limit s = .failed fault) :
    ∃ task later, s.agenda = task :: later ∧ Fails limit (s.drop later) task fault := by
  unfold step at h
  split at h
  · cases h
  · rename_i task later ha
    split at h
    · cases h
    · rename_i hperform
      cases h
      exact ⟨task, later, ha, fails_of_perform hperform⟩

/-- A scan fails iff a run leads to a step that fails. -/
theorem State.outcome_eq_error_iff :
    s.outcome limit = .error fault ↔
      ∃ events t, Run limit s events t ∧ step limit t = .failed fault := by
  constructor
  · intro h
    induction hw : s.work using Nat.strong_induction_on generalizing s with
    | _ work ih =>
      cases hs : step limit s with
      | finished =>
        rw [outcome_finished hs] at h
        cases h
      | failed found =>
        rw [outcome_failed hs] at h
        cases h
        exact ⟨[], s, .refl s, hs⟩
      | moved m =>
        rw [outcome_moved hs] at h
        cases hm : m.next.outcome limit with
        | ok events =>
          rw [hm] at h
          cases h
        | error found =>
          rw [hm] at h
          cases h
          obtain ⟨events, t, hrun, ht⟩ := ih _ (hw ▸ work_step hs) hm rfl
          exact ⟨_, t, .step hs hrun, ht⟩
  · rintro ⟨events, t, hrun, ht⟩
    rw [hrun.outcome_eq, outcome_failed ht]
    rfl

/-- The failure of a scan is the failure of a task that a run leads to. -/
theorem fails_of_scan {source : Source} {d : Diagnostic} (h : source.scan limit = .error d) :
    ∃ events t task later fault, Run limit (.start source.bytes) events t ∧
      t.agenda = task :: later ∧ Fails limit (t.drop later) task fault ∧
      d = fault.diagnostic source := by
  unfold Source.scan at h
  split at h
  · cases h
  · rename_i fault hfault
    cases h
    obtain ⟨events, t, hrun, ht⟩ := State.outcome_eq_error_iff.mp hfault
    obtain ⟨task, later, ha, hfails⟩ := step_eq_failed ht
    exact ⟨events, t, task, later, fault, hrun, ha, hfails, rfl⟩

/-! ## The phase of a failure -/

/-- The fault is about bytes that cannot be read. -/
def Fault.IsReading (f : Fault) : Prop :=
  f.cause.code.isReadingFailure = true

theorem isReading_faultAt (c : Cursor) (complaint : Complaint) :
    (faultAt c complaint).IsReading := by
  rw [Fault.IsReading, faultAt]
  cases complaint <;> simp only [Cause.code] <;> decide

theorem Fails.isReading (h : Fails limit s task fault) : fault.IsReading := by
  cases h with
  | unexpected =>
    rw [Scan.unexpected]
    split
    · exact isReading_faultAt _ _
    · exact isReading_faultAt _ _
  | tooDeep => exact isReading_faultAt _ _
  | unwanted => exact isReading_faultAt _ _
  | schema =>
    simp only [Fault.IsReading, Cause.code]
    decide

/-- A scan fails because its bytes cannot be read. -/
theorem isReading_scan {source : Source} {d : Diagnostic} (h : source.scan limit = .error d) :
    d.code.isReadingFailure = true := by
  obtain ⟨_, _, _, _, fault, -, -, hfails, rfl⟩ := fails_of_scan h
  exact hfails.isReading

end Scan

end ApiDoc
