import ApiDoc.Proofs.Scan.Ledger

/-!
# The limit on nested contexts

A scan is told how deep contexts may be nested. The limit is looked at in one
place only, where a context is opened, and so it does nothing but refuse the
parenthesis that would nest too deep:

* **Depth** (`depthAfter`, `deepest`): how deep a stream is nested behind its
  events, and how deep it ever gets. In a run this is the number of parentheses
  that are open (`Gives.depth`).
* **Below the limit** (`Run.relimit`): a run is a run under any other limit that
  its events keep.
* **Above the limit** (`Run.overruns`): any other run is followed up to the
  first parenthesis that goes beyond the limit, and fails there.
* **No limit** (`Run.deepest_le_pos`): contexts are never nested deeper than the
  document is long, so that a greater limit is none.

`scan_limit_exact` says so of whole scans.
-/

namespace ApiDoc

/-- The depth behind an event, if `depth` is that before it. -/
def Event.depth (depth : Nat) (e : Event) : Nat :=
  match e.mark.part, e.mark.edge with
  | .context, .opening => depth + 1
  | .context, .closing => depth - 1
  | _, _ => depth

/-- The depth behind a stream. -/
def depthAfter (depth : Nat) (events : List Event) : Nat :=
  events.foldl Event.depth depth

/-- The greatest depth to which a stream is nested. -/
def deepest (depth : Nat) : List Event → Nat
  | [] => depth
  | e :: rest => max depth (deepest (e.depth depth) rest)

/-- The parenthesis at `p` is the first of a stream that nests contexts deeper
than `limit`. -/
def Overruns (limit : Nat) (events : List Event) (p : Nat) : Prop :=
  ∃ before after, events = before ++ ⟨⟨.context, .opening⟩, .point p⟩ :: after ∧
    deepest 0 before ≤ limit ∧ depthAfter 0 before = limit

theorem Event.depth_of_part {e : Event} (h : e.mark.part ≠ .context) (depth : Nat) :
    e.depth depth = depth := by
  obtain ⟨⟨part, edge⟩, span⟩ := e
  cases part with
  | context => exact absurd rfl h
  | keyword | parameter | note | schema | text | comment => rfl

theorem depthAfter_append (depth : Nat) (events more : List Event) :
    depthAfter depth (events ++ more) = depthAfter (depthAfter depth events) more :=
  List.foldl_append

theorem le_deepest (depth : Nat) (events : List Event) : depth ≤ deepest depth events := by
  cases events with
  | nil => exact Nat.le_refl depth
  | cons e rest => exact Nat.le_max_left _ _

theorem deepest_append (depth : Nat) (events more : List Event) :
    deepest depth (events ++ more)
      = max (deepest depth events) (deepest (depthAfter depth events) more) := by
  induction events generalizing depth with
  | nil => exact (Nat.max_eq_right (le_deepest depth more)).symm
  | cons e rest ih =>
    rw [List.cons_append, deepest, ih, deepest, Nat.max_assoc]
    rfl

/-- An opening parenthesis in order stands in the text. -/
theorem Orderly.opening {source : Source} {events : List Event} {opens : List Nat} {fresh : Bool}
    {p : Nat} (h : Orderly source events opens fresh)
    (hp : ⟨⟨.context, .opening⟩, .point p⟩ ∈ events) : source.byte? p = some Byte.openParen := by
  induction h with
  | start => cases hp
  | keyword _ _ _ _ ih | closed _ _ _ ih =>
    rcases List.mem_append.mp hp with hp | hp
    · exact ih hp
    · cases List.mem_singleton.mp hp
  | opened _ _ hbyte ih =>
    rcases List.mem_append.mp hp with hp | hp
    · exact ih hp
    · cases List.mem_singleton.mp hp
      exact hbyte
  | other _ he ih =>
    rcases List.mem_append.mp hp with hp | hp
    · exact ih hp
    · rw [← List.mem_singleton.mp hp] at he
      exact absurd rfl he.2

namespace Scan

variable {limit limit' : Nat} {s t : State} {task : Task} {m : Move} {events : List Event}
  {fault : Fault}

/-! ## Depth of a run -/

/-- Events of a part that is no context leave the depth as it is. -/
theorem deepest_events {part : Part} (hpart : part ≠ .context) (depth start stop : Nat) :
    depthAfter depth (part.events start stop) = depth ∧
      deepest depth (part.events start stop) = depth := by
  have hdepth : ∀ edge span, Event.depth depth ⟨⟨part, edge⟩, span⟩ = depth :=
    fun edge span => Event.depth_of_part hpart depth
  simp only [Part.events, depthAfter, List.foldl_cons, List.foldl_nil, deepest, hdepth,
    Nat.max_self, and_self]

/-- The depth of a run is the number of its open parentheses. -/
theorem Gives.depth (h : Gives s m) :
    depthAfter s.contexts.length m.events = m.next.contexts.length ∧
      deepest s.contexts.length m.events
        = max s.contexts.length m.next.contexts.length := by
  cases h with
  | silent hctx =>
    rw [hctx]
    exact ⟨rfl, (Nat.max_self _).symm⟩
  | lexeme hpart hctx =>
    rw [hctx, Nat.max_self]
    exact deepest_events hpart _ _ _
  | opened hr hctx =>
    rw [hctx]
    exact ⟨rfl, rfl⟩
  | closed hr hctx =>
    rw [hctx]
    exact ⟨rfl, rfl⟩

/-- A run that ends in `t` ends at its depth. -/
theorem Run.depth (h : Run limit s events t) :
    depthAfter s.contexts.length events = t.contexts.length := by
  induction h with
  | refl s => rfl
  | step hs _ ih =>
    obtain ⟨task, later, -, hperf⟩ := step_eq_moved_iff.mp hs
    have hdepth : depthAfter _ _ = _ := hperf.gives.depth.1
    rw [depthAfter_append, hdepth]
    exact ih

/-! ## One limit and another -/

/-- Only the opening of a context looks at the limit. -/
theorem tail_relimit (limit' : Nat) {line : Line} {c : Cursor}
    (h : tail limit line s c = .ok m) :
    tail limit' line s c = .ok m ∨
      m.events = [⟨⟨.context, .opening⟩, .point c.pos⟩] ∧
        m.next.contexts = c.pos :: s.contexts ∧ limit' ≤ s.contexts.length ∧
        tail limit' line s c = .error
          (faultAt c (.plain ("explicit contexts nested deeper than " ++ toString limit'))) := by
  revert h
  unfold tail
  split
  · exact .inl
  · split
    · exact .inl
    · split
      · exact .inl
      · split
        · exact .inl
        · split
          · exact .inl
          · split
            · simp only [openParen]
              split
              · split
                · exact .inl
                · split
                  · exact nofun
                  · intro h
                    cases h
                    by_cases hlimit : limit' ≤ s.contexts.length
                    · exact .inr ⟨rfl, rfl, hlimit, if_pos hlimit⟩
                    · exact .inl (if_neg hlimit)
              · exact .inl
            · exact .inl

/-- A step is taken under another limit, unless it opens a context that this
limit forbids. -/
theorem step_relimit (limit' : Nat) (h : step limit s = .moved m) :
    step limit' s = .moved m ∨
      ∃ p, m.events = [⟨⟨.context, .opening⟩, .point p⟩] ∧
        m.next.contexts = p :: s.contexts ∧ limit' ≤ s.contexts.length ∧
        step limit' s = .failed ⟨.lexical
          (.plain ("explicit contexts nested deeper than " ++ toString limit')), p, p⟩ := by
  obtain ⟨task, later, ha, hperf⟩ := step_eq_moved_iff.mp h
  have hperf := perform_of_performs hperf
  cases task with
  | tail line =>
    rcases tail_relimit limit' hperf with hsame | ⟨hevents, hctx, hlimit, herror⟩
    · exact .inl (step_eq_moved_iff.mpr ⟨_, later, ha, perform_eq_ok_iff.mp hsame⟩)
    · refine .inr ⟨_, hevents, hctx, hlimit, ?_⟩
      have hfail : perform limit' { s with agenda := later } (.tail line) = _ := herror
      rw [step, ha]
      dsimp only
      rw [hfail]
      rfl
  | items | body line | lineEnd ending =>
    exact .inl (step_eq_moved_iff.mpr ⟨_, later, ha, perform_eq_ok_iff.mp hperf⟩)

/-- A step keeps the limit. -/
theorem Performs.contexts_le (h : Performs limit s task m) (hs : s.contexts.length ≤ limit) :
    m.next.contexts.length ≤ limit := by
  cases h with
  | contextParen _ _ _ _ hlimit => exact hlimit
  | closeContext _ hctx =>
    rw [hctx] at hs
    exact Nat.le_of_succ_le hs
  | _ => exact hs

/-- A step of a run, as to its depth. -/
theorem deepest_of_step (h : step limit s = .moved m) (rest : List Event) :
    deepest s.contexts.length (m.events ++ rest)
      = max s.contexts.length (deepest m.next.contexts.length rest) := by
  obtain ⟨task, later, -, hperf⟩ := step_eq_moved_iff.mp h
  obtain ⟨hdepth, hdeep⟩ := hperf.gives.depth
  have hdepth : depthAfter s.contexts.length m.events = m.next.contexts.length := hdepth
  have hdeep : deepest s.contexts.length m.events = _ := hdeep
  rw [deepest_append, hdepth, hdeep, Nat.max_assoc, Nat.max_eq_right (le_deepest _ rest)]

/-- A run that keeps another limit is a run under it. -/
theorem Run.relimit (h : Run limit s events t)
    (hdeep : deepest s.contexts.length events ≤ limit') : Run limit' s events t := by
  induction h with
  | refl s => exact .refl s
  | @step s t m events hs _ ih =>
    rw [deepest_of_step hs] at hdeep
    have hnext := Nat.le_trans (Nat.le_max_right _ _) hdeep
    rcases step_relimit limit' hs with hsame | ⟨p, -, hctx, hlimit, -⟩
    · exact .step hsame (ih hnext)
    · -- the context that is opened would be too deep
      have hle := Nat.le_trans (le_deepest m.next.contexts.length events) hnext
      rw [hctx, List.length_cons] at hle
      omega

/-- A run that breaks another limit fails under it, at the first parenthesis
that does. -/
theorem Run.overruns (h : Run limit s events t) (hstart : s.contexts.length ≤ limit')
    (hdeep : limit' < deepest s.contexts.length events) :
    ∃ before p after, events = before ++ ⟨⟨.context, .opening⟩, .point p⟩ :: after ∧
      deepest s.contexts.length before ≤ limit' ∧
      depthAfter s.contexts.length before = limit' ∧
      s.outcome limit' = .error ⟨.lexical
        (.plain ("explicit contexts nested deeper than " ++ toString limit')), p, p⟩ := by
  induction h with
  | refl s => exact absurd hdeep (Nat.not_lt.mpr hstart)
  | @step s t m events hs _ ih =>
    rw [deepest_of_step hs] at hdeep
    have hnext : limit' < deepest m.next.contexts.length events := by omega
    rcases step_relimit limit' hs with hsame | ⟨p, hevents, -, hlimit, hfail⟩
    · -- the step is kept, and the rest of the run breaks the limit
      have hbelow : m.next.contexts.length ≤ limit' := by
        obtain ⟨task, later, -, hperf⟩ := step_eq_moved_iff.mp hsame
        exact hperf.contexts_le hstart
      obtain ⟨before, p, after, rfl, hbefore, hdepth, herror⟩ := ih hbelow hnext
      refine ⟨m.events ++ before, p, after, ?_, ?_, ?_, ?_⟩
      · rw [List.append_assoc]
      · rw [deepest_of_step hs]
        exact Nat.max_le.mpr ⟨hstart, hbefore⟩
      · rw [depthAfter_append, (Run.single hs).depth, hdepth]
      · rw [State.outcome_moved hsame, herror]
        rfl
    · refine ⟨[], p, events, ?_, hstart, Nat.le_antisymm hstart hlimit, ?_⟩
      · rw [hevents]
        rfl
      · exact State.outcome_failed hfail

/-! ## How deep a run gets -/

/-- A run keeps its own limit. -/
theorem Run.deepest_le_limit (h : Run limit s events t) (hs : s.contexts.length ≤ limit) :
    deepest s.contexts.length events ≤ limit := by
  induction h with
  | refl s => exact hs
  | step hmove _ ih =>
    obtain ⟨task, later, -, hperf⟩ := step_eq_moved_iff.mp hmove
    rw [deepest_of_step hmove]
    exact Nat.max_le.mpr ⟨hs, ih (hperf.contexts_le hs)⟩

/-- A step takes at least as many bytes as it opens contexts. -/
theorem Performs.contexts_pos (h : Performs limit s task m)
    (hs : s.contexts.length ≤ s.cursor.pos) :
    s.cursor.pos ≤ m.next.cursor.pos ∧ m.next.contexts.length ≤ m.next.cursor.pos := by
  obtain ⟨parens, ⟨taken, htakes, -⟩, -⟩ := h.tiles
  have hpos : s.cursor.pos ≤ m.next.cursor.pos := by
    rw [htakes.pos]
    exact Nat.le_add_right _ _
  refine ⟨hpos, ?_⟩
  cases h with
  | contextParen _ hr =>
    have hstop := (Cursor.takes_advance_one hr).pos
    have hblanks := pos_le_eatBlanks s.cursor
    show (s.cursor.eatBlanks.pos :: s.contexts).length ≤ s.cursor.eatBlanks.advance.pos
    rw [hstop, List.length_cons, List.length_singleton]
    omega
  | closeContext _ hctx =>
    rw [hctx] at hs
    exact Nat.le_trans (Nat.le_of_succ_le hs) hpos
  | _ => exact Nat.le_trans hs hpos

/-- A run does not get deeper than it gets far. -/
theorem Run.deepest_le_pos (h : Run limit s events t) (hs : s.contexts.length ≤ s.cursor.pos) :
    s.cursor.pos ≤ t.cursor.pos ∧ deepest s.contexts.length events ≤ t.cursor.pos := by
  induction h with
  | refl s => exact ⟨Nat.le_refl _, hs⟩
  | step hmove _ ih =>
    obtain ⟨task, later, -, hperf⟩ := step_eq_moved_iff.mp hmove
    obtain ⟨hpos, hctx⟩ := hperf.contexts_pos hs
    obtain ⟨hend, hdeep⟩ := ih hctx
    have hfar := Nat.le_trans hpos hend
    rw [deepest_of_step hmove]
    exact ⟨hfar, Nat.max_le.mpr ⟨Nat.le_trans hs hfar, hdeep⟩⟩

end Scan

/-! ## Scans under different limits -/

namespace Source

variable {source : Source} {limit limit' : Nat} {events : List Event}

/-- The events of a scan keep its limit, and are nested no deeper than the
source is long. -/
theorem deepest_le (h : source.scan limit = .ok events) :
    deepest 0 events ≤ limit ∧ deepest 0 events ≤ source.length := by
  obtain ⟨t, hrun, hdone⟩ := scan_eq_ok_iff.mp h
  have hend := (hrun.deepest_le_pos (Nat.zero_le _)).2
  rw [run_end hrun hdone] at hend
  exact ⟨hrun.deepest_le_limit (Nat.zero_le _), hend⟩

/-- A scan that succeeds does so with the same events under every limit that
they keep. -/
theorem scan_relimit (h : source.scan limit = .ok events) (hdeep : deepest 0 events ≤ limit') :
    source.scan limit' = .ok events := by
  obtain ⟨t, hrun, hdone⟩ := scan_eq_ok_iff.mp h
  exact scan_eq_ok_iff.mpr ⟨t, hrun.relimit hdeep, hdone⟩

/-- Under a limit that its events break, a scan fails at the first parenthesis
that breaks it. -/
theorem scan_overruns (h : source.scan limit = .ok events) (hdeep : limit' < deepest 0 events) :
    ∃ p d, Overruns limit' events p ∧ source.byte? p = some Byte.openParen ∧
      source.scan limit' = .error d ∧ d.code.category = .lexical ∧
      d.span? = some (.point p) := by
  obtain ⟨t, hrun, -⟩ := scan_eq_ok_iff.mp h
  obtain ⟨before, p, after, rfl, hbefore, hdepth, herror⟩ :=
    hrun.overruns (Nat.zero_le _) hdeep
  obtain ⟨fresh, horder⟩ := Source.orderly h
  have hbyte := horder.opening (List.mem_append_right before List.mem_cons_self)
  have hscan : Scan.scan limit' source.bytes = _ := herror
  rw [Source.scan, hscan]
  exact ⟨p, _, ⟨before, after, rfl, hbefore, hdepth⟩, hbyte, rfl, rfl, rfl⟩

end Source

/-- The limit on nested contexts is exact and does nothing else. A scan succeeds
under it iff it succeeds without one, with the same events, and these keep the
limit. If they do not, the scan fails at the first parenthesis that would nest
one context too many. So a greater limit does not change a scan that succeeds. -/
theorem scan_limit_exact (source : Source) (limit : Nat) :
    (∀ events, source.scan limit = .ok events ↔
      (∀ large, source.length ≤ large → source.scan large = .ok events) ∧
        deepest 0 events ≤ limit) ∧
    (∀ large events, source.length ≤ large → source.scan large = .ok events →
      limit < deepest 0 events →
        ∃ p d, Overruns limit events p ∧ source.byte? p = some Byte.openParen ∧
          source.scan limit = .error d ∧ d.code.category = .lexical ∧
          d.span? = some (.point p)) ∧
    ∀ limit' events, limit ≤ limit' → source.scan limit = .ok events →
      source.scan limit' = .ok events := by
  refine ⟨?_, ?_, ?_⟩
  · intro events
    constructor
    · intro h
      obtain ⟨hlimit, hlength⟩ := Source.deepest_le h
      exact ⟨fun large hlarge => Source.scan_relimit h (Nat.le_trans hlength hlarge), hlimit⟩
    · rintro ⟨hlarge, hdeep⟩
      exact Source.scan_relimit (hlarge source.length (Nat.le_refl _)) hdeep
  · intro large events _ h hdeep
    exact Source.scan_overruns h hdeep
  · intro limit' events hle h
    exact Source.scan_relimit h (Nat.le_trans (Source.deepest_le h).1 hle)

/-- Two contexts, one in the other, are refused at the parenthesis of the inner
one where only one may be open, and read under every greater limit. -/
theorem scan_limit_exact_nested :
    let source : Source := ⟨"", Utf8.bytes "URL (\nGET (\n)\n)", by decide⟩
    let events := Part.keyword.events 0 3 ++ [⟨⟨.context, .opening⟩, .point 4⟩]
      ++ Part.keyword.events 6 9 ++ [⟨⟨.context, .opening⟩, .point 10⟩,
        ⟨⟨.context, .closing⟩, ⟨10, 12⟩⟩, ⟨⟨.context, .closing⟩, ⟨4, 14⟩⟩]
    (∃ p d, Overruns 1 events p ∧ source.byte? p = some Byte.openParen ∧
      source.scan 1 = .error d ∧ d.code.category = .lexical ∧ d.span? = some (.point p)) ∧
      ∀ limit, 2 ≤ limit → source.scan limit = .ok events := by
  intro source events
  have hlarge : source.scan 15 = .ok events := by decide +kernel
  have hsmall : source.scan 2 = .ok events := by decide +kernel
  refine ⟨?_, ?_⟩
  · exact (scan_limit_exact source 1).2.1 15 events (by decide) hlarge (by decide)
  · intro limit hle
    exact (scan_limit_exact source 2).2.2 limit events hle hsmall

end ApiDoc
