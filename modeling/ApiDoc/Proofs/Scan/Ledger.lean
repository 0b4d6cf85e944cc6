import ApiDoc.Proofs.Scan.Coverage
import Mathlib.Data.List.Nodup

/-!
# Keywords and contexts of an event stream

A stream of events tells which directives there are and which parentheses
enclose them, without any stack: the directives are its keywords in order, a
context belongs to the directive whose keyword came last, and it is closed by
the event that names its opening parenthesis.

* **Reading** (`keywords`, `contexts`, `closings`): what a stream tells, and
  with it the contexts that are still open and the directives whose context is
  closed.
* **Order** (`Orderly`): the order in which a scan gives its events. Keywords
  and parentheses come from left to right, a context is opened at most once for
  each directive and closed from the inside out.
* **Scans** (`Source.orderly`): every stream that a scan gives is in order, and
  the tasks of the scanner speak of the keyword that came last
  (`Tracked.announced`).
-/

namespace ApiDoc

/-! ## What a stream tells -/

def Event.keyword? (e : Event) : Option Span :=
  if e.mark = ⟨.keyword, .closing⟩ then some e.span else none

def Event.closing? (e : Event) : Option Span :=
  if e.mark = ⟨.context, .closing⟩ then some e.span else none

/-- The spans of the keywords; the one at `i` is that of the directive with the
index `i`. -/
def keywords (events : List Event) : List Span :=
  events.filterMap Event.keyword?

/-- The spans of the contexts that are closed. -/
def closings (events : List Event) : List Span :=
  events.filterMap Event.closing?

/-- An explicit context: the index of the directive that opened it and the
offset of its opening parenthesis. -/
structure Context where
  owner : Nat
  start : Nat
  deriving DecidableEq, Repr

/-- The contexts that events open behind `count` keywords. -/
def contextsAfter : Nat → List Event → List Context
  | _, [] => []
  | count, e :: rest =>
    if e.mark = ⟨.keyword, .closing⟩ then contextsAfter (count + 1) rest
    else if e.mark = ⟨.context, .opening⟩ ∧ 0 < count then
      ⟨count - 1, e.span.first⟩ :: contextsAfter count rest
    else contextsAfter count rest

/-- The contexts of a stream, in the order in which they are opened. -/
def contexts (events : List Event) : List Context :=
  contextsAfter 0 events

def Context.isClosed (c : Context) (events : List Event) : Bool :=
  (closings events).any fun s => s.first == c.start

/-- The contexts that are still open, the innermost last. -/
def openContexts (events : List Event) : List Context :=
  (contexts events).filter fun c => ! c.isClosed events

/-- Whether the context of the directive at `i` is closed. -/
def isShut (events : List Event) (i : Nat) : Bool :=
  (contexts events).any fun c => c.owner == i && c.isClosed events

/-- An event that neither adds a directive nor opens or closes a context. -/
def Event.IsPlain (e : Event) : Prop :=
  e.mark ≠ ⟨.keyword, .closing⟩ ∧ e.mark.part ≠ .context

/-- All lexemes end before `p`. -/
def Behind (events : List Event) (p : Nat) : Prop :=
  ∀ s ∈ lexemes events, s.last < p

section

variable {events more : List Event} {e : Event} {span : Span} {c : Context} {i p q : Nat}

theorem keywords_append (events more : List Event) :
    keywords (events ++ more) = keywords events ++ keywords more :=
  List.filterMap_append

theorem closings_append (events more : List Event) :
    closings (events ++ more) = closings events ++ closings more :=
  List.filterMap_append

theorem contextsAfter_append (count : Nat) (events more : List Event) :
    contextsAfter count (events ++ more)
      = contextsAfter count events ++ contextsAfter (count + (keywords events).length) more := by
  induction events generalizing count with
  | nil => rfl
  | cons e events ih =>
    rw [List.cons_append, contextsAfter, contextsAfter]
    by_cases hkeyword : e.mark = ⟨.keyword, .closing⟩
    · have hcount : count + (keywords (e :: events)).length
          = count + 1 + (keywords events).length := by
        simp only [keywords, List.filterMap_cons, Event.keyword?, if_pos hkeyword,
          List.length_cons]
        omega
      rw [if_pos hkeyword, if_pos hkeyword, ih, hcount]
    · have hcount : keywords (e :: events) = keywords events := by
        simp only [keywords, List.filterMap_cons, Event.keyword?, if_neg hkeyword]
      rw [if_neg hkeyword, if_neg hkeyword, ih, hcount]
      split
      · rfl
      · rfl

theorem contexts_append (events more : List Event) :
    contexts (events ++ more)
      = contexts events ++ contextsAfter (keywords events).length more := by
  rw [contexts, contextsAfter_append, Nat.zero_add, contexts]

theorem mem_keywords_of_mem (h : ⟨⟨.keyword, .closing⟩, span⟩ ∈ events) :
    span ∈ keywords events :=
  List.mem_filterMap.mpr ⟨_, h, if_pos rfl⟩

/-- A keyword is a lexeme. -/
theorem mem_lexemes_of_mem_keywords (h : span ∈ keywords events) : span ∈ lexemes events := by
  obtain ⟨e, he, hspan⟩ := List.mem_filterMap.mp h
  refine List.mem_filterMap.mpr ⟨e, he, ?_⟩
  rw [Event.keyword?] at hspan
  split at hspan
  · rename_i hmark
    cases hspan
    rw [Event.lexeme?, hmark]
  · cases hspan

/-- The parenthesis that closes a context is a lexeme. -/
theorem mem_lexemes_of_mem_closings (h : span ∈ closings events) :
    Span.point span.last ∈ lexemes events := by
  obtain ⟨e, he, hspan⟩ := List.mem_filterMap.mp h
  refine List.mem_filterMap.mpr ⟨e, he, ?_⟩
  rw [Event.closing?] at hspan
  split at hspan
  · rename_i hmark
    cases hspan
    rw [Event.lexeme?, hmark]
  · cases hspan

theorem last_of_mem_lexemes (h : span ∈ lexemes events) :
    ∃ e ∈ events, e.span.last = span.last := by
  obtain ⟨e, he, hspan⟩ := List.mem_filterMap.mp h
  refine ⟨e, he, ?_⟩
  unfold Event.lexeme? at hspan
  split at hspan <;> cases hspan <;> rfl

theorem Context.isClosed_iff :
    c.isClosed events = true ↔ ∃ s ∈ closings events, s.first = c.start := by
  simp [Context.isClosed]

theorem mem_openContexts :
    c ∈ openContexts events ↔ c ∈ contexts events ∧ c.isClosed events = false := by
  simp [openContexts]

theorem isShut_iff :
    isShut events i = true ↔ ∃ c ∈ contexts events, c.owner = i ∧ c.isClosed events = true := by
  simp [isShut]

/-! ## One more event -/

/-- What is told of open and closed contexts stays when contexts and closings
do. -/
theorem openContexts_congr (hctx : contexts more = contexts events)
    (hclose : closings more = closings events) : openContexts more = openContexts events := by
  simp only [openContexts, Context.isClosed, hctx, hclose]

theorem isShut_congr (hctx : contexts more = contexts events)
    (hclose : closings more = closings events) (i : Nat) : isShut more i = isShut events i := by
  simp only [isShut, Context.isClosed, hctx, hclose]

theorem keywords_keyword (events : List Event) (span : Span) :
    keywords (events ++ [⟨⟨.keyword, .closing⟩, span⟩]) = keywords events ++ [span] :=
  keywords_append _ _

theorem contexts_keyword (events : List Event) (span : Span) :
    contexts (events ++ [⟨⟨.keyword, .closing⟩, span⟩]) = contexts events := by
  rw [contexts_append]
  exact List.append_nil _

theorem closings_keyword (events : List Event) (span : Span) :
    closings (events ++ [⟨⟨.keyword, .closing⟩, span⟩]) = closings events := by
  rw [closings_append]
  exact List.append_nil _

theorem keywords_opened (events : List Event) (span : Span) :
    keywords (events ++ [⟨⟨.context, .opening⟩, span⟩]) = keywords events := by
  rw [keywords_append]
  exact List.append_nil _

theorem contexts_opened {owner : Nat} (h : (keywords events).length = owner + 1) (span : Span) :
    contexts (events ++ [⟨⟨.context, .opening⟩, span⟩])
      = contexts events ++ [⟨owner, span.first⟩] := by
  rw [contexts_append, h]
  rfl

theorem closings_opened (events : List Event) (span : Span) :
    closings (events ++ [⟨⟨.context, .opening⟩, span⟩]) = closings events := by
  rw [closings_append]
  exact List.append_nil _

theorem keywords_closed (events : List Event) (span : Span) :
    keywords (events ++ [⟨⟨.context, .closing⟩, span⟩]) = keywords events := by
  rw [keywords_append]
  exact List.append_nil _

theorem contexts_closed (events : List Event) (span : Span) :
    contexts (events ++ [⟨⟨.context, .closing⟩, span⟩]) = contexts events := by
  rw [contexts_append]
  exact List.append_nil _

theorem closings_closed (events : List Event) (span : Span) :
    closings (events ++ [⟨⟨.context, .closing⟩, span⟩]) = closings events ++ [span] :=
  closings_append _ _

theorem Context.isClosed_opened (c : Context) (events : List Event) (span : Span) :
    c.isClosed (events ++ [⟨⟨.context, .opening⟩, span⟩]) = c.isClosed events := by
  rw [Context.isClosed, closings_opened, Context.isClosed]

theorem Context.isClosed_closed (c : Context) (events : List Event) (span : Span) :
    c.isClosed (events ++ [⟨⟨.context, .closing⟩, span⟩])
      = (c.isClosed events || span.first == c.start) := by
  rw [Context.isClosed, closings_closed, List.any_append, Context.isClosed]
  simp

/-- A closing parenthesis shuts the directive whose context it closes. -/
theorem isShut_closed :
    isShut (events ++ [⟨⟨.context, .closing⟩, span⟩]) i = true ↔
      isShut events i = true ∨ ∃ c ∈ contexts events, c.owner = i ∧ c.start = span.first := by
  simp only [isShut_iff, contexts_closed, Context.isClosed_closed, Bool.or_eq_true, beq_iff_eq]
  grind

theorem keywords_plain (h : e.IsPlain) : keywords (events ++ [e]) = keywords events := by
  simp [keywords, Event.keyword?, h.1]

theorem contexts_plain (h : e.IsPlain) : contexts (events ++ [e]) = contexts events := by
  have hopen : e.mark ≠ ⟨.context, .opening⟩ := fun hmark => h.2 (by rw [hmark])
  simp [contexts_append, contextsAfter, h.1, hopen]

theorem closings_plain (h : e.IsPlain) : closings (events ++ [e]) = closings events := by
  have hclose : e.mark ≠ ⟨.context, .closing⟩ := fun hmark => h.2 (by rw [hmark])
  simp [closings, Event.closing?, hclose]

end

/-! ## The order of events -/

/-- `Orderly source events opens fresh`: the events come in the order of the
text, `opens` are the offsets of the parentheses that are open, the innermost
first, and `fresh` tells that no context was opened or closed behind the last
keyword. -/
inductive Orderly (source : Source) : List Event → List Nat → Bool → Prop
  | start : Orderly source [] [] false
  | keyword {events : List Event} {opens : List Nat} {fresh : Bool} {span : Span} {kind : Kind}
      (h : Orderly source events opens fresh) (hset : span.first ≤ span.last)
      (hbehind : Behind events span.first)
      (hspells : Keyword.Spells (source.covered span) kind) :
      Orderly source (events ++ [⟨⟨.keyword, .closing⟩, span⟩]) opens true
  | opened {events : List Event} {opens : List Nat} {p : Nat}
      (h : Orderly source events opens true) (hbehind : Behind events p)
      (hbyte : source.byte? p = some Byte.openParen) :
      Orderly source (events ++ [⟨⟨.context, .opening⟩, .point p⟩]) (p :: opens) false
  | closed {events : List Event} {opens : List Nat} {fresh : Bool} {p q : Nat}
      (h : Orderly source events (p :: opens) fresh) (hbehind : Behind events q)
      (hbyte : source.byte? q = some Byte.closeParen) :
      Orderly source (events ++ [⟨⟨.context, .closing⟩, ⟨p, q⟩⟩]) opens false
  | other {events : List Event} {opens : List Nat} {fresh : Bool} {e : Event}
      (h : Orderly source events opens fresh) (he : e.IsPlain) :
      Orderly source (events ++ [e]) opens fresh

section

variable {source : Source} {events more : List Event} {e : Event} {opens : List Nat}
  {fresh : Bool} {c : Context} {span : Span} {p q : Nat}

namespace Orderly

theorem init (h : Orderly source (events ++ [e]) opens fresh) :
    ∃ opens' fresh', Orderly source events opens' fresh' := by
  generalize hall : events ++ [e] = all at h
  cases h with
  | start => exact absurd hall (by simp)
  | keyword h | opened h | closed h | other h =>
    rw [(List.append_inj' hall rfl).1]
    exact ⟨_, _, h⟩

/-- The beginning of an orderly stream is orderly. -/
theorem front (h : Orderly source (events ++ more) opens fresh) :
    ∃ opens' fresh', Orderly source events opens' fresh' := by
  induction more using List.reverseRecOn generalizing opens fresh with
  | nil => exact ⟨opens, fresh, by rwa [List.append_nil] at h⟩
  | append_singleton more e ih =>
    rw [← List.append_assoc] at h
    obtain ⟨opens', fresh', h⟩ := h.init
    exact ih h

/-- Keywords come from left to right. -/
theorem keywords_sorted (h : Orderly source events opens fresh) :
    (keywords events).Pairwise (·.last < ·.first) := by
  induction h with
  | start => exact .nil
  | keyword _ _ hbehind _ ih =>
    rw [keywords_keyword, List.pairwise_append]
    refine ⟨ih, List.pairwise_singleton _ _, ?_⟩
    intro k hk span hspan
    rw [List.mem_singleton.mp hspan]
    exact hbehind k (mem_lexemes_of_mem_keywords hk)
  | opened _ _ _ ih =>
    rw [keywords_opened]
    exact ih
  | closed _ _ _ ih =>
    rw [keywords_closed]
    exact ih
  | other _ he ih =>
    rw [keywords_plain he]
    exact ih

/-- A keyword of an orderly stream is set and spelled. -/
theorem keyword_spelled (h : Orderly source events opens fresh) (hspan : span ∈ keywords events) :
    span.first ≤ span.last ∧ ∃ kind, Keyword.Spells (source.covered span) kind := by
  induction h with
  | start => cases hspan
  | keyword _ hset _ hspells ih =>
    rw [keywords_keyword] at hspan
    rcases List.mem_append.mp hspan with hspan | hspan
    · exact ih hspan
    · rw [List.mem_singleton.mp hspan]
      exact ⟨hset, _, hspells⟩
  | opened _ _ _ ih =>
    rw [keywords_opened] at hspan
    exact ih hspan
  | closed _ _ _ ih =>
    rw [keywords_closed] at hspan
    exact ih hspan
  | other _ he ih =>
    rw [keywords_plain he] at hspan
    exact ih hspan

/-- No keyword comes twice. -/
theorem keyword_once
    (h : Orderly source (events ++ ⟨⟨.keyword, .closing⟩, span⟩ :: more) opens fresh) :
    span ∉ keywords more := by
  intro hmem
  have hset := (h.keyword_spelled (mem_keywords_of_mem
    (List.mem_append_right events List.mem_cons_self))).1
  have hsorted := h.keywords_sorted
  rw [keywords_append, List.pairwise_append] at hsorted
  have hlt : span.last < span.first := List.rel_of_pairwise_cons hsorted.2.1 hmem
  omega

end Orderly

/-! ## What order tells -/

/-- What is known of the contexts of an orderly stream. -/
structure Ledger (source : Source) (events : List Event) (opens : List Nat) (fresh : Bool) :
    Prop where
  /-- The parentheses that are open are those of the contexts that are. -/
  opens_eq : opens = (openContexts events).reverse.map (·.start)
  /-- A directive opens at most one context. -/
  sorted : (contexts events).Pairwise fun c d => c.owner < d.owner ∧ c.start < d.start
  owner_lt : ∀ c ∈ contexts events, c.owner < (keywords events).length
  /-- Behind a fresh keyword its own context may still be opened. -/
  fresh_last : fresh = true → ∃ last, (keywords events).length = last + 1 ∧
    ∀ c ∈ contexts events, c.owner < last
  start_mem : ∀ c ∈ contexts events, Span.point c.start ∈ lexemes events
  opening : ∀ c ∈ contexts events, source.byte? c.start = some Byte.openParen
  owner_behind : ∀ c ∈ contexts events, ∀ k, (keywords events)[c.owner]? = some k → k.last < c.start
  closing : ∀ s ∈ closings events, s.first < s.last ∧ source.byte? s.last = some Byte.closeParen
  closed_once : (closings events).Pairwise fun s t => s.first ≠ t.first

namespace Ledger

theorem start_lt (h : Ledger source events opens fresh) (hbehind : Behind events p)
    (hc : c ∈ contexts events) : c.start < p :=
  hbehind _ (h.start_mem c hc)

theorem closing_lt (h : Ledger source events opens fresh) (hbehind : Behind events p)
    (hs : span ∈ closings events) : span.first < p ∧ span.last < p := by
  have hlast : (Span.point span.last).last < p := hbehind _ (mem_lexemes_of_mem_closings hs)
  have hlast : span.last < p := hlast
  have hset := (h.closing span hs).1
  exact ⟨by omega, hlast⟩

/-- A parenthesis opens one context. -/
theorem eq_of_start (h : Ledger source events opens fresh) {c d : Context}
    (hc : c ∈ contexts events) (hd : d ∈ contexts events) (hstart : c.start = d.start) :
    c = d := by
  have hstarts : ((contexts events).map (·.start)).Nodup :=
    List.pairwise_map.mpr (h.sorted.imp fun hcd => Nat.ne_of_lt hcd.2)
  exact List.inj_on_of_nodup_map hstarts hc hd hstart

/-- A directive opens one context. -/
theorem eq_of_owner (h : Ledger source events opens fresh) {c d : Context}
    (hc : c ∈ contexts events) (hd : d ∈ contexts events) (howner : c.owner = d.owner) :
    c = d := by
  have howners : ((contexts events).map (·.owner)).Nodup :=
    List.pairwise_map.mpr (h.sorted.imp fun hcd => Nat.ne_of_lt hcd.1)
  exact List.inj_on_of_nodup_map howners hc hd howner

/-- A parenthesis is closed once. -/
theorem eq_of_first (h : Ledger source events opens fresh) {s t : Span}
    (hs : s ∈ closings events) (ht : t ∈ closings events) (hfirst : s.first = t.first) : s = t := by
  have hfirsts : ((closings events).map (·.first)).Nodup := List.pairwise_map.mpr h.closed_once
  exact List.inj_on_of_nodup_map hfirsts hs ht hfirst

/-- Events that neither open nor close a context add keywords and lexemes. -/
theorem frame (h : Ledger source events opens fresh) {all : List Event} {fresh' : Bool}
    (hctx : contexts all = contexts events) (hclose : closings all = closings events)
    (hkeywords : keywords events <+: keywords all) (hlexemes : lexemes events ⊆ lexemes all)
    (hfresh : fresh' = true → ∃ last, (keywords all).length = last + 1 ∧
      ∀ c ∈ contexts events, c.owner < last) :
    Ledger source all opens fresh' := by
  refine ⟨?_, ?_, ?_, ?_, ?_, ?_, ?_, ?_, ?_⟩
  · rw [openContexts_congr hctx hclose]
    exact h.opens_eq
  · rw [hctx]
    exact h.sorted
  · rw [hctx]
    exact fun c hc => Nat.lt_of_lt_of_le (h.owner_lt c hc) hkeywords.length_le
  · rw [hctx]
    exact hfresh
  · rw [hctx]
    exact fun c hc => hlexemes (h.start_mem c hc)
  · rw [hctx]
    exact h.opening
  · rw [hctx]
    intro c hc k hk
    obtain ⟨added, hadded⟩ := hkeywords
    rw [← hadded, List.getElem?_append_left (h.owner_lt c hc)] at hk
    exact h.owner_behind c hc k hk
  · rw [hclose]
    exact h.closing
  · rw [hclose]
    exact h.closed_once

theorem keyword (h : Ledger source events opens fresh) (span : Span) :
    Ledger source (events ++ [⟨⟨.keyword, .closing⟩, span⟩]) opens true := by
  refine h.frame (contexts_keyword _ _) (closings_keyword _ _) ?_ ?_ ?_
  · rw [keywords_append]
    exact List.prefix_append _ _
  · rw [lexemes_append]
    exact List.subset_append_left _ _
  · intro _
    refine ⟨(keywords events).length, ?_, h.owner_lt⟩
    rw [keywords_keyword, List.length_append, List.length_singleton]

theorem other (h : Ledger source events opens fresh) (he : e.IsPlain) :
    Ledger source (events ++ [e]) opens fresh := by
  refine h.frame (contexts_plain he) (closings_plain he) ?_ ?_ ?_
  · rw [keywords_append]
    exact List.prefix_append _ _
  · rw [lexemes_append]
    exact List.subset_append_left _ _
  · rw [keywords_plain he]
    exact h.fresh_last

/-- A parenthesis behind all lexemes belongs to no closed context. -/
theorem isClosed_of_behind (h : Ledger source events opens fresh) (hbehind : Behind events p)
    (owner : Nat) : (⟨owner, p⟩ : Context).isClosed events = false := by
  rw [Bool.eq_false_iff]
  intro hclosed
  obtain ⟨s, hs, hfirst⟩ := Context.isClosed_iff.mp hclosed
  exact absurd hfirst (Nat.ne_of_lt (h.closing_lt hbehind hs).1)

/-- A context that is opened is open. -/
theorem openContexts_opened (h : Ledger source events opens fresh) (hbehind : Behind events p)
    {last : Nat} (hlast : (keywords events).length = last + 1) :
    openContexts (events ++ [⟨⟨.context, .opening⟩, .point p⟩])
      = openContexts events ++ [⟨last, p⟩] := by
  have hfun : ∀ c : Context, c.isClosed (events ++ [⟨⟨.context, .opening⟩, .point p⟩])
      = c.isClosed events := fun c => c.isClosed_opened events _
  rw [openContexts, contexts_opened hlast, List.filter_append]
  simp only [hfun]
  rw [List.filter_singleton]
  show openContexts events ++ (bif ! (⟨last, p⟩ : Context).isClosed events then _ else _) = _
  rw [h.isClosed_of_behind hbehind]
  rfl

theorem isShut_opened (h : Ledger source events opens fresh) (hbehind : Behind events p)
    {last : Nat} (hlast : (keywords events).length = last + 1) (i : Nat) :
    isShut (events ++ [⟨⟨.context, .opening⟩, .point p⟩]) i = isShut events i := by
  have hnew : (⟨last, (Span.point p).first⟩ : Context).isClosed events = false :=
    h.isClosed_of_behind hbehind last
  rw [isShut, contexts_opened hlast, List.any_append]
  simp only [Context.isClosed_opened]
  rw [List.any_cons, hnew, Bool.and_false]
  exact Bool.or_false _

theorem opened (h : Ledger source events opens true) (hbehind : Behind events p)
    (hbyte : source.byte? p = some Byte.openParen) :
    Ledger source (events ++ [⟨⟨.context, .opening⟩, .point p⟩]) (p :: opens) false := by
  obtain ⟨last, hlast, howners⟩ := h.fresh_last rfl
  have hctx : contexts (events ++ [⟨⟨.context, .opening⟩, .point p⟩])
      = contexts events ++ [⟨last, p⟩] := contexts_opened hlast _
  have hclose := closings_opened events (.point p)
  have hmem : ∀ {c}, c ∈ contexts events ++ [⟨last, p⟩] → c ∈ contexts events ∨ c = ⟨last, p⟩ :=
    fun hc => (List.mem_append.mp hc).imp_right List.mem_singleton.mp
  refine ⟨?_, ?_, ?_, ?_, ?_, ?_, ?_, ?_, ?_⟩
  · rw [h.openContexts_opened hbehind hlast, List.reverse_append, h.opens_eq]
    rfl
  · rw [hctx, List.pairwise_append]
    refine ⟨h.sorted, List.pairwise_singleton _ _, ?_⟩
    intro c hc d hd
    rw [List.mem_singleton.mp hd]
    exact ⟨howners c hc, h.start_lt hbehind hc⟩
  · rw [hctx, keywords_opened]
    intro c hc
    rcases hmem hc with hc | rfl
    · exact h.owner_lt c hc
    · exact hlast ▸ Nat.lt_succ_self last
  · intro hfresh
    cases hfresh
  · rw [hctx, lexemes_append]
    intro c hc
    rcases hmem hc with hc | rfl
    · exact List.mem_append_left _ (h.start_mem c hc)
    · exact List.mem_append_right _ (List.mem_singleton_self _)
  · rw [hctx]
    intro c hc
    rcases hmem hc with hc | rfl
    · exact h.opening c hc
    · exact hbyte
  · rw [hctx, keywords_opened]
    intro c hc k hk
    rcases hmem hc with hc | rfl
    · exact h.owner_behind c hc k hk
    · exact hbehind k (mem_lexemes_of_mem_keywords (List.mem_of_getElem? hk))
  · rw [hclose]
    exact h.closing
  · rw [hclose]
    exact h.closed_once

/-- The innermost open context is the one whose parenthesis was opened last. -/
theorem innermost (h : Ledger source events (p :: opens) fresh) :
    ∃ front c, openContexts events = front ++ [c] ∧ c.start = p ∧
      front.reverse.map (·.start) = opens ∧ ∀ d ∈ front, d.start < p := by
  have hopens := h.opens_eq
  rcases List.eq_nil_or_concat (openContexts events) with hnil | ⟨front, c, hfront⟩
  · rw [hnil] at hopens
    cases hopens
  · rw [List.concat_eq_append] at hfront
    rw [hfront, List.reverse_append] at hopens
    obtain ⟨rfl, rfl⟩ := List.cons.inj hopens
    refine ⟨front, c, hfront, rfl, rfl, ?_⟩
    have hsorted := h.sorted.sublist (List.filter_sublist (p := fun c => ! c.isClosed events))
    have hsorted : (openContexts events).Pairwise _ := hsorted
    rw [hfront, List.pairwise_append] at hsorted
    exact fun d hd => (hsorted.2.2 d hd c (List.mem_singleton_self c)).2

/-- A context that is closed is the innermost one, and the others stay open. -/
theorem openContexts_closed (h : Ledger source events (p :: opens) fresh) (q : Nat) :
    ∃ c ∈ openContexts events, openContexts events
        = openContexts (events ++ [⟨⟨.context, .closing⟩, ⟨p, q⟩⟩]) ++ [c] ∧ c.start = p := by
  obtain ⟨front, c, hfront, hstart, -, hlt⟩ := h.innermost
  have hmem : c ∈ openContexts events := by
    rw [hfront]
    exact List.mem_append_right _ (List.mem_singleton_self c)
  refine ⟨c, hmem, ?_, hstart⟩
  have hopen : openContexts (events ++ [⟨⟨.context, .closing⟩, ⟨p, q⟩⟩])
      = (openContexts events).filter fun d => p != d.start := by
    rw [openContexts, contexts_closed, openContexts, List.filter_filter]
    refine List.filter_congr ?_
    intro d _
    rw [Context.isClosed_closed, Bool.not_or, Bool.and_comm]
    rfl
  rw [hopen, hfront, List.filter_append, List.filter_eq_self.mpr]
  · simp [hstart]
  · intro d hd
    exact bne_iff_ne.mpr (Nat.ne_of_gt (hlt d hd))

theorem closed (h : Ledger source events (p :: opens) fresh) (hbehind : Behind events q)
    (hbyte : source.byte? q = some Byte.closeParen) :
    Ledger source (events ++ [⟨⟨.context, .closing⟩, ⟨p, q⟩⟩]) opens false := by
  have hctx := contexts_closed events ⟨p, q⟩
  have hclose := closings_closed events ⟨p, q⟩
  obtain ⟨c, hmem, hopen, hstart⟩ := h.openContexts_closed q
  obtain ⟨hc, hnone⟩ := mem_openContexts.mp hmem
  refine ⟨?_, ?_, ?_, ?_, ?_, ?_, ?_, ?_, ?_⟩
  · have hopens := h.opens_eq
    rw [hopen, List.reverse_append] at hopens
    exact (List.cons.inj hopens).2
  · rw [hctx]
    exact h.sorted
  · rw [hctx, keywords_closed]
    exact h.owner_lt
  · intro hfresh
    cases hfresh
  · rw [hctx, lexemes_append]
    exact fun c hc => List.mem_append_left _ (h.start_mem c hc)
  · rw [hctx]
    exact h.opening
  · rw [hctx, keywords_closed]
    exact h.owner_behind
  · rw [hclose]
    intro s hs
    rcases List.mem_append.mp hs with hs | hs
    · exact h.closing s hs
    · rw [List.mem_singleton.mp hs]
      exact ⟨hstart ▸ h.start_lt hbehind hc, hbyte⟩
  · rw [hclose, List.pairwise_append]
    refine ⟨h.closed_once, List.pairwise_singleton _ _, ?_⟩
    intro s hs t ht hsame
    rw [List.mem_singleton.mp ht] at hsame
    rw [Context.isClosed_iff.mpr ⟨s, hs, hsame.trans hstart.symm⟩] at hnone
    cases hnone

end Ledger

theorem Orderly.ledger (h : Orderly source events opens fresh) :
    Ledger source events opens fresh := by
  induction h with
  | start =>
    refine ⟨rfl, .nil, ?_, ?_, ?_, ?_, ?_, ?_, .nil⟩ <;> simp [contexts, contextsAfter, closings]
  | keyword _ _ _ _ ih => exact ih.keyword _
  | opened _ hbehind hbyte ih => exact ih.opened hbehind hbyte
  | closed _ hbehind hbyte ih => exact ih.closed hbehind hbyte
  | other _ he ih => exact ih.other he

/-! ## The events of a part -/

theorem isPlain_opening {part : Part} (hpart : part ≠ .context) (span : Span) :
    Event.IsPlain ⟨⟨part, .opening⟩, span⟩ :=
  ⟨by simp, hpart⟩

/-- A part that is neither a keyword nor a context. -/
theorem Orderly.lexeme (h : Orderly source events opens fresh) {part : Part}
    (hkeyword : part ≠ .keyword) (hcontext : part ≠ .context) (start stop : Nat) :
    Orderly source (events ++ part.events start stop) opens fresh := by
  have hclosing : Event.IsPlain ⟨⟨part, .closing⟩, .ofRange start stop⟩ :=
    ⟨by simp [hkeyword], hcontext⟩
  rw [Part.events, List.append_cons]
  exact (h.other (isPlain_opening hcontext _)).other hclosing

theorem keywords_lexeme {part : Part} (hkeyword : part ≠ .keyword) (start stop : Nat) :
    keywords (events ++ part.events start stop) = keywords events := by
  simp [keywords, Part.events, Event.keyword?, hkeyword]

theorem keywords_events (events : List Event) (start stop : Nat) :
    keywords (events ++ Part.keyword.events start stop)
      = keywords events ++ [.ofRange start stop] :=
  keywords_append _ _

/-- Both events of a keyword. -/
theorem Orderly.keywordEvents (h : Orderly source events opens fresh) {start stop : Nat}
    (hlt : start < stop) (hbehind : Behind events start) {kind : Kind}
    (hspells : Keyword.Spells (source.covered (.ofRange start stop)) kind) :
    Orderly source (events ++ Part.keyword.events start stop) opens true := by
  rw [Part.events, List.append_cons]
  refine (h.other (isPlain_opening (by decide) _)).keyword ?_ ?_ hspells
  · rw [Span.ofRange_of_lt hlt]
    show start ≤ stop - 1
    omega
  · rw [Span.ofRange_of_lt hlt, Behind, lexemes_append]
    intro s hs
    rcases List.mem_append.mp hs with hs | hs
    · exact hbehind s hs
    · cases hs

end

/-! ## Scans -/

namespace Scan

/-- The directive line that a task reads, or whose body it reads. -/
def Task.line? : Task → Option Line
  | tail line => some line
  | body line => some line
  | items => none
  | lineEnd _ => none

/-- The directive that the scanner is reading. -/
def State.line? (s : State) : Option Line :=
  s.agenda.head?.bind Task.line?

/-- Behind the task at hand no directive waits to be read. -/
theorem Regular.line?_later {task : Task} {later : List Task} (h : Regular (task :: later)) :
    later.head?.bind Task.line? = none := by
  rcases h.later with ⟨-, rfl⟩ | ⟨-, rfl⟩
  · rfl
  · rfl

/-- A directive line on which no parenthesis was read leaves its keyword
fresh. -/
def Poised (s : State) (fresh : Bool) : Prop :=
  ∀ ⦃line later⦄, s.agenda = .tail line :: later → line.opened = false → fresh = true

/-- What a scan that has given `events` keeps between two steps. -/
structure Tracked (source : Source) (events : List Event) (s : State) : Prop where
  orderly : ∃ fresh, Orderly source events s.contexts fresh ∧ Poised s fresh
  /-- The directive being read is that of the keyword that came last. -/
  announced : ∀ ⦃line⦄, s.line? = some line → ∃ k, (keywords events).getLast? = some k ∧
    Keyword.Spells (source.covered k) line.kind

section

variable {limit : Nat} {source : Source} {events : List Event} {s t : State} {task : Task}
  {later : List Task} {m : Move}

theorem tracked_start (source : Source) : Tracked source [] (State.start source.bytes) where
  orderly := ⟨false, .start, by simp [Poised, State.start]⟩
  announced := by
    intro line h
    cases h

/-- Everything that was given lies behind the cursor. -/
theorem Accounted.behind (h : Accounted source events s) {p : Nat} (hp : s.cursor.pos ≤ p) :
    Behind events p := by
  intro span hspan
  obtain ⟨e, he, hlast⟩ := last_of_mem_lexemes hspan
  exact hlast ▸ Nat.lt_of_lt_of_le (h.spans e he).2 hp

theorem pos_le_eatBlanks (c : Cursor) : c.pos ≤ c.eatBlanks.pos := by
  rw [c.takes_eatBlanks.pos]
  exact Nat.le_add_right _ _

/-- The word of a keyword stands where its span says. -/
theorem spells_of_recognise {c : Cursor} (hheld : source.Holds c) {kind : Kind}
    {rest : List UInt8} (hk : Keyword.recognise c.rest = .found kind rest) :
    c.pos < (c.moveTo rest).pos ∧
      Keyword.Spells (source.covered (.ofRange c.pos (c.moveTo rest).pos)) kind := by
  obtain ⟨word, hsplit, hspells, -⟩ := Keyword.recognise_eq_found_iff.mp hk
  have htakes := Cursor.takes_moveTo hsplit
  have hpos := List.length_pos_iff.mpr hspells.ne_nil
  refine ⟨?_, ?_⟩
  · rw [htakes.pos]
    omega
  · rw [hheld.covered htakes hspells.ne_nil]
    exact hspells

theorem Performs.orderly (ha : s.agenda = task :: later)
    (h : Performs limit (s.drop later) task m) (hacc : Accounted source events s)
    (hs : ∃ fresh, Orderly source events s.contexts fresh ∧ Poised s fresh) :
    ∃ fresh, Orderly source (events ++ m.events) m.next.contexts fresh ∧ Poised m.next fresh := by
  obtain ⟨fresh, horder, hpoised⟩ := hs
  have hreg : Regular (task :: later) := ha ▸ hacc.regular
  have hblanks := hacc.holds.move s.cursor.takes_eatBlanks
  have hbehind : Behind events s.cursor.eatBlanks.pos := hacc.behind (pos_le_eatBlanks _)
  -- the agenda behind a finished task holds no directive line
  have hlater : ∀ {line rest}, later ≠ .tail line :: rest := by
    intro line rest heq
    rcases hreg.later with ⟨-, hnil⟩ | ⟨-, hitems⟩
    · rw [hnil] at heq
      cases heq
    · rw [hitems] at heq
      cases heq
  cases h with
  | finish | bodiless | noSchema | noText | lineEnd =>
    rw [List.append_nil]
    exact ⟨fresh, horder, fun line rest heq => absurd heq hlater⟩
  | blankLine | lineOver =>
    rw [List.append_nil]
    refine ⟨fresh, horder, fun line rest heq => ?_⟩
    cases heq
  | lineComment | blockComment | inlineSchema | schema =>
    refine ⟨fresh, horder.lexeme (by decide) (by decide) _ _, fun line rest heq => ?_⟩
    cases heq
  | text | endComment =>
    exact ⟨fresh, horder.lexeme (by decide) (by decide) _ _,
      fun line rest heq => absurd heq hlater⟩
  | closeContext hr hctx =>
    have hctx : s.contexts = _ := hctx
    rw [hctx] at horder
    refine ⟨false, horder.closed hbehind (hblanks.byte?_pos hr), fun line rest heq => ?_⟩
    cases heq
  | keyword hk =>
    obtain ⟨hlt, hspells⟩ := spells_of_recognise hblanks hk
    exact ⟨true, horder.keywordEvents hlt hbehind hspells, fun line rest _ _ => rfl⟩
  | note | tailComment =>
    refine ⟨fresh, horder.lexeme (by decide) (by decide) _ _, fun line rest heq hopen => ?_⟩
    cases heq
    exact hpoised ha hopen
  | textParen =>
    rw [List.append_nil]
    refine ⟨fresh, horder, fun line rest heq hopen => ?_⟩
    cases heq
    cases hopen
  | contextParen hopen hr =>
    rw [hpoised ha hopen] at horder
    refine ⟨false, horder.opened hbehind (hblanks.byte?_pos hr), fun line rest heq hopen => ?_⟩
    cases heq
    cases hopen
  | quoted hopen | bare hopen =>
    refine ⟨fresh, horder.lexeme (by decide) (by decide) _ _, fun line rest heq _ => ?_⟩
    exact hpoised ha hopen
  | @parenText _ range =>
    cases range with
    | none =>
      rw [Option.map_none, Option.getD_none, List.append_nil]
      refine ⟨fresh, horder, fun line rest heq => ?_⟩
      cases heq
    | some range =>
      refine ⟨fresh, horder.lexeme (by decide) (by decide) _ _, fun line rest heq => ?_⟩
      cases heq

theorem Performs.announced (ha : s.agenda = task :: later)
    (h : Performs limit (s.drop later) task m) (hreg : Regular s.agenda)
    (hheld : source.Holds s.cursor) (hs : ∀ ⦃line⦄, s.line? = some line →
      ∃ k, (keywords events).getLast? = some k ∧ Keyword.Spells (source.covered k) line.kind)
    {line : Line} (hline : m.next.line? = some line) :
    ∃ k, (keywords (events ++ m.events)).getLast? = some k ∧
      Keyword.Spells (source.covered k) line.kind := by
  have hlater := (ha ▸ hreg).line?_later
  have hsame : ∀ {part : Part} {start stop : Nat} {old new : Line}, part ≠ .keyword →
      s.line? = some old → new.kind = old.kind →
      ∃ k, (keywords (events ++ part.events start stop)).getLast? = some k ∧
        Keyword.Spells (source.covered k) new.kind := by
    intro part start stop old new hpart hold hkind
    rw [keywords_lexeme hpart, hkind]
    exact hs hold
  have htask : s.line? = task.line? := by
    rw [State.line?, ha]
    rfl
  cases h with
  | finish | bodiless | noSchema | noText | text | lineEnd | endComment =>
    have hnone : later.head?.bind Task.line? = some line := hline
    rw [hlater] at hnone
    cases hnone
  | blankLine | lineComment | blockComment | closeContext | inlineSchema | schema | parenText =>
    cases hline
  | @keyword kind rest hk =>
    cases hline
    refine ⟨.ofRange _ _, ?_, (spells_of_recognise (hheld.move s.cursor.takes_eatBlanks) hk).2⟩
    rw [keywords_events]
    exact List.getLast?_concat
  | lineOver =>
    cases hline
    rw [List.append_nil]
    exact hs htask
  | note | tailComment =>
    cases hline
    exact hsame (by decide) htask rfl
  | @textParen old =>
    cases hline
    rw [List.append_nil]
    exact @hs old htask
  | @contextParen old =>
    cases hline
    rw [keywords_opened]
    exact @hs old htask
  | quoted | bare =>
    cases hline
    exact hsame (by decide) htask (Line.declare_kind _ _)

theorem Performs.tracked (ha : s.agenda = task :: later)
    (h : Performs limit (s.drop later) task m) (hacc : Accounted source events s)
    (hs : Tracked source events s) : Tracked source (events ++ m.events) m.next :=
  ⟨h.orderly ha hacc hs.orderly, fun _ hline =>
    h.announced ha hacc.regular hacc.holds hs.announced hline⟩

theorem Run.tracked (h : Run limit (State.start source.bytes) events t) :
    Tracked source events t := by
  refine h.preserves_reached (P := Tracked source) ?_ (tracked_start source)
  intro before u task later m hrun ha hperf hs
  exact hperf.tracked ha (hrun.accounted (accounted_start source)) hs

end

end Scan

/-- The events of a scan are in order, and every context is closed. -/
theorem Source.orderly {source : Source} {limit : Nat} {events : List Event}
    (h : source.scan limit = .ok events) : ∃ fresh, Orderly source events [] fresh := by
  obtain ⟨t, hrun, hdone⟩ := Source.scan_eq_ok_iff.mp h
  obtain ⟨fresh, horder, -⟩ := hrun.tracked.orderly
  have haccounted := hrun.accounted (Scan.accounted_start source)
  rw [(haccounted.done hdone).2] at horder
  exact ⟨fresh, horder⟩

end ApiDoc
