import ApiDoc.Proofs.Machine.Answers
import ApiDoc.Proofs.Machine.Probe
import ApiDoc.Proofs.Schema.Respelt
import ApiDoc.Proofs.Schema.Words

/-!
# What parts of the probe answer

Each part of the probe comes to a value, which is what the reader of that part gives for the
bytes at the position.

* **Inside** and **Near**: between its parts the probe stands within the bytes. A backslash
  at their end takes it one position past them (`past_backslash`), and then it can only fail.
* **Answers**: the probe stands before what the reader leaves, or has failed where it stopped.
* **Proceeds**: a round of a loop answers, or leaves less to read and the reader's answer as it
  is. So the loop comes to that answer (`loop_answers`).
* **Counting**: the count of open braces is zero only before the first of them, so that it
  can go down wherever one closes. It stays behind the position, so that 32 bits hold it
  unless there are more bytes than an offset can count (`Overruns`).
-/

namespace ApiDoc.Schema

open Checked (loop sum difference)

namespace Probe

variable {p q t : Probe} {b : UInt8} {tail : List UInt8}

/-! ## The bytes at the position -/

theorem current_eq (p : Probe) : p.current = p.rest.head? :=
  List.head?_drop.symm

theorem length_rest_le (p : Probe) : p.rest.length ≤ p.bytes.length := by
  rw [rest, List.length_drop]
  exact Nat.sub_le _ _

/-- `q` has moved on from `p`, and `trailing` was not called. -/
structure From (p q : Probe) : Prop where
  bytes : q.bytes = p.bytes
  calls : q.calls = p.calls

theorem From.refl (p : Probe) : p.From p :=
  ⟨rfl, rfl⟩

theorem From.trans (h : p.From q) (k : q.From t) : p.From t :=
  ⟨k.bytes.trans h.bytes, k.calls.trans h.calls⟩

/-- The probe has kept within the bytes. -/
structure Inside (p : Probe) : Prop where
  pos_le : p.pos ≤ p.bytes.length
  reach_le : p.reach ≤ p.bytes.length
  deepest_le : p.deepest ≤ p.bytes.length

/-- The probe has been at most one position past the bytes. -/
structure Near (p : Probe) : Prop where
  reach_le : p.reach ≤ p.bytes.length + 1
  deepest_le : p.deepest ≤ p.bytes.length

namespace Inside

theorem stop (h : p.Inside) : p.pos + p.rest.length = p.bytes.length := by
  rw [rest, List.length_drop]
  exact Nat.add_sub_cancel' h.pos_le

theorem move (h : p.Inside) {n : Nat} (hn : n ≤ p.rest.length) : (p.move n).Inside := by
  have hstop := h.stop
  have hpos : p.pos + n ≤ p.bytes.length := by omega
  exact ⟨hpos, Nat.max_le.mpr ⟨h.reach_le, hpos⟩, h.deepest_le⟩

theorem step (h : p.Inside) (hr : p.rest = b :: tail) : (p.move 1).Inside :=
  h.move (hr ▸ Nat.succ_pos _)

theorem deepen (h : p.Inside) {depth : Nat} (hdepth : depth ≤ p.bytes.length) :
    (p.deepen depth).Inside :=
  ⟨h.pos_le, h.reach_le, Nat.max_le.mpr ⟨h.deepest_le, hdepth⟩⟩

/-- Who has less left stands further on. -/
theorem pos_lt (h : p.Inside) (k : q.Inside) (hfrom : p.From q)
    (hlt : q.rest.length < p.rest.length) : p.pos < q.pos := by
  have hp := h.stop
  have hq := k.stop
  rw [hfrom.bytes] at hq
  omega

end Inside

/-! ## Answers -/

/-- The probe has done what a reader did with the bytes at `p`. -/
def Answers (p : Probe) : Except Stop (List UInt8) → Answer Unit → Prop
  | .ok rest, (.ok (), q) => p.From q ∧ q.Inside ∧ q.rest = rest
  | .error stop, (.error fault, q) =>
    p.From q ∧ q.Near ∧ fault = (stop.fault p.bytes.length).narrow
  | _, _ => False

theorem Answers.trans {result : Except Stop (List UInt8)} {answer : Answer Unit}
    (hfrom : p.From t) (h : t.Answers result answer) : p.Answers result answer := by
  obtain ⟨outcome, q⟩ := answer
  cases result with
  | ok rest =>
    cases outcome with
    | ok => exact ⟨hfrom.trans h.1, h.2⟩
    | error fault => exact h
  | error stop =>
    cases outcome with
    | ok => exact h
    | error fault => exact ⟨hfrom.trans h.1, h.2.1, hfrom.bytes ▸ h.2.2⟩

theorem Answers.cases {result : Except Stop (List UInt8)} {answer : Answer Unit}
    (h : p.Answers result answer) :
    (∃ q, answer = (.ok (), q) ∧ p.From q ∧ q.Inside ∧ result = .ok q.rest) ∨
      ∃ stop q, answer = (.error (stop.fault p.bytes.length).narrow, q) ∧ p.From q ∧ q.Near ∧
        result = .error stop := by
  obtain ⟨outcome, q⟩ := answer
  cases result with
  | ok rest =>
    cases outcome with
    | ok =>
      obtain ⟨hfrom, hq, hrest⟩ := h
      exact .inl ⟨q, rfl, hfrom, hq, congrArg Except.ok hrest.symm⟩
    | error fault => exact h.elim
  | error stop =>
    cases outcome with
    | ok => exact h.elim
    | error fault =>
      obtain ⟨hfrom, hq, rfl⟩ := h
      exact .inr ⟨stop, q, rfl, hfrom, hq, rfl⟩

/-- The count of open braces has passed what 32 bits hold. By then more bytes have been read
than an offset can count, and the reader, if it comes to an end, ends behind them. -/
structure Overruns (total : Nat) (result : Except Stop (List UInt8)) (breach : Breach) : Prop where
  breach_eq : breach = .overflow maxOffset 1
  long : maxOffset < total
  behind : ∀ rest, result = .ok rest → maxOffset + rest.length < total

/-- At `p`, where a reader gives `result`, `x` does the same, unless there are more braces
than can be counted. -/
def Does (p : Probe) (result : Except Stop (List UInt8)) (x : Checked (Answer Unit)) : Prop :=
  x.Meets (Overruns p.bytes.length result) (p.Answers result)

/-- The part has been read to its end, or it has failed where its reader did, or there are
too many braces. -/
theorem Does.cases {x : Checked (Answer Unit)} {result : Except Stop (List UInt8)}
    (h : p.Does result x) :
    (∃ q, x = .ok (.ok (), q) ∧ p.From q ∧ q.Inside ∧ result = .ok q.rest) ∨
      (∃ stop q, x = .ok (.error (stop.fault p.bytes.length).narrow, q) ∧ p.From q ∧ q.Near ∧
        result = .error stop) ∨
      ∃ breach, x = .error breach ∧ Overruns p.bytes.length result breach := by
  cases x with
  | error breach => exact .inr (.inr ⟨breach, rfl, h⟩)
  | ok answer =>
    have hanswer : p.Answers result answer := h
    rcases hanswer.cases with ⟨q, rfl, hq⟩ | ⟨stop, q, rfl, hq⟩
    · exact .inl ⟨q, rfl, hq⟩
    · exact .inr (.inl ⟨stop, q, rfl, hq⟩)

/-! ## Rounds -/

section Rounds

variable {σ : Type} {place : σ → Probe} {holds : σ → Prop}
  {reader : σ → Except Stop (List UInt8)} {state : σ}

/-- What a round of a loop comes to. It answers as `reader` does for its state, or it goes on
with less left to read, in a state that asks the same of `reader`. -/
inductive Proceeds (place : σ → Probe) (holds : σ → Prop)
    (reader : σ → Except Stop (List UInt8)) (state : σ) : Round σ → Prop
  | done {answer : Answer Unit} {result : Except Stop (List UInt8)} :
      reader state = result → (place state).Answers result answer →
      Proceeds place holds reader state (.done answer)
  | again {next : σ} :
      reader state = reader next → holds next → (place state).From (place next) →
      (place next).rest.length < (place state).rest.length →
      Proceeds place holds reader state (.again next)

end Rounds

/-! ## Runs of bytes -/

theorem Inside.eatLine (h : p.Inside) : p.eatLine.Inside := by
  refine h.move ?_
  rw [← List.findIdx_eq_getD_findIdx?]
  exact List.findIdx_le_length

/-! ## Strings and expressions -/

/-- Between delimiters the probe is inside, or has nothing left. -/
def Between (p : Probe) : Prop :=
  p.Inside ∨ p.Near ∧ p.rest = []

theorem Between.inside (h : p.Between) (hr : p.rest = b :: tail) : p.Inside := by
  rcases h with h | ⟨-, hnil⟩
  · exact h
  · rw [hr] at hnil
    cases hnil

/-- What the reader of rules makes of the bytes. The first brace is not yet counted. -/
def rulesAt : Nat → List UInt8 → Except Stop (List UInt8)
  | 0, bytes => rules 0 bytes.tail
  | depth + 1, bytes => rules depth bytes

theorem rulesAt_open {depth : Nat} (tail : List UInt8) :
    rulesAt depth (Byte.openBrace :: tail) = rules depth tail := by
  cases depth with
  | zero => rfl
  | succ depth => exact rules_open depth tail

/-- The count goes up by one with a byte, so that it stays behind the position. It fits in 32
bits, and it is zero before the first brace only. -/
structure Counting (state : Nat × Probe) : Prop where
  inside : state.2.Inside
  depth_le : state.1 ≤ state.2.pos
  fits : state.1 ≤ maxOffset
  opens : state.1 = 0 → state.2.rest.head? = some Byte.openBrace

namespace Counting

variable {depth : Nat}

theorem opened (h : Counting (depth, p)) (hr : p.rest = b :: tail) (hfits : depth + 1 ≤ maxOffset) :
    Counting (depth + 1, (p.deepen (depth + 1)).move 1) := by
  have hin : p.Inside := h.inside
  have hdepth : depth ≤ p.pos := h.depth_le
  have hstop := hin.stop
  rw [hr, List.length_cons] at hstop
  have hdeep : (p.deepen (depth + 1)).Inside := hin.deepen (by omega)
  exact ⟨hdeep.step hr, Nat.succ_le_succ hdepth, hfits, nofun⟩

/-- With as many braces open as 32 bits count, so many bytes have been read. -/
theorem overruns (h : Counting (depth, p)) (hr : p.rest = Byte.openBrace :: tail)
    (hlong : ¬ depth + 1 ≤ maxOffset) :
    Overruns p.bytes.length (rulesAt depth p.rest) (.overflow depth 1) := by
  have hfits : depth ≤ maxOffset := h.fits
  have hdepth : depth ≤ p.pos := h.depth_le
  have hstop : p.pos + p.rest.length = p.bytes.length := Inside.stop h.inside
  obtain rfl : depth = maxOffset := by omega
  rw [hr, List.length_cons] at hstop
  refine ⟨rfl, by omega, ?_⟩
  intro rest hrest
  rw [hr, rulesAt_open] at hrest
  have hlt := length_rules_lt hrest
  omega

/-- Another byte than an opening brace has been read. -/
theorem step (h : Counting (depth, p)) (hin : q.Inside) {less : Nat} (hless : less + 1 ≤ depth)
    (hpos : p.pos ≤ q.pos) : Counting (less + 1, q) :=
  ⟨hin, Nat.le_trans hless (Nat.le_trans h.depth_le hpos), Nat.le_trans hless h.fits, nofun⟩

end Counting

section Rules

variable {depth : Nat}

end Rules

theorem length_toLineEnd_le (bytes : List UInt8) :
    (Comment.toLineEnd bytes).length ≤ bytes.length :=
  (List.dropWhile_sublist _).length_le

/-- What stands at `q` has been read as a token, or the probe has failed where its reader
does. -/
inductive Takes (q : Probe) :
    Except Stop (List UInt8 × List UInt8) → Round (List UInt8 × Probe) → Prop
  | token {owed : List UInt8} {t : Probe} :
      q.From t → t.Inside → Takes q (.ok (owed, t.rest)) (settle owed t)
  | stop {stop : Stop} {answer : Answer Unit} :
      q.Answers (.error stop) answer → Takes q (.error stop) (.done answer)

/-- The probe is inside, and what is owed are closing brackets. -/
def Owing (state : List UInt8 × Probe) : Prop :=
  state.2.Inside ∧ Brackets state.1

/-- What a round of reading a value comes to. -/
abbrev Reads : List UInt8 × Probe → Round (List UInt8 × Probe) → Prop :=
  Proceeds Prod.snd Owing fun state => Schema.value state.1 state.2.rest

variable {closers : List UInt8}

end Probe

end ApiDoc.Schema
