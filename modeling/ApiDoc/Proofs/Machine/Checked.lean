import ApiDoc.Text.Span

/-!
# Checked operations

A reader that works on a buffer with offsets of a fixed width asks much of its
operands. Here every such demand is checked where it arises, and a demand that
is not met is a `Breach`, which nothing recovers from. So a computation that
comes to a value has met all of them.

* `sum` and `difference` stay between zero and the greatest offset.
* A span is made of two offsets in order.
* A loop has a number of rounds within which it must end (`loop_eq`, `loop_meets`).
-/

namespace ApiDoc

/-- A demand that is not met. -/
inductive Breach where
  /-- A byte is read outside the buffer. -/
  | index (offset : Nat)
  /-- A slice has its ends out of order, or leaves the content. -/
  | slice (start stop : Nat)
  /-- A span has its ends out of order. -/
  | span (first last : Nat)
  /-- No offset can hold the sum. -/
  | overflow (a b : Nat)
  /-- No offset can hold the difference. -/
  | underflow (a b : Nat)
  /-- The buffer does not end with its padding. -/
  | padding
  /-- A loop has used up its rounds. -/
  | endless
  deriving DecidableEq, Repr

abbrev Checked := Except Breach

namespace Checked

variable {α β σ γ : Type}

@[simp]
theorem ok_bind (a : α) (f : α → Checked β) : ((.ok a : Checked α) >>= f) = f a := rfl

@[simp]
theorem pure_eq (a : α) : (pure a : Checked α) = .ok a := rfl

theorem bind_eq_ok_iff {x : Checked α} {f : α → Checked β} {b : β} :
    (x >>= f) = .ok b ↔ ∃ a, x = .ok a ∧ f a = .ok b := by
  cases x with
  | error breach => exact iff_of_false nofun nofun
  | ok a => simp

/-- The computation comes to a value, and `P` holds of it. -/
def Yields (x : Checked α) (P : α → Prop) : Prop :=
  ∃ a, x = .ok a ∧ P a

theorem Yields.of_eq {x : Checked α} {P : α → Prop} {a : α} (h : x = .ok a) (ha : P a) :
    x.Yields P :=
  ⟨a, h, ha⟩

/-- What the computation comes to satisfies `P`, and what it breaches satisfies `B`. -/
def Meets (x : Checked α) (B : Breach → Prop) (P : α → Prop) : Prop :=
  match x with
  | .ok a => P a
  | .error breach => B breach

theorem Meets.of_eq {x : Checked α} {B : Breach → Prop} {P : α → Prop} {a : α} (h : x = .ok a)
    (ha : P a) : x.Meets B P :=
  h ▸ ha

theorem Meets.mono {x : Checked α} {B C : Breach → Prop} {P Q : α → Prop} (h : x.Meets B P)
    (hB : ∀ breach, B breach → C breach) (hP : ∀ a, P a → Q a) : x.Meets C Q := by
  cases x with
  | ok a => exact hP a h
  | error breach => exact hB breach h

/-! ## Offsets -/

def sum (a b : Nat) : Checked Nat :=
  if a + b ≤ maxOffset then .ok (a + b) else .error (.overflow a b)

def difference (a b : Nat) : Checked Nat :=
  if b ≤ a then .ok (a - b) else .error (.underflow a b)

theorem sum_eq {a b : Nat} (h : a + b ≤ maxOffset) : sum a b = .ok (a + b) :=
  if_pos h

theorem sum_eq_ok_iff {a b c : Nat} : sum a b = .ok c ↔ a + b ≤ maxOffset ∧ a + b = c := by
  by_cases h : a + b ≤ maxOffset
  · simp [sum, h]
  · simp [sum, h]

theorem difference_eq {a b : Nat} (h : b ≤ a) : difference a b = .ok (a - b) :=
  if_pos h

/-! ## Spans -/

/-- The bytes `first` to `last`. -/
def span (first last : Nat) : Checked Span :=
  if first ≤ last then .ok ⟨first, last⟩ else .error (.span first last)

/-- The bytes from `start` up to `stop`, `stop` itself left out. -/
def range (start stop : Nat) : Checked Span :=
  if start < stop then do
    let last ← difference stop 1
    span start last
  else pure .unset

theorem span_eq {first last : Nat} (h : first ≤ last) : span first last = .ok ⟨first, last⟩ :=
  if_pos h

/-- A range meets the demands of its span, whatever its ends. -/
theorem range_eq (start stop : Nat) : range start stop = .ok (.ofRange start stop) := by
  unfold range Span.ofRange
  by_cases h : start < stop
  · rw [if_pos h, if_pos h, difference_eq (by omega), ok_bind, span_eq (by omega)]
  · rw [if_neg h, if_neg h, pure_eq]

/-! ## Loops -/

/-- How a round of a loop ends. -/
inductive Round (σ α : Type) where
  | again (state : σ)
  | done (value : α)

/-- Repeats `body`, at most `rounds` times. -/
def loop (body : σ → Checked (Round σ α)) : Nat → σ → Checked α
  | 0, _ => .error .endless
  | rounds + 1, state => do
    match ← body state with
    | .again next => loop body rounds next
    | .done value => pure value

/-- A loop comes to `value` if every round either ends with it or goes on, in a
smaller state, to where the value is the same. The states are given by what
they stand for: `embed` makes a state of it. -/
theorem loop_eq {body : σ → Checked (Round σ α)} (embed : γ → σ) (value : γ → α)
    (holds : γ → Prop) (size : γ → Nat)
    (hround : ∀ g, holds g → body (embed g) = .ok (.done (value g)) ∨
      ∃ next, body (embed g) = .ok (.again (embed next)) ∧ holds next ∧ size next < size g ∧
        value next = value g)
    {rounds : Nat} {g : γ} (hg : holds g) (hsize : size g < rounds) :
    loop body rounds (embed g) = .ok (value g) := by
  induction rounds generalizing g with
  | zero => cases hsize
  | succ rounds ih =>
    rcases hround g hg with hdone | ⟨next, hagain, hnext, hlt, hvalue⟩
    · rw [loop, hdone]
      rfl
    · rw [loop, hagain, ok_bind, ← hvalue]
      exact ih hnext (by omega)

end Checked

end ApiDoc
