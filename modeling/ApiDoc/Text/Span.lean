/-!
# Spans

A span names the bytes `first` to `last` of a document, both included. A
span whose `first` exceeds its `last` names no bytes and is *unset*; only the
two offsets of a set span are ever read.

* `merge` is the least span that covers both sides, an unset side counting
  for nothing.
* `shift` moves a span into the coordinates of a larger text.
-/

namespace ApiDoc

/-- The greatest offset a span can hold. -/
def maxOffset : Nat := 4294967295

structure Span where
  first : Nat
  last : Nat
  deriving DecidableEq, Repr

namespace Span

/-- The span of a thing that has no place yet. -/
def unset : Span := ⟨maxOffset, 0⟩

instance : Inhabited Span := ⟨unset⟩

/-- The single byte at `offset`. -/
def point (offset : Nat) : Span := ⟨offset, offset⟩

/-- The bytes from `start` up to `stop`, `stop` itself left out; unset if
there are none. -/
def ofRange (start stop : Nat) : Span :=
  if start < stop then ⟨start, stop - 1⟩ else unset

def isSet (s : Span) : Bool :=
  decide (s.first ≤ s.last)

/-- The two offsets of a set span. -/
def get? (s : Span) : Option (Nat × Nat) :=
  if s.isSet then some (s.first, s.last) else none

/-- The number of bytes covered. -/
def length (s : Span) : Nat :=
  if s.isSet then s.last - s.first + 1 else 0

/-- The least span that covers both. -/
def merge (s t : Span) : Span :=
  match s.isSet, t.isSet with
  | true, true => ⟨min s.first t.first, max s.last t.last⟩
  | true, false => s
  | false, _ => t

/-- The same bytes, counted from `delta` bytes further back. -/
def shift (delta : Nat) (s : Span) : Span :=
  if s.isSet then ⟨s.first + delta, s.last + delta⟩ else s

/-- The span as shown to a person. -/
def render (s : Span) : String :=
  match s.get? with
  | some (first, last) => toString first ++ "..=" ++ toString last
  | none => "unset"

@[simp]
theorem isSet_point (offset : Nat) : (point offset).isSet = true := by
  simp [isSet, point]

@[simp]
theorem isSet_unset : unset.isSet = false := by
  decide

end Span

end ApiDoc
