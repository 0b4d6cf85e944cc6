import ApiDoc.Directive.Keyword

/-!
# Recognising a keyword byte by byte

The recogniser reads a keyword without knowing where it ends. The table is
sorted by bytes, so the spellings that agree with the bytes read so far stand
in one run of it. The recogniser narrows this run byte by byte, or counts the
digits of a response code, and stops at the first byte that ends a word or
agrees with nothing.

* `partitionPoint` finds by bisection where a part of the table ends.
* `recognise` returns the kind of a complete keyword and the bytes behind
  it, or how far it came.
* `Progress.expected` lists what could have come next.
-/

namespace ApiDoc.Keyword

/-! ## Partition points -/

/-- Looks from `lo` up to `hi` for the first element that `p` does not hold of. -/
def partitionFrom {α : Type} (p : α → Bool) (xs : Array α) (lo hi : Nat)
    (bound : hi ≤ xs.size) : Nat :=
  if h : lo < hi then
    let mid := lo + (hi - lo) / 2
    have : mid < xs.size := by omega
    if p xs[mid] then partitionFrom p xs (mid + 1) hi bound
    else partitionFrom p xs lo mid (by omega)
  else lo
termination_by hi - lo

/-- The index of the first element that `p` does not hold of, if none that it
holds of stands behind that one. -/
def partitionPoint {α : Type} (p : α → Bool) (xs : Array α) : Nat :=
  partitionFrom p xs 0 xs.size (Nat.le_refl _)

/-! ## Progress -/

/-- How much of a keyword has been read. -/
inductive Progress where
  /-- After `depth` bytes, with which the entries from `lo` up to `hi` begin,
  `hi` left out. -/
  | letters (lo hi depth : Nat)
  /-- After so many digits of a response code. -/
  | digits (count : Nat)
  deriving DecidableEq, Repr

/-- The entries from `lo` up to `hi`. -/
def between (lo hi : Nat) : Array (List UInt8 × Kind) :=
  entries.toArray.extract lo hi

namespace Progress

/-- Nothing read yet. -/
def start : Progress := letters 0 entries.length 0

/-- The number of bytes read. -/
def depth : Progress → Nat
  | letters _ _ depth => depth
  | digits count => count

/-- The kind of the keyword that ends here. Of a run the entry that is read to
its end stands first. -/
def complete? : Progress → Option Kind
  | letters lo hi depth =>
    if 0 < depth ∧ lo < hi then
      match entries.toArray[lo]? with
      | some (spelling, kind) => if spelling.length = depth then some kind else none
      | none => none
    else none
  | digits 3 => some .responseCode
  | digits _ => none

/-- Reads one more byte of a keyword. -/
def feed? (p : Progress) (b : UInt8) : Option Progress :=
  match p with
  | letters lo hi depth =>
    if depth = 0 ∧ isCodeLead b = true then some (digits 1)
    else
      let first := partitionPoint (fun e => e.1[depth]?.all (· < b)) (between lo hi)
      let stop := partitionPoint (fun e => e.1[depth]?.all (· ≤ b)) (between lo hi)
      if first = stop then none else some (letters (lo + first) (lo + stop) (depth + 1))
  | digits count =>
    if count < 3 ∧ Byte.isDigit b = true then some (digits (count + 1)) else none

/-- The bytes with which the entries from `lo` up to `hi` go on. -/
def nextBytes (lo hi depth : Nat) : List UInt8 :=
  ((between lo hi).toList.filterMap (·.1[depth]?)).eraseReps

/-- What may come next, as a message shows it. -/
def expected (p : Progress) : String :=
  if p.depth = 0 then "directive"
  else
    let more :=
      match p with
      | letters lo hi depth =>
        (nextBytes lo hi depth).map fun b => "\"" ++ String.singleton (Byte.toChar b) ++ "\""
      | digits count => if count < 3 then ["digit"] else []
    let finish := if p.complete?.isSome then ["end of keyword"] else []
    " or ".intercalate (more ++ finish)

end Progress

/-- A byte that ends a keyword. -/
def isBoundary (b : UInt8) : Bool :=
  b == 0 || Byte.isBlank b || Byte.isBreak b || b == Byte.openParen

/-- Where the recogniser stopped. -/
inductive Outcome where
  /-- At the end of a keyword. -/
  | found (kind : Kind) (rest : List UInt8)
  /-- At a byte that cannot come next, or at the end of the document. -/
  | stuck (progress : Progress) (rest : List UInt8)
  deriving DecidableEq, Repr

/-- Stops at the end of a word. -/
def Progress.finish (p : Progress) (rest : List UInt8) : Outcome :=
  match p.complete? with
  | some kind => .found kind rest
  | none => .stuck p rest

/-- Reads on after `p`. -/
def Progress.run (p : Progress) : List UInt8 → Outcome
  | [] => p.finish []
  | b :: rest =>
    if isBoundary b then p.finish (b :: rest)
    else
      match p.feed? b with
      | some next => next.run rest
      | none => .stuck p (b :: rest)

/-- Reads the keyword at the start of `bytes`. -/
def recognise (bytes : List UInt8) : Outcome :=
  Progress.start.run bytes

/-! ## A keyword has at least one byte -/

theorem Progress.length_finish_le {p : Progress} {bytes rest : List UInt8} {kind : Kind}
    (h : p.finish bytes = .found kind rest) : rest.length ≤ bytes.length := by
  unfold Progress.finish at h
  split at h
  · cases h
    exact Nat.le_refl _
  · cases h

theorem Progress.length_run_le {p : Progress} {bytes rest : List UInt8} {kind : Kind}
    (h : p.run bytes = .found kind rest) : rest.length ≤ bytes.length := by
  induction bytes generalizing p with
  | nil => exact length_finish_le h
  | cons b tail ih =>
    unfold Progress.run at h
    split at h
    · exact length_finish_le h
    · split at h
      · exact Nat.le_succ_of_le (ih h)
      · cases h

/-- Nothing is a keyword before its first byte. -/
theorem Progress.complete?_start : start.complete? = none := by
  decide

theorem length_recognise_lt {bytes rest : List UInt8} {kind : Kind}
    (h : recognise bytes = .found kind rest) : rest.length < bytes.length := by
  unfold recognise at h
  cases bytes with
  | nil =>
    simp only [Progress.run, Progress.finish, Progress.complete?_start] at h
    cases h
  | cons b tail =>
    unfold Progress.run at h
    split at h
    · simp only [Progress.finish, Progress.complete?_start] at h
      cases h
    · split at h
      · exact Nat.lt_succ_of_le (Progress.length_run_le h)
      · cases h

end ApiDoc.Keyword
