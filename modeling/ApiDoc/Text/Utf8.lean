/-!
# UTF-8

Names, parameters and messages are text, documents are bytes. Text becomes
bytes by UTF-8; bytes become text by a decoder that never fails.

* Decoding reads one byte at a time and yields a character for each
  well-formed sequence and a gap for each maximal run of bytes that starts
  like one and is cut short; a byte that starts nothing is a gap of its own.
* `lossy` shows a gap as U+FFFD; `strict?` refuses bytes with a gap.
-/

namespace ApiDoc.Utf8

/-- The bytes of a text. -/
def bytes (text : String) : List UInt8 :=
  text.toList.flatMap String.utf8EncodeChar

/-- A byte that continues a sequence and never starts one. -/
def isContinuation (b : UInt8) : Bool :=
  0x80 ≤ b && b ≤ 0xBF

/-! ## Sequences under way -/

/-- A sequence of which at least the lead byte has been read: the value so
far, the bytes still owed and the range in which the next one must lie. -/
structure Sequence where
  value : Nat
  owed : Nat
  low : UInt8 := 0x80
  high : UInt8 := 0xBF
  deriving DecidableEq, Repr

/-- The sequence a lead byte opens. The narrowed ranges keep out overlong
forms, surrogates and values above U+10FFFF. -/
def Sequence.open? (b : UInt8) : Option Sequence :=
  if 0xC2 ≤ b ∧ b ≤ 0xDF then some ⟨b.toNat % 32, 1, 0x80, 0xBF⟩
  else if b = 0xE0 then some ⟨0, 2, 0xA0, 0xBF⟩
  else if b = 0xED then some ⟨13, 2, 0x80, 0x9F⟩
  else if 0xE1 ≤ b ∧ b ≤ 0xEF then some ⟨b.toNat % 16, 2, 0x80, 0xBF⟩
  else if b = 0xF0 then some ⟨0, 3, 0x90, 0xBF⟩
  else if 0xF1 ≤ b ∧ b ≤ 0xF3 then some ⟨b.toNat % 8, 3, 0x80, 0xBF⟩
  else if b = 0xF4 then some ⟨4, 3, 0x80, 0x8F⟩
  else none

/-! ## Decoding -/

/-- One decoded item: a character, or the gap left by an ill-formed run. -/
abbrev Item := Option Char

/-- A byte read between sequences. -/
def start (b : UInt8) : List Item × Option Sequence :=
  if b < 0x80 then ([some (Char.ofNat b.toNat)], none)
  else
    match Sequence.open? b with
    | some s => ([], some s)
    | none => ([none], none)

/-- A byte read after `s`. One that cannot continue `s` leaves a gap and is
read again as the start of something new. -/
def resume (s : Sequence) (b : UInt8) : List Item × Option Sequence :=
  if s.low ≤ b ∧ b ≤ s.high then
    let value := s.value * 64 + b.toNat % 64
    if s.owed ≤ 1 then ([some (Char.ofNat value)], none)
    else ([], some ⟨value, s.owed - 1, 0x80, 0xBF⟩)
  else
    let (items, next) := start b
    (none :: items, next)

/-- The items of `bytes`, read after the sequence under way. -/
def decodeAfter : Option Sequence → List UInt8 → List Item
  | none, [] => []
  | some _, [] => [none]
  | none, b :: rest => (start b).1 ++ decodeAfter (start b).2 rest
  | some s, b :: rest => (resume s b).1 ++ decodeAfter (resume s b).2 rest

/-- The characters and gaps of `bytes`, in order. -/
def decode (bytes : List UInt8) : List Item :=
  decodeAfter none bytes

/-- Text that shows each gap as the replacement character. -/
def lossy (bytes : List UInt8) : String :=
  String.ofList ((decode bytes).map (·.getD '\uFFFD'))

/-- The text spelled by `bytes`, if they are well-formed throughout. -/
def strict? (bytes : List UInt8) : Option String :=
  ((decode bytes).mapM id).map String.ofList

end ApiDoc.Utf8
