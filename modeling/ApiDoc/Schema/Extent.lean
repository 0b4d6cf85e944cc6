import ApiDoc.Diagnostic.Complaint
import ApiDoc.Directive.Notation
import ApiDoc.Text.Comment
import ApiDoc.Text.Span

/-!
# The extent of a schema body

A schema body is not taken apart; only its length is found. A reader takes
the bytes from some place on and returns the bytes behind what it read, or
the place where it had to stop and its complaint.

* An example value is a scalar, a string, or an object or array whose
  brackets match; between brackets stand values, commas, colons, white space
  and remarks in any order.
* A regular expression stands between slashes.
* A remark is a comment or an annotation; an annotation may open with rules
  in braces that run over several lines.
* Behind the body, up to the end of its line, only blanks and remarks may
  stand. The remarks belong to the body, the blanks behind them do not.

Every reader returns fewer bytes than it was given; the lemmas named
`length_…` say so, and the recursion of the readers rests on them.

The readers count without bounds. `measured` gives the extent in 32 bits, in
which the bytes of every source can be counted.
-/

namespace ApiDoc.Schema

/-- Where a reader stopped: the bytes it could not read, and why. -/
structure Stop where
  complaint : Complaint
  rest : List UInt8
  deriving DecidableEq, Repr

/-! ## Strings and expressions -/

/-- What closes a string or an expression, and how its absence is told. -/
structure Delimiter where
  close : UInt8
  expected : String
  unterminated : String
  deriving DecidableEq, Repr

def Delimiter.string : Delimiter :=
  ⟨Byte.quote, "\"\\\"\" to close the string", "unterminated string in schema"⟩

def Delimiter.regex : Delimiter :=
  ⟨Byte.slash, "\"/\" to close the regex", "unterminated regex"⟩

/-- Reads up to and including the closing delimiter. `escaped` tells that the
byte before was a backslash, which takes away any meaning of the next one. -/
def quoted (d : Delimiter) : Bool → List UInt8 → Except Stop (List UInt8)
  | _, [] => .error ⟨.endOfFile d.expected, []⟩
  | true, _ :: rest => quoted d false rest
  | false, b :: rest =>
    if Byte.isBreak b then .error ⟨.plain d.unterminated, b :: rest⟩
    else if b = Byte.backslash then quoted d true rest
    else if b = d.close then .ok rest
    else quoted d false rest

theorem length_quoted_lt {d : Delimiter} {escaped : Bool} {bytes rest : List UInt8}
    (h : quoted d escaped bytes = .ok rest) : rest.length < bytes.length := by
  fun_induction quoted d escaped bytes with
  | case1 => cases h
  | case2 b tail ih => exact Nat.lt_succ_of_lt (ih h)
  | case3 => cases h
  | case4 tail _ ih => exact Nat.lt_succ_of_lt (ih h)
  | case5 tail =>
    cases h
    exact Nat.lt_succ_self _
  | case6 b tail _ _ _ ih => exact Nat.lt_succ_of_lt (ih h)

/-! ## Remarks -/

/-- Reads up to and including the `#/` that closes a block comment. -/
def comment (bytes : List UInt8) : Except Stop (List UInt8) :=
  match Comment.afterClose? bytes with
  | some rest => .ok rest
  | none => .error ⟨.endOfFile "\"#/\" to close the comment", []⟩

/-- Reads up to and including the brace that closes the last of `depth + 1`
open braces. -/
def rules (depth : Nat) : List UInt8 → Except Stop (List UInt8)
  | [] => .error ⟨.endOfFile "\"\x7d\" to close the rules", []⟩
  | b :: rest =>
    if b = Byte.openBrace then rules (depth + 1) rest
    else if b = Byte.closeBrace then
      match depth with
      | 0 => .ok rest
      | depth + 1 => rules depth rest
    else if b = Byte.quote then
      match _ : quoted .string false rest with
      | .ok behind => rules depth behind
      | .error stop => .error stop
    else rules depth rest
termination_by bytes => bytes.length
decreasing_by
  all_goals simp only [List.length_cons]
  · omega
  · omega
  · have := length_quoted_lt ‹_›
    omega
  · omega

/-- Reads an annotation behind its `//`: rules, if there are any, and the
rest of the line on which they end. -/
def note (bytes : List UInt8) : Except Stop (List UInt8) :=
  match bytes.dropWhile Byte.isBlank with
  | [] => .ok []
  | b :: rest =>
    if b = Byte.openBrace then (rules 0 rest).map Comment.toLineEnd
    else .ok (Comment.toLineEnd (b :: rest))

/-- Reads the remark that starts here; `none` if none does. -/
def remark? : List UInt8 → Option (Except Stop (List UInt8))
  | [] => none
  | [a] => if a = Byte.hash then some (.ok []) else none
  | a :: b :: rest =>
    if a = Byte.hash then some (.ok (Comment.toLineEnd (b :: rest)))
    else if a = Byte.slash ∧ b = Byte.slash then some (note rest)
    else if a = Byte.slash ∧ b = Byte.hash then some (comment rest)
    else none

theorem length_rules_lt {depth : Nat} {bytes rest : List UInt8}
    (h : rules depth bytes = .ok rest) : rest.length < bytes.length := by
  fun_induction rules depth bytes with
  | case1 => cases h
  | case2 _ tail ih => exact Nat.lt_succ_of_lt (ih h)
  | case3 tail =>
    cases h
    exact Nat.lt_succ_self _
  | case4 tail _ _ ih => exact Nat.lt_succ_of_lt (ih h)
  | case5 depth tail behind hq _ _ ih =>
    have := length_quoted_lt hq
    have := ih h
    simp only [List.length_cons]
    omega
  | case6 => cases h
  | case7 _ b tail _ _ _ ih => exact Nat.lt_succ_of_lt (ih h)

theorem length_note_le {bytes rest : List UInt8}
    (h : note bytes = .ok rest) : rest.length ≤ bytes.length := by
  unfold note at h
  have hd : (bytes.dropWhile Byte.isBlank).length ≤ bytes.length :=
    (List.dropWhile_sublist _).length_le
  split at h
  · cases h
    exact Nat.zero_le _
  · rename_i b tail heq
    rw [heq] at hd
    split at h
    · cases hr : rules 0 tail with
      | error stop =>
        rw [hr] at h
        cases h
      | ok behind =>
        rw [hr] at h
        cases h
        have := length_rules_lt hr
        have := Comment.length_toLineEnd_le behind
        simp only [List.length_cons] at hd
        omega
    · cases h
      exact Nat.le_trans (Comment.length_toLineEnd_le _) hd

theorem length_comment_le {bytes rest : List UInt8}
    (h : comment bytes = .ok rest) : rest.length ≤ bytes.length := by
  unfold comment at h
  split at h
  · cases h
    exact Comment.length_afterClose?_le ‹_›
  · cases h

theorem length_remark?_lt {bytes rest : List UInt8}
    (h : remark? bytes = some (.ok rest)) : rest.length < bytes.length := by
  unfold remark? at h
  split at h
  · cases h
  · split at h
    · cases h
      simp
    · cases h
  · rename_i a b tail
    simp only [List.length_cons]
    split at h
    · simp only [Option.some.injEq, Except.ok.injEq] at h
      have := Comment.length_toLineEnd_le (b :: tail)
      rw [h, List.length_cons] at this
      omega
    · split at h
      · have := length_note_le (Option.some.inj h)
        omega
      · split at h
        · have := length_comment_le (Option.some.inj h)
          omega
        · cases h

/-! ## Example values -/

/-- Skips white space and remarks between brackets. -/
def trivia (bytes : List UInt8) : Except Stop (List UInt8) :=
  match bytes with
  | [] => .ok []
  | b :: rest =>
    if Byte.isWhite b then trivia rest
    else
      match _ : remark? (b :: rest) with
      | some (.ok behind) => trivia behind
      | some (.error stop) => .error stop
      | none => .ok (b :: rest)
termination_by bytes.length
decreasing_by
  · simp
  · exact length_remark?_lt ‹_›

theorem length_trivia_le {bytes rest : List UInt8}
    (h : trivia bytes = .ok rest) : rest.length ≤ bytes.length := by
  fun_induction trivia bytes with
  | case1 =>
    cases h
    exact Nat.le_refl _
  | case2 b tail _ ih => exact Nat.le_succ_of_le (ih h)
  | case3 b tail _ behind hr ih => exact Nat.le_trans (ih h) (Nat.le_of_lt (length_remark?_lt hr))
  | case4 => cases h
  | case5 =>
    cases h
    exact Nat.le_refl _

/-- A byte of a number, a literal, a reference or a union of them. -/
def isScalarByte (b : UInt8) : Bool :=
  Byte.isAlphanumeric b || b == Byte.atSign || b == 0x5F || b == 0x2D || b == 0x2B || b == 0x2E
    || b == 0x7C

/-- A byte between quotes, as a message shows it. -/
def shown (b : UInt8) : String :=
  "\"" ++ String.singleton (Byte.toChar b) ++ "\""

/-- What is missing at the end of the document. -/
def missing : List UInt8 → String
  | [] => "schema value"
  | closer :: _ => shown closer

/-- The complaint about a byte that starts no value. -/
def misfit (b : UInt8) : List UInt8 → Complaint
  | [] => .invalidByte b "at schema start" "schema value"
  | closer :: _ => .invalidByte b "in schema" ("value or " ++ shown closer)

/-- Skips to the next byte that counts. Outside all brackets every byte
does. -/
def seek (closers : List UInt8) (bytes : List UInt8) : Except Stop (List UInt8) :=
  match closers with
  | [] => .ok bytes
  | _ :: _ => trivia bytes

theorem length_seek_le {closers bytes rest : List UInt8}
    (h : seek closers bytes = .ok rest) : rest.length ≤ bytes.length := by
  unfold seek at h
  split at h
  · cases h
    exact Nat.le_refl _
  · exact length_trivia_le h

/-- Reads one bracket, separator, string or scalar that starts with `b`, and
returns the closing brackets owed from then on. -/
def token (closers : List UInt8) (b : UInt8) (rest : List UInt8) :
    Except Stop (List UInt8 × List UInt8) :=
  if b = Byte.openBrace then .ok (Byte.closeBrace :: closers, rest)
  else if b = Byte.openBracket then .ok (Byte.closeBracket :: closers, rest)
  else if closers.head? = some b then .ok (closers.tail, rest)
  else if (b = Byte.comma ∨ b = Byte.colon) ∧ closers ≠ [] then .ok (closers, rest)
  else if b = Byte.quote then (quoted .string false rest).map (closers, ·)
  else if isScalarByte b then .ok (closers, rest.dropWhile isScalarByte)
  else .error ⟨misfit b closers, b :: rest⟩

theorem length_token_le {closers rest owed behind : List UInt8} {b : UInt8}
    (h : token closers b rest = .ok (owed, behind)) : behind.length ≤ rest.length := by
  unfold token at h
  repeat' split at h
  · cases h
    exact Nat.le_refl _
  · cases h
    exact Nat.le_refl _
  · cases h
    exact Nat.le_refl _
  · cases h
    exact Nat.le_refl _
  · cases hq : quoted .string false rest with
    | error stop =>
      rw [hq] at h
      cases h
    | ok tail =>
      rw [hq] at h
      cases h
      exact Nat.le_of_lt (length_quoted_lt hq)
  · cases h
    exact (List.dropWhile_sublist _).length_le
  · cases h

/-- Reads on until every bracket is closed. `closers` holds the closing
brackets still owed, the innermost first; with none, one value is read. -/
def value (closers : List UInt8) (bytes : List UInt8) : Except Stop (List UInt8) :=
  match _ : seek closers bytes with
  | .error stop => .error stop
  | .ok [] => .error ⟨.endOfFile (missing closers), []⟩
  | .ok (b :: rest) =>
    match _ : token closers b rest with
    | .error stop => .error stop
    | .ok ([], behind) => .ok behind
    | .ok (closer :: outer, behind) => value (closer :: outer) behind
termination_by bytes.length
decreasing_by
  have := length_seek_le ‹_›
  have := length_token_le ‹_›
  simp only [List.length_cons] at *
  omega

theorem length_value_lt {closers bytes rest : List UInt8}
    (h : value closers bytes = .ok rest) : rest.length < bytes.length := by
  fun_induction value closers bytes with
  | case1 => cases h
  | case2 => cases h
  | case3 => cases h
  | case4 closers bytes b tail hs behind ht =>
    cases h
    exact Nat.lt_of_lt_of_le (Nat.lt_succ_of_le (length_token_le ht)) (length_seek_le hs)
  | case5 closers bytes b tail hs closer outer behind ht ih =>
    exact Nat.lt_trans (ih h)
      (Nat.lt_of_lt_of_le (Nat.lt_succ_of_le (length_token_le ht)) (length_seek_le hs))

/-! ## Whole bodies -/

/-- Reads a regular expression. -/
def regex : List UInt8 → Except Stop (List UInt8)
  | [] => .error ⟨.endOfFile "\"/\"", []⟩
  | b :: rest =>
    if b = Byte.slash then quoted .regex false rest
    else .error ⟨.invalidByte b "at regex start" "\"/\"", b :: rest⟩

/-- Reads the remarks on the rest of the line; the blanks behind the last of
them are left. -/
def trailing (bytes : List UInt8) : Except Stop (List UInt8) :=
  match _ : bytes.dropWhile Byte.isBlank with
  | [] => .ok bytes
  | b :: rest =>
    if Byte.isBreak b then .ok bytes
    else
      match _ : remark? (b :: rest) with
      | some (.ok behind) => trailing behind
      | some (.error stop) => .error stop
      | none =>
        .error ⟨.invalidByte b "after schema" "end of line or annotation", b :: rest⟩
termination_by bytes.length
decreasing_by
  have hd : (bytes.dropWhile Byte.isBlank).length ≤ bytes.length :=
    (List.dropWhile_sublist _).length_le
  rw [‹bytes.dropWhile Byte.isBlank = _›] at hd
  exact Nat.lt_of_lt_of_le (length_remark?_lt ‹_›) hd

/-- Reads what the grammar describes, and no remark behind it. -/
def bare : Grammar → List UInt8 → Except Stop (List UInt8)
  | .jsight, bytes => value [] bytes
  | .regex, bytes => regex bytes

/-- Reads the body at the start of `bytes` and the remarks on its last
line. -/
def body (grammar : Grammar) (bytes : List UInt8) : Except Stop (List UInt8) :=
  match bare grammar bytes with
  | .ok rest => trailing rest
  | .error stop => .error stop

theorem length_regex_lt {bytes rest : List UInt8} (h : regex bytes = .ok rest) :
    rest.length < bytes.length := by
  unfold regex at h
  split at h
  · cases h
  · split at h
    · exact Nat.lt_succ_of_lt (length_quoted_lt h)
    · cases h

theorem length_trailing_le {bytes rest : List UInt8} (h : trailing bytes = .ok rest) :
    rest.length ≤ bytes.length := by
  fun_induction trailing bytes with
  | case1 =>
    cases h
    exact Nat.le_refl _
  | case2 =>
    cases h
    exact Nat.le_refl _
  | case3 bytes b tail hb _ behind hr ih =>
    have hd : (bytes.dropWhile Byte.isBlank).length ≤ bytes.length :=
      (List.dropWhile_sublist _).length_le
    rw [hb] at hd
    exact Nat.le_trans (ih h) (Nat.le_of_lt (Nat.lt_of_lt_of_le (length_remark?_lt hr) hd))
  | case4 => cases h
  | case5 => cases h

/-- A body has at least one byte. -/
theorem length_body_lt {grammar : Grammar} {bytes rest : List UInt8}
    (h : body grammar bytes = .ok rest) : rest.length < bytes.length := by
  unfold body at h
  cases hb : bare grammar bytes with
  | error stop =>
    rw [hb] at h
    cases h
  | ok behind =>
    rw [hb] at h
    refine Nat.lt_of_le_of_lt (length_trailing_le h) ?_
    cases grammar with
    | jsight => exact length_value_lt hb
    | regex => exact length_regex_lt hb

/-! ## Extent -/

/-- Why a body has no extent, and the offset in it at which this shows. -/
structure Fault where
  complaint : Complaint
  offset : Nat
  deriving DecidableEq, Repr

def Fault.message (f : Fault) : String :=
  f.complaint.message

def Fault.render (f : Fault) : String :=
  f.message ++ " (at schema byte " ++ toString f.offset ++ ")"

/-- The offset in a document whose body starts at `start`. -/
def Fault.offsetFrom (start : Nat) (f : Fault) : Nat :=
  min (start + f.offset) maxOffset

/-- A stop as a fault of the whole: its offset is that of the byte that could
not be read, or of the last byte if the bytes ran out. -/
def Stop.fault (total : Nat) (s : Stop) : Fault :=
  ⟨s.complaint, min (total - s.rest.length) (total - 1)⟩

/-- The number of bytes in the body at the start of `bytes`. -/
def extent (grammar : Grammar) (bytes : List UInt8) : Except Fault Nat :=
  match body grammar bytes with
  | .ok rest => .ok (bytes.length - rest.length)
  | .error stop => .error (stop.fault bytes.length)

theorem extent_bounds {grammar : Grammar} {bytes : List UInt8} {n : Nat}
    (h : extent grammar bytes = .ok n) : 0 < n ∧ n ≤ bytes.length := by
  unfold extent at h
  split at h
  · cases h
    have := length_body_lt ‹_›
    omega
  · cases h

/-- What 32 bits keep of a number. -/
def narrow (n : Nat) : Nat :=
  n % (maxOffset + 1)

theorem narrow_of_le {n : Nat} (h : n ≤ maxOffset) : narrow n = n :=
  Nat.mod_eq_of_lt (Nat.lt_succ_of_le h)

def Fault.narrow (f : Fault) : Fault :=
  { f with offset := Schema.narrow f.offset }

/-- The extent of the body at the start of `bytes`, in 32 bits. -/
def measured (grammar : Grammar) (bytes : List UInt8) : Except Fault Nat :=
  ((extent grammar bytes).map narrow).mapError Fault.narrow

theorem measured_eq_ok_iff {grammar : Grammar} {bytes : List UInt8} {n : Nat} :
    measured grammar bytes = .ok n ↔ ∃ stop, extent grammar bytes = .ok stop ∧ n = narrow stop := by
  rw [measured]
  cases extent grammar bytes with
  | ok stop =>
    constructor
    · rintro ⟨⟩
      exact ⟨stop, rfl, rfl⟩
    · rintro ⟨_, ⟨⟩, rfl⟩
      rfl
  | error fault => exact iff_of_false nofun nofun

end ApiDoc.Schema
