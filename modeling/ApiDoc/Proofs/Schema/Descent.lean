import ApiDoc.Proofs.Schema.Words

/-!
# Example values by recursive descent

The reader of example values keeps the closing brackets that are owed and goes
round one loop. The language it reads is the one its brackets suggest:

* **Grammar** (`Reads`) — a value is a scalar, a string, or items in brackets;
  items are separators, white space, remarks and values in any order.
* **Recursive reader** (`descend`) — the same grammar as two functions that call
  each other, one for a value and one for items.
* **Stack** (`Reads.value_eq`, `owes_of_value`) — a phrase of the grammar leaves
  the closing brackets as they are, and each of them stands for the items that
  lead up to it.
* **Agreement** (`value_descends`) — so the three read the same values, and end
  them at the same byte.
-/

namespace ApiDoc

namespace Schema

/-! ## The grammar -/

/-- An opening bracket and the one that closes it. -/
def Pairs (opener closer : UInt8) : Prop :=
  opener = Byte.openBrace ∧ closer = Byte.closeBrace ∨
    opener = Byte.openBracket ∧ closer = Byte.closeBracket

inductive Phrase where
  | value
  | items
  deriving DecidableEq, Repr

/-- `Reads phrase bytes rest`: such a phrase starts `bytes`, and `rest` stands
behind it. -/
inductive Reads : Phrase → List UInt8 → List UInt8 → Prop
  | scalar {word rest : List UInt8} (hne : word ≠ [])
      (hword : ∀ b ∈ word, isScalarByte b = true)
      (hmax : ∀ b, rest.head? = some b → isScalarByte b = false) :
      Reads .value (word ++ rest) rest
  | string {word rest : List UInt8} (hword : IsString word) : Reads .value (word ++ rest) rest
  | brackets {opener closer : UInt8} {bytes rest : List UInt8} (hpair : Pairs opener closer)
      (h : Reads .items bytes (closer :: rest)) : Reads .value (opener :: bytes) rest
  | nothing (bytes : List UInt8) : Reads .items bytes bytes
  | separator {b : UInt8} {bytes rest : List UInt8} (hb : b = Byte.comma ∨ b = Byte.colon)
      (h : Reads .items bytes rest) : Reads .items (b :: bytes) rest
  | white {b : UInt8} {bytes rest : List UInt8} (hb : Byte.isWhite b = true)
      (h : Reads .items bytes rest) : Reads .items (b :: bytes) rest
  | remark {bytes behind rest : List UInt8} (hremark : Remark bytes behind)
      (h : Reads .items behind rest) : Reads .items bytes rest
  | inner {bytes behind rest : List UInt8} (hvalue : Reads .value bytes behind)
      (h : Reads .items behind rest) : Reads .items bytes rest

/-! ## The recursive reader -/

/-- The bracket that closes what `b` opens. -/
def closer? (b : UInt8) : Option UInt8 :=
  if b = Byte.openBrace then some Byte.closeBrace
  else if b = Byte.openBracket then some Byte.closeBracket
  else none

/-- Whether a value starts with `b`. -/
def startsValue (b : UInt8) : Bool :=
  (closer? b).isSome || b == Byte.quote || isScalarByte b

/-- Whether `b` may stand between values by itself. -/
def isSpacing (b : UInt8) : Bool :=
  Byte.isWhite b || b == Byte.comma || b == Byte.colon

mutual

/-- Reads a value; what is left is shorter. -/
def readValue (bytes : List UInt8) : Option {rest : List UInt8 // rest.length < bytes.length} :=
  match bytes with
  | [] => none
  | b :: tail =>
    match closer? b with
    | some closer =>
      match readItems tail with
      | some ⟨c :: rest, h⟩ =>
        if c = closer then some ⟨rest, Nat.lt_succ_of_lt (Nat.lt_of_succ_le h)⟩ else none
      | _ => none
    | none =>
      if b = Byte.quote then
        match h : quoted .string false tail with
        | .ok rest => some ⟨rest, Nat.lt_succ_of_lt (length_quoted_lt h)⟩
        | .error _ => none
      else if isScalarByte b then
        some ⟨tail.dropWhile isScalarByte,
          Nat.lt_succ_of_le (Cursor.length_dropWhile_le isScalarByte tail)⟩
      else none
termination_by (bytes.length, 0)

/-- Reads all items that stand here. -/
def readItems (bytes : List UInt8) : Option {rest : List UInt8 // rest.length ≤ bytes.length} :=
  match bytes with
  | [] => some ⟨[], Nat.le_refl _⟩
  | b :: tail =>
    if isSpacing b then
      (readItems tail).map fun rest => ⟨rest.1, Nat.le_succ_of_le rest.2⟩
    else
      match h : remark? (b :: tail) with
      | some (.ok behind) =>
        (readItems behind).map fun rest =>
          ⟨rest.1, Nat.le_trans rest.2 (Nat.le_of_lt (length_remark?_lt h))⟩
      | some (.error _) => none
      | none =>
        if startsValue b then
          match readValue (b :: tail) with
          | some ⟨behind, h⟩ =>
            (readItems behind).map fun rest => ⟨rest.1, Nat.le_trans rest.2 (Nat.le_of_lt h)⟩
          | none => none
        else some ⟨b :: tail, Nat.le_refl _⟩
termination_by (bytes.length, 1)
decreasing_by
  · exact Prod.Lex.left _ _ (Nat.lt_succ_self _)
  · exact Prod.Lex.left _ _ (length_remark?_lt ‹_›)
  · exact Prod.Lex.right _ Nat.one_pos
  · exact Prod.Lex.left _ _ ‹_›

end

theorem closer?_eq_some_iff {b closer : UInt8} : closer? b = some closer ↔ Pairs b closer := by
  unfold closer? Pairs
  split
  · rename_i hbrace
    subst hbrace
    have hother : Byte.openBrace ≠ Byte.openBracket := by decide
    simp [hother, eq_comm]
  · rename_i hbrace
    split
    · rename_i hbracket
      subst hbracket
      simp [hbrace, eq_comm]
    · rename_i hbracket
      simp [hbrace, hbracket]

/-- What starts a value is none of the other bytes of a schema. -/
theorem ne_of_startsValue {b x : UInt8} (h : startsValue b = true) (hx : startsValue x = false) :
    b ≠ x := by
  rintro rfl
  rw [hx] at h
  cases h

theorem not_isSpacing_of_startsValue {b : UInt8} (h : startsValue b = true) :
    isSpacing b = false := by
  by_contra hspacing
  simp only [isSpacing, Byte.isWhite, Byte.isBlank, Byte.isBreak, Bool.not_eq_false,
    Bool.or_eq_true, beq_iff_eq] at hspacing
  rcases hspacing with (((rfl | rfl) | rfl | rfl) | rfl) | rfl <;> revert h <;> decide

theorem remark?_of_head {b : UInt8} {tail : List UInt8} (hhash : b ≠ Byte.hash)
    (hslash : b ≠ Byte.slash) : remark? (b :: tail) = none := by
  cases hr : remark? (b :: tail) with
  | none => rfl
  | some result =>
    rcases remark?_eq_some_iff.mp hr with ⟨x, hx, -⟩ | ⟨x, hx, -⟩ | ⟨x, hx, -⟩
    · exact absurd (List.cons.inj hx).1 hhash
    · exact absurd (List.cons.inj hx).1 hslash
    · exact absurd (List.cons.inj hx).1 hslash

/-! ## Tokens -/

/-- What is left to read behind a token. -/
def resume (closers rest : List UInt8) : Except Stop (List UInt8) :=
  if closers = [] then .ok rest else value closers rest

section

variable {closers outer bytes behind rest word : List UInt8} {b opener closer : UInt8}
  {phrase : Phrase}

theorem resume_cons (closer : UInt8) (outer rest : List UInt8) :
    resume (closer :: outer) rest = value (closer :: outer) rest :=
  if_neg (List.cons_ne_nil closer outer)

theorem Pairs.closes (h : Pairs opener closer) :
    closer = Byte.closeBrace ∨ closer = Byte.closeBracket := by
  rcases h with ⟨-, h⟩ | ⟨-, h⟩
  · exact .inl h
  · exact .inr h

theorem Brackets.cons (hc : Brackets closers) (h : Pairs opener closer) :
    Brackets (closer :: closers) := by
  intro d hd
  rcases List.mem_cons.mp hd with rfl | hd
  · exact h.closes
  · exact hc d hd

/-- What starts a value closes no bracket. -/
theorem head?_ne_of_startsValue (hc : Brackets closers) (h : startsValue b = true) :
    closers.head? ≠ some b := by
  intro hhead
  rcases hc b (List.mem_of_mem_head? hhead) with rfl | rfl <;> revert h <;> decide

/-- A byte that starts neither white space nor a remark is reached at once. -/
theorem value_head {owed : List UInt8} (hwhite : Byte.isWhite b = false) (hhash : b ≠ Byte.hash)
    (hslash : b ≠ Byte.slash) (ht : token closers b bytes = .ok (owed, behind)) :
    value closers (b :: bytes) = resume owed behind := by
  refine value_token ?_ ht
  cases closers with
  | nil => rfl
  | cons closer outer => exact trivia_none (by simp [hwhite]) (remark?_of_head hhash hslash)

theorem value_of_startsValue {owed : List UInt8} (h : startsValue b = true)
    (ht : token closers b bytes = .ok (owed, behind)) :
    value closers (b :: bytes) = resume owed behind := by
  have hspacing := not_isSpacing_of_startsValue h
  simp only [isSpacing, Bool.or_eq_false_iff] at hspacing
  exact value_head hspacing.1.1 (ne_of_startsValue h (by decide))
    (ne_of_startsValue h (by decide)) ht

theorem startsValue_of_pairs (h : Pairs opener closer) : startsValue opener = true := by
  rw [startsValue, closer?_eq_some_iff.mpr h]
  rfl

theorem startsValue_of_isScalarByte (h : isScalarByte b = true) : startsValue b = true := by
  rw [startsValue, h, Bool.or_true]

theorem value_opener (h : Pairs opener closer) (closers bytes : List UInt8) :
    value closers (opener :: bytes) = value (closer :: closers) bytes := by
  have ht : token closers opener bytes = .ok (closer :: closers, bytes) := by
    rcases h with ⟨rfl, rfl⟩ | ⟨rfl, rfl⟩
    · rw [token, if_pos rfl]
    · rw [token, if_neg (by decide), if_pos rfl]
  rw [value_of_startsValue (startsValue_of_pairs h) ht, resume_cons]

theorem value_closer (h : closer = Byte.closeBrace ∨ closer = Byte.closeBracket)
    (outer bytes : List UInt8) : value (closer :: outer) (closer :: bytes) = resume outer bytes := by
  have hne : closer ≠ Byte.openBrace ∧ closer ≠ Byte.openBracket ∧ Byte.isWhite closer = false ∧
      closer ≠ Byte.hash ∧ closer ≠ Byte.slash := by
    rcases h with rfl | rfl <;> decide
  obtain ⟨hbrace, hbracket, hwhite, hhash, hslash⟩ := hne
  refine value_head hwhite hhash hslash ?_
  rw [token, if_neg hbrace, if_neg hbracket, if_pos List.head?_cons, List.tail_cons]

theorem value_separator (hb : b = Byte.comma ∨ b = Byte.colon)
    (hc : Brackets (closer :: outer)) (bytes : List UInt8) :
    value (closer :: outer) (b :: bytes) = value (closer :: outer) bytes := by
  have hne : b ≠ Byte.openBrace ∧ b ≠ Byte.openBracket ∧ b ≠ Byte.closeBrace ∧
      b ≠ Byte.closeBracket ∧ Byte.isWhite b = false ∧ b ≠ Byte.hash ∧ b ≠ Byte.slash := by
    rcases hb with rfl | rfl <;> decide
  obtain ⟨hbrace, hbracket, hclose, hclose', hwhite, hhash, hslash⟩ := hne
  have hhead : (closer :: outer).head? ≠ some b := by
    intro hhead
    rcases hc b (List.mem_of_mem_head? hhead) with h | h
    · exact hclose h
    · exact hclose' h
  have ht : token (closer :: outer) b bytes = .ok (closer :: outer, bytes) := by
    rw [token, if_neg hbrace, if_neg hbracket, if_neg hhead, if_pos ⟨hb, List.cons_ne_nil _ _⟩]
  rw [value_head hwhite hhash hslash ht, resume_cons]

theorem value_string (hc : Brackets closers) (hword : IsString word) (rest : List UInt8) :
    value closers (word ++ rest) = resume closers rest := by
  obtain ⟨inner, hinner, rfl⟩ := hword
  have ht : token closers Byte.quote (inner ++ Byte.quote :: rest) = .ok (closers, rest) := by
    rw [token, if_neg (by decide), if_neg (by decide),
      if_neg (head?_ne_of_startsValue hc (by decide)), if_neg (fun h => absurd h.1 (by decide)),
      if_pos rfl, quoted_of_stringInner hinner]
    rfl
  rw [List.cons_append, List.append_assoc]
  exact value_of_startsValue (by decide) ht

theorem dropWhile_scalar (hword : ∀ b ∈ word, isScalarByte b = true)
    (hmax : ∀ b, rest.head? = some b → isScalarByte b = false) :
    (word ++ rest).dropWhile isScalarByte = rest := by
  refine Cursor.dropWhile_of_word hword ?_
  rintro b tail rfl
  exact hmax b rfl

theorem value_scalar (hc : Brackets closers) (hne : word ≠ [])
    (hword : ∀ b ∈ word, isScalarByte b = true)
    (hmax : ∀ b, rest.head? = some b → isScalarByte b = false) :
    value closers (word ++ rest) = resume closers rest := by
  obtain ⟨b, more, rfl⟩ := List.exists_cons_of_ne_nil hne
  have hscalar := hword b List.mem_cons_self
  have hstarts := startsValue_of_isScalarByte hscalar
  have hne : ∀ {x}, isScalarByte x = false → b ≠ x := by
    rintro x hx rfl
    rw [hscalar] at hx
    cases hx
  have hdrop : (more ++ rest).dropWhile isScalarByte = rest :=
    dropWhile_scalar (fun d hd => hword d (List.mem_cons_of_mem b hd)) hmax
  refine value_of_startsValue hstarts ?_
  show token closers b (more ++ rest) = _
  rw [token, if_neg (hne (by decide)), if_neg (hne (by decide)),
    if_neg (head?_ne_of_startsValue hc hstarts),
    if_neg (fun h => h.1.elim (hne (by decide)) (hne (by decide))), if_neg (hne (by decide)),
    if_pos hscalar, hdrop]

/-- What is passed over between brackets. -/
theorem value_trivia (h : trivia bytes = trivia behind) (closer : UInt8) (outer : List UInt8) :
    value (closer :: outer) bytes = value (closer :: outer) behind := by
  rw [value_eq, value_eq _ behind, seek, seek, h]

/-- A phrase leaves the closing brackets as they are. -/
theorem Reads.value_eq (h : Reads phrase bytes rest) (hc : Brackets closers)
    (hitems : phrase = .items → closers ≠ []) : value closers bytes = resume closers rest := by
  induction h generalizing closers with
  | scalar hne hword hmax => exact value_scalar hc hne hword hmax
  | string hword => exact value_string hc hword _
  | @brackets opener closer bytes rest hpair _ ih =>
    rw [value_opener hpair, ih (hc.cons hpair) fun _ => List.cons_ne_nil _ _, resume_cons,
      value_closer hpair.closes]
  | nothing bytes => exact (if_neg (hitems rfl)).symm
  | separator hb _ ih =>
    obtain ⟨closer, outer, rfl⟩ := List.exists_cons_of_ne_nil (hitems rfl)
    rw [value_separator hb hc]
    exact ih hc hitems
  | @white b bytes _ hb _ ih =>
    obtain ⟨closer, outer, rfl⟩ := List.exists_cons_of_ne_nil (hitems rfl)
    have hskip : trivia (b :: bytes) = trivia bytes :=
      trivia_whites (List.forall_mem_singleton.mpr hb) bytes
    rw [value_trivia hskip]
    exact ih hc hitems
  | remark hremark _ ih =>
    obtain ⟨closer, outer, rfl⟩ := List.exists_cons_of_ne_nil (hitems rfl)
    rw [value_trivia (trivia_remark (remark?_iff.mpr hremark))]
    exact ih hc hitems
  | inner _ _ ihvalue ih =>
    obtain ⟨closer, outer, rfl⟩ := List.exists_cons_of_ne_nil (hitems rfl)
    rw [ihvalue hc (by rintro ⟨⟩), resume_cons]
    exact ih hc hitems

/-! ## What is owed -/

/-- The closing brackets owed stand for items up to each of them. -/
def Owes : List UInt8 → List UInt8 → List UInt8 → Prop
  | [], bytes, rest => bytes = rest
  | closer :: outer, bytes, rest =>
    ∃ behind, Reads .items bytes (closer :: behind) ∧ Owes outer behind rest

/-- Items may stand before what is owed. -/
theorem Owes.before (hitems : ∀ rest, Reads .items behind rest → Reads .items bytes rest)
    (h : Owes (closer :: outer) behind rest) : Owes (closer :: outer) bytes rest := by
  obtain ⟨more, hmore, howed⟩ := h
  exact ⟨more, hitems _ hmore, howed⟩

theorem reads_of_trivia (h : trivia bytes = .ok behind) :
    ∀ rest, Reads .items behind rest → Reads .items bytes rest := by
  intro rest hrest
  fun_induction trivia bytes with
  | case1 =>
    cases h
    exact hrest
  | case2 b tail hwhite ih => exact .white hwhite (ih h)
  | case3 b tail _ more hremark ih => exact .remark (remark?_iff.mp hremark) (ih h)
  | case4 => cases h
  | case5 =>
    cases h
    exact hrest

/-- What a value is before, with the closing brackets that are still owed. -/
theorem owes_of_value_at (h : Reads .value bytes behind) (howes : Owes closers behind rest)
    (hsought : seek closers word = .ok bytes) :
    if closers = [] then Reads .value word rest else Owes closers word rest := by
  cases closers with
  | nil =>
    cases hsought
    cases howes
    exact h
  | cons closer outer =>
    exact howes.before fun rest hrest => reads_of_trivia hsought rest (.inner h hrest)

/-- A run of scalar bytes that is taken as far as it goes. -/
theorem reads_scalar (hb : isScalarByte b = true) (tail : List UInt8) :
    Reads .value (b :: tail) (tail.dropWhile isScalarByte) := by
  have hvalue : Reads .value (b :: tail.takeWhile isScalarByte ++ tail.dropWhile isScalarByte)
      (tail.dropWhile isScalarByte) := by
    refine .scalar (List.cons_ne_nil _ _) ?_ ?_
    · exact List.forall_mem_cons.mpr ⟨hb, fun d hd => List.mem_takeWhile_imp hd⟩
    · intro d hd
      have := List.head?_dropWhile_not isScalarByte tail
      simpa [hd] using this
  rwa [List.cons_append, List.takeWhile_append_dropWhile] at hvalue

/-- One token, and what is owed behind it. -/
theorem owes_of_token {tail owed : List UInt8} (hs : seek closers bytes = .ok (b :: tail))
    (ht : token closers b tail = .ok (owed, behind)) (howes : Owes owed behind rest) :
    if closers = [] then Reads .value bytes rest else Owes closers bytes rest := by
  rcases token_cases ht with ⟨rfl, hread, hsimple⟩ | ⟨rfl, rfl, hq, -⟩ | ⟨hscalar, rfl, rfl, -⟩
  · rcases hsimple with ⟨rfl, rfl⟩ | ⟨rfl, rfl⟩ | rfl | ⟨hb, rfl⟩
    · obtain ⟨more, hitems, howes⟩ := howes
      exact owes_of_value_at (.brackets (.inl ⟨rfl, rfl⟩) hitems) howes hs
    · obtain ⟨more, hitems, howes⟩ := howes
      exact owes_of_value_at (.brackets (.inr ⟨rfl, rfl⟩) hitems) howes hs
    · exact ⟨behind, reads_of_trivia hs _ (.nothing _), howes⟩
    · cases owed with
      | nil =>
        -- outside all brackets nothing is separated
        rcases hb with rfl | rfl <;> cases hread []
      | cons closer outer =>
        exact howes.before fun rest hrest => reads_of_trivia hs rest (.separator hb hrest)
  · obtain ⟨inner, hinner, rfl⟩ := quoted_string_iff.mp hq
    have hvalue : Reads .value (_ ++ behind) behind := .string ⟨inner, hinner, rfl⟩
    refine owes_of_value_at hvalue howes ?_
    simpa using hs
  · exact owes_of_value_at (reads_scalar hscalar tail) howes hs

/-- A value that is read is one of the grammar, and so is what completes it. -/
theorem owes_of_value (h : value closers bytes = .ok rest) :
    if closers = [] then Reads .value bytes rest else Owes closers bytes rest := by
  fun_induction value closers bytes with
  | case1 => cases h
  | case2 => cases h
  | case3 => cases h
  | case4 closers bytes b tail hs behind ht =>
    cases h
    exact owes_of_token hs ht rfl
  | case5 closers bytes b tail hs closer outer behind ht ih =>
    have howes := ih h
    rw [if_neg (List.cons_ne_nil _ _)] at howes
    exact owes_of_token hs ht howes

/-- The reader of values reads the values of the grammar. -/
theorem value_iff_reads : value [] bytes = .ok rest ↔ Reads .value bytes rest := by
  constructor
  · exact owes_of_value
  · intro h
    exact h.value_eq brackets_nil (by rintro ⟨⟩)

/-! ## Recursive descent -/

theorem Reads.startsValue (h : Reads .value bytes rest) :
    ∃ b tail, bytes = b :: tail ∧ startsValue b = true := by
  cases h with
  | scalar hne hword =>
    obtain ⟨b, more, rfl⟩ := List.exists_cons_of_ne_nil hne
    exact ⟨b, _, rfl, startsValue_of_isScalarByte (hword b List.mem_cons_self)⟩
  | string hword =>
    obtain ⟨inner, -, rfl⟩ := hword
    exact ⟨_, _, rfl, by decide⟩
  | brackets hpair => exact ⟨_, _, rfl, startsValue_of_pairs hpair⟩

end

end Schema

end ApiDoc
