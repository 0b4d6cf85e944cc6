import ApiDoc.Proofs.Scan.Failure
import ApiDoc.Proofs.Scan.Ledger
import ApiDoc.Proofs.Schema.Stops

/-!
# Diagnostics of a scan point at what they are about

A scan that fails points at one offset (`PointsAt`).

* **The outer language** (`pointsAt_faultAt`): the fault is at the cursor, and
  its complaint fits the bytes from there on. So it is at the end of the source
  iff it says that the source ends.
* **Schemas** (`pointsAt_schema`): a schema that is handed over has a first byte,
  and its fault is about one of the bytes from there to the end of the source.
  That it ran out of bytes is told at the last of them.
-/

namespace ApiDoc

/-- The scan of a source comes to a schema in this grammar at `start` and has it
measured. -/
def Source.Measures (source : Source) (limit : Nat) (grammar : Grammar) (start : Nat) : Prop :=
  ∃ events t task later line c, Scan.Run limit (.start source.bytes) events t ∧
    t.agenda = task :: later ∧ Scan.HandsOver (t.drop later) task line c ∧ c.pos = start ∧
    line.declared.grammar? = some grammar

/-- The diagnostic of a scan is about the offset `p`. -/
structure PointsAt (source : Source) (limit : Nat) (d : Diagnostic) (p : Nat) : Prop where
  span : d.span? = some (.point p)
  code : d.code = .invalidByte ∨ d.code = .endOfFile ∨ d.code = .invalidSchema
  atEnd : d.code = .endOfFile ↔ p = source.length
  inside : d.code ≠ .endOfFile → p < source.length
  /-- A byte that a message shows is the byte at `p`. -/
  shown : ∀ text, d.message = "invalid character \"" ++ text →
    ∃ b place expected, source.byte? p = some b ∧
      text = Byte.describe b ++ "\" " ++ place ++ ", expecting " ++ expected
  /-- A fault of a schema is counted from its start. -/
  schema : d.code = .invalidSchema →
    ∃ grammar start fault, source.Measures limit grammar start ∧
      Schema.extent grammar (source.bytes.drop start) = .error fault ∧
      d.message = fault.message ∧ p = start + fault.offset ∧
      ∀ expected, fault.complaint = .endOfFile expected → p + 1 = source.length

/-! ## Messages -/

/-- Only a complaint about a byte tells of an invalid byte. -/
theorem Complaint.message_eq {complaint : Complaint} {text : String}
    (hplain : ∀ words, complaint = .plain words → Reticent words)
    (h : complaint.message = "invalid character \"" ++ text) :
    ∃ b place expected, complaint = .invalidByte b place expected ∧
      text = Byte.describe b ++ "\" " ++ place ++ ", expecting " ++ expected := by
  cases complaint with
  | invalidByte b place expected =>
    refine ⟨b, place, expected, rfl, ?_⟩
    have hwords : "invalid character \"" ++ Byte.describe b ++ "\" " ++ place ++ ", expecting "
        ++ expected = "invalid character \"" ++ text := h
    simp only [String.append_assoc] at hwords ⊢
    exact ((String.append_right_inj _).mp hwords).symm
  | endOfFile expected =>
    have hreticent : Reticent ("unexpected end of file, expecting " ++ expected) :=
      reticent_append rfl (by decide) expected
    exact absurd h (hreticent text)
  | plain words => exact absurd h (hplain words rfl text)

/-- Where bytes are left, the cursor stands at one of them. -/
theorem Source.Holds.pos_lt {source : Source} {c : Cursor} (h : source.Holds c)
    (hne : c.rest ≠ []) : c.pos < source.length := by
  have hstop := h.stop
  have hpos := List.length_pos_iff.mpr hne
  omega

namespace Scan

variable {source : Source} {limit : Nat} {c : Cursor}

/-! ## Faults of the outer language -/

theorem pointsAt_faultAt {complaint : Complaint} (hheld : source.Holds c)
    (hfits : complaint.Fits c.rest) :
    PointsAt source limit ((faultAt c complaint).diagnostic source) c.pos := by
  have hstop := hheld.stop
  have hinside : ((faultAt c complaint).diagnostic source).code ≠ .endOfFile →
      c.pos < source.length := by
    intro hcode
    refine hheld.pos_lt ?_
    cases complaint with
    | invalidByte b place expected =>
      obtain ⟨tail, hr⟩ := hfits
      rw [hr]
      exact List.cons_ne_nil b tail
    | endOfFile expected => exact absurd rfl hcode
    | plain words => exact hfits.1
  refine ⟨rfl, ?_, ⟨?_, ?_⟩, hinside, ?_, ?_⟩
  · cases complaint with
    | invalidByte | plain => exact .inl rfl
    | endOfFile => exact .inr (.inl rfl)
  · intro hcode
    cases complaint with
    | invalidByte | plain => cases hcode
    | endOfFile expected =>
      have hnil : c.rest = [] := hfits
      rw [hnil] at hstop
      exact hstop
  · intro hpos
    by_contra hcode
    exact absurd hpos (Nat.ne_of_lt (hinside hcode))
  · intro text htext
    have hplain : ∀ words, complaint = .plain words → Reticent words := by
      rintro words rfl
      exact hfits.2
    obtain ⟨b, place, expected, rfl, rfl⟩ := Complaint.message_eq hplain htext
    obtain ⟨tail, hr⟩ := hfits
    exact ⟨b, place, expected, hheld.byte?_pos hr, rfl⟩
  · intro hcode
    cases complaint with
    | invalidByte | endOfFile | plain => cases hcode

theorem pointsAt_unexpected (hheld : source.Holds c) (place expected : String) :
    PointsAt source limit ((unexpected c place expected).diagnostic source) c.pos := by
  unfold unexpected
  split
  · rename_i hr
    exact pointsAt_faultAt hheld hr
  · rename_i b tail hr
    exact pointsAt_faultAt hheld ⟨tail, hr⟩

/-! ## Faults of schemas -/

theorem pointsAt_schema {grammar : Grammar} {fault : Schema.Fault} (hheld : source.Holds c)
    (hmeasures : source.Measures limit grammar c.pos) (hne : c.rest ≠ [])
    (hfault : Schema.extent grammar c.rest = .error fault) :
    PointsAt source limit (Diagnostic.ofSchemaFault source c.pos fault) (c.pos + fault.offset) := by
  obtain ⟨hlt, hmarks⟩ := Schema.extent_fault hne hfault
  have hstop := hheld.stop
  have hinside : c.pos + fault.offset < source.length := by omega
  have hoffset : fault.offsetFrom c.pos = c.pos + fault.offset := by
    have hfits : source.length ≤ maxOffset := Nat.le_trans source.fits (Nat.sub_le _ _)
    exact Nat.min_eq_left (by omega)
  refine ⟨?_, .inr (.inr rfl), ⟨?_, ?_⟩, fun _ => hinside, ?_, ?_⟩
  · rw [← hoffset]
    rfl
  · intro hcode
    cases hcode
  · intro hend
    exact absurd hend (Nat.ne_of_lt hinside)
  · intro text htext
    unfold Schema.Fault.Marks at hmarks
    have hplain : ∀ words, fault.complaint = .plain words → Reticent words := by
      intro words hwords
      rw [hwords] at hmarks
      exact hmarks
    obtain ⟨b, place, expected, hb, rfl⟩ := Complaint.message_eq hplain htext
    rw [hb] at hmarks
    exact ⟨b, place, expected, (hheld.byte? fault.offset).trans hmarks, rfl⟩
  · intro _
    refine ⟨grammar, c.pos, fault, hmeasures, ?_, rfl, rfl, ?_⟩
    · rw [hheld.drop_pos]
      exact hfault
    · intro expected hexpected
      unfold Schema.Fault.Marks at hmarks
      rw [hexpected] at hmarks
      have hlast : fault.offset + 1 = c.rest.length := hmarks
      omega

/-! ## Scans -/

/-- A task that fails in a state a run leads to points at what it is about. -/
theorem Fails.pointsAt {t : State} {task : Task} {later : List Task} {events : List Event}
    {fault : Fault} (hrun : Run limit (.start source.bytes) events t)
    (ha : t.agenda = task :: later) (h : Fails limit (t.drop later) task fault) :
    ∃ p, PointsAt source limit (fault.diagnostic source) p := by
  have hheld : source.Holds t.cursor := (hrun.accounted (accounted_start source)).holds
  have hreached : ∀ {c}, (t.drop later).Reaches c → source.Holds c := by
    rintro c ⟨taken, htakes⟩
    exact hheld.move htakes
  cases h with
  | unexpected hreach place expected =>
    exact ⟨_, pointsAt_unexpected (hreached hreach) place expected⟩
  | tooDeep hreach hr =>
    refine ⟨_, pointsAt_faultAt (hreached hreach) ⟨?_, reticent_append rfl (by decide) _⟩⟩
    rw [hr]
    exact List.cons_ne_nil _ _
  | @unwanted line c hover hnone =>
    refine ⟨_, pointsAt_faultAt (hreached hover.reaches) ⟨hover.rest_ne_nil, ?_⟩⟩
    rw [String.append_assoc]
    exact reticent_append rfl (by decide) _
  | schema hover hgrammar hfault =>
    exact ⟨_, pointsAt_schema (hreached hover.reaches)
      ⟨events, t, task, later, _, _, hrun, ha, hover, rfl, hgrammar⟩ hover.rest_ne_nil hfault⟩

end Scan

/-- The diagnostic of a scan that fails points at one offset: at the end of the
source iff it says that the source ends, and else at a byte, which is the one it
shows. A schema is blamed at an offset counted from its start, and at the last
byte of the source if the schema does not end. -/
theorem scan_error_points {source : Source} {limit : Nat} {d : Diagnostic}
    (h : source.scan limit = .error d) : ∃ p, PointsAt source limit d p := by
  obtain ⟨events, t, task, later, fault, hrun, ha, hfails, rfl⟩ := Scan.fails_of_scan h
  exact hfails.pointsAt hrun ha

/-- A byte that starts no value is blamed in its place, and an array that is not
closed at the last byte of the source. -/
theorem scan_error_points_array :
    (let source : Source := ⟨"", Utf8.bytes "TYPE @a\n[1 ?]", by decide⟩
    ∃ d, source.scan 1 = .error d ∧ d.code = .invalidSchema ∧ PointsAt source 1 d 11 ∧
      source.byte? 11 = some 0x3F) ∧
    (let source : Source := ⟨"", Utf8.bytes "TYPE @a\n[1 ", by decide⟩
    ∃ d, source.scan 1 = .error d ∧ d.code = .invalidSchema ∧ PointsAt source 1 d 10 ∧
      source.length = 11) := by
  refine ⟨?_, ?_⟩
  · let source : Source := ⟨"", Utf8.bytes "TYPE @a\n[1 ?]", by decide⟩
    have hscan : source.scan 1 = .error (.inSource
        (.schema (.invalidByte 0x3F "in schema" "value or \"]\"")) source (.point 11)) := by
      decide +kernel
    obtain ⟨p, hp⟩ := scan_error_points hscan
    obtain rfl : p = 11 := by
      cases hp.span
      rfl
    exact ⟨_, hscan, rfl, hp, rfl⟩
  · let source : Source := ⟨"", Utf8.bytes "TYPE @a\n[1 ", by decide⟩
    have hscan : source.scan 1 = .error (.inSource
        (.schema (.endOfFile "\"]\"")) source (.point 10)) := by
      decide +kernel
    obtain ⟨p, hp⟩ := scan_error_points hscan
    obtain rfl : p = 10 := by
      cases hp.span
      rfl
    exact ⟨_, hscan, rfl, hp, rfl⟩

end ApiDoc
