import ApiDoc.Proofs.Machine.Turns

/-!
# The machine stays in bounds

The operations of the machine make demands: bytes are read inside the buffer,
slices and spans have their ends in order, sums can be held by an offset. Each is
checked where it arises, so that a machine that comes to a value has met all of
them; here it is shown that it always does.
-/

namespace ApiDoc

/-- **The machine stays in bounds.** For every source and every limit, any number
of turns comes to a value, so that no byte, slice, span, sum or difference in them
is out of bounds and no loop runs out of rounds. Behind them the head stands on the
buffer of the source, not past the end of the content, and both bytes that it may
look at are in the buffer. This machine gives what the scan gives. -/
theorem machine_in_bounds (source : Source) (limit n : Nat) :
    ((Machine.after source limit n).Yields fun (_, m) =>
      m.head = source.headAt m.head.pos ∧ m.head.pos ≤ source.length ∧
        m.head.pos + 1 < m.head.buffer.length ∧
        (∃ b, m.head.current = .ok b) ∧ ∃ b, m.head.peek = .ok b) ∧
      Machine.Scans source limit := by
  refine ⟨?_, Machine.scans source limit⟩
  obtain ⟨⟨given, m⟩, hafter, hsound⟩ := Machine.sound_after source limit n
  refine ⟨(given, m), hafter, ?_⟩
  obtain ⟨c, hheld, hhead⟩ := hsound.held
  have hle := hheld.pos_le
  have hlength := source.length_padded
  dsimp only
  rw [hhead]
  refine ⟨rfl, hle, ?_, ⟨_, hheld.current⟩, ⟨_, hheld.peek⟩⟩
  show c.pos + 1 < source.padded.length
  omega

end ApiDoc
