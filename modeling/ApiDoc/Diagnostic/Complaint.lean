import ApiDoc.Text.Byte

/-!
# Complaints

A reader that cannot go on says what it found and what it wanted. The outer
language and the embedded schemas word this alike.
-/

namespace ApiDoc

inductive Complaint where
  /-- A byte that cannot stand at this place. -/
  | invalidByte (byte : UInt8) (place expected : String)
  /-- The document ends where something must follow. -/
  | endOfFile (expected : String)
  /-- Anything else, in so many words. -/
  | plain (message : String)
  deriving DecidableEq, Repr

/-- The wording of a complaint. -/
def Complaint.message : Complaint → String
  | invalidByte byte place expected =>
    "invalid character \"" ++ Byte.describe byte ++ "\" " ++ place ++ ", expecting " ++ expected
  | endOfFile expected => "unexpected end of file, expecting " ++ expected
  | plain message => message

end ApiDoc
