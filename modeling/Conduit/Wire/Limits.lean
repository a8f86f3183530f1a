import Conduit.Bytes
import Conduit.Text.Record

namespace Conduit.Wire

/-- What makes a byte stream unreadable. There is no way back into step after it. -/
inductive DecodeError where
  | tooLarge (size max : Nat)
  | missingFlags
deriving DecidableEq

def DecodeError.message : DecodeError → String
  | .tooLarge size max =>
    "Message of " ++ toString size ++ " bytes exceeds the maximum of " ++ toString max ++ " bytes"
  | .missingFlags => "Frame is missing its flags byte"

structure Limits where
  maxSize : Option Nat := none
deriving DecidableEq

namespace Limits

/-- The announced size of a body, unless it is too large. -/
def bodySize (l : Limits) (size : Nat) : Except DecodeError Nat :=
  match l.maxSize with
  | none => .ok size
  | some max => if size > max then .error (.tooLarge size max) else .ok size

def describe (l : Limits) : String :=
  Text.record "Limits" [("max_msg_size", Text.optional (l.maxSize.map toString))]

end Limits

end Conduit.Wire
