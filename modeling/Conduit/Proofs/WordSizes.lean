import Conduit.Proofs.Grammar
import Mathlib.Algebra.Group.Nat.Defs
import Mathlib.Data.List.Induction

namespace Conduit.Wire

def admitted (max size : UInt64) : Except DecodeError UInt64 :=
  if size > max then .error (.tooLarge size.toNat max.toNat) else .ok size

namespace SizeFirst

end SizeFirst

namespace FlagsFirst

end FlagsFirst

namespace Framing

end Framing

end Conduit.Wire
