namespace Conduit

inductive AllocationError where
  | capacityOverflow
deriving DecidableEq

def AllocationError.message : AllocationError → String
  | .capacityOverflow => "capacity overflow"

namespace Storage

/-- The number of bytes from which no storage can be had. -/
def limit : Nat := 0x8000000000000000

def reserve (size : Nat) : Except AllocationError Unit :=
  if size < limit then .ok () else .error .capacityOverflow

end Storage

end Conduit
