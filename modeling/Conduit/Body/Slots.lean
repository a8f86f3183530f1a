import Conduit.Body.Allocator
import Conduit.Payload.Shelf

namespace Conduit

/-- Numbered bodies from an allocator, each being written or already frozen.

Frozen bodies stand in the shelf's place of the same number. -/
structure Slots where
  allocator : Allocator
  writable : Array (Option Body) := #[]
  shelf : Shelf Nat := {}

namespace Slots

def add (s : Slots) (b : Option Body) : Slots :=
  { s with writable := s.writable.push b, shelf := s.shelf.put none }

def body? (s : Slots) (i : Nat) : Option Body := (s.writable[i]?).join

def frozen? (s : Slots) (i : Nat) : Option (Payload Nat) := s.shelf.get? i

/-- A body from any supply that names the same pools. -/
def allocateFrom (s : Slots) (supply : Supply) (size : Nat) :
    Except AllocationError (Body × Slots) := do
  let (b, stock) ← supply.allocate size s.allocator.stock
  return (b, { s with allocator.stock := stock }.add (some b))

def allocate (s : Slots) (size : Nat) : Except AllocationError (Body × Slots) :=
  s.allocateFrom s.allocator.supply size

def setBody (s : Slots) (i : Nat) (b : Option Body) : Slots :=
  { s with writable := s.writable.setIfInBounds i b }

def fill (s : Slots) (i : Nat) (bytes : Bytes) : Option Body × Slots :=
  match s.body? i with
  | none => (none, s)
  | some b => (some (b.fill bytes), s.setBody i (some (b.fill bytes)))

/-- The buffer of a frozen body. Pooled storage is watched for the moment it is free again. -/
def bufferOf (b : Body) : Buffer Nat :=
  match b.home with
  | none => .vector b.bytes
  | some number => .watched number b.bytes

def freeze (s : Slots) (i : Nat) : Option (Payload Nat) × Slots :=
  match s.body? i with
  | none => (none, s)
  | some b =>
    let p := Payload.whole (bufferOf b)
    (some p, { s.setBody i none with shelf := s.shelf.setNew i p })

def view (s : Slots) (i : Nat) (lower upper : Bound) : Option (Payload Nat) × Slots :=
  let (p, shelf) := s.shelf.addView i lower upper
  (p, { s with writable := s.writable.push none, shelf })

/-- Drops a body. Storage goes back to its pool with the last payload on it, and only then: a body
that was never frozen takes its storage along. -/
def drop (s : Slots) (i : Nat) : Slots :=
  let (report, shelf) := s.shelf.drop i
  let allocator := match report with
    | some (number, storage) => s.allocator.recycle storage number
    | none => s.allocator
  { s.setBody i none with shelf, allocator }

def dropAll (s : Slots) : Slots := (List.range s.writable.size).foldl drop s

end Slots

end Conduit
