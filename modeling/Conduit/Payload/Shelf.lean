import Conduit.Payload.View

namespace Conduit

/-- A payload together with the number of the buffer it shares with others. -/
structure Share (Label : Type) where
  buffer : Nat
  payload : Payload Label

/-- Numbered places for payloads. A new payload takes a new place, and its buffer a new number. -/
structure Shelf (Label : Type) where
  places : Array (Option (Share Label)) := #[]
  buffers : Nat := 0

namespace Shelf

variable {Label : Type}

def share? (s : Shelf Label) (place : Nat) : Option (Share Label) := (s.places[place]?).join

def get? (s : Shelf Label) (place : Nat) : Option (Payload Label) :=
  (s.share? place).map Share.payload

def newest? (s : Shelf Label) : Option (Payload Label) := s.get? (s.places.size - 1)

def put (s : Shelf Label) (share : Option (Share Label)) : Shelf Label :=
  { s with places := s.places.push share }

def setNew (s : Shelf Label) (place : Nat) (p : Payload Label) : Shelf Label :=
  { s with places := s.places.setIfInBounds place (some ⟨s.buffers, p⟩), buffers := s.buffers + 1 }

/-- Puts a payload over a buffer that no other payload shows. The place stays empty for `none`. -/
def add (s : Shelf Label) (p : Option (Payload Label)) : Shelf Label :=
  let s := s.put (p.map fun p ↦ ⟨s.buffers, p⟩)
  { s with buffers := s.buffers + 1 }

def addView (s : Shelf Label) (place : Nat) (lower upper : Bound) :
    Option (Payload Label) × Shelf Label :=
  let share := (s.share? place).bind fun share ↦
    (share.payload.view? lower upper).map fun p ↦ { share with payload := p }
  (share.map Share.payload, s.put share)

def shows (s : Shelf Label) (buffer : Nat) : Bool :=
  s.places.any fun
    | some share => share.buffer == buffer
    | none => false

/-- Empties a place. The last payload on a watched buffer takes the buffer with it. -/
def drop (s : Shelf Label) (place : Nat) : Option (Label × Bytes) × Shelf Label :=
  match s.share? place with
  | none => (none, s)
  | some share =>
    let s := { s with places := s.places.setIfInBounds place none }
    (if s.shows share.buffer then none else share.payload.buffer.report?, s)

end Shelf

end Conduit
