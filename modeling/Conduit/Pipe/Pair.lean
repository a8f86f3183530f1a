import Conduit.Pipe.Link
import Conduit.Wire.Encoder

namespace Conduit.Pipe

inductive Side where
  | first
  | second
deriving DecidableEq

namespace Side

def other : Side → Side
  | first => second
  | second => first

end Side

/-- Both ends of a pipe. Ends that their owners let go of stay on record, marked as dropped. -/
structure Pair where
  first : Endpoint
  second : Endpoint
  firstDropped : Bool := false
  secondDropped : Bool := false

/-- What a pipe is built from, with one value for each end. -/
structure Settings where
  highMarks : Nat × Nat := (defaultHighWatermark, defaultHighWatermark)
  delays : Bool × Bool := (true, true)
  chunkSize : Nat := 256
  ids : Nat × Nat := (1, 2)

namespace Pair

def endpoint (id peerId highMark peerMark chunkSize : Nat) (delay : Bool) : Endpoint :=
  { id, peerId, delay, highMark, chunkSize,
    lowMark := lowWatermark peerMark,
    lane := { writing := Channel.create chunkSize } }

def ofSettings (s : Settings) : Pair where
  first := endpoint s.ids.1 s.ids.2 s.highMarks.1 s.highMarks.2 s.chunkSize s.delays.1
  second := endpoint s.ids.2 s.ids.1 s.highMarks.2 s.highMarks.1 s.chunkSize s.delays.2

def create (s : Settings) : Except ChunkQueue.Error Pair := do
  let _ ← (ChunkQueue.create Item.slotSize s.chunkSize : Except _ (ChunkQueue Item))
  return ofSettings s

def endOf (p : Pair) : Side → Endpoint
  | .first => p.first
  | .second => p.second

def dropped (p : Pair) : Side → Bool
  | .first => p.firstDropped
  | .second => p.secondDropped

def link (p : Pair) : Side → Link
  | .first => ⟨p.first, p.second⟩
  | .second => ⟨p.second, p.first⟩

def setLink (p : Pair) (side : Side) (l : Link) : Pair :=
  match side with
  | .first => { p with first := l.self, second := l.peer }
  | .second => { p with first := l.peer, second := l.self }

def act {ρ : Type} (p : Pair) (side : Side) (f : Link → ρ × Link) : ρ × Pair :=
  let (r, l) := f (p.link side)
  (r, p.setLink side l)

def drop (p : Pair) (side : Side) : Pair :=
  if p.dropped side then p
  else
    let p := p.setLink side (p.link side).abandon
    match side with
    | .first => { p with firstDropped := true }
    | .second => { p with secondDropped := true }

/-- The state of an end that is not dropped. -/
def state? (p : Pair) (side : Side) : Option State :=
  if p.dropped side then none else some (p.endOf side).state

end Pair

namespace Link

/-- The bytes on the wire of all that lies in the inbound queue. -/
def inboundLength (l : Link) (d : Wire.Dialect) : Nat :=
  (l.inbound.queue.toList.flatMap fun
    | .frame m => d.encode m
    | .delimiter => []).length

/-- Reads and encodes all frames, in pieces of a fresh encoder. -/
def encodeAll (l : Link) (d : Wire.Dialect) (bufferSize : Nat) :
    Except AllocationError (List Bytes × Link) := do
  let encoder ← Wire.Encoder.create d bufferSize
  let (chunks, l, _) := encoder.drainN Link.read (l.inboundLength d + 1) l
  return (chunks, l)

end Link

end Conduit.Pipe
