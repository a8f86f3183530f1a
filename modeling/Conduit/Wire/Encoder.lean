import Conduit.Storage
import Conduit.Wire.Dialect

namespace Conduit.Wire

/-- Something that messages are pulled from, one at a time. -/
abbrev Source (σ : Type) := σ → Option Message × σ

namespace Source

def ofList : Source (List Message)
  | [] => (none, [])
  | m :: rest => (some m, rest)

def dry : Source Unit := fun _ ↦ (none, ())

end Source

inductive Part where
  | idle
  | header (m : Message)
  | body (m : Message)

/-- Writes messages as frames into pieces of any size. -/
structure Encoder (d : Dialect) where
  part : Part := .idle
  pos : Nat := 0
  bufferSize : Nat := defaultBufferSize

namespace Encoder

variable {d : Dialect} {σ : Type}

def ofBufferSize (d : Dialect) (size : Nat) : Encoder d := { bufferSize := max size 1 }

def create (d : Dialect) (size : Nat) : Except AllocationError (Encoder d) := do
  Storage.reserve size
  return ofBufferSize d size

def isIdle (e : Encoder d) : Bool :=
  match e.part with
  | .idle => true
  | _ => false

def load (e : Encoder d) (m : Message) : Option (Encoder d) :=
  if e.isIdle then some { e with part := .header m, pos := 0 } else none

/-- The bytes of the part that are still to be handed out. -/
def rest (e : Encoder d) : Bytes :=
  match e.part with
  | .idle => []
  | .header m => (d.header m).drop e.pos
  | .body m => m.data.drop e.pos

/-- Passes from a part that was handed out to the next one. An empty body is none. -/
def advance (e : Encoder d) : Encoder d :=
  match e.part with
  | .header m => { e with part := if m.size > 0 then .body m else .idle, pos := 0 }
  | _ => { e with part := .idle, pos := 0 }

/-- The rest of the body being written, if at least `least` bytes and one are left of it. -/
def takeBody (e : Encoder d) (least : Nat) : Option Bytes × Encoder d :=
  match e.part with
  | .body m => if m.size - e.pos < max least 1 then (none, e) else (some e.rest, e.advance)
  | _ => (none, e)

/-- Hands out up to `room` bytes of the part being written. -/
def emit (e : Encoder d) (room : Nat) : Bytes × Encoder d :=
  let rest := e.rest
  if rest.length ≤ room then (rest, e.advance)
  else (rest.take room, { e with pos := e.pos + room })

def refill (pull : Source σ) (s : σ) (e : Encoder d) : σ × Encoder d :=
  if e.isIdle then
    match pull s with
    | (none, s) => (s, e)
    | (some m, s) => (s, { e with part := .header m, pos := 0 })
  else (s, e)

/-- Fills `room` bytes in at most `turns` parts. -/
def fill (pull : Source σ) : Nat → σ → Encoder d → Nat → Bytes × σ × Encoder d
  | 0, s, e, _ => ([], s, e)
  | turns + 1, s, e, room =>
    if room = 0 then ([], s, e)
    else
      let (s, e) := e.refill pull s
      if e.isIdle then ([], s, e)
      else
        let (chunk, e) := e.emit room
        let (more, s, e) := fill pull turns s e (room - chunk.length)
        (chunk ++ more, s, e)

/-- Fills a piece of `room` bytes until it is full or the source runs dry. Each part of a frame has
a byte at least, so there are no more parts than bytes. -/
def encodeInto (pull : Source σ) (s : σ) (e : Encoder d) (room : Nat) : Bytes × σ × Encoder d :=
  fill pull room s e room

def encodePiece (pull : Source σ) (s : σ) (e : Encoder d) (size : Nat) :
    Except AllocationError (Bytes × σ × Encoder d) := do
  Storage.reserve size
  return e.encodeInto pull s size

/-- The next piece to send. It is empty if nothing is left to encode. A body with a rest as long as
the buffer goes out as it is. -/
def encode (pull : Source σ) (s : σ) (e : Encoder d) : Bytes × σ × Encoder d :=
  match e.takeBody e.bufferSize with
  | (some body, e) => (body, s, e)
  | (none, e) => e.encodeInto pull s e.bufferSize

/-- The pieces up to the first empty one, in at most `turns` pieces. -/
def drainN (pull : Source σ) : Nat → σ → Encoder d → List Bytes × σ × Encoder d
  | 0, s, e => ([], s, e)
  | turns + 1, s, e =>
    match e.encode pull s with
    | ([], s, e) => ([], s, e)
    | (chunk, s, e) =>
      let (chunks, s, e) := drainN pull turns s e
      (chunk :: chunks, s, e)

/-- Encodes a queue of messages to the end. No piece is empty but the last one. -/
def drain (e : Encoder d) (queue : List Message) : List Bytes × Encoder d :=
  let total := e.rest.length + 1
    + (match e.part with | .header m => m.size | _ => 0)
    + (queue.map d.encode).flatten.length
  let (chunks, _, e) := e.drainN Source.ofList total queue
  (chunks, e)

def describe (e : Encoder d) : String :=
  let part := match e.part with
    | .idle => "idle"
    | .header _ => "header"
    | .body _ => "body"
  Text.record "Encoder" [("state", Text.quoted part), ("pos", toString e.pos),
    ("buffer_size", toString e.bufferSize)]

end Encoder

end Conduit.Wire
