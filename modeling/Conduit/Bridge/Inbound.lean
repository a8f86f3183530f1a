import Conduit.Pipe.Pair
import Conduit.Wire.Decoder

namespace Conduit.Bridge

open Wire Pipe

structure Inbound (d : Dialect) where
  decoder : Decoder d
  bufferSize : Nat
  /-- The bytes in the buffer that the decoder has not seen. -/
  buffered : Bytes := []
  stalled : Option Message := none

namespace Inbound

variable {d : Dialect}

def wantsInput (i : Inbound d) : Bool := i.stalled.isNone && i.buffered.isEmpty

def discard (i : Inbound d) : Inbound d := { i with buffered := [], stalled := none }

/-- Whether the next read goes straight to the decoder: only if that takes a whole buffer. -/
def direct (i : Inbound d) : Bool := i.decoder.room ≥ i.bufferSize

def room (i : Inbound d) : Nat := if i.direct then i.decoder.room else i.bufferSize

def accept (i : Inbound d) (bytes : Bytes) (direct : Bool) : Except Failure (Inbound d) :=
  if direct then
    match i.decoder.commit bytes with
    | .error e => .error e
    | .ok (m, decoder) => .ok { i with decoder, stalled := m.map Delivery.message }
  else .ok { i with buffered := bytes }

/-- What delivering buffered messages comes to. After a failure the messages before it stay written,
but are not counted. -/
structure Delivered (d : Dialect) where
  count : Nat
  failure : Option Failure
  inbound : Inbound d
  link : Link

def writeStalled (i : Inbound d) (l : Link) : Option Bool × Inbound d × Link :=
  match i.stalled with
  | none => (none, i, l)
  | some m =>
    match l.write m with
    | (true, l) => (some true, { i with stalled := none }, l)
    | (false, l) => (some false, i, l)

/-- Writes message after message until the pipe is full or the buffer is used up. Each turn but the
last uses up a byte. -/
def deliverN : Nat → Nat → Inbound d → Link → Delivered d
  | 0, count, i, l => ⟨count, none, i, l⟩
  | turns + 1, count, i, l =>
    match i.writeStalled l with
    | (some false, i, l) => ⟨count, none, i, l⟩
    | (written, i, l) =>
      let count := if written.isSome then count + 1 else count
      if i.buffered.isEmpty then ⟨count, none, i, l⟩
      else
        match i.decoder.decode i.buffered with
        | .error e => ⟨0, some e, i, l⟩
        | .ok out =>
          let stalled := out.delivery.map Delivery.message
          deliverN turns count { i with decoder := out.decoder, buffered := out.rest, stalled } l

/-- Decodes buffered bytes into the pipe and publishes what was written. -/
def deliver (i : Inbound d) (l : Link) : Delivered d :=
  let out := deliverN (i.buffered.length + 1) 0 i l
  if out.count > 0 then { out with link := out.link.flush } else out

end Inbound

end Conduit.Bridge
