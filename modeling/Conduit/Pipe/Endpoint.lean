import Conduit.Mailbox
import Conduit.Pipe.State

namespace Conduit.Pipe

/-- The queues from one end to the other: the one being written, and those that the reader has moved
on to since, oldest first. The reader reads the last. -/
structure Lane where
  writing : Channel Item
  fresh : List (Channel Item) := []

namespace Lane

def reading (l : Lane) : Channel Item := l.fresh.getLast?.getD l.writing

def setReading (l : Lane) (c : Channel Item) : Lane :=
  match l.fresh with
  | [] => { l with writing := c }
  | fresh => { l with fresh := fresh.dropLast ++ [c] }

def renew (l : Lane) (chunkSize : Nat) : Lane :=
  { l with fresh := l.fresh ++ [Channel.create chunkSize] }

def follow (l : Lane) : Lane :=
  match l.fresh with
  | [] => l
  | next :: fresh => { writing := next, fresh }

end Lane

/-- Above twice this mark the low watermark stays this far below the high one. -/
def maxWatermarkDelta : Nat := 1024

/-- The low watermark for a high one. -/
def lowWatermark (high : Nat) : Nat :=
  if high > 2 * maxWatermarkDelta then high - maxWatermarkDelta else (high + 1) / 2

def defaultHighWatermark : Nat := 1000

/-- One end of a pipe, with the queues that it writes and the commands sent to it. -/
structure Endpoint where
  id : Nat
  peerId : Nat
  state : State := .active
  /-- Read up to the delimiter when the peer terminates, and do not drop what is unread. -/
  delay : Bool
  inOpen : Bool := true
  outOpen : Bool := true
  /-- No read came up empty since the last `Command.activateRead`. -/
  inActive : Bool := true
  /-- No write hit the watermark since the last `Command.activateWrite`. -/
  outActive : Bool := true
  /-- The largest number of unread messages towards the peer. Zero sets no limit. -/
  highMark : Nat
  /-- The number of messages after which the peer is told that there is room. -/
  lowMark : Nat
  inBoost : Option Nat := none
  outBoost : Option Nat := none
  /-- The messages read so far, which the peer can see. -/
  messagesRead : Nat := 0
  messagesWritten : Nat := 0
  credential : Bytes := []
  routingId : Option UInt32 := none
  chunkSize : Nat
  lane : Lane
  inbox : Mailbox Command := .create

namespace Endpoint

def isTerminated (e : Endpoint) : Bool := e.state == .terminated

def canRead (e : Endpoint) : Bool := e.state == .active || e.state == .waitingForDelimiter

/-- Applies watermarks. Zero sets no limit, and so does a boost of zero. Sums are those of words. -/
def setWatermarks (e : Endpoint) (inbound outbound : Nat) : Endpoint :=
  let boosted (mark : Nat) (boost : Option Nat) : Nat :=
    if mark = 0 ∨ boost = some 0 then 0 else (mark + boost.getD 0) % wordLimit
  { e with
    lowMark := lowWatermark (boosted inbound e.inBoost)
    highMark := boosted outbound e.outBoost }

def setBoosts (e : Endpoint) (inbound outbound : Nat) : Endpoint :=
  { e with inBoost := some inbound, outBoost := some outbound }

def name (e : Endpoint) : String := "pipe#" ++ toString e.id

def describeId (id : Nat) : String := Text.tagged "PipeId" (toString id)

def describe (e : Endpoint) : String :=
  Text.record "Pipe" [("id", describeId e.id), ("peer_id", describeId e.peerId),
    ("state", e.state.name), ("hwm", toString e.highMark), ("lwm", toString e.lowMark),
    ("msgs_read", toString e.messagesRead), ("msgs_written", toString e.messagesWritten)]

end Endpoint

end Conduit.Pipe
