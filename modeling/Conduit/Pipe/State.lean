import Conduit.Message

namespace Conduit.Pipe

/-- Where an end of a pipe stands between its first message and its last handshake. -/
inductive State where
  | active
  /-- The delimiter was read before the request of the peer. -/
  | delimiterReceived
  /-- The peer asked to terminate, and what it sent before is still to be read. -/
  | waitingForDelimiter
  | termAckSent
  | terminating
  /-- Both ends asked at once. -/
  | doubleTerminated
  | terminated
deriving DecidableEq

def State.name : State → String
  | .active => "Active"
  | .delimiterReceived => "DelimiterReceived"
  | .waitingForDelimiter => "WaitingForDelimiter"
  | .termAckSent => "TermAckSent"
  | .terminating => "Terminating"
  | .doubleTerminated => "DoubleTerminated"
  | .terminated => "Terminated"

/-- What queues carry: frames, and a mark for the last of them. -/
inductive Item where
  | frame (m : Message)
  | delimiter
deriving DecidableEq

/-- The bytes that an item takes in a queue: the payload, the group, the routing id and the flags of
a frame, each aligned to words. -/
def Item.slotSize : Nat := 32 + 24 + 8 + 8

/-- Frames count against a watermark as they do for a message, a delimiter never does. -/
def Item.counts : Item → Bool
  | .frame m => m.counts
  | .delimiter => false

inductive Command where
  | activateRead
  | activateWrite
  /-- The reader has moved on to a fresh queue. -/
  | hiccup
  | term
  | termAck
  | watermarks (inbound outbound : Nat)
deriving DecidableEq

inductive Event where
  | readActivated
  | writeActivated
  | hiccuped
  | terminated
deriving DecidableEq

def Event.name : Event → String
  | .readActivated => "read_activated"
  | .writeActivated => "write_activated"
  | .hiccuped => "hiccuped"
  | .terminated => "pipe_terminated"

end Conduit.Pipe
