import Conduit.Bridge.Inbound
import Conduit.Bridge.Outbound
import Conduit.Bridge.Stream

namespace Conduit.Bridge

open Wire Pipe

inductive StreamError where
  | read
  | write
  | flush
deriving DecidableEq

def StreamError.message : StreamError → String
  | .read => "I/O error: read failed"
  | .write => "I/O error: write failed"
  | .flush => "I/O error: flush failed"

inductive Fault where
  | stream (e : StreamError)
  | protocol (e : DecodeError)
deriving DecidableEq

def Fault.message : Fault → String
  | .stream e => e.message
  | .protocol e => "Protocol error: " ++ e.message

inductive Outcome where
  | done
  | failed (f : Fault)
  | broken
deriving DecidableEq

structure Interest where
  read : Bool
  write : Bool
  room : Nat
  direct : Bool

inductive Phase where
  | top
  | waiting (i : Interest)
  /-- Writing what is left. Of the pending bytes the stream has not taken `rest`. -/
  | draining (rest : Bytes)
  | finished (o : Outcome)

structure Stats where
  bytesIn : Nat := 0
  bytesOut : Nat := 0
  messagesIn : Nat := 0
  messagesOut : Nat := 0

/-- An engine, with the whole pipe and the stream that it works on. -/
structure Engine (d : Dialect) where
  pair : Pair
  stream : Stream
  inbound : Inbound d
  outbound : Outbound d
  phase : Phase := .top
  reading : Bool := true
  writing : Bool := true
  stopping : Bool := false
  stopRequested : Bool := false
  fault : Option Fault := none
  stats : Stats := {}

namespace Engine

variable {d : Dialect}

def create (d : Dialect) (pair : Pair) (stream : Stream) (bufferSize : Nat) (limits : Limits) :
    Engine d :=
  let bufferSize := max bufferSize 1
  { pair, stream,
    inbound := { decoder := { limits, allocator := .heap }, bufferSize },
    outbound := { encoder := .ofBufferSize d bufferSize, bufferSize } }

def link (e : Engine d) : Link := e.pair.link .second

def setLink (e : Engine d) (l : Link) : Engine d := { e with pair := e.pair.setLink .second l }

def terminate (e : Engine d) : Engine d := e.setLink (e.link.terminate false)

/-- Stops reading from the stream and asks the pipe to terminate. -/
def closeInput (e : Engine d) : Engine d := { e with reading := false }.terminate

def fail (e : Engine d) (f : Fault) : Engine d :=
  { e with fault := e.fault.or (some f), inbound := e.inbound.discard }.closeInput

def finish (e : Engine d) (o : Outcome) : Engine d :=
  { e with phase := .finished o, pair := e.pair.drop .second }

def conclude (e : Engine d) : Engine d :=
  e.finish (match e.fault with
    | some f => .failed f
    | none => .done)

def concludeFlushed (e : Engine d) : Engine d :=
  if e.stream.flushFails then e.finish (.failed (.stream .flush)) else e.conclude

/-- Leaves the loop. Bytes that were encoded still go out. -/
def leave (e : Engine d) : Engine d :=
  if !e.writing then e.conclude
  else if e.outbound.pending.isEmpty then e.concludeFlushed
  else { e with phase := .draining e.outbound.pending }

def failWith (e : Engine d) : Failure → Engine d
  | .malformed err => e.fail (.protocol err)
  | .allocation _ => e.finish .broken

def deliver (e : Engine d) : Engine d :=
  let out := e.inbound.deliver e.link
  let e := { e with
    inbound := out.inbound
    stats := { e.stats with messagesIn := e.stats.messagesIn + out.count } }.setLink out.link
  match out.failure with
  | none => e
  | some f => e.failWith f

def refill (e : Engine d) : Engine d :=
  if e.writing then
    let (pulled, l, outbound) := e.outbound.refill Link.read e.link
    { e with
      outbound
      stats := { e.stats with messagesOut := e.stats.messagesOut + pulled } }.setLink l
  else e

def interest (e : Engine d) : Interest where
  read := e.reading && e.inbound.wantsInput
  write := e.writing && !e.outbound.pending.isEmpty
  room := e.inbound.room
  direct := e.inbound.direct

def begin (e : Engine d) : Engine d :=
  let e := e.setLink e.link.process.2
  if e.link.self.isTerminated then e.leave
  else
    let e := e.deliver
    match e.phase with
    | .finished _ => e
    | _ =>
      let e := e.refill
      { e with phase := .waiting e.interest }

def received (e : Engine d) (bytes : Bytes) (direct : Bool) : Engine d :=
  let e := { e with stats := { e.stats with bytesIn := e.stats.bytesIn + bytes.length } }
  match e.inbound.accept bytes direct with
  | .error f => e.failWith f
  | .ok inbound => { e with inbound }

/-- Reads from the stream. The answer is `none` if there is nothing yet. -/
def tryRead (e : Engine d) (i : Interest) : Option (Engine d) :=
  let (r, stream) := e.stream.read i.room
  let e := { e with stream }
  match r with
  | .waiting => none
  | .ended => some e.closeInput
  | .failed => some (e.fail (.stream .read))
  | .bytes bs => some (e.received bs i.direct)

/-- Writes pending bytes. The answer is `none` if the stream takes none now. -/
def tryWrite (e : Engine d) : Option (Engine d) :=
  let (w, stream) := e.stream.write e.outbound.pending
  let e := { e with stream }
  match w with
  | .waiting => none
  | .failed => some ({ e with writing := false }.fail (.stream .write))
  | .accepted n =>
    some { e with
      outbound := e.outbound.sent n
      stats := { e.stats with bytesOut := e.stats.bytesOut + n } }

def tryStream (e : Engine d) (i : Interest) : Option (Engine d) :=
  (if i.read then e.tryRead i else none).or (if i.write then e.tryWrite else none)

def again (e : Engine d) : Engine d :=
  match e.phase with
  | .finished _ => e
  | _ => { e with phase := .top }

/-- The turn from a wait. A stop comes first, then commands, reading and writing. -/
def await (e : Engine d) (i : Interest) : Option (Engine d) :=
  if e.stopRequested && !e.stopping then some { e with stopping := true }.closeInput.again
  else
    let (w, l) := e.link.poll
    let e := e.setLink l
    match w with
    | .closed => some e.leave
    | .ready => some e.again
    | .pending => (e.tryStream i).map again

/-- The turn while draining. Written bytes are counted once all pending ones are. -/
def drain (e : Engine d) (rest : Bytes) : Option (Engine d) :=
  if rest.isEmpty then
    let stats := { e.stats with bytesOut := e.stats.bytesOut + e.outbound.pending.length }
    let (_, _, outbound) := (e.outbound.sent e.outbound.pending.length).refill Source.dry ()
    some { e with stats, outbound }.leave
  else
    let (w, stream) := e.stream.write rest
    let e := { e with stream }
    match w with
    | .waiting => none
    | .failed => some (e.finish (.failed (.stream .write)))
    | .accepted n => some { e with phase := .draining (rest.drop n) }

/-- The next turn, `none` if there is nothing to do. -/
def turn (e : Engine d) : Option (Engine d) :=
  match e.phase with
  | .top => some e.begin
  | .waiting i => e.await i
  | .draining rest => e.drain rest
  | .finished _ => none

def turns : Nat → Engine d → Engine d
  | 0, e => e
  | n + 1, e =>
    match e.turn with
    | none => e
    | some e => turns n e

def outgoing (e : Engine d) : Nat :=
  e.outbound.pending.length + e.outbound.encoder.rest.length
    + (match e.outbound.encoder.part with | .header m => m.size | _ => 0)
    + e.link.inboundLength d

/-- More turns than the engine can take. Each round of two turns takes up a stop, a ring, the loss
of the peer, a byte read, the end of the input, or a byte written. -/
def budget (e : Engine d) : Nat := 16 + 2 * e.stream.unread.length + 4 * e.outgoing

def settle (e : Engine d) : Engine d := turns e.budget e

def outcome? (e : Engine d) : Option Outcome :=
  match e.phase with
  | .finished o => some o
  | _ => none

end Engine

end Conduit.Bridge
