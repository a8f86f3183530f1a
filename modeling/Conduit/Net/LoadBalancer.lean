import Conduit.Net.Rota
import Conduit.Net.Table

namespace Conduit.Net

open Pipe

/-- Spreads messages over many pipes, one message to each in turn. -/
structure LoadBalancer extends Rota where
  /-- The message being written to the current pipe has more frames. -/
  more : Bool := false
  /-- The rest of the message being sent goes nowhere. -/
  dropping : Bool := false

inductive Refusal where
  /-- No pipe has room. The frame may be sent again. -/
  | wouldBlock
  /-- The pipe failed in the middle of the message, of which nothing remains. -/
  | aborted
deriving DecidableEq

def Refusal.message : Refusal → String
  | .wouldBlock => "No pipe can accept the message"
  | .aborted => "Multipart message aborted, the pipe stopped accepting frames"

inductive Sent where
  | placed (pipe : Nat)
  | dropped
  | refused (r : Refusal)
deriving DecidableEq

namespace LoadBalancer

def attach (b : LoadBalancer) (id : Nat) : LoadBalancer := { b with toRota := b.toRota.attach id }

def activated (b : LoadBalancer) (id : Nat) : LoadBalancer :=
  { b with toRota := b.toRota.activated id }

def deactivate (b : LoadBalancer) : LoadBalancer := { b with toRota := b.toRota.deactivate }

def advance (b : LoadBalancer) : LoadBalancer := { b with toRota := b.toRota.advance }

/-- Forgets a pipe whose termination is complete. The rest of a message that was being written to it
is dropped. -/
def terminated (b : LoadBalancer) (id : Nat) : LoadBalancer :=
  let writing := if b.more then b.current? else none
  let b := if writing = some id then { b with dropping := true } else b
  { b with toRota := b.toRota.forgetBeside id writing }

def abort (b : LoadBalancer) (m : Message) : LoadBalancer :=
  { b with dropping := m.more, more := false }

def sendN (t : Table) (m : Message) : Nat → LoadBalancer → Pairs → Sent × LoadBalancer × Pairs
  | 0, b, ps => (.refused .wouldBlock, b, ps)
  | turns + 1, b, ps =>
    match b.current? with
    | none => (.refused .wouldBlock, b, ps)
    | some id =>
      match t.act id (·.write m) ps with
      | (some true, ps) =>
        let b := { b with more := m.more }
        if m.more then (.placed id, b, ps)
        else (.placed id, b.advance, (t.act id (fun l ↦ ((), l.flush)) ps).2)
      | (some false, ps) =>
        if b.more then
          (.refused .aborted, b.abort m, (t.act id (fun l ↦ ((), l.rollback)) ps).2)
        else sendN t m turns b.deactivate ps
      | (none, ps) =>
        if b.more then (.refused .aborted, b.deactivate.abort m, ps)
        else sendN t m turns b.deactivate ps

/-- Sends one frame. All frames of a message go to one pipe, which publishes them with the last.
Pipes that have no room are set aside. -/
def send (b : LoadBalancer) (m : Message) (t : Table) (ps : Pairs) : Sent × LoadBalancer × Pairs :=
  if b.dropping then (.dropped, { b with more := m.more, dropping := m.more }, ps)
  else sendN t m (b.pipes.activeLength + 1) b ps

def hasOutN (t : Table) : Nat → LoadBalancer → Pairs → Bool × LoadBalancer × Pairs
  | 0, b, ps => (false, b, ps)
  | turns + 1, b, ps =>
    match b.current? with
    | none => (false, b, ps)
    | some id =>
      match t.act id Link.checkWrite ps with
      | (some true, ps) => (true, b, ps)
      | (_, ps) => hasOutN t turns b.deactivate ps

/-- Whether a frame can be sent. Pipes that have no room are set aside. -/
def hasOut (b : LoadBalancer) (t : Table) (ps : Pairs) : Bool × LoadBalancer × Pairs :=
  if b.more then (true, b, ps) else hasOutN t (b.pipes.activeLength + 1) b ps

def describe (b : LoadBalancer) : String :=
  Text.record "LoadBalancer" [("pipes", b.pipes.describe Endpoint.describeId),
    ("current", toString b.current), ("more", toString b.more), ("dropping", toString b.dropping)]

end LoadBalancer

end Conduit.Net
