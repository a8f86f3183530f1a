import Conduit.Net.Rota
import Conduit.Net.Table

namespace Conduit.Net

open Pipe

/-- Reads from many pipes, one message from each in turn. -/
structure FairQueue extends Rota where
  /-- The message being read from the current pipe has more frames. -/
  more : Bool := false
  lastIn : Option Nat := none
  /-- The credential of that pipe, once it is gone. -/
  savedCredential : Bytes := []

namespace FairQueue

def attach (q : FairQueue) (id : Nat) : FairQueue := { q with toRota := q.toRota.attach id }

def activated (q : FairQueue) (id : Nat) : FairQueue := { q with toRota := q.toRota.activated id }

def deactivate (q : FairQueue) : FairQueue := { q with toRota := q.toRota.deactivate }

def advance (q : FairQueue) : FairQueue := { q with toRota := q.toRota.advance }

/-- Forgets a pipe whose termination is complete. The message that it was in the middle of is given
up. Its credential is kept if the last complete message came from it. -/
def terminated (q : FairQueue) (id : Nat) (credential : Bytes) : FairQueue :=
  let reading := if q.more then q.current? else none
  let q := if reading = some id then { q with more := false } else q
  let q := { q with toRota := q.toRota.forgetBeside id reading }
  if q.lastIn = some id then { q with savedCredential := credential, lastIn := none } else q

structure Received where
  message : Message
  pipe : Nat

def receiveN (t : Table) : Nat → FairQueue → Pairs → Option Received × FairQueue × Pairs
  | 0, q, ps => (none, q, ps)
  | turns + 1, q, ps =>
    match q.current? with
    | none => (none, q, ps)
    | some id =>
      match t.act id Link.read ps with
      | (some (some m), ps) =>
        let q := { q with more := m.more }
        (some ⟨m, id⟩, if m.more then q else { q with lastIn := some id }.advance, ps)
      | (_, ps) => receiveN t turns { q with more := false }.deactivate ps

def receive (q : FairQueue) (t : Table) (ps : Pairs) : Option Received × FairQueue × Pairs :=
  receiveN t (q.pipes.activeLength + 1) q ps

def hasInN (t : Table) : Nat → FairQueue → Pairs → Bool × FairQueue × Pairs
  | 0, q, ps => (false, q, ps)
  | turns + 1, q, ps =>
    match q.current? with
    | none => (false, q, ps)
    | some id =>
      match t.act id Link.checkRead ps with
      | (some true, ps) => (true, q, ps)
      | (_, ps) => hasInN t turns q.deactivate ps

/-- Whether there is a frame to read. Pipes that have none are set aside. -/
def hasIn (q : FairQueue) (t : Table) (ps : Pairs) : Bool × FairQueue × Pairs :=
  if q.more then (true, q, ps) else hasInN t (q.pipes.activeLength + 1) q ps

def credential (q : FairQueue) (t : Table) (ps : Pairs) : Bytes :=
  match q.lastIn.bind (t.endpoint? ps) with
  | some e => e.credential
  | none => q.savedCredential

def describe (q : FairQueue) : String :=
  Text.record "FairQueue" [("pipes", q.pipes.describe Endpoint.describeId),
    ("current", toString q.current), ("more", toString q.more),
    ("last_in", Text.optional (q.lastIn.map Endpoint.describeId)),
    ("saved_credential", Text.decimals q.savedCredential)]

end FairQueue

end Conduit.Net
