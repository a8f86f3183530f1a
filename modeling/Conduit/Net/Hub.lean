import Conduit.Net.FairQueue
import Conduit.Net.LoadBalancer

namespace Conduit.Net

open Pipe

inductive Direction where
  | outgoing
  | incoming
deriving DecidableEq

/-- Pipes with their first ends behind a load balancer and their second ends behind a fair queue. -/
structure Hub where
  pairs : Pairs := {}
  outgoing : Table := {}
  incoming : Table := {}
  /-- Ends taken out of their table but still alive. -/
  aside : Table := {}
  balancer : LoadBalancer := {}
  queue : FairQueue := {}

namespace Hub

def table (h : Hub) : Direction → Table
  | .outgoing => h.outgoing
  | .incoming => h.incoming

def setTable (h : Hub) (dir : Direction) (t : Table) : Hub :=
  match dir with
  | .outgoing => { h with outgoing := t }
  | .incoming => { h with incoming := t }

def dropEnd (h : Hub) (p : Option Place) : Hub :=
  match p with
  | some p => { h with pairs := h.pairs.drop p }
  | none => h

def insert (h : Hub) (dir : Direction) (id : Nat) (p : Place) : Hub :=
  let t := h.table dir
  (h.setTable dir (t.insert id p)).dropEnd (t.find? id)

def connect (h : Hub) (s : Settings) (attach : Bool) : Except ChunkQueue.Error Hub := do
  let pair ← Pair.create s
  let n := h.pairs.list.size
  let h := { h with pairs := { list := h.pairs.list.push pair } }
  let h := (h.insert .outgoing s.ids.1 ⟨n, .first⟩).insert .incoming s.ids.2 ⟨n, .second⟩
  return if attach then
    { h with balancer := h.balancer.attach s.ids.1, queue := h.queue.attach s.ids.2 }
  else h

def act {ρ : Type} (h : Hub) (dir : Direction) (id : Nat) (f : Link → ρ × Link) : Option ρ × Hub :=
  let (r, pairs) := (h.table dir).act id f h.pairs
  (r, { h with pairs })

def endpoint? (h : Hub) (dir : Direction) (id : Nat) : Option Endpoint :=
  (h.table dir).endpoint? h.pairs id

def remove (h : Hub) (dir : Direction) (id : Nat) : Option Hub :=
  (h.table dir).find? id |>.map fun p ↦
    let h := h.setTable dir ((h.table dir).erase id)
    { h with aside := h.aside.insert id p }.dropEnd (h.aside.find? id)

def restore (h : Hub) (dir : Direction) (id : Nat) : Option Hub :=
  (h.aside.find? id).map fun p ↦ { h with aside := h.aside.erase id }.insert dir id p

def bury (h : Hub) (id : Nat) : Option Hub :=
  (h.aside.find? id).map fun p ↦ { h with aside := h.aside.erase id }.dropEnd p

/-- Tells the fair queue that an end is done, be it in the table or set aside. -/
def queueTerminated (h : Hub) (id : Nat) : Option Hub :=
  ((h.incoming.endpoint? h.pairs id).or (h.aside.endpoint? h.pairs id)).map fun e ↦
    { h with queue := h.queue.terminated id e.credential }

def send (h : Hub) (m : Message) : Sent × Hub :=
  let (sent, balancer, pairs) := h.balancer.send m h.outgoing h.pairs
  (sent, { h with balancer, pairs })

def hasOut (h : Hub) : Bool × Hub :=
  let (b, balancer, pairs) := h.balancer.hasOut h.outgoing h.pairs
  (b, { h with balancer, pairs })

def receive (h : Hub) : Option FairQueue.Received × Hub :=
  let (r, queue, pairs) := h.queue.receive h.incoming h.pairs
  (r, { h with queue, pairs })

def hasIn (h : Hub) : Bool × Hub :=
  let (b, queue, pairs) := h.queue.hasIn h.incoming h.pairs
  (b, { h with queue, pairs })

def receiveAllN : Nat → Hub → List Message × Hub
  | 0, h => ([], h)
  | turns + 1, h =>
    match h.receive with
    | (none, h) => ([], h)
    | (some r, h) =>
      let (ms, h) := receiveAllN turns h
      (r.message :: ms, h)

/-- Receives until nothing comes. No more can come than lies in all queues. -/
def receiveAll (h : Hub) : List Message × Hub :=
  let total := h.pairs.list.toList.foldl (fun n p ↦
    n + (p.link .first).inbound.queue.length + (p.link .second).inbound.queue.length) 0
  receiveAllN (total + 1) h

def credential (h : Hub) : Bytes := h.queue.credential h.incoming h.pairs

structure Report where
  processed : Nat := 0
  events : List (Event × Nat) := []

/-- Processes the commands of one end after the other, by rising id. -/
def processEach (dir : Direction) : List Nat → Hub → Report × Hub
  | [], h => ({}, h)
  | id :: ids, h =>
    let (r, h) := h.act dir id Link.process
    let r := r.getD {}
    let (rest, h) := processEach dir ids h
    (⟨r.processed + rest.processed, r.events.map (·, id) ++ rest.events⟩, h)

def process (h : Hub) (dir : Direction) : Report × Hub := processEach dir (h.table dir).ids h

/-- Passes an event of an end in a table on to the scheduler that it concerns. An end that is done
is dropped, after its scheduler forgot it. -/
def route (dir : Direction) (h : Hub) : Event × Nat → Hub
  | (.readActivated, id) => { h with queue := h.queue.activated id }
  | (.writeActivated, id) => { h with balancer := h.balancer.activated id }
  | (.hiccuped, _) => h
  | (.terminated, id) =>
    match (h.table dir).find? id with
    | none => h
    | some p =>
      let credential := ((h.pairs.endpoint? p).map Endpoint.credential).getD []
      let h := h.setTable dir ((h.table dir).erase id)
      let h := match dir with
        | .incoming => { h with queue := h.queue.terminated id credential }
        | .outgoing => { h with balancer := h.balancer.terminated id }
      h.dropEnd p

def routeAll (h : Hub) (dir : Direction) (events : List (Event × Nat)) : Hub :=
  events.foldl (route dir) h

end Hub

end Conduit.Net
