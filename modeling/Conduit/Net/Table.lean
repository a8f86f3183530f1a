import Conduit.Pipe.Pair

namespace Conduit.Net

open Pipe

structure Place where
  pair : Nat
  side : Side
deriving DecidableEq

structure Pairs where
  list : Array Pair := #[]

namespace Pairs

def get? (ps : Pairs) (p : Place) : Option Pair := ps.list[p.pair]?

def endpoint? (ps : Pairs) (p : Place) : Option Endpoint := (ps.get? p).map (·.endOf p.side)

def act {ρ : Type} (ps : Pairs) (p : Place) (f : Link → ρ × Link) : Option ρ × Pairs :=
  match ps.get? p with
  | none => (none, ps)
  | some pair =>
    let (r, pair) := pair.act p.side f
    (some r, { list := ps.list.setIfInBounds p.pair pair })

def drop (ps : Pairs) (p : Place) : Pairs :=
  match ps.get? p with
  | none => ps
  | some pair => { list := ps.list.setIfInBounds p.pair (pair.drop p.side) }

end Pairs

/-- Ends of pipes by their ids. -/
structure Table where
  entries : List (Nat × Place) := []

namespace Table

def find? (t : Table) (id : Nat) : Option Place := t.entries.lookup id

def contains (t : Table) (id : Nat) : Bool := (t.find? id).isSome

def erase (t : Table) (id : Nat) : Table := { entries := t.entries.filter (·.1 ≠ id) }

def insert (t : Table) (id : Nat) (p : Place) : Table :=
  { entries := (id, p) :: (t.erase id).entries }

def ids (t : Table) : List Nat := (t.entries.map (·.1)).mergeSort

def length (t : Table) : Nat := t.entries.length

def endpoint? (t : Table) (ps : Pairs) (id : Nat) : Option Endpoint :=
  (t.find? id).bind ps.endpoint?

def act {ρ : Type} (t : Table) (id : Nat) (f : Link → ρ × Link) (ps : Pairs) : Option ρ × Pairs :=
  match t.find? id with
  | none => (none, ps)
  | some p => ps.act p f

end Table

end Conduit.Net
