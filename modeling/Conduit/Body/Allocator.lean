import Conduit.Bytes
import Conduit.Storage
import Conduit.Text.Record

namespace Conduit

structure Body where
  /-- The bytes written so far, the last one first. -/
  written : Bytes := []
  /-- The number of bytes not written yet, which read as zero. -/
  room : Nat
  /-- The number of the pool that the storage came from. -/
  home : Option Nat := none

namespace Body

def size (b : Body) : Nat := b.written.length + b.room

def bytes (b : Body) : Bytes := b.written.reverse ++ List.replicate b.room 0

def push (b : Body) (x : UInt8) : Body := { b with written := x :: b.written, room := b.room - 1 }

def fill (b : Body) (bytes : Bytes) : Body :=
  let bytes := bytes.take b.size
  let written := bytes ++ b.written.reverse.drop bytes.length
  { b with written := written.reverse, room := b.size - written.length }

/-- A body of zeros to be written from its first byte on. -/
def rewind (b : Body) : Body := { b with written := [], room := b.size }

def describe (b : Body) : String :=
  Text.record "BodyMut" [("len", toString b.size), ("pooled", toString b.home.isSome)]

end Body

/-- What gives the bodies that messages are decoded into. -/
class Provider (A : Type) where
  allocate : Nat → A → Except AllocationError (Body × A)
  /-- The last payload over storage from the pool of that number is gone. -/
  recycle : Bytes → Nat → A → A

/-- Used storage that is kept for later bodies. -/
structure Pool where
  capacity : Nat
  idle : List Bytes := []

namespace Pool

def newest? (p : Pool) : Option Bytes := p.idle.head?

/-- Takes the newest storage out, if there is any. -/
def leave (p : Pool) : Pool := { p with idle := p.idle.tail }

/-- Takes storage back. A full pool lets it go. -/
def put (storage : Bytes) (p : Pool) : Pool :=
  if p.idle.length < p.capacity then { p with idle := storage :: p.idle } else p

end Pool

/-- Where bodies get their storage: each time anew, from a pool up to a largest size, or from one of
two supplies by a size threshold. Pools go by number, and supplies that name the same one share
it. -/
inductive Supply where
  | heap
  | pool (maxSize number : Nat)
  | threshold (limit : Nat) (small large : Supply)

namespace Supply

/-- A body of `size` zero bytes. What used storage held before is cleared. -/
def allocate (size : Nat) (pools : List Pool) : Supply → Except AllocationError (Body × List Pool)
  | heap => do
    Storage.reserve size
    return ({ room := size }, pools)
  | pool maxSize number =>
    if size > maxSize then do
      Storage.reserve size
      return ({ room := size }, pools)
    else
      let rest := pools.modify number Pool.leave
      match pools[number]?.bind Pool.newest? with
      | some storage => .ok ({ written := storage.take 0, room := size, home := some number }, rest)
      | none => do
        Storage.reserve maxSize
        return ({ room := size, home := some number }, rest)
  | threshold limit small large =>
    if size < limit then small.allocate size pools else large.allocate size pools

def handles : Supply → List (Nat × Nat)
  | heap => []
  | pool maxSize number => [(maxSize, number)]
  | threshold _ small large => small.handles ++ large.handles

def behind (n : Nat) : Supply → Supply
  | heap => heap
  | pool maxSize number => pool maxSize (n + number)
  | threshold limit small large => threshold limit (small.behind n) (large.behind n)

end Supply

/-- A supply together with the pools that it can name. -/
structure Allocator where
  supply : Supply := .heap
  stock : List Pool := []
deriving Inhabited

namespace Allocator

def defaultCapacity : Nat := 64

def heap : Allocator := {}

def pool (maxSize capacity : Nat) (idle : List Bytes) : Allocator :=
  { supply := .pool maxSize 0, stock := [{ capacity, idle }] }

def threshold (limit : Nat) (small large : Allocator) : Allocator where
  supply := .threshold limit small.supply (large.supply.behind small.stock.length)
  stock := small.stock ++ large.stock

def allocate (size : Nat) (a : Allocator) : Except AllocationError (Body × Allocator) := do
  let (body, stock) ← a.supply.allocate size a.stock
  return (body, { a with stock })

def recycle (storage : Bytes) (number : Nat) (a : Allocator) : Allocator :=
  { a with stock := a.stock.modify number (Pool.put storage) }

instance : Provider Allocator := ⟨allocate, recycle⟩

def pools (a : Allocator) : List (Nat × List Bytes) :=
  a.supply.handles.map fun (maxSize, number) ↦ (maxSize, a.stock[number]?.elim [] Pool.idle)

def pooled (a : Allocator) : List Nat := a.pools.map fun p ↦ p.2.length

def describePool (p : Nat × List Bytes) : String :=
  Text.record "PoolAllocator" [("max_size", toString p.1), ("pooled", toString p.2.length)]

end Allocator

end Conduit
