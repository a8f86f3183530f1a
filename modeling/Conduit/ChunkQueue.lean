import Conduit.Deque
import Conduit.Storage
import Conduit.Text.Record

namespace Conduit

/-- A queue laid out in chunks of equal capacity.

The chunk being filled comes last and is never full: filling it links an empty one behind it. Items
leave the first chunk from the front, and the chunk goes once all of its slots were used. One
unlinked chunk at most is kept for later use. -/
structure ChunkQueue (α : Type) where
  chunkSize : Nat
  /-- The items in each chunk before the last one. -/
  full : Deque (Deque α) := {}
  tail : Deque α := {}
  used : Nat := 0
  filled : Nat := 0
  frontPos : Nat := 0
  backPos : Nat := 0
  spare : Bool := false
  allocated : Nat := 1

namespace ChunkQueue

variable {α : Type}

inductive Error where
  | zeroCapacity
  | allocation (e : AllocationError)
deriving DecidableEq

def Error.message : Error → String
  | .zeroCapacity => "Chunk capacity must be greater than zero"
  | .allocation e => e.message

def empty (chunkSize : Nat) : ChunkQueue α := { chunkSize }

def create (slotSize chunkSize : Nat) : Except Error (ChunkQueue α) :=
  if chunkSize = 0 then .error .zeroCapacity
  else
    match Storage.reserve (slotSize * chunkSize) with
    | .error e => .error (.allocation e)
    | .ok _ => .ok (empty chunkSize)

def length (q : ChunkQueue α) : Nat := q.backPos - q.frontPos

def isEmpty (q : ChunkQueue α) : Bool := q.frontPos == q.backPos

def chain (q : ChunkQueue α) : List (List α) := q.full.toList.map Deque.toList ++ [q.tail.toList]

def toList (q : ChunkQueue α) : List α := q.chain.flatten

def takeChunk (q : ChunkQueue α) : ChunkQueue α :=
  if q.spare then { q with spare := false } else { q with allocated := q.allocated + 1 }

/-- Keeps an unlinked chunk unless one is kept already. -/
def retire (q : ChunkQueue α) : ChunkQueue α := { q with spare := true }

def pushBack (q : ChunkQueue α) (x : α) : ChunkQueue α :=
  let tail := q.tail.pushBack x
  let backPos := q.backPos + 1
  if q.filled + 1 = q.chunkSize then
    { q with full := q.full.pushBack tail, tail := {}, filled := 0, backPos }.takeChunk
  else { q with tail, filled := q.filled + 1, backPos }

/-- Unlinks an empty last chunk, so that the chunk before it is the one being filled. -/
def stepBack (q : ChunkQueue α) : ChunkQueue α :=
  if q.filled = 0 then
    match q.full.popBack? with
    | none => q
    | some (tail, full) => { q with full, tail, filled := q.chunkSize }.retire
  else q

def popBack (q : ChunkQueue α) : Option α × ChunkQueue α :=
  if q.isEmpty then (none, q)
  else
    let q := q.stepBack
    match q.tail.popBack? with
    | none => (none, q)
    | some (x, tail) =>
      (some x, { q with tail, filled := q.filled - 1, backPos := q.backPos - 1 })

def headChunk (q : ChunkQueue α) : Deque α := q.full.front?.getD q.tail

def front? (q : ChunkQueue α) : Option α := if q.isEmpty then none else q.headChunk.front?

/-- The item pushed last. It may lie in the chunk before an empty one. -/
def back? (q : ChunkQueue α) : Option α :=
  if q.isEmpty then none
  else if q.filled = 0 then q.full.back?.bind Deque.back? else q.tail.back?

/-- Takes an item out of the chunk that items leave from. -/
def takeFront? (q : ChunkQueue α) : Option (α × ChunkQueue α) :=
  match q.full.popFront? with
  | some (chunk, full) =>
    chunk.popFront?.map fun (x, chunk) ↦ (x, { q with full := full.pushFront chunk })
  | none => q.tail.popFront?.map fun (x, tail) ↦ (x, { q with tail })

/-- Unlinks the first chunk once all of its slots were used. -/
def stepFront (q : ChunkQueue α) : ChunkQueue α :=
  if q.used = q.chunkSize then { q with full := q.full.dropFront, used := 0 }.retire else q

def popFront (q : ChunkQueue α) : Option α × ChunkQueue α :=
  if q.isEmpty then (none, q)
  else
    match q.takeFront? with
    | none => (none, q)
    | some (x, q) => (some x, { q with used := q.used + 1, frontPos := q.frontPos + 1 }.stepFront)

def popFrontN : Nat → ChunkQueue α → List (Option α) × ChunkQueue α
  | 0, q => ([], q)
  | n + 1, q =>
    let (x, q) := q.popFront
    let (xs, q) := popFrontN n q
    (x :: xs, q)

def popBackN : Nat → ChunkQueue α → List (Option α) × ChunkQueue α
  | 0, q => ([], q)
  | n + 1, q =>
    let (x, q) := q.popBack
    let (xs, q) := popBackN n q
    (x :: xs, q)

def pushAll (q : ChunkQueue α) (xs : List α) : ChunkQueue α := xs.foldl pushBack q

def rotate (q : ChunkQueue α) : List α → List α × ChunkQueue α
  | [] => ([], q)
  | x :: xs =>
    let (y, q) := (q.pushBack x).popFront
    let (ys, q) := q.rotate xs
    (y.toList ++ ys, q)

def describe (q : ChunkQueue α) : String :=
  Text.record "ChunkQueue" [("front_pos", toString q.frontPos), ("back_pos", toString q.backPos),
    ("chunk_size", toString q.chunkSize)]

end ChunkQueue

end Conduit
