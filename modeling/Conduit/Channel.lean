import Conduit.ChunkQueue

namespace Conduit

/-- A queue from one writer to one reader.

Positions rise from the front of the queue: items before `published` may be read, those before
`complete` are published by the next flush, and those past it can still be taken back. -/
structure Channel (α : Type) where
  queue : ChunkQueue α
  published : Nat := 0
  complete : Nat := 0
  /-- The limit that the reader saw last. It looks at `published` only once it gets there. -/
  limit : Nat := 0
  /-- The reader found nothing and waits for a signal. -/
  asleep : Bool := false

namespace Channel

variable {α : Type}

def create (chunkSize : Nat) : Channel α := { queue := ChunkQueue.empty chunkSize }

/-- Appends an item. An incomplete one, and all that follow it, stay behind until a complete one. -/
def write (c : Channel α) (x : α) (incomplete : Bool) : Channel α :=
  let queue := c.queue.pushBack x
  { c with queue, complete := if incomplete then c.complete else queue.backPos }

/-- Takes back the last item unless it is complete. -/
def unwrite (c : Channel α) : Option α × Channel α :=
  if c.queue.backPos = c.complete then (none, c)
  else
    let (x, queue) := c.queue.popBack
    (x, { c with queue })

def unwriteN : Nat → Channel α → Channel α
  | 0, c => c
  | n + 1, c => unwriteN n c.unwrite.2

def rollback (c : Channel α) : Channel α := unwriteN (c.queue.backPos - c.complete) c

/-- Publishes what is complete. The answer is false if that leaves the reader to be woken. -/
def flush (c : Channel α) : Bool × Channel α :=
  if c.published = c.complete then (true, c)
  else (!c.asleep, { c with published := c.complete, asleep := false })

/-- Whether an item can be read. The reader falls asleep if none can. -/
def checkRead (c : Channel α) : Bool × Channel α :=
  if c.queue.frontPos ≠ c.limit then (true, c)
  else if c.asleep then (false, c)
  else if c.published = c.limit then (false, { c with asleep := true })
  else (true, { c with limit := c.published })

def read (c : Channel α) : Option α × Channel α :=
  match c.checkRead with
  | (false, c) => (none, c)
  | (true, c) =>
    let (x, queue) := c.queue.popFront
    (x, { c with queue })

def peek (c : Channel α) : Option α × Channel α :=
  match c.checkRead with
  | (false, c) => (none, c)
  | (true, c) => (c.queue.front?, c)

def readN : Nat → Channel α → List α × Channel α
  | 0, c => ([], c)
  | n + 1, c =>
    match c.read with
    | (none, c) => ([], c)
    | (some x, c) =>
      let (xs, c) := readN n c
      (x :: xs, c)

def readAll (c : Channel α) : List α × Channel α := readN (c.queue.length + 1) c

end Channel

end Conduit
