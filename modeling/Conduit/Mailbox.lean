import Conduit.Channel

namespace Conduit

inductive Wait where
  | ready
  | pending
  | closed
deriving DecidableEq

def Wait.closedMessage : String := "No notifier available: the peer endpoint has been dropped"

/-- Letters to one receiver, and the bell rung for one that fell asleep.

A ring stays until a wait takes it, and several rings count as one. -/
structure Mailbox (α : Type) where
  letters : Channel α
  rung : Bool := false
  closed : Bool := false

namespace Mailbox

variable {α : Type}

def chunkSize : Nat := 16

/-- The receiver starts asleep, so that the first letter wakes it. -/
def create : Mailbox α := { letters := (Channel.create chunkSize).checkRead.2 }

def send (b : Mailbox α) (x : α) : Mailbox α :=
  let (awake, letters) := (b.letters.write x false).flush
  { b with letters, rung := b.rung || !awake }

/-- The next letter. Finding none arms the bell for the next `send`. -/
def receive (b : Mailbox α) : Option α × Mailbox α :=
  let (x, letters) := b.letters.read
  (x, { b with letters })

def poll (b : Mailbox α) : Wait × Mailbox α :=
  (if b.closed then .closed else if b.rung then .ready else .pending, { b with rung := false })

def close (b : Mailbox α) : Mailbox α := { b with closed := true }

end Mailbox

end Conduit
