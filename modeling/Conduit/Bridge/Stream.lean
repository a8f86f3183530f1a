import Conduit.Bytes

namespace Conduit.Bridge

inductive Read where
  | bytes (bs : Bytes)
  | ended
  | failed
  | waiting

inductive Write where
  | accepted (n : Nat)
  | failed
  | waiting

/-- A two-way byte stream: what has arrived and was not read, what it still takes, and what was
written to it. -/
structure Stream where
  unread : Bytes := []
  ended : Bool := false
  readFails : Bool := false
  writeFails : Bool := false
  flushFails : Bool := false
  credit : Option Nat := none
  maxRead : Option Nat := none
  maxWrite : Option Nat := none
  /-- The pieces written to it, the last one first. -/
  written : List Bytes := []

namespace Stream

def atMost (n : Nat) : Option Nat → Nat
  | none => n
  | some limit => min n limit

/-- Reads up to `room` bytes. A read that gives none ends the stream. -/
def read (s : Stream) (room : Nat) : Read × Stream :=
  if s.unread.isEmpty then
    (if s.readFails then .failed else if s.ended then .ended else .waiting, s)
  else
    let n := atMost room s.maxRead
    if n = 0 then (.ended, s)
    else (.bytes (s.unread.take n), { s with unread := s.unread.drop n })

/-- The first bytes, up to a limit if there is one. -/
def firstOf (bytes : Bytes) : Option Nat → Bytes
  | none => bytes
  | some limit => bytes.take limit

/-- Writes as many of some bytes as the stream takes now. -/
def write (s : Stream) (bytes : Bytes) : Write × Stream :=
  if s.writeFails then (.failed, s)
  else
    let piece := firstOf (firstOf bytes s.maxWrite) s.credit
    let n := piece.length
    if n = 0 then (.waiting, s)
    else (.accepted n, { s with credit := s.credit.map (· - n), written := piece :: s.written })

def output (s : Stream) : Bytes := s.written.reverse.flatten

def grant (s : Stream) (n : Nat) : Stream := { s with credit := some (s.credit.getD 0 + n) }

end Stream

end Conduit.Bridge
