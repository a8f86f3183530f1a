import Conduit.Body.Allocator
import Conduit.Wire.Dialect

namespace Conduit.Wire

inductive Failure where
  | malformed (e : DecodeError)
  | allocation (e : AllocationError)
deriving DecidableEq

inductive Stage (d : Dialect) where
  /-- A header field of which the first `filled` bytes are there. -/
  | header (step : d.Step) (filled : Nat)
  | body (body : Body) (flags : UInt8)

/-- A decoded message and the pool that its body has to go back to. -/
structure Delivery where
  message : Message
  home : Option Nat := none

/-- Reads frames from bytes that come in pieces of any size. -/
structure Decoder (d : Dialect) (A : Type := Allocator) where
  stage : Stage d := .header d.start 0
  /-- Room for one header field. A new field is written over an old one. -/
  scratch : Bytes := List.replicate scratchSize 0
  limits : Limits := {}
  allocator : A

namespace Decoder

variable {d : Dialect} {A : Type}

def room (c : Decoder d A) : Nat :=
  match c.stage with
  | .header step filled => d.headerLength step - filled
  | .body body _ => body.room

def filled (c : Decoder d A) : Nat :=
  match c.stage with
  | .header _ filled => filled
  | .body body _ => body.written.length

def write (c : Decoder d A) (b : UInt8) : Decoder d A :=
  match c.stage with
  | .header step filled =>
    { c with scratch := c.scratch.set filled b, stage := .header step (filled + 1) }
  | .body body flags => { c with stage := .body (body.push b) flags }

def deliver (c : Decoder d A) (body : Body) (flags : UInt8) : Delivery × Decoder d A :=
  (⟨{ data := body.bytes, flags }, body.home⟩, { c with stage := .header d.start 0 })

/-- The first `n` bytes that lie in the part being read as long as nobody has put others there. -/
def stale (c : Decoder d A) (n : Nat) : Bytes :=
  match c.stage with
  | .header _ filled => (c.scratch.drop filled).take n
  | .body _ _ => List.replicate n 0

def describe (c : Decoder d A) : String :=
  let reading := match c.stage with
    | .header step _ => [("step", d.describe step)]
    | .body body flags => [("body", toString body.size), ("flags", toString flags.toNat)]
  Text.record "Decoder" (reading ++ [("filled", toString c.filled), ("limits", c.limits.describe)])

variable [Provider A]

/-- Passes from a part that is complete to the next one. An empty body is complete at once. -/
def advance (c : Decoder d A) : Except Failure (Option Delivery × Decoder d A) :=
  if c.room ≠ 0 then .ok (none, c)
  else
    match c.stage with
    | .body body flags =>
      let (m, c) := c.deliver body flags
      .ok (some m, c)
    | .header step _ =>
      match d.next step (c.scratch.take (d.headerLength step)) c.limits with
      | .error e => .error (.malformed e)
      | .ok (.header step) => .ok (none, { c with stage := .header step 0 })
      | .ok (.body size flags) =>
        match Provider.allocate size c.allocator with
        | .error e => .error (.allocation e)
        | .ok (body, allocator) =>
          let c := { c with allocator }
          let body := body.rewind
          if body.room = 0 then
            let (m, c) := c.deliver body flags
            .ok (some m, c)
          else .ok (none, { c with stage := .body body flags })

def feed (c : Decoder d A) (b : UInt8) : Except Failure (Option Delivery × Decoder d A) :=
  (c.write b).advance

/-- What decoding a slice comes to: a message and the bytes behind it, or a call for more bytes. -/
structure Decoded (d : Dialect) (A : Type := Allocator) where
  delivery : Option Delivery
  rest : Bytes
  decoder : Decoder d A

/-- Reads bytes until a message is complete or none are left. -/
def decode (c : Decoder d A) : Bytes → Except Failure (Decoded d A)
  | [] => .ok ⟨none, [], c⟩
  | b :: rest =>
    match c.feed b with
    | .error e => .error e
    | .ok (some m, c) => .ok ⟨some m, rest, c⟩
    | .ok (none, c) => c.decode rest

/-- Takes bytes that were put straight into the part being read, which has room for them. -/
def commit (c : Decoder d A) : Bytes → Except Failure (Option Delivery × Decoder d A)
  | [] => .ok (none, c)
  | b :: rest =>
    match c.feed b with
    | .error e => .error e
    | .ok (some m, c) => .ok (some m, c)
    | .ok (none, c) => c.commit rest

def recycle (c : Decoder d A) (m : Delivery) : Decoder d A :=
  match m.home with
  | none => c
  | some number =>
    { c with allocator := Provider.recycle m.message.data number c.allocator }

end Decoder

end Conduit.Wire
