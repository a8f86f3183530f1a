import Conduit.Wire.Decoder
import Conduit.Wire.Encoder

namespace Conduit.Wire

/-- Cuts bytes into slices of the given sizes, over and over, in at most `turns` slices. -/
def cutN (sizes : List Nat) : Nat → List Nat → Bytes → List Bytes
  | 0, _, _ => []
  | _, _, [] => []
  | turns + 1, [], bytes =>
    match sizes with
    | [] => [bytes]
    | size :: due => bytes.take size :: cutN sizes turns due (bytes.drop size)
  | turns + 1, size :: due, bytes => bytes.take size :: cutN sizes turns due (bytes.drop size)

/-- Slices of the given sizes, over and over, or one slice if there are none. Sizes of zero are left
out, since nothing arrives with them. -/
def cut (sizes : List Nat) (bytes : Bytes) : List Bytes :=
  cutN (sizes.filter (· ≠ 0)) bytes.length [] bytes

structure Intake (d : Dialect) (A : Type := Allocator) where
  decoder : Decoder d A
  held : List Delivery := []

namespace Intake

variable {d : Dialect} {A : Type} [Provider A]

/-- Keeps a message, or drops it and so frees its body. -/
def settle (i : Intake d A) (hold : Bool) (m : Delivery) : Intake d A :=
  if hold then { i with held := i.held ++ [m] } else { i with decoder := i.decoder.recycle m }

def release (i : Intake d A) : Intake d A :=
  { decoder := i.held.foldl Decoder.recycle i.decoder }

def decode (i : Intake d A) (bytes : Bytes) (hold : Bool) :
    Except Failure (Option Message × Bytes × Intake d A) :=
  match i.decoder.decode bytes with
  | .error e => .error e
  | .ok out =>
    let i := { i with decoder := out.decoder }
    match out.delivery with
    | none => .ok (none, out.rest, i)
    | some m => .ok (some m.message, out.rest, i.settle hold m)

def commit (i : Intake d A) (bytes : Bytes) : Except Failure (Option Message × Intake d A) :=
  match i.decoder.commit bytes with
  | .error e => .error e
  | .ok (none, decoder) => .ok (none, { i with decoder })
  | .ok (some m, decoder) => .ok (some m.message, { i with decoder }.settle false m)

/-- Reads the messages of one slice in at most `turns` calls, behind those read before. The answer
holds the bytes that were left when a call failed. -/
def sliceN : Nat → Array Message → Intake d A → Bytes →
    Array Message × Bytes × Except Failure (Intake d A)
  | 0, messages, i, bytes => (messages, bytes, .ok i)
  | _, messages, i, [] => (messages, [], .ok i)
  | turns + 1, messages, i, bytes =>
    match i.decode bytes false with
    | .error e => (messages, bytes, .error e)
    | .ok (none, rest, i) => sliceN turns messages i rest
    | .ok (some m, rest, i) => sliceN turns (messages.push m) i rest

structure Yield (d : Dialect) (A : Type := Allocator) where
  messages : List Message
  /-- The bytes consumed by calls that did not fail. -/
  used : Nat
  outcome : Except Failure (Intake d A)

/-- Reads slice after slice until a call fails. Each call consumes a byte. -/
def slices (messages : Array Message) (used : Nat) (i : Intake d A) : List Bytes → Yield d A
  | [] => ⟨messages.toList, used, .ok i⟩
  | slice :: later =>
    match sliceN slice.length messages i slice with
    | (messages, rest, .error e) =>
      ⟨messages.toList, used + (slice.length - rest.length), .error e⟩
    | (messages, rest, .ok i) => slices messages (used + (slice.length - rest.length)) i later

def feed (i : Intake d A) (bytes : Bytes) (sizes : List Nat) : Yield d A :=
  slices #[] 0 i (cut sizes bytes)

end Intake

/-- A list of messages sent through an encoder and read back in slices of other sizes. -/
structure Passage where
  chunks : List Bytes
  messages : List Message
  failure : Option Failure

namespace Passage

def wire (p : Passage) : Bytes := p.chunks.flatten

def run (d : Dialect) (bufferSize : Nat) (limits : Limits) (messages : List Message)
    (sizes : List Nat) : Except AllocationError Passage := do
  let encoder ← Encoder.create d bufferSize
  let (chunks, _) := encoder.drain messages
  let decoder : Decoder d := { limits, allocator := .heap }
  let y := Intake.feed { decoder } chunks.flatten sizes
  let failure := match y.outcome with
    | .error e => some e
    | .ok _ => none
  return { chunks, messages := y.messages, failure }

end Passage

end Conduit.Wire
