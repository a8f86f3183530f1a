import Conduit.Wire.Dialect

namespace Conduit.Wire.SizeFirst

inductive Step where
  | shortSize
  | longSize
  /-- The flags of a frame whose body has that size. -/
  | flags (size : Nat)
deriving DecidableEq

def escape : UInt8 := 0xff

def headerLength : Step → Nat
  | .shortSize | .flags _ => 1
  | .longSize => 8

/-- The step after a size. A size of zero leaves no room for the flags. -/
def sized (limits : Limits) : Nat → Except DecodeError (Transition Step)
  | 0 => .error .missingFlags
  | size + 1 => (limits.bodySize size).map fun size ↦ .header (.flags size)

def next (step : Step) (field : Bytes) (limits : Limits) : Except DecodeError (Transition Step) :=
  match step with
  | .shortSize =>
    if lead field = escape then .ok (.header .longSize) else sized limits (lead field).toNat
  | .longSize => sized limits (ofBigEndian field)
  | .flags size => .ok (.body size (lead field &&& Flag.more))

def header (m : Message) : Bytes :=
  let more := m.flags &&& Flag.more
  if m.size + 1 < escape.toNat then [UInt8.ofNat (m.size + 1), more]
  else escape :: bigEndian 8 (m.size + 1) ++ [more]

def describe : Step → String
  | .shortSize => "OneByteSize"
  | .longSize => "EightByteSize"
  | .flags size => Text.record "Flags" [("size", toString size)]

end Conduit.Wire.SizeFirst

namespace Conduit.Wire

def sizeFirst : Dialect where
  Step := SizeFirst.Step
  start := .shortSize
  headerLength := SizeFirst.headerLength
  next := SizeFirst.next
  header := SizeFirst.header
  describe := SizeFirst.describe

end Conduit.Wire
