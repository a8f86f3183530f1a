import Conduit.Wire.Dialect

namespace Conduit.Wire.FlagsFirst

/-- Steps after the first hold the flags of the message. -/
inductive Step where
  | flags
  | shortSize (flags : UInt8)
  | longSize (flags : UInt8)
deriving DecidableEq

def moreBit : UInt8 := 0x01

def largeBit : UInt8 := 0x02

def commandBit : UInt8 := 0x04

def headerLength : Step → Nat
  | .flags | .shortSize _ => 1
  | .longSize _ => 8

def flagsOf (bits : UInt8) : UInt8 :=
  (if bits &&& moreBit != 0 then Flag.more else 0)
    ||| (if bits &&& commandBit != 0 then Flag.command else 0)

def bitsOf (m : Message) : UInt8 :=
  (if m.more then moreBit else 0) ||| (if m.isCommand then commandBit else 0)

def next (step : Step) (field : Bytes) (limits : Limits) : Except DecodeError (Transition Step) :=
  match step with
  | .flags =>
    let flags := flagsOf (lead field)
    .ok (.header (if lead field &&& largeBit != 0 then .longSize flags else .shortSize flags))
  | .shortSize flags => (limits.bodySize (lead field).toNat).map (.body · flags)
  | .longSize flags => (limits.bodySize (ofBigEndian field)).map (.body · flags)

def header (m : Message) : Bytes :=
  if m.size > 255 then (bitsOf m ||| largeBit) :: bigEndian 8 m.size
  else [bitsOf m, UInt8.ofNat m.size]

def describe : Step → String
  | .flags => "Flags"
  | .shortSize flags => Text.record "OneByteSize" [("flags", toString flags.toNat)]
  | .longSize flags => Text.record "EightByteSize" [("flags", toString flags.toNat)]

end Conduit.Wire.FlagsFirst

namespace Conduit.Wire

def flagsFirst : Dialect where
  Step := FlagsFirst.Step
  start := .flags
  headerLength := FlagsFirst.headerLength
  next := FlagsFirst.next
  header := FlagsFirst.header
  describe := FlagsFirst.describe

end Conduit.Wire
