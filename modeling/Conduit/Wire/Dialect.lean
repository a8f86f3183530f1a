import Conduit.Message
import Conduit.Wire.Limits

namespace Conduit.Wire

inductive Transition (Step : Type) where
  | header (step : Step)
  | body (size : Nat) (flags : UInt8)

/-- A framing of messages: the header fields in reading order, and the header as written.

A step names the field that is read next, `next` takes the bytes of that field. -/
structure Dialect where
  Step : Type
  start : Step
  headerLength : Step → Nat
  next : Step → Bytes → Limits → Except DecodeError (Transition Step)
  header : Message → Bytes
  describe : Step → String

def lead (field : Bytes) : UInt8 := field.headD 0

def scratchSize : Nat := 10

def defaultBufferSize : Nat := 8192

def Dialect.encode (d : Dialect) (m : Message) : Bytes := d.header m ++ m.data

end Conduit.Wire
