import Conduit.Text.Hex
import Conduit.Text.Quoted
import Conduit.Text.Record

namespace Conduit

namespace Flag

/-- More frames of the same logical message follow. -/
def more : UInt8 := 0x01

def command : UInt8 := 0x02

def credential : UInt8 := 0x20

def routingId : UInt8 := 0x40

end Flag

/-- One frame. A logical message is a run of frames of which all but the last carry `Flag.more`. -/
structure Message where
  data : Bytes := []
  flags : UInt8 := 0
  routingId : Option UInt32 := none
  group : Option String := none
deriving DecidableEq, Inhabited

namespace Message

def size (m : Message) : Nat := m.data.length

def has (m : Message) (f : UInt8) : Bool := m.flags &&& f != 0

def more (m : Message) : Bool := m.has Flag.more

def isCommand (m : Message) : Bool := m.has Flag.command

def isCredential (m : Message) : Bool := m.has Flag.credential

def isRoutingId (m : Message) : Bool := m.has Flag.routingId

/-- The frames that count against a watermark: the last one of each message, routing ids aside. -/
def counts (m : Message) : Bool := !m.more && !m.isRoutingId

def raise (m : Message) (f : UInt8) : Message := { m with flags := m.flags ||| f }

def lower (m : Message) (f : UInt8) : Message := { m with flags := m.flags &&& ~~~f }

def describe (m : Message) : String :=
  let routing := m.routingId.map fun id ↦ ("routing_id", toString id.toNat)
  let group := m.group.map fun g ↦ ("group", Text.quoted g)
  Text.record "Msg" ([("size", toString m.size), ("flags", "0x" ++ Text.hexByte m.flags)]
    ++ routing.toList ++ group.toList)

end Message

end Conduit
