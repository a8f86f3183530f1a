import Conduit.Bytes
import Conduit.Text.Record

namespace Conduit.Text

def hexByte (b : UInt8) : String :=
  String.ofList [Nat.digitChar (b.toNat / 16), Nat.digitChar (b.toNat % 16)]

def hex (bytes : Bytes) : String :=
  String.join (bytes.map hexByte)

def decimals (bytes : Bytes) : String :=
  listed (bytes.map fun b ↦ toString b.toNat)

end Conduit.Text
