import Conduit.Wire.Encoder

namespace Conduit.Bridge

open Wire

structure Outbound (d : Dialect) where
  encoder : Encoder d
  bufferSize : Nat
  pending : Bytes := []

namespace Outbound

variable {d : Dialect} {σ : Type}

/-- A source that counts the messages pulled from it. -/
def counted (pull : Source σ) : Source (Nat × σ) := fun (n, s) ↦
  match pull s with
  | (none, s) => (none, (n, s))
  | (some m, s) => (some m, (n + 1, s))

/-- Encodes more once all bytes are taken. The answer counts the messages pulled. -/
def refill (o : Outbound d) (pull : Source σ) (s : σ) : Nat × σ × Outbound d :=
  if !o.pending.isEmpty then (0, s, o)
  else
    match o.encoder.takeBody o.bufferSize with
    | (some body, encoder) => (0, s, { o with encoder, pending := body })
    | (none, encoder) =>
      let (bytes, (n, s), encoder) := encoder.encodeInto (counted pull) (0, s) o.bufferSize
      (n, s, { o with encoder, pending := bytes })

/-- Takes note that the stream took the first `n` pending bytes. -/
def sent (o : Outbound d) (n : Nat) : Outbound d := { o with pending := o.pending.drop n }

end Outbound

end Conduit.Bridge
