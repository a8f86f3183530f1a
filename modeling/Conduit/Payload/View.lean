import Conduit.Payload.Span
import Conduit.Text.Hex

namespace Conduit

/-- What can hold the bytes of a payload. It is asked for them each time anew, and nothing but its
own promise makes it give the same bytes the next time. -/
class Backing (β : Type) where
  /-- The bytes given when it is asked for the `n`-th time. -/
  bytesAt : β → Nat → Bytes

/-- A window on a buffer. -/
structure View (β : Type) where
  buffer : β
  span : Span

namespace View

variable {β : Type}

def length (v : View β) : Nat := v.span.length

/-- A narrower window. Bounds count from the start of this one, and the buffer is not asked. -/
def view? (v : View β) (lower upper : Bound) : Option (View β) :=
  (Span.resolve? lower upper v.length).map fun s ↦ { v with span := s.within v.span }

variable [Backing β]

def whole (buffer : β) (now : Nat) : View β := ⟨buffer, 0, (Backing.bytesAt buffer now).length⟩

def create? (buffer : β) (now : Nat) (lower upper : Bound) : Option (View β) :=
  (Span.resolve? lower upper (Backing.bytesAt buffer now).length).map (⟨buffer, ·⟩)

/-- The bytes shown, as long as the window lies within those that the buffer gives. -/
def bytes? (v : View β) (now : Nat) : Option Bytes :=
  let given := Backing.bytesAt v.buffer now
  if v.span.start ≤ v.span.stop ∧ v.span.stop ≤ given.length then some (v.span.slice given)
  else none

end View

/-- The buffers of the library. A watched one reports under its label once it is gone. -/
inductive Buffer (Label : Type) where
  | vector (bytes : Bytes)
  | boxed (bytes : Bytes)
  | text (s : String)
  | array (bytes : Bytes)
  | staticText (s : String)
  | staticBytes (bytes : Bytes)
  | watched (label : Label) (bytes : Bytes)

namespace Buffer

variable {Label : Type}

def bytes : Buffer Label → Bytes
  | vector bytes | boxed bytes | array bytes | staticBytes bytes | watched _ bytes => bytes
  | text s | staticText s => s.toUTF8.toList

instance : Backing (Buffer Label) := ⟨fun b _ ↦ b.bytes⟩

def report? : Buffer Label → Option (Label × Bytes)
  | watched label bytes => some (label, bytes)
  | _ => none

def describeWatched (bytes : Bytes) : String :=
  Text.tagged "OnDrop" (Text.decimals bytes)

end Buffer

abbrev Payload (Label : Type) := View (Buffer Label)

namespace Payload

variable {Label : Type}

def whole (buffer : Buffer Label) : Payload Label := View.whole buffer 0

def create? (buffer : Buffer Label) (lower upper : Bound) : Option (Payload Label) :=
  View.create? buffer 0 lower upper

def bytes (p : Payload Label) : Bytes := p.span.slice p.buffer.bytes

end Payload

end Conduit
