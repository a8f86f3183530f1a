import Conduit.Wire.FlagsFirst
import Conduit.Wire.SizeFirst

namespace Conduit.Wire

def Limits.objection? (l : Limits) (size : Nat) : Option DecodeError :=
  match l.maxSize with
  | some max => if max < size then some (.tooLarge size max) else none
  | none => none

inductive Head where
  | short
  | refused (e : DecodeError)
  | whole (size : Nat) (flags : UInt8) (behind : Bytes)
deriving DecidableEq

def SizeFirst.headBehind (l : Limits) (size : Nat) (bytes : Bytes) : Head :=
  if size = 0 then .refused .missingFlags
  else
    match l.objection? (size - 1), bytes with
    | some e, _ => .refused e
    | none, [] => .short
    | none, flags :: rest => .whole (size - 1) (flags &&& Flag.more) rest

def SizeFirst.head (l : Limits) : Bytes → Head
  | [] => .short
  | size :: rest =>
    if size ≠ 0xff then headBehind l size.toNat rest
    else if rest.length < 8 then .short
    else headBehind l (ofBigEndian (rest.take 8)) (rest.drop 8)

def FlagsFirst.headBehind (l : Limits) (flags : UInt8) (width : Nat) (bytes : Bytes) : Head :=
  if bytes.length < width then .short
  else
    let size := ofBigEndian (bytes.take width)
    match l.objection? size with
    | some e => .refused e
    | none => .whole size flags (bytes.drop width)

def FlagsFirst.head (l : Limits) : Bytes → Head
  | [] => .short
  | bits :: rest =>
    headBehind l (bits &&& Flag.more ||| bits >>> 1 &&& Flag.command)
      (if bits &&& 0x02 = 0 then 1 else 8) rest

inductive Framing where
  | sizeFirst
  | flagsFirst
deriving DecidableEq

namespace Framing

def dialect : Framing → Dialect
  | sizeFirst => Wire.sizeFirst
  | flagsFirst => Wire.flagsFirst

def head : Framing → Limits → Bytes → Head
  | sizeFirst => SizeFirst.head
  | flagsFirst => FlagsFirst.head

end Framing

structure Parse where
  messages : List Message := []
  /-- The sizes of the bodies announced, as far as they were admitted. -/
  sizes : List Nat := []
  error : Option DecodeError := none
deriving DecidableEq

namespace Parse

def announce (size : Nat) (p : Parse) : Parse := { p with sizes := size :: p.sizes }

def deliver (m : Message) (p : Parse) : Parse := { p with messages := m :: p.messages }

end Parse

theorem SizeFirst.length_of_headBehind {l : Limits} {size size' : Nat} {flags : UInt8}
    {bytes rest : Bytes} (h : headBehind l size bytes = .whole size' flags rest) :
    rest.length < bytes.length := by
  unfold headBehind at h
  split at h
  · contradiction
  · split at h
    · contradiction
    · contradiction
    · obtain ⟨-, -, rfl⟩ := Head.whole.inj h
      exact Nat.lt_succ_self _

theorem FlagsFirst.length_of_headBehind {l : Limits} {flags flags' : UInt8} {width size : Nat}
    {bytes rest : Bytes} (h : headBehind l flags width bytes = .whole size flags' rest) :
    rest.length ≤ bytes.length := by
  unfold headBehind at h
  split at h
  · contradiction
  · dsimp only at h
    split at h
    · contradiction
    · obtain ⟨-, -, rfl⟩ := Head.whole.inj h
      simp

namespace Framing

variable {f : Framing} {l : Limits}

theorem length_of_head {bytes rest : Bytes} {size : Nat} {flags : UInt8}
    (h : f.head l bytes = .whole size flags rest) : rest.length < bytes.length := by
  cases bytes with
  | nil => cases f <;> contradiction
  | cons b bytes =>
    rw [List.length_cons]
    cases f with
    | sizeFirst =>
      simp only [head, SizeFirst.head] at h
      split at h
      · exact Nat.lt_succ_of_lt (SizeFirst.length_of_headBehind h)
      · split at h
        · contradiction
        · have shorter := SizeFirst.length_of_headBehind h
          rw [List.length_drop] at shorter
          omega
    | flagsFirst => exact Nat.lt_succ_of_le (FlagsFirst.length_of_headBehind h)

/-- Reads frame after frame. -/
def parse (f : Framing) (l : Limits) (bytes : Bytes) : Parse :=
  match _h : f.head l bytes with
  | .short => {}
  | .refused e => { error := some e }
  | .whole size flags rest =>
    .announce size <|
      if rest.length < size then {}
      else .deliver { data := rest.take size, flags } (f.parse l (rest.drop size))
termination_by bytes.length
decreasing_by
  have shorter := length_of_head _h
  rw [List.length_drop]
  omega

def parseBody (f : Framing) (l : Limits) (size : Nat) (flags : UInt8) (bytes : Bytes) : Parse :=
  if bytes.length < size then {}
  else .deliver { data := bytes.take size, flags } (f.parse l (bytes.drop size))

def parseHead (f : Framing) (l : Limits) : Head → Parse
  | .short => {}
  | .refused e => { error := some e }
  | .whole size flags rest => .announce size (f.parseBody l size flags rest)

theorem parse_eq (bytes : Bytes) : f.parse l bytes = f.parseHead l (f.head l bytes) := by
  rw [parse]
  split
  · rename_i h
    rw [h, parseHead]
  · rename_i h
    rw [h, parseHead]
  · rename_i h
    rw [h, parseHead, parseBody]

end Framing

end Conduit.Wire
