import Conduit.Proofs.Grammar

namespace Conduit.Wire

/-- A header up to the end of its size field, and the size of the body that it announces. -/
inductive Announces : Framing → Bytes → Nat → Prop where
  /-- One byte counts the body and its flags. -/
  | counted {count : UInt8} {size : Nat} (plain : count ≠ 0xff) (counts : count.toNat = size + 1) :
    Announces .sizeFirst [count] size
  /-- Behind the escape, eight bytes count the body and its flags. -/
  | escaped {digits : Bytes} {size : Nat} (eight : digits.length = 8)
    (counts : ofBigEndian digits = size + 1) : Announces .sizeFirst (0xff :: digits) size
  | small {bits count : UInt8} (bit : bits &&& 0x02 = 0) :
    Announces .flagsFirst [bits, count] count.toNat
  | large {bits : UInt8} {digits : Bytes} (bit : bits &&& 0x02 ≠ 0) (eight : digits.length = 8) :
    Announces .flagsFirst (bits :: digits) (ofBigEndian digits)

def Head.append (more : Bytes) : Head → Head
  | .short => .short
  | .refused e => .refused e
  | .whole size flags rest => .whole size flags (rest ++ more)

namespace SizeFirst

theorem headBehind_refused {l : Limits} {size : Nat} {e : DecodeError}
    (objects : l.objection? size = some e) (bytes : Bytes) :
    headBehind l (size + 1) bytes = .refused e := by
  unfold headBehind
  rw [if_neg (Nat.succ_ne_zero size), Nat.add_sub_cancel, objects]

end SizeFirst

namespace FlagsFirst

theorem headBehind_refused {l : Limits} {flags : UInt8} {digits : Bytes} {e : DecodeError}
    (objects : l.objection? (ofBigEndian digits) = some e) (bytes : Bytes) :
    headBehind l flags digits.length (digits ++ bytes) = .refused e := by
  have enough : ¬(digits ++ bytes).length < digits.length := by simp
  unfold headBehind
  rw [if_neg enough, List.take_left]
  dsimp only
  rw [objects]

end FlagsFirst

namespace Announces

variable {f : Framing} {l : Limits} {field : Bytes} {size : Nat} {e : DecodeError}

theorem refused (h : Announces f field size) (objects : l.objection? size = some e)
    (behind : Bytes) : f.head l (field ++ behind) = .refused e := by
  cases h with
  | @counted count size plain counts =>
    rw [List.singleton_append, Framing.head, SizeFirst.head, if_pos plain, counts]
    exact SizeFirst.headBehind_refused objects _
  | @escaped digits size eight counts =>
    have enough : ¬(digits ++ behind).length < 8 := by
      rw [List.length_append]
      omega
    rw [List.cons_append, Framing.head, SizeFirst.head, if_neg (not_not_intro rfl), if_neg enough,
      ← eight, List.take_left, counts]
    exact SizeFirst.headBehind_refused objects _
  | @small bits count bit =>
    have number : ofBigEndian [count] = count.toNat := by simp [ofBigEndian]
    rw [← number] at objects
    rw [List.cons_append, Framing.head, FlagsFirst.head, if_pos bit]
    exact FlagsFirst.headBehind_refused objects behind
  | @large bits digits bit eight =>
    rw [List.cons_append, Framing.head, FlagsFirst.head, if_neg bit, ← eight]
    exact FlagsFirst.headBehind_refused objects behind

/-- Nothing is said of the frame before the last byte of the field. -/
theorem short (h : Announces f field size) {before after : Bytes} (split : before ++ after = field)
    (more : after ≠ []) : f.head l before = .short := by
  have missing : before.length < field.length := by
    rw [← split, List.length_append]
    exact Nat.lt_add_of_pos_right (List.length_pos_iff.mpr more)
  cases before with
  | nil => cases f <;> rfl
  | cons first before =>
    rw [List.cons_append] at split
    cases h with
    | counted =>
      -- a field of one byte has nothing before its last one
      rw [List.length_cons, List.length_singleton] at missing
      omega
    | @small bits count bit =>
      obtain ⟨rfl, split⟩ := List.cons.inj split
      rw [List.length_cons, List.length_cons, List.length_singleton] at missing
      rw [Framing.head, FlagsFirst.head, if_pos bit]
      exact if_pos (by omega)
    | @escaped digits size eight counts =>
      obtain ⟨rfl, split⟩ := List.cons.inj split
      rw [List.length_cons, List.length_cons, eight] at missing
      rw [Framing.head, SizeFirst.head, if_neg (not_not_intro rfl)]
      exact if_pos (by omega)
    | @large bits digits bit eight =>
      obtain ⟨rfl, split⟩ := List.cons.inj split
      rw [List.length_cons, List.length_cons, eight] at missing
      rw [Framing.head, FlagsFirst.head, if_neg bit]
      exact if_pos (by omega)

end Announces

namespace Framing

variable {f : Framing} {l : Limits}

namespace Frames

variable {frames field : Bytes} {size : Nat} {e : DecodeError}

end Frames

end Framing

end Conduit.Wire
