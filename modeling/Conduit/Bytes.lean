namespace Conduit

abbrev Bytes := List UInt8

def wordSize : Nat := 8

/-- One more than the largest size, position or identifier. -/
def wordLimit : Nat := 0x10000000000000000

/-- The last `width` base-256 digits of `n`, most significant first. -/
def bigEndian : Nat → Nat → Bytes
  | 0, _ => []
  | width + 1, n => UInt8.ofNat (n >>> (8 * width)) :: bigEndian width n

def ofBigEndian (bytes : Bytes) : Nat :=
  bytes.foldl (fun n b ↦ n * 256 + b.toNat) 0

theorem bigEndian_length (width n : Nat) : (bigEndian width n).length = width := by
  induction width with
  | zero => rfl
  | succ width ih => simp [bigEndian, ih]

end Conduit
