import Conduit.Proofs.BodySizes

namespace Conduit.Wire.Decoder

section

variable {d : Dialect} {A : Type} [Provider A]

def step (c : Decoder d A) : Except Failure (Option Delivery × Decoder d A) :=
  match c.stage with
  | .body body flags =>
    let (m, c) := c.deliver body flags
    .ok (some m, c)
  | .header step _ =>
    match d.next step (c.scratch.take (d.headerLength step)) c.limits with
    | .error e => .error (.malformed e)
    | .ok (.header step) => .ok (none, { c with stage := .header step 0 })
    | .ok (.body size flags) =>
      match Provider.allocate size c.allocator with
      | .error e => .error (.allocation e)
      | .ok (body, allocator) => .ok (none, { c with allocator, stage := .body body.rewind flags })

/-- Copies a block of bytes into the part being read. -/
def fill (c : Decoder d A) (block : Bytes) : Decoder d A := block.foldl write c

/-- What it comes to that steps are taken as long as a part is complete, unless that takes more
turns than these. -/
def settle : Nat → Decoder d A → Option (Except Failure (Option Delivery × Decoder d A))
  | 0, _ => none
  | turns + 1, c =>
    if c.room ≠ 0 then some (.ok (none, c))
    else
      match c.step with
      | .error e => some (.error e)
      | .ok (some m, c) => some (.ok (some m, c))
      | .ok (none, c) => settle turns c

/-- Takes bytes that were put straight into the part being read, in so many turns at most. -/
def commitWithin (turns : Nat) (c : Decoder d A) (bytes : Bytes) :
    Option (Except Failure (Option Delivery × Decoder d A)) :=
  settle turns (c.fill bytes)

def decodeWithin : Nat → Decoder d A → Bytes → Option (Except Failure (Decoded d A))
  | 0, _, _ => none
  | turns + 1, c, bytes =>
    if c.room = 0 then
      match c.step with
      | .error e => some (.error e)
      | .ok (some m, c) => some (.ok ⟨some m, bytes, c⟩)
      | .ok (none, c) => decodeWithin turns c bytes
    else if bytes.isEmpty then some (.ok ⟨none, [], c⟩)
    else
      let n := min c.room bytes.length
      decodeWithin turns (c.fill (bytes.take n)) (bytes.drop n)

def readOn (bytes : Bytes) :
    Except Failure (Option Delivery × Decoder d A) → Except Failure (Decoded d A)
  | .error e => .error e
  | .ok (some m, c) => .ok ⟨some m, bytes, c⟩
  | .ok (none, c) => c.decode bytes

theorem decode_cons (c : Decoder d A) (b : UInt8) (rest : Bytes) :
    c.decode (b :: rest) = readOn rest (c.feed b) := by
  rw [decode]
  rfl

theorem advance_of_room {c : Decoder d A} (room : c.room ≠ 0) : c.advance = .ok (none, c) :=
  if_pos room

/-- A step without a message that leads to a part that is complete has led to an empty body. The
next one delivers it. -/
theorem step_again {c c' : Decoder d A} (positive : ∀ step, 0 < d.headerLength step)
    (stepped : c.step = .ok (none, c')) (complete : c'.room = 0) :
    ∃ m c₁, c'.step = .ok (some m, c₁) := by
  have body : ∃ body flags, c'.stage = .body body flags := by
    unfold Decoder.step at stepped
    split at stepped
    · cases stepped
    · split at stepped
      · cases stepped
      · rename_i step _
        cases stepped
        exact absurd complete (Nat.ne_of_gt (positive step))
      · split at stepped <;> cases stepped
        exact ⟨_, _, rfl⟩
  obtain ⟨body, flags, stage⟩ := body
  refine ⟨(c'.deliver body flags).1, (c'.deliver body flags).2, ?_⟩
  rw [Decoder.step, stage]

end

variable {A : Type} {f : Framing} {c c' : Decoder f.dialect A}

/-- A block that fits leaves the rest of the room. -/
theorem Waits.fill (h : c.Waits) {block : Bytes} (fits : block.length ≤ c.room) :
    (c.fill block).Laid ∧ (c.fill block).room = c.room - block.length := by
  induction block generalizing c with
  | nil => exact ⟨h.toLaid, rfl⟩
  | cons b block ih =>
    obtain ⟨laid, room, -⟩ := h.write b
    rw [List.length_cons] at fits ⊢
    by_cases last : block = []
    · subst last
      exact ⟨laid, room⟩
    · have more := List.length_pos_iff.mpr last
      obtain ⟨laid', room'⟩ := ih ⟨laid, by omega⟩ (by omega)
      refine ⟨laid', room'.trans ?_⟩
      omega

variable [Provider A]

/-- To pass on from a part that is complete takes a step, or two across an empty body. -/
theorem advance_of_complete (complete : c.room = 0) :
    c.advance = match c.step with
      | .ok (none, c') => if c'.room = 0 then c'.step else .ok (none, c')
      | out => out := by
  have closed : ¬c.room ≠ 0 := not_not_intro complete
  cases stage : c.stage with
  | body body flags => simp only [Decoder.advance, Decoder.step, stage, if_neg closed]
  | header step filled =>
    cases next : f.dialect.next step (c.scratch.take (f.dialect.headerLength step)) c.limits with
    | error e => simp only [Decoder.advance, Decoder.step, stage, next, if_neg closed]
    | ok transition =>
      cases transition with
      | header step' =>
        simp only [Decoder.advance, Decoder.step, stage, next, if_neg closed]
        exact (if_neg (Nat.ne_of_gt (f.headerLength_pos step'))).symm
      | body size flags =>
        cases allocated : Provider.allocate size c.allocator with
        | error x =>
          simp only [Decoder.advance, Decoder.step, stage, next, allocated, if_neg closed]
        | ok allocation =>
          simp only [Decoder.advance, Decoder.step, stage, next, allocated, if_neg closed]
          rfl

theorem settle_eq (c : Decoder f.dialect A) {turns : Nat} (enough : 2 ≤ turns) :
    settle turns c = some c.advance := by
  obtain ⟨turns, rfl⟩ := Nat.exists_eq_add_of_le' enough
  by_cases room : c.room ≠ 0
  · rw [settle, if_pos room, advance_of_room room]
  · rw [settle, if_neg room, advance_of_complete (not_not.mp room)]
    match stepped : c.step with
    | .error e => rfl
    | .ok (some m, c') => rfl
    | .ok (none, c') =>
      dsimp only
      by_cases complete : c'.room = 0
      · obtain ⟨m, c₁, again⟩ := step_again f.headerLength_pos stepped complete
        rw [settle, if_neg (not_not_intro complete), if_pos complete, again]
      · rw [settle, if_pos complete, if_neg complete]

/-- A block that fits is read at once: it completes no more than the part being read. -/
theorem Waits.decode_block (h : c.Waits) {block : Bytes} (nonempty : block ≠ [])
    (fits : block.length ≤ c.room) (rest : Bytes) :
    c.decode (block ++ rest) = readOn rest (c.fill block).advance := by
  induction block generalizing c with
  | nil => exact absurd rfl nonempty
  | cons b block ih =>
    rw [List.cons_append, decode_cons]
    by_cases last : block = []
    · subst last
      rfl
    · obtain ⟨laid, room, -⟩ := h.write b
      have more := List.length_pos_iff.mpr last
      rw [List.length_cons] at fits
      have unfinished : c.feed b = .ok (none, c.write b) := advance_of_room (by omega)
      rw [unfinished]
      exact ih ⟨laid, by omega⟩ last (by omega)

theorem Waits.commit_block (h : c.Waits) {bytes : Bytes} (fits : bytes.length ≤ c.room) :
    c.commit bytes = (c.fill bytes).advance := by
  by_cases empty : bytes = []
  · subst empty
    exact (advance_of_room (Nat.ne_of_gt h.room)).symm
  · have decoded := h.decode_block empty fits []
    rw [List.append_nil] at decoded
    rw [commit_eq, decoded]
    match (c.fill bytes).advance with
    | .error e | .ok (some m, c') | .ok (none, c') => rfl

theorem Waits.commitWithin_eq (h : c.Waits) {bytes : Bytes} (fits : bytes.length ≤ c.room)
    {turns : Nat} (enough : 2 ≤ turns) : commitWithin turns c bytes = some (c.commit bytes) := by
  rw [commitWithin, settle_eq _ enough, h.commit_block fits]

variable [LawfulProvider A]

/-- A decoder passes on in two turns and reads on from there, as long as it reads on where there is
room. -/
theorem Laid.decodeWithin_eq (h : c.Laid) {rest : Bytes} {turns : Nat}
    (enough : 2 * rest.length + 1 < turns)
    (later : ∀ {c' : Decoder f.dialect A} {turns : Nat}, c'.Waits → 2 * rest.length < turns →
      decodeWithin turns c' rest = some (c'.decode rest)) :
    decodeWithin turns c rest = some (readOn rest c.advance) := by
  by_cases room : c.room = 0
  · obtain ⟨turns, rfl⟩ := Nat.exists_eq_add_of_le' (show 2 ≤ turns by omega)
    have passes := h.advance rest
    rw [advance_of_complete room] at passes ⊢
    rw [decodeWithin, if_pos room]
    match stepped : c.step with
    | .error e => rfl
    | .ok (some m, c') => rfl
    | .ok (none, c') =>
      dsimp only
      by_cases complete : c'.room = 0
      · obtain ⟨m, c₁, again⟩ := step_again f.headerLength_pos stepped complete
        rw [decodeWithin, if_pos complete, if_pos complete, again]
        rfl
      · rw [stepped] at passes
        dsimp only at passes
        rw [if_neg complete] at passes ⊢
        cases passes with
        | goes waits => exact later waits (by omega)
  · rw [advance_of_room room]
    exact later ⟨h, Nat.pos_of_ne_zero room⟩ (by omega)

/-- Each turn that copies bytes is followed by one that passes on, so two turns are enough for each
byte. The last one finds that none are left. -/
theorem Waits.decodeWithin_eq (h : c.Waits) {bytes : Bytes} {turns : Nat}
    (enough : 2 * bytes.length < turns) : decodeWithin turns c bytes = some (c.decode bytes) := by
  -- by induction on the bytes that are left: every block has at least one
  induction size : bytes.length using Nat.strongRecOn generalizing c bytes turns with
  | ind size ih =>
    obtain ⟨turns, rfl⟩ := Nat.exists_eq_add_of_le' (Nat.succ_le_of_lt (Nat.zero_lt_of_lt enough))
    have room := h.room
    rw [decodeWithin, if_neg (Nat.ne_of_gt room)]
    by_cases empty : bytes = []
    · subst empty
      rfl
    · have more := List.length_pos_iff.mpr empty
      have left : bytes.isEmpty = false := List.isEmpty_eq_false_iff.mpr empty
      rw [left, if_neg Bool.false_ne_true]
      generalize count : min c.room bytes.length = n
      have fits : (bytes.take n).length ≤ c.room := by
        rw [List.length_take]
        omega
      have taken : bytes.take n ≠ [] := by
        rw [← List.length_pos_iff, List.length_take]
        omega
      have shorter : (bytes.drop n).length < bytes.length := by
        rw [List.length_drop]
        omega
      have read := h.decode_block taken fits (bytes.drop n)
      rw [List.take_append_drop] at read
      rw [read]
      refine (h.fill fits).1.decodeWithin_eq (by omega) fun waits enough ↦ ?_
      exact ih _ (size ▸ shorter) waits enough rfl

/-- With one turn less, a byte that completes the header of an empty body is not enough. -/
example : decodeWithin 2
    ({ stage := .header (.shortSize 0) 0, allocator := .heap } : Decoder flagsFirst) [0] = none :=
  rfl

end Conduit.Wire.Decoder
