import Conduit.Proofs.ChunkLayout
import Mathlib.Data.List.Basic
import Mathlib.Data.Nat.ModEq

namespace Conduit

/-- What the owner of both ends of a queue asks of it. -/
inductive QueueCall (α : Type) where
  | pushBack (x : α)
  | popFront
  | popBack

namespace ChunkQueue

variable {α : Type} {q q' : ChunkQueue α}

def call (q : ChunkQueue α) : QueueCall α → Option α × ChunkQueue α
  | .pushBack x => (none, q.pushBack x)
  | .popFront => q.popFront
  | .popBack => q.popBack

def callAll : ChunkQueue α → List (QueueCall α) → List (Option α) × ChunkQueue α
  | q, [] => ([], q)
  | q, c :: cs =>
    let (x, q) := q.call c
    let (xs, q) := q.callAll cs
    (x :: xs, q)

def boundaries (q : ChunkQueue α) : Nat := q.backPos / q.chunkSize - q.frontPos / q.chunkSize

theorem Sound.div_eq (h : q.Sound) : q.backPos / q.chunkSize =
    q.frontPos / q.chunkSize + q.parts.length := by
  obtain ⟨retired, front, back⟩ := h.positions
  have pos : 0 < q.chunkSize := Nat.zero_lt_of_lt h.used_lt
  rw [front, back, Nat.mul_comm, Nat.mul_comm _ q.chunkSize, Nat.mul_add_div pos,
    Nat.mul_add_div pos, Nat.div_eq_of_lt h.used_lt, Nat.div_eq_of_lt h.filled_lt]
  rfl

theorem Sound.boundaries_eq (h : q.Sound) : q.boundaries = q.parts.length := by
  rw [boundaries, h.div_eq, Nat.add_sub_cancel_left]

theorem Sound.pop_nil (h : q.Sound) (items : q.toList = []) :
    q.popFront = (none, q) ∧ q.popBack = (none, q) := by
  have empty : q.isEmpty = true := by rw [h.isEmpty_eq, items, List.isEmpty_nil]
  exact ⟨by rw [popFront, if_pos empty], by rw [popBack, if_pos empty]⟩

inductive Turnover (q q' : ChunkQueue α) : Prop where
  | stays (parts : q'.parts.length = q.parts.length) (spare : q'.spare = q.spare)
    (allocated : q'.allocated = q.allocated)
  | links (parts : q'.parts.length = q.parts.length + 1) (spare : q'.spare = false)
    (allocated : q'.allocated = q.allocated + if q.spare then 0 else 1)
  | unlinks (parts : q'.parts.length + 1 = q.parts.length) (spare : q'.spare = true)
    (allocated : q'.allocated = q.allocated)

theorem turnover_pushBack (q : ChunkQueue α) (x : α) : q.Turnover (q.pushBack x) := by
  unfold pushBack
  dsimp only
  split
  · refine .links ?_ ?_ ?_
    · simp [parts]
    all_goals
      unfold takeChunk
      cases q.spare <;> rfl
  · exact .stays rfl rfl rfl

theorem turnover_stepBack (q : ChunkQueue α) : q.Turnover q.stepBack := by
  unfold stepBack
  split
  · cases popped : q.full.popBack? with
    | none => exact .stays rfl rfl rfl
    | some rest =>
      refine .unlinks ?_ rfl rfl
      simp [parts, retire, Deque.toList_of_popBack? popped]
  · exact .stays rfl rfl rfl

theorem turnover_popBack (q : ChunkQueue α) : q.Turnover q.popBack.2 := by
  have stepped := q.turnover_stepBack
  unfold popBack
  split
  · exact .stays rfl rfl rfl
  · dsimp only
    cases q.stepBack.tail.popBack? with
    | none => exact stepped
    | some popped =>
      cases stepped with
      | stays parts spare allocated => exact .stays parts spare allocated
      | links parts spare allocated => exact .links parts spare allocated
      | unlinks parts spare allocated => exact .unlinks parts spare allocated

/-- A first chunk whose slots were all used is not the last one, which is never full. -/
theorem Sound.turnover_popFront (h : q.Sound) : q.Turnover q.popFront.2 := by
  cases items : q.toList with
  | nil =>
    rw [(h.pop_nil items).1]
    exact .stays rfl rfl rfl
  | cons x xs =>
    have held : q.isEmpty = false := by rw [h.isEmpty_eq, items, List.isEmpty_cons]
    obtain ⟨full, tail, taken, -, laid, same⟩ := h.takeFront items
    rw [popFront, held, if_neg Bool.false_ne_true, taken]
    dsimp only
    unfold stepFront
    dsimp only
    split
    · rename_i used
      refine .unlinks ?_ rfl rfl
      rw [← same]
      have some_part : { q with full, tail }.parts ≠ [] := by
        intro none_full
        rw [none_full] at laid
        have := h.filled_lt
        simp only [Laid] at laid
        omega
      have shed : full.dropFront.toList.map Deque.toList =
          { q with full, tail }.parts.tail := by
        rw [Deque.toList_dropFront, List.map_tail]
        rfl
      have length := List.length_pos_iff.mpr some_part
      change (full.dropFront.toList.map Deque.toList).length + 1 = _
      rw [shed, List.length_tail]
      omega
    · exact .stays same rfl rfl

theorem Sound.turnover (h : q.Sound) (c : QueueCall α) : q.Turnover (q.call c).2 := by
  cases c with
  | pushBack x => exact q.turnover_pushBack x
  | popFront => exact h.turnover_popFront
  | popBack => exact q.turnover_popBack

theorem Sound.call (h : q.Sound) (c : QueueCall α) : (q.call c).2.Sound := by
  cases c with
  | pushBack x => exact h.pushBack x
  | popFront =>
    cases items : q.toList with
    | nil =>
      rw [ChunkQueue.call, (h.pop_nil items).1]
      exact h
    | cons x xs =>
      obtain ⟨rest, popped, sound, -⟩ := h.popFront_cons items
      rw [ChunkQueue.call, popped]
      exact sound
  | popBack =>
    rcases List.eq_nil_or_concat' q.toList with items | ⟨xs, x, items⟩
    · rw [ChunkQueue.call, (h.pop_nil items).2]
      exact h
    · obtain ⟨rest, popped, sound, -⟩ := h.popBack_concat items
      rw [ChunkQueue.call, popped]
      exact sound

theorem Sound.callAll (h : q.Sound) (cs : List (QueueCall α)) : (q.callAll cs).2.Sound := by
  induction cs generalizing q with
  | nil => exact h
  | cons c cs ih => exact ih (h.call c)

theorem chunkSize_pushBack (q : ChunkQueue α) (x : α) :
    (q.pushBack x).chunkSize = q.chunkSize := by
  unfold pushBack
  dsimp only
  split
  · exact takeChunk_chunkSize _
  · rfl

theorem chunkSize_popFront (q : ChunkQueue α) : q.popFront.2.chunkSize = q.chunkSize := by
  have taken {x : α} {r : ChunkQueue α} (found : q.takeFront? = some (x, r)) :
      r.chunkSize = q.chunkSize := by
    unfold takeFront? at found
    split at found <;> obtain ⟨_, -, same⟩ := Option.map_eq_some_iff.mp found <;>
      obtain ⟨-, rfl⟩ := Prod.mk.inj same <;> rfl
  unfold popFront
  split
  · rfl
  · cases found : q.takeFront? with
    | none => rfl
    | some popped =>
      obtain ⟨x, r⟩ := popped
      dsimp only
      unfold stepFront
      split <;> exact @taken x r found

/-- At each moment of some calls there are so many boundaries between its ends, or one more. -/
def Hovers (k : Nat) (q : ChunkQueue α) (cs : List (QueueCall α)) : Prop :=
  ∀ n, (q.callAll (cs.take n)).2.boundaries = k ∨ (q.callAll (cs.take n)).2.boundaries = k + 1

theorem hovers_iff {k : Nat} {cs : List (QueueCall α)} : Hovers k q cs ↔ ∀ n < cs.length + 1,
    (q.callAll (cs.take n)).2.boundaries = k ∨ (q.callAll (cs.take n)).2.boundaries = k + 1 := by
  refine ⟨fun h n _ ↦ h n, fun h n ↦ ?_⟩
  rcases Nat.lt_or_ge n (cs.length + 1) with within | behind
  · exact h n within
  · have all := h cs.length (Nat.lt_succ_self _)
    rw [List.take_length] at all
    rwa [List.take_of_length_le (Nat.le_of_succ_le behind)]

instance {k : Nat} {cs : List (QueueCall α)} : Decidable (Hovers k q cs) :=
  decidable_of_iff _ hovers_iff.symm

theorem Hovers.here {k : Nat} {cs : List (QueueCall α)} (h : Hovers k q cs) :
    q.boundaries = k ∨ q.boundaries = k + 1 := h 0

theorem Hovers.next {k : Nat} {c : QueueCall α} {cs : List (QueueCall α)}
    (h : Hovers k q (c :: cs)) : Hovers k (q.call c).2 cs := fun n ↦ h (n + 1)

/-- A chunk is at hand when it is needed, if one is kept or the ends are as far apart as they get. -/
theorem Sound.allocated_of_ready (h : q.Sound) {k : Nat} {cs : List (QueueCall α)}
    (hovers : Hovers k q cs) (ready : q.spare = true ∨ q.boundaries = k + 1) :
    (q.callAll cs).2.allocated = q.allocated := by
  induction cs generalizing q with
  | nil => rfl
  | cons c cs ih =>
    have here := hovers.next.here
    have before := h.boundaries_eq
    have after := (h.call c).boundaries_eq
    have rest := ih (h.call c) hovers.next
    change ((q.call c).2.callAll cs).2.allocated = q.allocated
    cases h.turnover c with
    | stays parts spare allocated =>
      rw [rest (by rwa [spare, after, parts, ← before]), allocated]
    | links parts spare allocated =>
      have kept : q.spare = true := ready.resolve_right (by omega)
      have apart : (q.call c).2.boundaries = k + 1 := by
        have := hovers.here
        omega
      rw [rest (.inr apart), allocated, kept]
      rfl
    | unlinks parts spare allocated => rw [rest (.inl spare), allocated]

theorem Sound.allocated_callAll (h : q.Sound) {k : Nat} {cs : List (QueueCall α)}
    (hovers : Hovers k q cs) : q.allocated ≤ (q.callAll cs).2.allocated ∧
      (q.callAll cs).2.allocated ≤ q.allocated + 1 := by
  induction cs generalizing q with
  | nil => exact ⟨Nat.le_refl _, Nat.le_succ _⟩
  | cons c cs ih =>
    have before := h.boundaries_eq
    have after := (h.call c).boundaries_eq
    have settled := (h.call c).allocated_of_ready hovers.next
    change q.allocated ≤ ((q.call c).2.callAll cs).2.allocated ∧
      ((q.call c).2.callAll cs).2.allocated ≤ q.allocated + 1
    cases h.turnover c with
    | stays parts spare allocated =>
      rw [← allocated]
      exact ih (h.call c) hovers.next
    | links parts spare allocated =>
      have here := hovers.here
      have there := hovers.next.here
      rw [settled (.inr (by omega)), allocated]
      split <;> omega
    | unlinks parts spare allocated =>
      rw [settled (.inl spare), allocated]
      omega

/-- Rounds of a push and a pop from the front. -/
def rounds (xs : List α) : List (QueueCall α) := xs.flatMap fun x ↦ [.pushBack x, .popFront]

/-- The ends of `n` items lie `n / size` boundaries apart, or one more. -/
theorem div_sub_div_bounds (size start n : Nat) (some_room : 0 < size) :
    (start + n) / size - start / size = n / size ∨
      (start + n) / size - start / size = n / size + 1 := by
  rw [Nat.add_div some_room]
  generalize start / size = first
  generalize n / size = between
  split <;> omega

/-- With one item more, the ends lie no further apart than they do at times without it. -/
theorem div_sub_div_succ_bounds (size start n : Nat) (some_room : 0 < size) :
    (start + n + 1) / size - start / size = n / size ∨
      (start + n + 1) / size - start / size = n / size + 1 := by
  by_cases whole : size ∣ n + 1
  · right
    rw [Nat.add_assoc, Nat.add_div_of_dvd_left whole, Nat.add_sub_cancel_left,
      Nat.succ_div_of_dvd whole]
  · have bounds := div_sub_div_bounds size start (n + 1) some_room
    rwa [← Nat.add_assoc, Nat.succ_div_of_not_dvd whole] at bounds

theorem Sound.hovers_rounds (h : q.Sound) (xs : List α) :
    Hovers (q.toList.length / q.chunkSize) q (rounds xs) := by
  induction xs generalizing q with
  | nil =>
    intro n
    have some_room : 0 < q.chunkSize := Nat.zero_lt_of_lt h.used_lt
    rw [rounds, List.flatMap_nil, List.take_nil]
    change q.boundaries = _ ∨ q.boundaries = _
    rw [boundaries, ← h.length_eq]
    exact div_sub_div_bounds _ _ _ some_room
  | cons x xs ih =>
    have some_room : 0 < q.chunkSize := Nat.zero_lt_of_lt h.used_lt
    have pushed := h.pushBack x
    have length := h.length_eq
    obtain ⟨y, ys, items⟩ := List.exists_cons_of_ne_nil (l := (q.pushBack x).toList) (by simp)
    obtain ⟨rest, popped, sound, left, front, back⟩ := pushed.popFront_cons items
    have size : rest.chunkSize = q.chunkSize := by
      have same := chunkSize_popFront (q.pushBack x)
      rw [popped] at same
      exact same.trans (chunkSize_pushBack q x)
    have kept : rest.toList.length = q.toList.length := by
      have whole := congrArg List.length items
      rw [toList_pushBack, List.length_append] at whole
      rw [left]
      exact (Nat.succ.inj whole).symm
    intro n
    rcases n with _ | _ | n
    · change q.boundaries = _ ∨ q.boundaries = _
      rw [boundaries, ← length]
      exact div_sub_div_bounds _ _ _ some_room
    · change (q.pushBack x).boundaries = _ ∨ (q.pushBack x).boundaries = _
      rw [boundaries, frontPos_pushBack, backPos_pushBack, chunkSize_pushBack, ← length]
      exact div_sub_div_succ_bounds _ _ _ some_room
    · have hovers := ih sound n
      rw [size, kept] at hovers
      change (((q.pushBack x).popFront.2).callAll ((rounds xs).take n)).2.boundaries = _ ∨
        (((q.pushBack x).popFront.2).callAll ((rounds xs).take n)).2.boundaries = _
      rw [popped]
      exact hovers

/-- As long as the number of boundaries between the ends of a queue takes no more than two values
next to each other, the queue asks for one more chunk at most. So it does in rounds of a push and a
pop. -/
theorem allocates_once_at_steady_size {chunkSize : Nat} (some_room : 0 < chunkSize)
    (before : List (QueueCall α)) :
    let q := ((empty chunkSize).callAll before).2
    (∀ k after, Hovers k q after → q.allocated ≤ (q.callAll after).2.allocated ∧
      (q.callAll after).2.allocated ≤ q.allocated + 1) ∧
    ∀ xs, (q.callAll (rounds xs)).2.allocated ≤ q.allocated + 1 := by
  intro q
  have sound : q.Sound := (Sound.empty some_room).callAll before
  exact ⟨fun k after hovers ↦ sound.allocated_callAll hovers,
    fun xs ↦ (sound.allocated_callAll (sound.hovers_rounds xs)).2⟩

/-- The one chunk more is needed as an end crosses a boundary and none is kept. -/
theorem allocates_once_from_two_chunks :
    let q := ((empty 2).callAll [.pushBack 1, .pushBack 2, .pushBack 3]).2
    let after : List (QueueCall Nat) :=
      [.pushBack 4, .popBack, .pushBack 5, .popFront, .popFront, .pushBack 6, .pushBack 7]
    0 < 2 ∧ Hovers 1 q after ∧ q.allocated = 2 ∧ (q.callAll after).2.allocated = 3 ∧
      (q.callAll (rounds [4, 5, 6, 7])).2.allocated = 3 := by
  intro q after
  have steady := allocates_once_at_steady_size Nat.two_pos
    [.pushBack 1, .pushBack 2, .pushBack (3 : Nat)]
  -- spares the comparison of the queue with itself, which would evaluate it
  have fold : ((empty 2).callAll [.pushBack 1, .pushBack 2, .pushBack (3 : Nat)]).2 = q := rfl
  dsimp only at steady
  rw [fold] at steady
  have hovers : Hovers 1 q after := by decide +kernel
  have start : q.allocated = 2 := by decide +kernel
  have most := (steady.1 1 after hovers).2
  have most' := steady.2 [4, 5, 6, 7]
  have least : 3 ≤ (q.callAll after).2.allocated := by decide +kernel
  have least' : 3 ≤ (q.callAll (rounds [4, 5, 6, 7])).2.allocated := by decide +kernel
  rw [start] at most most'
  exact ⟨Nat.two_pos, hovers, start, Nat.le_antisymm most least, Nat.le_antisymm most' least'⟩

end ChunkQueue

end Conduit
