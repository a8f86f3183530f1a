import Conduit.Proofs.LinkedChunks
import Conduit.Proofs.QueueAsList
import Mathlib.Data.List.Nodup

namespace Conduit

variable {α : Type}

theorem slot_succ (p : Nat) {n : Nat} (pos : 0 < n) : p % n + 1 < n ∨ p % n + 1 = n :=
  Nat.lt_or_eq_of_le (Nat.succ_le_of_lt (Nat.mod_lt p pos))

theorem div_mod_succ_of_full {p n : Nat} (full : p % n + 1 = n) :
    (p + 1) / n = p / n + 1 ∧ (p + 1) % n = 0 := by
  have pos : 0 < n := by omega
  have whole : p + 1 = n * (p / n + 1) := by
    have := Nat.div_add_mod p n
    rw [Nat.mul_succ]
    omega
  rw [whole, Nat.mul_div_cancel_left _ pos, Nat.mul_mod_right]
  exact ⟨rfl, rfl⟩

theorem div_mod_succ_of_room {p n : Nat} (room : p % n + 1 < n) :
    (p + 1) / n = p / n ∧ (p + 1) % n = p % n + 1 := by
  have pos : 0 < n := by omega
  have parts : p + 1 = n * (p / n) + (p % n + 1) := by
    have := Nat.div_add_mod p n
    omega
  rw [parts, Nat.mul_add_div pos, Nat.mul_add_mod, Nat.div_eq_of_lt room, Nat.mod_eq_of_lt room]
  exact ⟨rfl, rfl⟩

def cellsFrom (front : Nat) (items : List α) (p : Nat) : Option α :=
  if front ≤ p then items[p - front]? else none

theorem cellsFrom_of_lt {front p : Nat} (items : List α) (lt : p < front) :
    cellsFrom front items p = none := if_neg (Nat.not_le_of_lt lt)

theorem cellsFrom_of_ge {front p : Nat} {items : List α} (ge : front + items.length ≤ p) :
    cellsFrom front items p = none := by
  rw [cellsFrom, if_pos (by omega), List.getElem?_eq_none (by omega)]

theorem cellsFrom_nil (front : Nat) : cellsFrom front ([] : List α) = fun _ ↦ none := by
  funext p
  rw [cellsFrom]
  split <;> rfl

theorem cellsFrom_head (front : Nat) (x : α) (items : List α) :
    cellsFrom front (x :: items) front = some x := by
  rw [cellsFrom, if_pos (Nat.le_refl _), Nat.sub_self, List.getElem?_cons_zero]

theorem cellsFrom_concat (front : Nat) (items : List α) (x : α) :
    cellsFrom front (items ++ [x]) =
      Function.update (cellsFrom front items) (front + items.length) (some x) := by
  funext p
  rcases Nat.lt_trichotomy p (front + items.length) with before | rfl | behind
  · rw [Function.update_of_ne (Nat.ne_of_lt before), cellsFrom, cellsFrom]
    split
    · rw [List.getElem?_append_left (by omega)]
    · rfl
  · rw [Function.update_self, cellsFrom, if_pos (Nat.le_add_right _ _), Nat.add_sub_cancel_left,
      List.getElem?_concat_length]
  · rw [Function.update_of_ne (Nat.ne_of_gt behind), cellsFrom_of_ge (Nat.le_of_lt behind),
      cellsFrom_of_ge]
    rw [List.length_append, List.length_singleton]
    omega

theorem cellsFrom_dropLast (front : Nat) (items : List α) (x : α) :
    cellsFrom front items =
      Function.update (cellsFrom front (items ++ [x])) (front + items.length) none := by
  rw [cellsFrom_concat, Function.update_idem, ← cellsFrom_of_ge (Nat.le_refl _),
    Function.update_eq_self]

theorem cellsFrom_tail (front : Nat) (x : α) (items : List α) :
    cellsFrom (front + 1) items =
      Function.update (cellsFrom front (x :: items)) front none := by
  funext p
  rcases Nat.lt_trichotomy p front with before | rfl | behind
  · rw [Function.update_of_ne (Nat.ne_of_lt before), cellsFrom_of_lt _ before,
      cellsFrom_of_lt _ (Nat.lt_succ_of_lt before)]
  · rw [Function.update_self, cellsFrom_of_lt _ (Nat.lt_succ_self _)]
  · obtain ⟨n, rfl⟩ := Nat.exists_eq_add_of_lt behind
    rw [Function.update_of_ne (Nat.ne_of_gt behind), cellsFrom, cellsFrom, if_pos (by omega),
      if_pos (by omega), Nat.add_right_comm, Nat.add_sub_cancel_left, Nat.add_right_comm,
      Nat.add_assoc, Nat.add_sub_cancel_left, List.getElem?_cons_succ]

/-- An end of a queue: the slot of a chunk, and its number among all slots from the start on. -/
structure Cursor where
  chunk : Nat
  pos : Nat
  seq : Nat

structure LinkedQueue (α : Type) where
  store : ChunkStore α
  head : Cursor
  tail : Cursor

namespace LinkedQueue

def create (capacity : Nat) : LinkedQueue α where
  store :=
    { capacity
      chunks := Function.update (fun _ ↦ none) 0 (some {})
      allocated := 1 }
  head := ⟨0, 0, 0⟩
  tail := ⟨0, 0, 0⟩

def isEmpty (m : LinkedQueue α) : Bool := m.tail.seq - m.head.seq == 0

def linkBack (m : LinkedQueue α) : Option (LinkedQueue α) :=
  if m.tail.pos = m.store.capacity then do
    let (a, store) ← m.store.append m.tail.chunk
    return { m with store, tail := { m.tail with chunk := a, pos := 0 } }
  else some m

def pushBack (m : LinkedQueue α) (x : α) : Option (LinkedQueue α) := do
  let store ← m.store.put m.tail.chunk m.tail.pos (some x)
  { m with
    store, tail := { m.tail with pos := m.tail.pos + 1, seq := m.tail.seq + 1 } }.linkBack

def stepBack (m : LinkedQueue α) : Option (LinkedQueue α) :=
  if m.tail.pos = 0 then do
    let (a, store) ← m.store.dropLast m.tail.chunk
    return { m with store, tail := { m.tail with chunk := a, pos := store.capacity } }
  else some m

def popBack (m : LinkedQueue α) : Option (Option α × LinkedQueue α) :=
  if m.isEmpty then some (none, m)
  else do
    let m ← m.stepBack
    let (x, store) ← m.store.take m.tail.chunk (m.tail.pos - 1)
    return (some x, { m with
      store, tail := { m.tail with pos := m.tail.pos - 1, seq := m.tail.seq - 1 } })

def stepFront (m : LinkedQueue α) : Option (LinkedQueue α) :=
  if m.head.pos = m.store.capacity then do
    let (a, store) ← m.store.dropFirst m.head.chunk
    return { m with store, head := { m.head with chunk := a, pos := 0 } }
  else some m

def popFront (m : LinkedQueue α) : Option (Option α × LinkedQueue α) :=
  if m.isEmpty then some (none, m)
  else do
    let (x, store) ← m.store.take m.head.chunk m.head.pos
    { m with
      store, head := { m.head with pos := m.head.pos + 1, seq := m.head.seq + 1 } }.stepFront.map
        (some x, ·)

def front? (m : LinkedQueue α) : Option (Option α) :=
  if m.isEmpty then some none else (m.store.get? m.head.chunk m.head.pos).map some

/-- An empty last chunk knows the one before it, in which the last item lies. -/
def back? (m : LinkedQueue α) : Option (Option α) :=
  if m.isEmpty then some none
  else if m.tail.pos = 0 then do
    let c ← m.store.chunks m.tail.chunk
    let a ← c.prev
    (m.store.get? a (m.store.capacity - 1)).map some
  else (m.store.get? m.tail.chunk (m.tail.pos - 1)).map some

def call (m : LinkedQueue α) : QueueCall α → Option (Option α × LinkedQueue α)
  | .pushBack x => (m.pushBack x).map (none, ·)
  | .popFront => m.popFront
  | .popBack => m.popBack

def callAll : LinkedQueue α → List (QueueCall α) → Option (List (Option α) × LinkedQueue α)
  | m, [] => some ([], m)
  | m, c :: cs => do
    let (x, m) ← m.call c
    let (xs, m) ← m.callAll cs
    return (x :: xs, m)

/-- Storage that holds the items of a queue: the chunks from the one of the first item to the one
that the next goes to lie at the addresses that `place` tells. -/
structure Holds (m : LinkedQueue α) (q : ChunkQueue α) (place : Nat → Nat) : Prop where
  sound : q.Sound
  capacity : m.store.capacity = q.chunkSize
  head : m.head = ⟨place (q.frontPos / q.chunkSize), q.frontPos % q.chunkSize, q.frontPos⟩
  tail : m.tail = ⟨place (q.backPos / q.chunkSize), q.backPos % q.chunkSize, q.backPos⟩
  chained : m.store.Chained place (q.frontPos / q.chunkSize) (q.backPos / q.chunkSize)
    (cellsFrom q.frontPos q.toList) none
  spare : m.store.spare.isSome = q.spare
  allocated : m.store.allocated = q.allocated

theorem create_holds {chunkSize : Nat} (some_room : 0 < chunkSize) :
    (create chunkSize : LinkedQueue α).Holds (.empty chunkSize) id := by
  refine ⟨.empty some_room, rfl, ?_, ?_, ?_, rfl, rfl⟩
  · simp [create, ChunkQueue.empty]
  · simp [create, ChunkQueue.empty]
  · have only {a : Nat} (stored : ((create chunkSize : LinkedQueue α).store.chunks a).isSome =
        true) : a = 0 := by
      by_contra other
      rw [create] at stored
      dsimp only at stored
      rw [Function.update_of_ne other] at stored
      cases stored
    simp only [ChunkQueue.empty, Nat.zero_div]
    refine ⟨⟨?_, ?_, fun _ kept ↦ (by cases kept), fun _ loose ↦ (by cases loose), ?_, ?_⟩, ?_⟩
    · intro j _ le
      obtain rfl := Nat.le_zero.mp le
      rfl
    · exact fun i j _ _ _ _ same ↦ same
    · exact fun a stored ↦ .inr (.inr ⟨0, Nat.le_refl _, Nat.le_refl _, (only stored).symm⟩)
    · exact fun a stored ↦ only stored ▸ Nat.zero_lt_one
    · intro j _ le
      obtain rfl := Nat.le_zero.mp le
      refine ⟨{}, rfl, fun i _ ↦ ?_, rfl, fun behind ↦ absurd behind (Nat.lt_irrefl _)⟩
      exact (congrFun (cellsFrom_nil _) _).symm

namespace Holds

variable {m : LinkedQueue α} {q : ChunkQueue α} {place : Nat → Nat}

theorem some_room (h : m.Holds q place) : 0 < q.chunkSize :=
  Nat.zero_lt_of_lt h.sound.used_lt

theorem first_le_last (h : m.Holds q place) :
    q.frontPos / q.chunkSize ≤ q.backPos / q.chunkSize :=
  Nat.div_le_div_right (h.sound.length_eq ▸ Nat.le_add_right _ _)

theorem slot_lt (h : m.Holds q place) (p : Nat) : p % q.chunkSize < m.store.capacity :=
  (Nat.mod_lt p h.some_room).trans_eq h.capacity.symm

theorem position (h : m.Holds q place) (p : Nat) :
    p / q.chunkSize * m.store.capacity + p % q.chunkSize = p := by
  rw [h.capacity]
  exact Nat.div_add_mod' p _

theorem isEmpty (h : m.Holds q place) : m.isEmpty = q.toList.isEmpty := by
  have length := h.sound.length_eq
  rw [LinkedQueue.isEmpty, h.head, h.tail, ← length, Nat.add_sub_cancel_left]
  cases q.toList <;> rfl

/-- The end stands behind the new item, in a chunk that has room. -/
theorem linkBack (h : m.Holds q place) (x : α) {chunks : Nat → Option (Chunk α)}
    (chained : ChunkStore.Chained { m.store with chunks } place (q.frontPos / q.chunkSize)
      (q.backPos / q.chunkSize) (cellsFrom q.frontPos (q.toList ++ [x])) none) :
    ∃ store place', LinkedQueue.linkBack { m with
        store := { m.store with chunks }
        tail := ⟨place (q.backPos / q.chunkSize), q.backPos % q.chunkSize + 1, q.backPos + 1⟩ } =
      some { m with
        store
        tail := ⟨place' ((q.backPos + 1) / q.chunkSize), (q.backPos + 1) % q.chunkSize,
          q.backPos + 1⟩ } ∧
      place' (q.frontPos / q.chunkSize) = place (q.frontPos / q.chunkSize) ∧
      store.Chained place' (q.frontPos / q.chunkSize) ((q.backPos + 1) / q.chunkSize)
        (cellsFrom q.frontPos (q.toList ++ [x])) none ∧
      store.capacity = m.store.capacity ∧ store.spare.isSome = (q.pushBack x).spare ∧
      store.allocated = (q.pushBack x).allocated := by
  have sound := h.sound
  have first_le := h.first_le_last
  have before : q.boundaries = q.backPos / q.chunkSize - q.frontPos / q.chunkSize := rfl
  have after : (q.call (.pushBack x)).2.boundaries =
      (q.backPos + 1) / q.chunkSize - q.frontPos / q.chunkSize := by
    rw [ChunkQueue.boundaries, sound.chunkSize_call]
    simp only [ChunkQueue.call, ChunkQueue.backPos_pushBack, ChunkQueue.frontPos_pushBack]
  rcases slot_succ q.backPos h.some_room with room | full
  · obtain ⟨div, mod⟩ := div_mod_succ_of_room room
    obtain ⟨spare, allocated⟩ := sound.call_of_eq (c := .pushBack x) (by rw [after, div, before])
    rw [div, mod]
    exact ⟨_, place, if_neg (Nat.ne_of_lt (room.trans_eq h.capacity.symm)), rfl, chained, rfl,
      h.spare.trans spare.symm, h.allocated.trans allocated.symm⟩
  · obtain ⟨div, mod⟩ := div_mod_succ_of_full full
    obtain ⟨spare, allocated⟩ := sound.call_of_gt (c := .pushBack x) (by omega)
    -- the next chunk starts right behind the new item
    have empty : ∀ i < m.store.capacity, cellsFrom q.frontPos (q.toList ++ [x])
        ((q.backPos / q.chunkSize + 1) * m.store.capacity + i) = none := by
      intro i _
      have := h.position q.backPos
      have := h.capacity
      have := sound.length_eq
      refine cellsFrom_of_ge ?_
      rw [Nat.succ_mul, List.length_append, List.length_singleton]
      omega
    obtain ⟨a, store, appended, chained', capacity, spare', allocated'⟩ :=
      chained.append first_le empty
    rw [div, mod]
    refine ⟨store, Function.update place (q.backPos / q.chunkSize + 1) a, ?_,
      Function.update_of_ne (by omega) _ _, chained', capacity,
      (congrArg Option.isSome spare').trans spare.symm, (allocated'.trans ?_).trans allocated.symm⟩
    · rw [LinkedQueue.linkBack, if_pos (full.trans h.capacity.symm), appended, Function.update_self]
      rfl
    · rw [h.spare]
      exact congrArg (· + _) h.allocated

theorem pushBack (h : m.Holds q place) (x : α) :
    ∃ m' place', m.pushBack x = some m' ∧ m'.Holds (q.pushBack x) place' := by
  have size := ChunkQueue.chunkSize_pushBack q x
  obtain ⟨chunks, put, chained⟩ := h.chained.put h.first_le_last (Nat.le_refl _)
    (h.slot_lt q.backPos) (some x)
  rw [h.position, ← h.sound.length_eq, ← cellsFrom_concat, h.sound.length_eq] at chained
  obtain ⟨store, place', linked, first, chained, capacity, spare, allocated⟩ := h.linkBack x chained
  refine ⟨{ m with
      store
      tail := ⟨place' ((q.backPos + 1) / q.chunkSize), (q.backPos + 1) % q.chunkSize,
        q.backPos + 1⟩ }, place', ?_, h.sound.pushBack x,
    (capacity.trans h.capacity).trans size.symm, ?_, ?_, ?_, spare, allocated⟩
  · rw [LinkedQueue.pushBack, h.tail, put]
    exact linked
  · rw [size, ChunkQueue.frontPos_pushBack, first]
    exact h.head
  · rw [size, ChunkQueue.backPos_pushBack]
  · rw [size, ChunkQueue.frontPos_pushBack, ChunkQueue.backPos_pushBack, ChunkQueue.toList_pushBack]
    exact chained

/-- The front stands at the next item, in the chunk that holds it or will do so. -/
theorem stepFront (h : m.Holds q place) {chunks : Nat → Option (Chunk α)} {xs : List α}
    (held : q.frontPos + 1 ≤ q.backPos)
    (after : (q.call .popFront).2.boundaries =
      q.backPos / q.chunkSize - (q.frontPos + 1) / q.chunkSize)
    (chained : ChunkStore.Chained { m.store with chunks } place (q.frontPos / q.chunkSize)
      (q.backPos / q.chunkSize) (cellsFrom (q.frontPos + 1) xs) none) :
    ∃ store, LinkedQueue.stepFront { m with
        store := { m.store with chunks }
        head := ⟨place (q.frontPos / q.chunkSize), q.frontPos % q.chunkSize + 1,
          q.frontPos + 1⟩ } =
      some { m with
        store
        head := ⟨place ((q.frontPos + 1) / q.chunkSize), (q.frontPos + 1) % q.chunkSize,
          q.frontPos + 1⟩ } ∧
      store.Chained place ((q.frontPos + 1) / q.chunkSize) (q.backPos / q.chunkSize)
        (cellsFrom (q.frontPos + 1) xs) none ∧
      store.capacity = m.store.capacity ∧ store.spare.isSome = (q.call .popFront).2.spare ∧
      store.allocated = (q.call .popFront).2.allocated := by
  have before : q.boundaries = q.backPos / q.chunkSize - q.frontPos / q.chunkSize := rfl
  have le : (q.frontPos + 1) / q.chunkSize ≤ q.backPos / q.chunkSize := Nat.div_le_div_right held
  rcases slot_succ q.frontPos h.some_room with room | full
  · obtain ⟨div, mod⟩ := div_mod_succ_of_room room
    obtain ⟨spare, allocated⟩ := h.sound.call_of_eq (c := .popFront) (by rw [after, div, before])
    rw [div, mod]
    exact ⟨_, if_neg (Nat.ne_of_lt (room.trans_eq h.capacity.symm)), chained, rfl,
      h.spare.trans spare.symm, h.allocated.trans allocated.symm⟩
  · obtain ⟨div, mod⟩ := div_mod_succ_of_full full
    rw [div] at le after
    obtain ⟨spare, allocated⟩ := h.sound.call_of_lt (c := .popFront) (by omega)
    -- the item taken was the last of the first chunk
    have empty : ∀ i < m.store.capacity, cellsFrom (q.frontPos + 1) xs
        (q.frontPos / q.chunkSize * m.store.capacity + i) = none := by
      intro i lt
      have := h.position q.frontPos
      have := h.capacity
      exact cellsFrom_of_lt _ (by omega)
    obtain ⟨store, dropped, chained', capacity, spare', allocated'⟩ :=
      chained.dropFirst (Nat.lt_of_succ_le le) empty
    rw [div, mod]
    refine ⟨store, ?_, chained', capacity, spare'.trans spare.symm,
      (allocated'.trans h.allocated).trans allocated.symm⟩
    rw [LinkedQueue.stepFront, if_pos (full.trans h.capacity.symm), dropped]
    rfl

theorem popFront (h : m.Holds q place) :
    ∃ m', m.popFront = some (q.popFront.1, m') ∧ m'.Holds q.popFront.2 place := by
  have size := ChunkQueue.chunkSize_popFront q
  have length := h.sound.length_eq
  cases items : q.toList with
  | nil =>
    rw [(h.sound.pop_nil items).1]
    exact ⟨m, if_pos (by rw [h.isEmpty, items, List.isEmpty_nil]), h⟩
  | cons x xs =>
    obtain ⟨rest, popped, sound, left, front, back⟩ := h.sound.popFront_cons items
    have held : m.isEmpty = false := by rw [h.isEmpty, items, List.isEmpty_cons]
    have called : (q.call .popFront).2 = rest := congrArg Prod.snd popped
    rw [items, List.length_cons] at length
    rw [popped] at size
    have chained := h.chained
    rw [items] at chained
    obtain ⟨chunks, taken, chained⟩ := chained.take (Nat.le_refl _) h.first_le_last
      (h.slot_lt q.frontPos) (x := x) (by rw [h.position, cellsFrom_head])
    rw [h.position, ← cellsFrom_tail] at chained
    obtain ⟨store, stepped, chained, capacity, spare, allocated⟩ := h.stepFront (by omega)
      (by rw [called, ChunkQueue.boundaries, size, front, back]) chained
    rw [called] at spare allocated
    rw [popped]
    refine ⟨{ m with
        store
        head := ⟨place ((q.frontPos + 1) / q.chunkSize), (q.frontPos + 1) % q.chunkSize,
          q.frontPos + 1⟩ }, ?_, sound, (capacity.trans h.capacity).trans size.symm, ?_, ?_, ?_,
      spare, allocated⟩
    · rw [LinkedQueue.popFront, held, if_neg Bool.false_ne_true, h.head, taken]
      exact congrArg (Option.map (some x, ·)) stepped
    · rw [size, front]
    · rw [size, back]
      exact h.tail
    · rw [size, front, back, left]
      exact chained

/-- The end stands behind the last item, in the chunk that holds it. -/
theorem stepBack (h : m.Holds q place) {r : Nat} (held : q.frontPos ≤ r)
    (back : q.backPos = r + 1)
    (after : (q.call .popBack).2.boundaries = r / q.chunkSize - q.frontPos / q.chunkSize) :
    ∃ store, m.stepBack =
        some { m with store, tail := ⟨place (r / q.chunkSize), r % q.chunkSize + 1, r + 1⟩ } ∧
      store.Chained place (q.frontPos / q.chunkSize) (r / q.chunkSize)
        (cellsFrom q.frontPos q.toList) none ∧
      store.capacity = m.store.capacity ∧ store.spare.isSome = (q.call .popBack).2.spare ∧
      store.allocated = (q.call .popBack).2.allocated := by
  have sound := h.sound
  have before : q.boundaries = q.backPos / q.chunkSize - q.frontPos / q.chunkSize := rfl
  have tail := h.tail
  have chained := h.chained
  have le : q.frontPos / q.chunkSize ≤ r / q.chunkSize := Nat.div_le_div_right held
  rw [back] at tail chained before
  rcases slot_succ r h.some_room with room | full
  · obtain ⟨div, mod⟩ := div_mod_succ_of_room room
    rw [div, mod] at tail
    rw [div] at chained before
    obtain ⟨spare, allocated⟩ := sound.call_of_eq (c := .popBack) (by rw [after, before])
    refine ⟨m.store, ?_, chained, rfl, h.spare.trans spare.symm, h.allocated.trans allocated.symm⟩
    rw [LinkedQueue.stepBack, tail, if_neg (Nat.succ_ne_zero _), ← tail]
  · obtain ⟨div, mod⟩ := div_mod_succ_of_full full
    rw [div, mod] at tail
    rw [div] at chained before
    obtain ⟨spare, allocated⟩ := sound.call_of_lt (c := .popBack) (by omega)
    -- the last chunk starts right behind the last item
    have empty : ∀ i < m.store.capacity, cellsFrom q.frontPos q.toList
        ((r / q.chunkSize + 1) * m.store.capacity + i) = none := by
      intro i _
      have := h.position r
      have := h.capacity
      have := sound.length_eq
      refine cellsFrom_of_ge ?_
      rw [Nat.succ_mul]
      omega
    obtain ⟨s', dropped, chained', capacity, spare', allocated'⟩ := chained.dropLast le empty
    refine ⟨s', ?_, chained', capacity, spare'.trans spare.symm,
      (allocated'.trans h.allocated).trans allocated.symm⟩
    rw [LinkedQueue.stepBack, tail, if_pos rfl, dropped, full, ← h.capacity, ← capacity]
    rfl

theorem popBack (h : m.Holds q place) :
    ∃ m', m.popBack = some (q.popBack.1, m') ∧ m'.Holds q.popBack.2 place := by
  have sound := h.sound
  have size : q.popBack.2.chunkSize = q.chunkSize := sound.chunkSize_call .popBack
  rcases List.eq_nil_or_concat' q.toList with items | ⟨xs, x, items⟩
  · rw [(sound.pop_nil items).2]
    exact ⟨m, if_pos (by rw [h.isEmpty, items, List.isEmpty_nil]), h⟩
  · obtain ⟨rest, popped, rest_sound, left, front, back⟩ := sound.popBack_concat items
    have held : m.isEmpty = false := by
      rw [h.isEmpty, items, List.isEmpty_eq_false_iff]
      exact List.append_ne_nil_of_right_ne_nil _ (List.cons_ne_nil _ _)
    have called : (q.call .popBack).2 = rest := congrArg Prod.snd popped
    have length := rest_sound.length_eq
    rw [left, front] at length
    rw [popped] at size
    obtain ⟨store, stepped, chained, capacity, spare, allocated⟩ := h.stepBack (r := rest.backPos)
      (by omega) back.symm (by rw [called, ChunkQueue.boundaries, size, front])
    rw [items] at chained
    have slot_lt : rest.backPos % q.chunkSize < store.capacity :=
      (h.slot_lt rest.backPos).trans_eq capacity.symm
    have position : rest.backPos / q.chunkSize * store.capacity + rest.backPos % q.chunkSize =
        q.frontPos + xs.length := by rw [capacity, h.position, length]
    obtain ⟨chunks, taken, chained⟩ := chained.take
      (Nat.div_le_div_right (by omega)) (Nat.le_refl _) slot_lt (x := x)
      (by rw [position, cellsFrom_concat, Function.update_self])
    rw [position, ← cellsFrom_dropLast] at chained
    rw [called] at spare allocated
    rw [popped]
    refine ⟨{ m with
        store := { store with chunks }
        tail := ⟨place (rest.backPos / q.chunkSize), rest.backPos % q.chunkSize, rest.backPos⟩ },
      ?_, rest_sound, (capacity.trans h.capacity).trans size.symm, ?_, ?_, ?_, spare, allocated⟩
    · rw [LinkedQueue.popBack, held, if_neg Bool.false_ne_true, stepped]
      dsimp only [Option.bind_eq_bind, Option.bind_some]
      rw [Nat.add_sub_cancel, taken]
      rfl
    · rw [size, front]
      exact h.head
    · rw [size]
    · rw [size, front, left]
      exact chained

theorem front? (h : m.Holds q place) : m.front? = some q.front? := by
  rw [h.sound.front?_eq, LinkedQueue.front?, h.isEmpty, h.head]
  cases items : q.toList with
  | nil => rfl
  | cons x xs =>
    rw [h.chained.get? (Nat.le_refl _) h.first_le_last (h.slot_lt _), h.position, items,
      cellsFrom_head]
    rfl

theorem back? (h : m.Holds q place) : m.back? = some q.back? := by
  rw [h.sound.back?_eq, LinkedQueue.back?, h.isEmpty, h.tail]
  rcases List.eq_nil_or_concat' q.toList with items | ⟨xs, x, items⟩
  · rw [items]
    rfl
  · have length := h.sound.length_eq
    rw [items, List.length_append, List.length_singleton, ← Nat.add_assoc] at length
    have chained := h.chained
    rw [items, ← length] at chained
    rw [items, List.getLast?_concat, if_neg (by simp), ← length]
    have le : q.frontPos / q.chunkSize ≤ (q.frontPos + xs.length) / q.chunkSize :=
      Nat.div_le_div_right (Nat.le_add_right _ _)
    have last : cellsFrom q.frontPos (xs ++ [x]) (q.frontPos + xs.length) = some x := by
      rw [cellsFrom_concat, Function.update_self]
    rcases slot_succ (q.frontPos + xs.length) h.some_room with room | full
    · obtain ⟨div, mod⟩ := div_mod_succ_of_room room
      rw [div] at chained
      rw [div, mod, if_neg (Nat.succ_ne_zero _), Nat.add_sub_cancel,
        chained.get? le (Nat.le_refl _) (h.slot_lt _), h.position, last]
      rfl
    · obtain ⟨div, mod⟩ := div_mod_succ_of_full full
      rw [div] at chained
      obtain ⟨c, at_end, -, -, prev⟩ := chained.linked _ (Nat.le_succ_of_le le) (Nat.le_refl _)
      rw [div, mod, if_pos rfl, at_end]
      dsimp only [Option.bind_eq_bind, Option.bind_some]
      rw [prev (Nat.lt_succ_of_le le), Option.bind_some, Nat.succ_sub_one, h.capacity]
      have slot : q.chunkSize - 1 = (q.frontPos + xs.length) % q.chunkSize := by omega
      rw [slot, chained.get? le (Nat.le_succ _) (h.slot_lt _), h.position, last]
      rfl

/-- One call on the storage gives the answer that the queue gives, and goes right. -/
theorem call (h : m.Holds q place) (c : QueueCall α) :
    ∃ m' place', m.call c = some ((q.call c).1, m') ∧ m'.Holds (q.call c).2 place' := by
  cases c with
  | pushBack x =>
    obtain ⟨m', place', pushed, holds⟩ := h.pushBack x
    exact ⟨m', place', by rw [LinkedQueue.call, pushed]; rfl, holds⟩
  | popFront =>
    obtain ⟨m', popped, holds⟩ := h.popFront
    exact ⟨m', place, popped, holds⟩
  | popBack =>
    obtain ⟨m', popped, holds⟩ := h.popBack
    exact ⟨m', place, popped, holds⟩

theorem callAll (h : m.Holds q place) (cs : List (QueueCall α)) :
    ∃ m' place', m.callAll cs = some ((q.callAll cs).1, m') ∧
      m'.Holds (q.callAll cs).2 place' := by
  induction cs generalizing m q place with
  | nil => exact ⟨m, place, rfl, h⟩
  | cons c cs ih =>
    obtain ⟨m', place', called, holds⟩ := h.call c
    obtain ⟨m'', place'', rest, holds'⟩ := ih holds
    refine ⟨m'', place'', ?_, holds'⟩
    rw [LinkedQueue.callAll, called]
    dsimp only [Option.bind_eq_bind, Option.bind_some]
    rw [rest]
    rfl

end Holds

structure Spans (m : LinkedQueue α) (q : ChunkQueue α) (chain : List Nat) : Prop where
  length : chain.length = q.backPos / q.chunkSize - q.frontPos / q.chunkSize + 1
  nodup : chain.Nodup
  forwards : ∀ n, m.store.follow n m.head.chunk = chain.take n
  backwards : ∀ i a b, chain[i]? = some a → chain[i + 1]? = some b →
    (m.store.chunks b).bind (·.prev) = some a
  items : ∀ p, q.frontPos ≤ p → p < q.backPos →
    ∃ a, chain[p / q.chunkSize - q.frontPos / q.chunkSize]? = some a ∧
      m.store.get? a (p % q.chunkSize) = q.toList[p - q.frontPos]?
  head : chain.head? = some m.head.chunk ∧ m.head.pos < q.chunkSize ∧
    m.head.pos = q.frontPos % q.chunkSize ∧ m.head.seq = q.frontPos
  tail : chain.getLast? = some m.tail.chunk ∧ m.tail.pos < q.chunkSize ∧
    m.tail.pos = q.backPos % q.chunkSize ∧ m.tail.seq = q.backPos
  stored : ∀ a, (m.store.chunks a).isSome = true ↔ a ∈ chain ∨ m.store.spare = some a
  /-- What is kept is linked with no chunk. -/
  unlinked : ∀ a, m.store.spare = some a →
    a ∉ chain ∧ ∃ c, m.store.chunks a = some c ∧ c.next = none
  spare : m.store.spare.isSome = q.spare
  allocated : m.store.allocated = q.allocated

theorem Holds.spans {m : LinkedQueue α} {q : ChunkQueue α} {place : Nat → Nat}
    (h : m.Holds q place) :
    m.Spans q ((List.range' (q.frontPos / q.chunkSize) (q.boundaries + 1)).map place) := by
  have le := h.first_le_last
  have across : q.boundaries = q.backPos / q.chunkSize - q.frontPos / q.chunkSize := rfl
  have address {i : Nat} (within : i ≤ q.boundaries) :
      ((List.range' (q.frontPos / q.chunkSize) (q.boundaries + 1)).map place)[i]? =
        some (place (q.frontPos / q.chunkSize + i)) := by
    rw [List.getElem?_map, List.getElem?_range' (Nat.lt_succ_of_le within), Nat.one_mul]
    rfl
  have mem {a : Nat} : a ∈ (List.range' (q.frontPos / q.chunkSize) (q.boundaries + 1)).map place ↔
      ∃ j, (q.frontPos / q.chunkSize ≤ j ∧ j ≤ q.backPos / q.chunkSize) ∧ place j = a := by
    rw [List.mem_map]
    refine exists_congr fun j ↦ and_congr_left' ?_
    rw [List.mem_range'_1]
    omega
  have head : m.head.chunk = place (q.frontPos / q.chunkSize) := by rw [h.head]
  have length : ((List.range' (q.frontPos / q.chunkSize) (q.boundaries + 1)).map place).length =
      q.boundaries + 1 := by rw [List.length_map, List.length_range']
  refine ⟨length, ?_, ?_, ?_, ?_, ⟨?_, ?_⟩, ⟨?_, ?_⟩, ?_, ?_, h.spare, h.allocated⟩
  · refine List.Nodup.map_on (fun i here j there ↦ ?_) List.nodup_range'
    rw [List.mem_range'_1] at here there
    exact h.chained.distinct i j here.1 (by omega) there.1 (by omega)
  · intro n
    rw [head, h.chained.follow n (Nat.le_refl _) le, Nat.succ_sub le]
    rfl
  · intro i a b at_i at_next
    have within : i + 1 < q.boundaries + 1 := length ▸ (List.getElem?_eq_some_iff.mp at_next).1
    rw [address (by omega)] at at_i at_next
    obtain rfl := Option.some.inj at_i
    obtain rfl := Option.some.inj at_next
    obtain ⟨c, at_b, -, -, prev⟩ := h.chained.linked (q.frontPos / q.chunkSize + (i + 1))
      (by omega) (by omega)
    rw [at_b]
    exact prev (by omega)
  · intro p front back
    have first : q.frontPos / q.chunkSize ≤ p / q.chunkSize := Nat.div_le_div_right front
    have last : p / q.chunkSize ≤ q.backPos / q.chunkSize :=
      Nat.div_le_div_right (Nat.le_of_lt back)
    refine ⟨_, address (by omega), ?_⟩
    rw [Nat.add_sub_cancel' first, h.chained.get? first last (h.slot_lt p), h.position, cellsFrom,
      if_pos front]
  · rw [head, List.head?_eq_getElem?, address (Nat.zero_le _)]
    rfl
  · rw [h.head]
    exact ⟨Nat.mod_lt _ h.some_room, rfl, rfl⟩
  · rw [h.tail, List.getLast?_eq_getElem?, length, Nat.add_sub_cancel, address (Nat.le_refl _),
      across, Nat.add_sub_cancel' le]
  · rw [h.tail]
    exact ⟨Nat.mod_lt _ h.some_room, rfl, rfl⟩
  · intro a
    rw [mem]
    constructor
    · intro stored
      rcases h.chained.retained a stored with kept | loose | ⟨j, lj, lj', at_a⟩
      · exact .inr kept
      · cases loose
      · exact .inl ⟨j, ⟨lj, lj'⟩, at_a⟩
    · rintro (⟨j, ⟨lj, lj'⟩, rfl⟩ | kept)
      · exact h.chained.stored j lj lj'
      · obtain ⟨-, c, at_a, -⟩ := h.chained.kept a kept
        rw [at_a]
        rfl
  · intro a kept
    obtain ⟨apart, c, at_a, next, -⟩ := h.chained.kept a kept
    refine ⟨fun linked ↦ ?_, c, at_a, next⟩
    obtain ⟨j, ⟨lj, lj'⟩, same⟩ := mem.mp linked
    exact apart j lj lj' same

end LinkedQueue

/-- Whatever is asked of an empty queue, a list answers the same, and both ends of the queue are as
far as items have been put and taken there. A chain of linked chunks in storage answers the same and
holds the items. -/
theorem ChunkQueue.refines_list {chunkSize : Nat} (some_room : 0 < chunkSize)
    (cs : List (QueueCall α)) :
    let answers := ((empty chunkSize).callAll cs).1
    let q := ((empty chunkSize).callAll cs).2
    let items := (QueueCall.allOnList cs []).2
    (answers = (QueueCall.allOnList cs []).1 ∧ q.front? = items.head? ∧
      q.back? = items.getLast? ∧ q.length = items.length ∧ q.isEmpty = items.isEmpty) ∧
    (q.frontPos = (cs.zip answers).countP QueueCall.tookFront ∧
      q.backPos + (cs.zip answers).countP QueueCall.tookBack = cs.countP QueueCall.pushes) ∧
    (q.chain.length = q.backPos / q.chunkSize - q.frontPos / q.chunkSize + 1 ∧
      ∀ p, q.frontPos ≤ p →
        (q.slots[p / q.chunkSize - q.frontPos / q.chunkSize]?).bind (·[p % q.chunkSize]?) =
          items[p - q.frontPos]?.map some) ∧
    ∃ m chain, (LinkedQueue.create chunkSize).callAll cs = some (answers, m) ∧
      m.front? = some q.front? ∧ m.back? = some q.back? ∧ m.Spans q chain := by
  intro answers q items
  have start : (empty chunkSize : ChunkQueue α).Sound := .empty some_room
  have sound : q.Sound := start.callAll cs
  obtain ⟨same, left, front, back⟩ := start.callAll_eq cs
  have length := sound.length_eq
  change q.toList = items at left
  rw [left] at length
  obtain ⟨m, place, ran, holds⟩ := (LinkedQueue.create_holds some_room).callAll cs
  refine ⟨⟨same, ?_, ?_, ?_, ?_⟩, ⟨front.trans (Nat.zero_add _), back.trans (Nat.zero_add _)⟩,
    ⟨sound.chain_length, fun p ↦ left ▸ sound.slots_eq⟩, m, _, ran, holds.front?, holds.back?,
    holds.spans⟩
  · rw [sound.front?_eq, left]
  · rw [sound.back?_eq, left]
  · rw [ChunkQueue.length, ← length, Nat.add_sub_cancel_left]
  · rw [sound.isEmpty_eq, left]

/-- The item pushed last lies in the chunk before an empty one. -/
theorem ChunkQueue.refines_list_behind_a_full_chunk :
    let cs : List (QueueCall Nat) :=
      [.popFront, .pushBack 1, .pushBack 2, .pushBack 3, .popFront, .popBack]
    let q := ((empty 2).callAll cs).2
    let answers := [none, none, none, none, some 1, some 3]
    0 < 2 ∧ ((empty 2).callAll cs).1 = answers ∧ q.frontPos = 1 ∧ q.backPos = 2 ∧
      ∃ m chain, (LinkedQueue.create 2).callAll cs = some (answers, m) ∧
        m.front? = some (some 2) ∧ m.back? = some (some 2) ∧ chain.length = 2 ∧ m.tail.pos = 0 ∧
        m.Spans q chain := by
  intro cs q answers
  have refined := refines_list Nat.two_pos cs
  -- spares the comparison of the queue with itself, which would evaluate it
  have fold : ((empty 2).callAll cs).2 = q := rfl
  dsimp only at refined
  rw [fold] at refined
  obtain ⟨⟨same, front, back, -, -⟩, -, -, m, chain, ran, front', back', spans⟩ := refined
  have expected : QueueCall.allOnList cs [] = (answers, [2]) := rfl
  have front_pos : q.frontPos = 1 := by decide +kernel
  have back_pos : q.backPos = 2 := by decide +kernel
  have size : q.chunkSize = 2 := by decide +kernel
  rw [expected] at same front back
  rw [same] at ran
  have length := spans.length
  have tail := spans.tail.2.2.1
  rw [front_pos, back_pos, size] at length
  rw [back_pos, size] at tail
  exact ⟨Nat.two_pos, same, front_pos, back_pos, m, chain, ran, front'.trans (congrArg some front),
    back'.trans (congrArg some back), length, tail, spans⟩

end Conduit
