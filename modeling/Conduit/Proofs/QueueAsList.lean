import Conduit.Proofs.ChunkTurnover
import Mathlib.Data.List.Basic

namespace Conduit

variable {α : Type}

namespace QueueCall

def onList : QueueCall α → List α → Option α × List α
  | .pushBack x, xs => (none, xs ++ [x])
  | .popFront, xs => (xs.head?, xs.tail)
  | .popBack, xs => (xs.getLast?, xs.dropLast)

def allOnList : List (QueueCall α) → List α → List (Option α) × List α
  | [], xs => ([], xs)
  | c :: cs, xs =>
    let (answer, xs) := c.onList xs
    let (answers, xs) := allOnList cs xs
    (answer :: answers, xs)

def pushes : QueueCall α → Bool
  | .pushBack _ => true
  | _ => false

def tookFront : QueueCall α × Option α → Bool
  | (.popFront, some _) => true
  | _ => false

def tookBack : QueueCall α × Option α → Bool
  | (.popBack, some _) => true
  | _ => false

end QueueCall

namespace ChunkQueue

variable {q : ChunkQueue α}

theorem Sound.back?_eq (h : q.Sound) : q.back? = q.toList.getLast? := by
  rw [back?, h.isEmpty_eq]
  by_cases items : q.toList = []
  · rw [items]
    rfl
  · have stepped := h.stepBack items
    have last : q.stepBack.tail.back? = q.toList.getLast? := by
      rw [Deque.back?_eq_getLast?, ← stepped.items, toList_eq,
        List.getLast?_append_of_ne_nil _ stepped.held]
    rw [if_neg (by rwa [List.isEmpty_iff]), ← last]
    have filled := stepped.filled_pos
    unfold ChunkQueue.stepBack at filled ⊢
    split
    · rename_i empty
      rw [if_pos empty] at filled
      rw [Deque.back?_eq_getLast?]
      cases popped : q.full.popBack? with
      | none =>
        rw [popped] at filled
        exact absurd empty (Nat.ne_of_gt filled)
      | some rest => simp [Deque.toList_of_popBack? popped, retire]
    · rfl

theorem Sound.call_eq (h : q.Sound) (c : QueueCall α) :
    (q.call c).1 = (c.onList q.toList).1 ∧ (q.call c).2.toList = (c.onList q.toList).2 ∧
      (q.call c).2.frontPos =
        q.frontPos + (if QueueCall.tookFront (c, (q.call c).1) then 1 else 0) ∧
      (q.call c).2.backPos + (if QueueCall.tookBack (c, (q.call c).1) then 1 else 0) =
        q.backPos + if c.pushes then 1 else 0 := by
  cases c with
  | pushBack x => exact ⟨rfl, toList_pushBack q x, frontPos_pushBack q x, backPos_pushBack q x⟩
  | popFront =>
    cases items : q.toList with
    | nil =>
      rw [ChunkQueue.call, (h.pop_nil items).1]
      exact ⟨rfl, items, rfl, rfl⟩
    | cons x xs =>
      obtain ⟨rest, popped, -, left, front, back⟩ := h.popFront_cons items
      rw [ChunkQueue.call, popped]
      exact ⟨rfl, left, front, back⟩
  | popBack =>
    rcases List.eq_nil_or_concat' q.toList with items | ⟨xs, x, items⟩
    · rw [ChunkQueue.call, (h.pop_nil items).2, items]
      exact ⟨rfl, rfl, rfl, rfl⟩
    · obtain ⟨rest, popped, -, left, front, back⟩ := h.popBack_concat items
      rw [ChunkQueue.call, popped, items]
      exact ⟨List.getLast?_concat.symm, left.trans List.dropLast_concat.symm, front, back⟩

/-- The answers to calls, and the items that they leave, are those of a list. An end moves with each
item that is put there or taken from there. -/
theorem Sound.callAll_eq (h : q.Sound) (cs : List (QueueCall α)) :
    (q.callAll cs).1 = (QueueCall.allOnList cs q.toList).1 ∧
      (q.callAll cs).2.toList = (QueueCall.allOnList cs q.toList).2 ∧
      (q.callAll cs).2.frontPos =
        q.frontPos + (cs.zip (q.callAll cs).1).countP QueueCall.tookFront ∧
      (q.callAll cs).2.backPos + (cs.zip (q.callAll cs).1).countP QueueCall.tookBack =
        q.backPos + cs.countP QueueCall.pushes := by
  induction cs generalizing q with
  | nil => exact ⟨rfl, rfl, rfl, rfl⟩
  | cons c cs ih =>
    obtain ⟨answer, items, front, back⟩ := h.call_eq c
    obtain ⟨answers, items', front', back'⟩ := ih (h.call c)
    rw [items] at answers items'
    simp only [ChunkQueue.callAll, QueueCall.allOnList, List.zip_cons_cons, List.countP_cons]
    refine ⟨by rw [answers, answer], items', ?_, ?_⟩
    · rw [front', front]
      omega
    · omega

/-- Where all chunks but the last are full, an item's number tells its chunk and its place there. -/
theorem getElem?_flatten_concat {β : Type} {n : Nat} {chunks : List (List β)} {last : List β}
    (full : ∀ c ∈ chunks, c.length = n) (lt : last.length < n) (k : Nat) :
    (chunks.flatten ++ last)[k]? = ((chunks ++ [last])[k / n]?).bind (·[k % n]?) := by
  have pos : 0 < n := Nat.zero_lt_of_lt lt
  induction chunks generalizing k with
  | nil =>
    rcases Nat.lt_or_ge k n with within | behind
    · rw [Nat.div_eq_of_lt within, Nat.mod_eq_of_lt within]
      rfl
    · obtain ⟨number, eq⟩ := Nat.exists_eq_succ_of_ne_zero (Nat.div_pos behind pos).ne'
      rw [eq, List.flatten_nil, List.nil_append,
        List.getElem?_eq_none (Nat.le_of_lt (Nat.lt_of_lt_of_le lt behind))]
      rfl
  | cons c chunks ih =>
    have length : c.length = n := full c List.mem_cons_self
    rw [List.flatten_cons, List.append_assoc, List.cons_append]
    rcases Nat.lt_or_ge k n with within | behind
    · rw [Nat.div_eq_of_lt within, Nat.mod_eq_of_lt within,
        List.getElem?_append_left (within.trans_eq length.symm)]
      rfl
    · rw [List.getElem?_append_right (length.trans_le behind), length,
        ih (fun d there ↦ full d (List.mem_cons_of_mem _ there)), Nat.div_eq_sub_div pos behind,
        Nat.mod_eq_sub_mod behind, List.getElem?_cons_succ]

/-- The slots of the chunks that are in use, empty where an item was taken from the front. -/
def slots (q : ChunkQueue α) : List (List (Option α)) :=
  match q.chain with
  | [] => []
  | first :: rest => (List.replicate q.used none ++ first.map some) :: rest.map (·.map some)

theorem Sound.chain_length (h : q.Sound) :
    q.chain.length = q.backPos / q.chunkSize - q.frontPos / q.chunkSize + 1 := by
  have same : q.backPos / q.chunkSize - q.frontPos / q.chunkSize = q.parts.length :=
    h.boundaries_eq
  rw [same]
  exact List.length_append

/-- An item's position tells the number of its chunk and that of its slot. -/
theorem Sound.slots_eq (h : q.Sound) {p : Nat} (front : q.frontPos ≤ p) :
    (q.slots[p / q.chunkSize - q.frontPos / q.chunkSize]?).bind (·[p % q.chunkSize]?) =
      q.toList[p - q.frontPos]?.map some := by
  obtain ⟨retired, start, -⟩ := h.positions
  have used_lt := h.used_lt
  have filled_lt := h.filled_lt
  have laid := h.laid
  have pos : 0 < q.chunkSize := Nat.zero_lt_of_lt used_lt
  -- counted from the start of the first chunk, its used slots come before the items
  obtain ⟨k, rfl⟩ := Nat.exists_eq_add_of_le front
  have number : (q.frontPos + k) / q.chunkSize - q.frontPos / q.chunkSize =
      (q.used + k) / q.chunkSize := by
    rw [start, Nat.add_assoc, Nat.mul_comm, Nat.mul_add_div pos, Nat.mul_add_div pos,
      Nat.div_eq_of_lt used_lt, Nat.add_zero, Nat.add_sub_cancel_left]
  have slot : (q.frontPos + k) % q.chunkSize = (q.used + k) % q.chunkSize := by
    rw [start, Nat.add_assoc, Nat.mul_comm, Nat.mul_add_mod]
  have behind : (List.replicate q.used none ++ q.toList.map some)[q.used + k]? =
      q.toList[k]?.map some := by
    rw [List.getElem?_append_right (by simp), List.length_replicate, Nat.add_sub_cancel_left,
      List.getElem?_map]
  have chain : q.chain = q.parts ++ [q.tail.toList] := rfl
  rw [number, slot, Nat.add_sub_cancel_left, ← behind, toList_eq, slots]
  cases parts : q.parts with
  | nil =>
    rw [parts] at laid chain
    rw [chain]
    have full : ∀ c ∈ ([] : List (List (Option α))), c.length = q.chunkSize := fun _ mem ↦ by
      cases mem
    have lt : (List.replicate q.used none ++ q.tail.toList.map some).length < q.chunkSize := by
      simp only [Laid] at laid
      simp
      omega
    exact (getElem?_flatten_concat full lt (q.used + k)).symm
  | cons first rest =>
    rw [parts] at laid chain
    rw [chain]
    obtain ⟨first_length, full, tail_length⟩ := laid
    have filled : ∀ c ∈ (List.replicate q.used none ++ first.map some) :: rest.map (·.map some),
        c.length = q.chunkSize := by
      intro c mem
      rcases List.mem_cons.mp mem with rfl | mem
      · simp
        omega
      · obtain ⟨d, there, rfl⟩ := List.mem_map.mp mem
        rw [List.length_map, full d there]
    have lt : (q.tail.toList.map some).length < q.chunkSize := by
      simp
      omega
    simpa using (getElem?_flatten_concat filled lt (q.used + k)).symm

theorem Sound.chunkSize_call (h : q.Sound) (c : QueueCall α) :
    (q.call c).2.chunkSize = q.chunkSize := by
  cases c with
  | pushBack x => exact chunkSize_pushBack q x
  | popFront => exact chunkSize_popFront q
  | popBack =>
    by_cases items : q.toList = []
    · rw [ChunkQueue.call, (h.pop_nil items).2]
    · have same := (h.stepBack items).chunkSize
      rw [ChunkQueue.call]
      unfold popBack
      split
      · rfl
      · dsimp only
        split <;> exact same

theorem Sound.call_of_eq (h : q.Sound) {c : QueueCall α}
    (same : (q.call c).2.boundaries = q.boundaries) :
    (q.call c).2.spare = q.spare ∧ (q.call c).2.allocated = q.allocated := by
  rw [(h.call c).boundaries_eq, h.boundaries_eq] at same
  cases h.turnover c with
  | stays parts spare allocated => exact ⟨spare, allocated⟩
  | links parts spare allocated => omega
  | unlinks parts spare allocated => omega

theorem Sound.call_of_lt (h : q.Sound) {c : QueueCall α}
    (fewer : (q.call c).2.boundaries < q.boundaries) :
    (q.call c).2.spare = true ∧ (q.call c).2.allocated = q.allocated := by
  rw [(h.call c).boundaries_eq, h.boundaries_eq] at fewer
  cases h.turnover c with
  | stays parts spare allocated => omega
  | links parts spare allocated => omega
  | unlinks parts spare allocated => exact ⟨spare, allocated⟩

theorem Sound.call_of_gt (h : q.Sound) {c : QueueCall α}
    (more : q.boundaries < (q.call c).2.boundaries) : (q.call c).2.spare = false ∧
      (q.call c).2.allocated = q.allocated + if q.spare then 0 else 1 := by
  rw [(h.call c).boundaries_eq, h.boundaries_eq] at more
  cases h.turnover c with
  | stays parts spare allocated => omega
  | links parts spare allocated => exact ⟨spare, allocated⟩
  | unlinks parts spare allocated => omega

end ChunkQueue

end Conduit
