import Conduit.ChunkQueue

namespace Conduit.ChunkQueue

variable {α : Type}

def parts (q : ChunkQueue α) : List (List α) := q.full.toList.map Deque.toList

/-- Chunks before the last are full, less the slots that were used up in the first of all. -/
def Laid (size used filled : Nat) : List (List α) → List α → Prop
  | [], tail => tail.length + used = filled
  | first :: rest, tail =>
    first.length + used = size ∧ (∀ c ∈ rest, c.length = size) ∧ tail.length = filled

theorem Laid.length_eq {size used filled : Nat} {chunks : List (List α)} {tail : List α}
    (h : Laid size used filled chunks tail) :
    (chunks.flatten ++ tail).length + used = chunks.length * size + filled := by
  cases chunks with
  | nil => simpa [Laid] using h
  | cons first rest =>
    obtain ⟨hfirst, hrest, htail⟩ := h
    have whole : rest.flatten.length = rest.length * size := by
      rw [List.length_flatten, List.map_congr_left hrest, List.map_const', List.sum_replicate_nat]
    simp only [List.flatten_cons, List.length_append, List.length_cons, Nat.succ_mul]
    omega

theorem Laid.link {size used filled : Nat} {chunks : List (List α)} {tail : List α} {x : α}
    (h : Laid size used filled chunks tail) (full : filled + 1 = size) :
    Laid size used 0 (chunks ++ [tail ++ [x]]) [] := by
  cases chunks with
  | nil =>
    simp only [Laid] at h
    simp only [List.nil_append, Laid, List.length_append, List.length_singleton, List.not_mem_nil,
      false_implies, implies_true, List.length_nil, and_true]
    omega
  | cons first rest =>
    obtain ⟨hfirst, hrest, htail⟩ := h
    refine ⟨hfirst, ?_, rfl⟩
    intro c hc
    rcases List.mem_append.mp hc with hc | hc
    · exact hrest c hc
    · obtain rfl := List.mem_singleton.mp hc
      simp only [List.length_append, List.length_singleton]
      omega

theorem Laid.fill {size used filled : Nat} {chunks : List (List α)} {tail : List α} {x : α}
    (h : Laid size used filled chunks tail) :
    Laid size used (filled + 1) chunks (tail ++ [x]) := by
  cases chunks with
  | nil =>
    simp only [Laid, List.length_append, List.length_singleton] at h ⊢
    omega
  | cons first rest =>
    obtain ⟨hfirst, hrest, htail⟩ := h
    exact ⟨hfirst, hrest, by simp only [List.length_append, List.length_singleton]; omega⟩

theorem Laid.unlink {size used : Nat} {chunks : List (List α)} {last : List α}
    (h : Laid size used 0 (chunks ++ [last]) []) : Laid size used size chunks last := by
  cases chunks with
  | nil => exact h.1
  | cons first rest =>
    obtain ⟨hfirst, hrest, -⟩ := h
    exact ⟨hfirst, fun c hc ↦ hrest c (List.mem_append_left _ hc),
      hrest last (List.mem_append_right _ (List.mem_singleton_self _))⟩

theorem Laid.unfill {size used filled : Nat} {chunks : List (List α)} {tail : List α} {x : α}
    (h : Laid size used filled chunks (tail ++ [x])) :
    Laid size used (filled - 1) chunks tail := by
  cases chunks with
  | nil =>
    simp only [Laid, List.length_append, List.length_singleton] at h ⊢
    omega
  | cons first rest =>
    obtain ⟨hfirst, hrest, htail⟩ := h
    refine ⟨hfirst, hrest, ?_⟩
    simp only [List.length_append, List.length_singleton] at htail
    omega

theorem Laid.tail_length {size used filled : Nat} {chunks : List (List α)} {last tail : List α}
    (h : Laid size used filled (chunks ++ [last]) tail) : tail.length = filled := by
  cases chunks with
  | nil => exact h.2.2
  | cons first rest => exact h.2.2

/-- Only the used slots of a first chunk keep a last chunk from holding an item. -/
theorem Laid.tail_ne_nil {size used filled : Nat} {chunks : List (List α)} {tail : List α}
    (h : Laid size used filled chunks tail) (some_filled : 0 < filled)
    (unused : chunks = [] → used < filled) : tail ≠ [] := by
  rintro rfl
  cases chunks with
  | nil =>
    have := unused rfl
    simp only [Laid, List.length_nil] at h
    omega
  | cons first rest =>
    have := h.2.2
    rw [List.length_nil] at this
    omega

/-- What every queue keeps. The `retired` chunks, that went for good, tell how the positions are
spread over the chunks. -/
structure Sound (q : ChunkQueue α) : Prop where
  used_lt : q.used < q.chunkSize
  filled_lt : q.filled < q.chunkSize
  laid : Laid q.chunkSize q.used q.filled q.parts q.tail.toList
  positions : ∃ retired, q.frontPos = retired * q.chunkSize + q.used ∧
    q.backPos = (retired + q.parts.length) * q.chunkSize + q.filled

theorem toList_eq (q : ChunkQueue α) : q.toList = q.parts.flatten ++ q.tail.toList := by
  simp [toList, chain, parts]

theorem Sound.length_eq {q : ChunkQueue α} (h : q.Sound) :
    q.frontPos + q.toList.length = q.backPos := by
  obtain ⟨retired, hfront, hback⟩ := h.positions
  have hlen := h.laid.length_eq
  rw [← toList_eq] at hlen
  rw [hfront, hback, Nat.add_mul]
  omega

theorem Sound.isEmpty_eq {q : ChunkQueue α} (h : q.Sound) : q.isEmpty = q.toList.isEmpty := by
  have hlen := h.length_eq
  cases hq : q.toList with
  | nil =>
    rw [hq] at hlen
    simpa [isEmpty] using hlen
  | cons x xs =>
    rw [hq, List.length_cons] at hlen
    simp only [isEmpty, List.isEmpty_cons, beq_eq_false_iff_ne, ne_eq]
    omega

theorem Sound.empty {size : Nat} (h : 0 < size) : (empty size : ChunkQueue α).Sound where
  used_lt := h
  filled_lt := h
  laid := rfl
  positions := ⟨0, by simp [ChunkQueue.empty], by simp [ChunkQueue.empty, parts]⟩

@[simp] theorem takeChunk_chunkSize (q : ChunkQueue α) : q.takeChunk.chunkSize = q.chunkSize := by
  unfold takeChunk; split <;> rfl

@[simp] theorem takeChunk_full (q : ChunkQueue α) : q.takeChunk.full = q.full := by
  unfold takeChunk; split <;> rfl

@[simp] theorem takeChunk_tail (q : ChunkQueue α) : q.takeChunk.tail = q.tail := by
  unfold takeChunk; split <;> rfl

@[simp] theorem takeChunk_used (q : ChunkQueue α) : q.takeChunk.used = q.used := by
  unfold takeChunk; split <;> rfl

@[simp] theorem takeChunk_filled (q : ChunkQueue α) : q.takeChunk.filled = q.filled := by
  unfold takeChunk; split <;> rfl

@[simp] theorem takeChunk_frontPos (q : ChunkQueue α) : q.takeChunk.frontPos = q.frontPos := by
  unfold takeChunk; split <;> rfl

@[simp] theorem takeChunk_backPos (q : ChunkQueue α) : q.takeChunk.backPos = q.backPos := by
  unfold takeChunk; split <;> rfl

@[simp] theorem frontPos_pushBack (q : ChunkQueue α) (x : α) :
    (q.pushBack x).frontPos = q.frontPos := by
  simp only [pushBack]
  split <;> simp

@[simp] theorem backPos_pushBack (q : ChunkQueue α) (x : α) :
    (q.pushBack x).backPos = q.backPos + 1 := by
  simp only [pushBack]
  split <;> simp

@[simp] theorem toList_pushBack (q : ChunkQueue α) (x : α) :
    (q.pushBack x).toList = q.toList ++ [x] := by
  simp only [pushBack]
  split <;> simp [toList_eq, parts]

theorem Sound.pushBack {q : ChunkQueue α} (h : q.Sound) (x : α) : (q.pushBack x).Sound := by
  obtain ⟨retired, hfront, hback⟩ := h.positions
  have hused := h.used_lt
  have hfilled := h.filled_lt
  by_cases full : q.filled + 1 = q.chunkSize
  · have linked : Laid q.chunkSize q.used 0 (q.parts ++ [q.tail.toList ++ [x]]) [] :=
      h.laid.link full
    have ends : q.backPos + 1 = (retired + (q.parts.length + 1)) * q.chunkSize := by
      rw [hback, ← Nat.add_assoc, Nat.succ_mul]
      omega
    simp only [ChunkQueue.pushBack, if_pos full]
    exact ⟨by simpa using hused, by simp only [takeChunk_filled, takeChunk_chunkSize]; omega,
      by simpa [parts] using linked, retired, by simpa using hfront, by simpa [parts] using ends⟩
  · simp only [ChunkQueue.pushBack, if_neg full]
    refine ⟨hused, by simp only; omega, by simpa [parts] using h.laid.fill, retired, hfront, ?_⟩
    simp only [hback, parts]
    omega

structure Stepped (q r : ChunkQueue α) : Prop where
  items : r.toList = q.toList
  held : r.tail.toList ≠ []
  laid : Laid q.chunkSize q.used r.filled r.parts r.tail.toList
  filled_pos : 0 < r.filled
  filled_le : r.filled ≤ q.chunkSize
  spread : q.parts.length * q.chunkSize + q.filled = r.parts.length * q.chunkSize + r.filled
  chunkSize : r.chunkSize = q.chunkSize
  used : r.used = q.used
  frontPos : r.frontPos = q.frontPos
  backPos : r.backPos = q.backPos

theorem Sound.stepBack {q : ChunkQueue α} (h : q.Sound) (held : q.toList ≠ []) :
    q.Stepped q.stepBack := by
  have hused := h.used_lt
  have hfilled := h.filled_lt
  have hlaid := h.laid
  have hlen := hlaid.length_eq
  have hitems := q.toList_eq
  by_cases empty : q.filled = 0
  · cases hpop : q.full.popBack? with
    | none =>
      have hparts : q.parts = [] := by
        simp [parts, (Deque.popBack?_eq_none_iff q.full).mp hpop]
      rw [hparts] at hlaid hitems
      simp only [Laid, List.flatten_nil, List.nil_append] at hlaid hitems
      exact absurd (hitems.trans (List.length_eq_zero_iff.mp (by omega))) held
    | some popped =>
      obtain ⟨last, full⟩ := popped
      have hparts : q.parts = full.toList.map Deque.toList ++ [last.toList] := by
        simp [parts, Deque.toList_of_popBack? hpop]
      rw [hparts, empty] at hlaid
      have htail : q.tail.toList = [] := List.length_eq_zero_iff.mp hlaid.tail_length
      rw [htail] at hlaid
      simp only [ChunkQueue.stepBack, if_pos empty, hpop, retire]
      have some_last := hlaid.unlink.tail_ne_nil (by omega) (fun _ ↦ hused)
      refine ⟨?_, some_last, hlaid.unlink, by simp only; omega, Nat.le_refl _, ?_, rfl, rfl, rfl,
        rfl⟩
      · rw [hitems, hparts, htail, toList_eq]
        simp [parts]
      · rw [hparts, empty, List.length_append, List.length_singleton, Nat.succ_mul]
        rfl
  · simp only [ChunkQueue.stepBack, if_neg empty]
    have some_tail : q.tail.toList ≠ [] := by
      apply hlaid.tail_ne_nil (by omega)
      intro hnil
      have : 0 < q.toList.length := List.length_pos_iff.mpr held
      rw [← hitems, hnil, List.length_nil, Nat.zero_mul] at hlen
      omega
    exact ⟨rfl, some_tail, hlaid, by omega, by omega, rfl, rfl, rfl, rfl, rfl⟩

theorem Sound.popBack_concat {q : ChunkQueue α} (h : q.Sound) {xs : List α} {x : α}
    (items : q.toList = xs ++ [x]) :
    ∃ rest, q.popBack = (some x, rest) ∧ rest.Sound ∧ rest.toList = xs ∧
      rest.frontPos = q.frontPos ∧ rest.backPos + 1 = q.backPos := by
  have held : q.toList ≠ [] := by simp [items]
  have stepped := h.stepBack held
  have pos := stepped.filled_pos
  have le := stepped.filled_le
  have spread := stepped.spread
  obtain ⟨retired, hfront, hback⟩ := h.positions
  have hempty : q.isEmpty = false := by
    rw [h.isEmpty_eq, items]
    simp
  cases hpop : q.stepBack.tail.popBack? with
  | none => exact absurd ((Deque.popBack?_eq_none_iff _).mp hpop) stepped.held
  | some popped =>
    obtain ⟨y, tail⟩ := popped
    have htail := Deque.toList_of_popBack? hpop
    have hitems : q.stepBack.parts.flatten ++ tail.toList ++ [y] = xs ++ [x] := by
      rw [← items, ← stepped.items, toList_eq, htail, List.append_assoc]
    obtain ⟨hxs, hy⟩ := List.append_inj' hitems rfl
    obtain rfl := List.singleton_inj.mp hy
    have laid := htail ▸ stepped.laid
    have hend : q.backPos = (retired + q.stepBack.parts.length) * q.chunkSize +
        q.stepBack.filled := by
      rw [hback, Nat.add_mul, Nat.add_mul]
      omega
    simp only [popBack, hempty, Bool.false_eq_true, if_false, hpop]
    refine ⟨_, rfl, ⟨?_, ?_, ?_, retired, ?_, ?_⟩, ?_, stepped.frontPos, ?_⟩
    · simpa only [stepped.chunkSize, stepped.used] using h.used_lt
    · simp only [stepped.chunkSize]
      omega
    · rw [stepped.chunkSize, stepped.used]
      exact laid.unfill
    · simpa only [stepped.frontPos, stepped.chunkSize, stepped.used] using hfront
    · simp only [stepped.backPos, stepped.chunkSize, hend]
      exact Nat.add_sub_assoc pos _
    · rw [← hxs, toList_eq]
      rfl
    · simp only [stepped.backPos, hend]
      omega

theorem Laid.use_tail {size used filled : Nat} {tail : List α} {x : α}
    (h : Laid size used filled [] (x :: tail)) : Laid size (used + 1) filled [] tail := by
  simp only [Laid, List.length_cons] at h ⊢
  omega

theorem Laid.use_chunk {size used filled : Nat} {first : List α} {rest : List (List α)}
    {tail : List α} {x : α} (h : Laid size used filled ((x :: first) :: rest) tail) :
    Laid size (used + 1) filled (first :: rest) tail := by
  obtain ⟨hfirst, hrest, htail⟩ := h
  rw [List.length_cons] at hfirst
  exact ⟨by omega, hrest, htail⟩

theorem Laid.shed {size filled : Nat} {first : List α} {rest : List (List α)} {tail : List α}
    (h : Laid size size filled (first :: rest) tail) :
    first = [] ∧ Laid size 0 filled rest tail := by
  obtain ⟨hfirst, hrest, htail⟩ := h
  refine ⟨List.length_eq_zero_iff.mp (by omega), ?_⟩
  cases rest with
  | nil => exact htail
  | cons c rest =>
    exact ⟨hrest c List.mem_cons_self, fun d hd ↦ hrest d (List.mem_cons_of_mem _ hd), htail⟩

/-- The item in front comes out of the last chunk if that is the only one. -/
theorem Sound.takeFront {q : ChunkQueue α} (h : q.Sound) {xs : List α} {x : α}
    (items : q.toList = x :: xs) :
    ∃ full tail, q.takeFront? = some (x, { q with full, tail }) ∧
      { q with full, tail }.toList = xs ∧
      Laid q.chunkSize (q.used + 1) q.filled { q with full, tail }.parts tail.toList ∧
      { q with full, tail }.parts.length = q.parts.length := by
  have hused := h.used_lt
  have hlaid := h.laid
  have hitems := q.toList_eq.symm.trans items
  unfold takeFront?
  cases hfull : q.full.popFront? with
  | none =>
    have hparts : q.parts = [] := by
      simp [parts, (Deque.popFront?_eq_none_iff q.full).mp hfull]
    rw [hparts] at hlaid
    rw [hparts, List.flatten_nil, List.nil_append] at hitems
    cases hpop : q.tail.popFront? with
    | none => simp [(Deque.popFront?_eq_none_iff _).mp hpop] at hitems
    | some popped =>
      have htail := Deque.toList_of_popFront? hpop
      rw [htail] at hlaid hitems
      obtain ⟨rfl, hxs⟩ := List.cons_eq_cons.mp hitems
      refine ⟨q.full, popped.2, rfl, ?_, ?_, rfl⟩
      · rw [toList_eq]
        change q.parts.flatten ++ _ = _
        rw [hparts]
        exact hxs
      · change Laid _ _ _ q.parts _
        rw [hparts]
        exact hlaid.use_tail
  | some popped =>
    obtain ⟨chunk, full⟩ := popped
    have hparts : q.parts = chunk.toList :: full.toList.map Deque.toList := by
      simp [parts, Deque.toList_of_popFront? hfull]
    rw [hparts] at hlaid hitems
    cases hpop : chunk.popFront? with
    | none =>
      have hlen := hlaid.1
      rw [(Deque.popFront?_eq_none_iff _).mp hpop, List.length_nil] at hlen
      omega
    | some popped =>
      have hchunk := Deque.toList_of_popFront? hpop
      rw [hchunk] at hlaid hitems
      obtain ⟨rfl, hxs⟩ := List.cons_eq_cons.mp hitems
      refine ⟨full.pushFront popped.2, q.tail, by simp only [hpop, Option.map_some], ?_, ?_, ?_⟩
      · rw [toList_eq, ← hxs]
        simp [parts]
      · simpa [parts] using hlaid.use_chunk
      · rw [hparts]
        simp [parts]

/-- A first chunk of which all slots were used up goes, and no item goes with it. -/
theorem stepFront_sound {q : ChunkQueue α} (used_le : q.used ≤ q.chunkSize)
    (filled_lt : q.filled < q.chunkSize)
    (laid : Laid q.chunkSize q.used q.filled q.parts q.tail.toList)
    (positions : ∃ retired, q.frontPos = retired * q.chunkSize + q.used ∧
      q.backPos = (retired + q.parts.length) * q.chunkSize + q.filled) :
    q.stepFront.Sound ∧ q.stepFront.toList = q.toList ∧ q.stepFront.frontPos = q.frontPos ∧
      q.stepFront.backPos = q.backPos := by
  obtain ⟨retired, hfront, hback⟩ := positions
  by_cases last : q.used = q.chunkSize
  · cases hparts : q.parts with
    | nil =>
      rw [hparts] at laid
      simp only [Laid] at laid
      omega
    | cons first rest =>
      rw [hparts, last] at laid
      obtain ⟨rfl, hlaid⟩ := laid.shed
      have hrest : q.full.dropFront.toList.map Deque.toList = rest := by
        rw [Deque.toList_dropFront, List.map_tail]
        exact congrArg List.tail hparts
      rw [hparts, List.length_cons] at hback
      simp only [stepFront, if_pos last, retire]
      refine ⟨⟨by simp only; omega, filled_lt, ?_, retired + 1, ?_, ?_⟩, ?_, trivial, trivial⟩
      · simpa only [parts, hrest] using hlaid
      · simp only [hfront, Nat.succ_mul, last]
        omega
      · simp only [hback, parts, hrest]
        rw [Nat.add_right_comm, Nat.add_assoc]
      · rw [toList_eq, toList_eq, hparts]
        simp only [parts, hrest, List.flatten_cons, List.nil_append]
  · simp only [stepFront, if_neg last]
    exact ⟨⟨by omega, filled_lt, laid, retired, hfront, hback⟩, trivial, trivial, trivial⟩

theorem Sound.popFront_cons {q : ChunkQueue α} (h : q.Sound) {xs : List α} {x : α}
    (items : q.toList = x :: xs) :
    ∃ rest, q.popFront = (some x, rest) ∧ rest.Sound ∧ rest.toList = xs ∧
      rest.frontPos = q.frontPos + 1 ∧ rest.backPos = q.backPos := by
  obtain ⟨retired, hfront, hback⟩ := h.positions
  obtain ⟨full, tail, htake, hxs, laid, same⟩ := h.takeFront items
  have hempty : q.isEmpty = false := by
    rw [h.isEmpty_eq, items]
    rfl
  let used : ChunkQueue α :=
    { q with full, tail, used := q.used + 1, frontPos := q.frontPos + 1 }
  have front : used.frontPos = retired * q.chunkSize + (q.used + 1) := by
    simp only [used, hfront]
    rfl
  have back : used.backPos = (retired + used.parts.length) * q.chunkSize + q.filled := by
    rw [← same] at hback
    exact hback
  have stepped := stepFront_sound (q := used) h.used_lt h.filled_lt laid ⟨retired, front, back⟩
  simp only [popFront, hempty, Bool.false_eq_true, if_false, htake]
  exact ⟨_, rfl, stepped.1, stepped.2.1.trans hxs, stepped.2.2⟩

theorem Sound.front?_eq {q : ChunkQueue α} (h : q.Sound) : q.front? = q.toList.head? := by
  have hused := h.used_lt
  have hlaid := h.laid
  have hitems := q.toList_eq
  unfold front? headChunk
  rw [h.isEmpty_eq]
  cases hfull : q.full.toList with
  | nil =>
    have hparts : q.parts = [] := by simp [parts, hfull]
    rw [hparts, List.flatten_nil, List.nil_append] at hitems
    cases htail : q.tail.toList <;> simp [hitems, htail, hfull, Deque.front?_eq_head?]
  | cons chunk full =>
    have hparts : q.parts = chunk.toList :: full.map Deque.toList := by simp [parts, hfull]
    rw [hparts] at hlaid hitems
    cases hchunk : chunk.toList with
    | nil =>
      have := hlaid.1
      rw [hchunk, List.length_nil] at this
      omega
    | cons x xs => simp [hitems, hchunk, hfull, Deque.front?_eq_head?]

end Conduit.ChunkQueue
