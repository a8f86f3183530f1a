import Conduit.Proofs.ChunkTurnover
import Mathlib.Logic.Function.Basic

namespace Conduit

structure Chunk (α : Type) where
  slots : Nat → Option α := fun _ ↦ none
  prev : Option Nat := none
  next : Option Nat := none

structure ChunkStore (α : Type) where
  capacity : Nat
  chunks : Nat → Option (Chunk α)
  /-- The chunk that is kept for later use. -/
  spare : Option Nat := none
  allocated : Nat

namespace ChunkStore

variable {α : Type}

def edit (s : ChunkStore α) (a : Nat) (f : Chunk α → Chunk α) : Option (ChunkStore α) :=
  (s.chunks a).map fun c ↦ { s with chunks := Function.update s.chunks a (some (f c)) }

def put (s : ChunkStore α) (a slot : Nat) (x : Option α) : Option (ChunkStore α) :=
  if slot < s.capacity then s.edit a fun c ↦ { c with slots := Function.update c.slots slot x }
  else none

def get? (s : ChunkStore α) (a slot : Nat) : Option α :=
  if slot < s.capacity then (s.chunks a).bind (·.slots slot) else none

def take (s : ChunkStore α) (a slot : Nat) : Option (α × ChunkStore α) := do
  let x ← s.get? a slot
  let s ← s.put a slot none
  return (x, s)

def takeChunk (s : ChunkStore α) : Nat × ChunkStore α :=
  match s.spare with
  | some a => (a, { s with spare := none })
  | none =>
    (s.allocated,
      { s with
        chunks := Function.update s.chunks s.allocated (some {})
        allocated := s.allocated + 1 })

def retire (s : ChunkStore α) (a : Nat) : Option (ChunkStore α) := do
  let s ← s.edit a ({ · with next := none })
  return if s.spare.isNone then { s with spare := some a }
    else { s with chunks := Function.update s.chunks a none }

def append (s : ChunkStore α) (last : Nat) : Option (Nat × ChunkStore α) := do
  let (a, s) := s.takeChunk
  let s ← s.edit a ({ · with prev := some last })
  let s ← s.edit last ({ · with next := some a })
  return (a, s)

def dropLast (s : ChunkStore α) (last : Nat) : Option (Nat × ChunkStore α) := do
  let c ← s.chunks last
  let a ← c.prev
  let s ← s.edit a ({ · with next := none })
  let s ← s.retire last
  return (a, s)

def dropFirst (s : ChunkStore α) (first : Nat) : Option (Nat × ChunkStore α) := do
  let c ← s.chunks first
  let a ← c.next
  let s ← s.retire first
  return (a, s)

/-- The addresses of `n` chunks from one on, or of all those behind it if they are fewer. -/
def follow (s : ChunkStore α) : Nat → Nat → List Nat
  | 0, _ => []
  | n + 1, a =>
    a :: match (s.chunks a).bind (·.next) with
      | some b => s.follow n b
      | none => []

/-- The chunks at the addresses of numbers from `first` to `last`, at most one that is kept and one
that is `loose` are all the chunks that there are, and no address stands for two of them. -/
structure Stocked (s : ChunkStore α) (place : Nat → Nat) (first last : Nat) (loose : Option Nat) :
    Prop where
  stored : ∀ j, first ≤ j → j ≤ last → (s.chunks (place j)).isSome = true
  distinct : ∀ i j, first ≤ i → i ≤ last → first ≤ j → j ≤ last → place i = place j → i = j
  kept : ∀ a, s.spare = some a → (∀ j, first ≤ j → j ≤ last → place j ≠ a) ∧
    ∃ c, s.chunks a = some c ∧ c.next = none ∧ ∀ i < s.capacity, c.slots i = none
  unlinked : ∀ a, loose = some a → s.spare ≠ some a ∧
    (∀ j, first ≤ j → j ≤ last → place j ≠ a) ∧
    ∃ c, s.chunks a = some c ∧ ∀ i < s.capacity, c.slots i = none
  retained : ∀ a, (s.chunks a).isSome = true →
    s.spare = some a ∨ loose = some a ∨ ∃ j, first ≤ j ∧ j ≤ last ∧ place j = a
  fresh : ∀ a, (s.chunks a).isSome = true → a < s.allocated

/-- Chunks so stocked are linked in the order of their numbers. Their slots hold these `cells`. -/
structure Chained (s : ChunkStore α) (place : Nat → Nat) (first last : Nat)
    (cells : Nat → Option α) (loose : Option Nat) : Prop extends
    Stocked s place first last loose where
  linked : ∀ j, first ≤ j → j ≤ last → ∃ c, s.chunks (place j) = some c ∧
    (∀ i < s.capacity, c.slots i = cells (j * s.capacity + i)) ∧
    c.next = (if j < last then some (place (j + 1)) else none) ∧
    (first < j → c.prev = some (place (j - 1)))

theorem edit_of_chunk {s : ChunkStore α} {a : Nat} {c : Chunk α} (at_a : s.chunks a = some c)
    (f : Chunk α → Chunk α) :
    s.edit a f = some { s with chunks := Function.update s.chunks a (some (f c)) } := by
  rw [edit, at_a]
  rfl

theorem isSome_update {chunks : Nat → Option (Chunk α)} {a : Nat} {c : Chunk α}
    (known : (chunks a).isSome = true) (b : Nat) :
    (Function.update chunks a (some c) b).isSome = (chunks b).isSome := by
  by_cases same : b = a
  · rw [same, Function.update_self, known]
    rfl
  · rw [Function.update_of_ne same]

variable {s : ChunkStore α} {place : Nat → Nat} {first last : Nat} {cells : Nat → Option α}
  {loose : Option Nat} {a : Nat} {c : Chunk α}

namespace Stocked

theorem replace (h : s.Stocked place first last loose) {j : Nat} (le : first ≤ j) (le' : j ≤ last)
    (c : Chunk α) : Stocked { s with chunks := Function.update s.chunks (place j) (some c) } place
      first last loose := by
  have known := isSome_update (c := c) (h.stored j le le')
  refine ⟨fun i li li' ↦ (known _).trans (h.stored i li li'), h.distinct, ?_, ?_,
    fun b stored ↦ h.retained b ((known b).symm.trans stored),
    fun b stored ↦ h.fresh b ((known b).symm.trans stored)⟩
  · intro b kept
    obtain ⟨apart, d, at_b, rest⟩ := h.kept b kept
    exact ⟨apart, d, (Function.update_of_ne (apart j le le').symm _ _).trans at_b, rest⟩
  · intro b held
    obtain ⟨unkept, apart, d, at_b, rest⟩ := h.unlinked b held
    exact ⟨unkept, apart, d, (Function.update_of_ne (apart j le le').symm _ _).trans at_b, rest⟩

theorem replaceLoose (h : s.Stocked place first last (some a))
    (empty : ∀ i < s.capacity, c.slots i = none) :
    Stocked { s with chunks := Function.update s.chunks a (some c) } place first last (some a) := by
  obtain ⟨unkept, apart, d, at_a, -⟩ := h.unlinked a rfl
  have there : (s.chunks a).isSome = true := by rw [at_a]; rfl
  have known := isSome_update (c := c) there
  refine ⟨fun i li li' ↦ (known _).trans (h.stored i li li'), h.distinct, ?_, ?_,
    fun b stored ↦ h.retained b ((known b).symm.trans stored),
    fun b stored ↦ h.fresh b ((known b).symm.trans stored)⟩
  · intro b kept
    obtain ⟨apart', e, at_b, rest⟩ := h.kept b kept
    have ne : b ≠ a := fun eq ↦ unkept (eq ▸ kept)
    exact ⟨apart', e, (Function.update_of_ne ne _ _).trans at_b, rest⟩
  · intro b held
    obtain rfl := Option.some.inj held
    exact ⟨unkept, apart, c, Function.update_self .., empty⟩

theorem linkBehind (h : s.Stocked place first last (some a)) (le : first ≤ last) :
    s.Stocked (Function.update place (last + 1) a) first (last + 1) none := by
  obtain ⟨unkept, apart, c, at_a, -⟩ := h.unlinked a rfl
  have placed {j : Nat} (le' : j ≤ last) : Function.update place (last + 1) a j = place j :=
    Function.update_of_ne (Nat.ne_of_lt (Nat.lt_succ_of_le le')) _ _
  have cases_on {j : Nat} (le' : j ≤ last + 1) : j ≤ last ∨ j = last + 1 :=
    (Nat.lt_or_eq_of_le le').imp_left Nat.le_of_lt_succ
  refine ⟨?_, ?_, ?_, nofun, ?_, h.fresh⟩
  · intro j lj lj'
    rcases cases_on lj' with inside | rfl
    · rw [placed inside]
      exact h.stored j lj inside
    · rw [Function.update_self, at_a]
      rfl
  · intro i j li li' lj lj' eq
    rcases cases_on li' with inside | rfl <;> rcases cases_on lj' with inside' | rfl
    · rw [placed inside, placed inside'] at eq
      exact h.distinct i j li inside lj inside' eq
    · rw [placed inside, Function.update_self] at eq
      exact absurd eq (apart i li inside)
    · rw [placed inside', Function.update_self] at eq
      exact absurd eq.symm (apart j lj inside')
    · rfl
  · intro b kept
    obtain ⟨apart', rest⟩ := h.kept b kept
    refine ⟨fun j lj lj' ↦ ?_, rest⟩
    rcases cases_on lj' with inside | rfl
    · rw [placed inside]
      exact apart' j lj inside
    · rw [Function.update_self]
      exact fun eq ↦ unkept (eq ▸ kept)
  · intro b stored
    rcases h.retained b stored with kept | loose | ⟨j, lj, lj', at_b⟩
    · exact .inl kept
    · refine .inr (.inr ⟨last + 1, Nat.le_succ_of_le le, Nat.le_refl _, ?_⟩)
      rw [Function.update_self]
      exact Option.some.inj loose
    · exact .inr (.inr ⟨j, lj, Nat.le_succ_of_le lj', (placed lj').trans at_b⟩)

theorem unlinkLast (h : s.Stocked place first (last + 1) none) (le : first ≤ last)
    (at_last : s.chunks (place (last + 1)) = some c) (empty : ∀ i < s.capacity, c.slots i = none) :
    s.Stocked place first last (some (place (last + 1))) := by
  have le' : first ≤ last + 1 := Nat.le_succ_of_le le
  refine ⟨fun j lj lj' ↦ h.stored j lj (Nat.le_succ_of_le lj'), fun i j li li' lj lj' ↦
    h.distinct i j li (Nat.le_succ_of_le li') lj (Nat.le_succ_of_le lj'), ?_, ?_, ?_, h.fresh⟩
  · intro b kept
    obtain ⟨apart, rest⟩ := h.kept b kept
    exact ⟨fun j lj lj' ↦ apart j lj (Nat.le_succ_of_le lj'), rest⟩
  · intro b loose
    obtain rfl := Option.some.inj loose
    refine ⟨fun kept ↦ (h.kept _ kept).1 (last + 1) le' (Nat.le_refl _) rfl,
      fun j lj lj' eq ↦ ?_, c, at_last, empty⟩
    have := h.distinct j (last + 1) lj (Nat.le_succ_of_le lj') le' (Nat.le_refl _) eq
    omega
  · intro b stored
    rcases h.retained b stored with kept | loose | ⟨j, lj, lj', at_b⟩
    · exact .inl kept
    · cases loose
    · rcases Nat.lt_or_eq_of_le lj' with inside | rfl
      · exact .inr (.inr ⟨j, lj, Nat.le_of_lt_succ inside, at_b⟩)
      · exact .inr (.inl (congrArg some at_b))

theorem unlinkFirst (h : s.Stocked place first last none) (lt : first < last)
    (at_first : s.chunks (place first) = some c) (empty : ∀ i < s.capacity, c.slots i = none) :
    s.Stocked place (first + 1) last (some (place first)) := by
  refine ⟨fun j lj ↦ h.stored j (Nat.le_of_succ_le lj), fun i j li li' lj ↦
    h.distinct i j (Nat.le_of_succ_le li) li' (Nat.le_of_succ_le lj), ?_, ?_, ?_, h.fresh⟩
  · intro b kept
    obtain ⟨apart, rest⟩ := h.kept b kept
    exact ⟨fun j lj ↦ apart j (Nat.le_of_succ_le lj), rest⟩
  · intro b loose
    obtain rfl := Option.some.inj loose
    refine ⟨fun kept ↦ (h.kept _ kept).1 first (Nat.le_refl _) (Nat.le_of_lt lt) rfl,
      fun j lj lj' eq ↦ ?_, c, at_first, empty⟩
    have := h.distinct j first (Nat.le_of_succ_le lj) lj' (Nat.le_refl _) (Nat.le_of_lt lt) eq
    omega
  · intro b stored
    rcases h.retained b stored with kept | loose | ⟨j, lj, lj', at_b⟩
    · exact .inl kept
    · cases loose
    · rcases Nat.lt_or_eq_of_le lj with behind | rfl
      · exact .inr (.inr ⟨j, behind, lj', at_b⟩)
      · exact .inr (.inl (congrArg some at_b))

/-- A chunk that is taken is the one that was kept, or it is new. -/
theorem takeChunk (h : s.Stocked place first last none) :
    ∃ a c s', s.takeChunk = (a, s') ∧ s'.Stocked place first last (some a) ∧
      s'.chunks a = some c ∧ c.next = none ∧
      (∀ j, first ≤ j → j ≤ last → s'.chunks (place j) = s.chunks (place j)) ∧
      s'.capacity = s.capacity ∧ s'.spare = none ∧
      s'.allocated = s.allocated + if s.spare.isSome then 0 else 1 := by
  cases spare : s.spare with
  | some a =>
    obtain ⟨apart, c, at_a, next, empty⟩ := h.kept a spare
    refine ⟨a, c, { s with spare := none }, by rw [ChunkStore.takeChunk, spare], ⟨h.stored,
      h.distinct, nofun, ?_, ?_, h.fresh⟩, at_a, next, fun _ _ _ ↦ rfl, rfl, rfl, rfl⟩
    · intro b loose
      obtain rfl := Option.some.inj loose
      exact ⟨nofun, apart, c, at_a, empty⟩
    · intro b stored
      rcases h.retained b stored with kept | loose | linked
      · exact .inr (.inl (spare.symm.trans kept))
      · cases loose
      · exact .inr (.inr linked)
  | none =>
    -- the new address is above all that were ever in use
    have unused : ∀ j, first ≤ j → j ≤ last → place j ≠ s.allocated := fun j le le' ↦
      Nat.ne_of_lt (h.fresh _ (h.stored j le le'))
    have same : ∀ j, first ≤ j → j ≤ last →
        Function.update s.chunks s.allocated (some {}) (place j) = s.chunks (place j) :=
      fun j le le' ↦ Function.update_of_ne (unused j le le') _ _
    refine ⟨s.allocated, {},
      { s with
        chunks := Function.update s.chunks s.allocated (some {})
        allocated := s.allocated + 1 },
      by rw [ChunkStore.takeChunk, spare], ⟨?_, h.distinct, ?_, ?_, ?_, ?_⟩,
      Function.update_self .., rfl, same, rfl, spare, rfl⟩
    · intro j le le'
      exact (congrArg Option.isSome (same j le le')).trans (h.stored j le le')
    · intro b kept
      cases spare.symm.trans kept
    · intro b loose
      obtain rfl := Option.some.inj loose
      refine ⟨fun kept ↦ ?_, unused, {}, Function.update_self .., fun _ _ ↦ rfl⟩
      cases spare.symm.trans kept
    · intro b stored
      by_cases new : b = s.allocated
      · exact .inr (.inl (congrArg some new.symm))
      · dsimp only at stored
        rw [Function.update_of_ne new] at stored
        rcases h.retained b stored with kept | loose | linked
        · exact .inl kept
        · cases loose
        · exact .inr (.inr linked)
    · intro b stored
      by_cases new : b = s.allocated
      · exact new ▸ Nat.lt_succ_self _
      · dsimp only at stored
        rw [Function.update_of_ne new] at stored
        exact Nat.lt_succ_of_lt (h.fresh b stored)

end Stocked

/-- A chunk that goes is kept or given back, so one is kept from then on. -/
theorem Stocked.retire (h : s.Stocked place first last (some a)) :
    ∃ s', s.retire a = some s' ∧ s'.Stocked place first last none ∧
      (∀ j, first ≤ j → j ≤ last → s'.chunks (place j) = s.chunks (place j)) ∧
      s'.capacity = s.capacity ∧ s'.spare.isSome = true ∧ s'.allocated = s.allocated := by
  obtain ⟨unkept, apart, c, at_a, slots⟩ := h.unlinked a rfl
  have cut := h.replaceLoose (c := { c with next := none }) slots
  cases spare : s.spare with
  | none =>
    have retired : s.retire a = some { s with
        chunks := Function.update s.chunks a (some { c with next := none }), spare := some a } := by
      rw [ChunkStore.retire, edit_of_chunk at_a, spare]
      rfl
    refine ⟨_, retired, ⟨cut.stored, h.distinct, ?_, nofun, ?_, cut.fresh⟩,
      fun j le le' ↦ Function.update_of_ne (apart j le le') _ _, rfl, rfl, rfl⟩
    · intro b kept
      obtain rfl := Option.some.inj kept
      exact ⟨apart, _, Function.update_self .., rfl, slots⟩
    · intro b stored
      rcases cut.retained b stored with kept | loose | linked
      · cases spare.symm.trans kept
      · exact .inl loose
      · exact .inr (.inr linked)
  | some k =>
    have retired : s.retire a = some { s with chunks := Function.update s.chunks a none } := by
      rw [ChunkStore.retire, edit_of_chunk at_a]
      dsimp only [Option.bind_eq_bind, Option.bind_some]
      rw [spare]
      simp [Function.update_idem]
    have elsewhere {b : Nat} (ne : b ≠ a) : Function.update s.chunks a none b = s.chunks b :=
      Function.update_of_ne ne _ _
    have remains {b : Nat} (stored : (Function.update s.chunks a none b).isSome = true) :
        b ≠ a ∧ (s.chunks b).isSome = true := by
      have ne : b ≠ a := by
        rintro rfl
        rw [Function.update_self] at stored
        cases stored
      exact ⟨ne, by rwa [← elsewhere ne]⟩
    refine ⟨_, retired, ⟨?_, h.distinct, ?_, nofun, ?_,
      fun b stored ↦ h.fresh b (remains stored).2⟩,
      fun j le le' ↦ elsewhere (apart j le le'), rfl, by rw [spare]; rfl, rfl⟩
    · exact fun j le le' ↦
        (congrArg Option.isSome (elsewhere (apart j le le'))).trans (h.stored j le le')
    · intro b kept
      obtain ⟨apart', d, at_b, rest⟩ := h.kept b kept
      exact ⟨apart', d, (elsewhere fun eq ↦ unkept (eq ▸ kept)).trans at_b, rest⟩
    · intro b stored
      obtain ⟨ne, stored⟩ := remains stored
      rcases h.retained b stored with kept | loose | linked
      · exact .inl kept
      · exact absurd (Option.some.inj loose).symm ne
      · exact .inr (.inr linked)

namespace Chained

theorem get? (h : s.Chained place first last cells loose) {j i : Nat} (le : first ≤ j)
    (le' : j ≤ last) (lt : i < s.capacity) :
    s.get? (place j) i = cells (j * s.capacity + i) := by
  obtain ⟨c, at_j, slots, -⟩ := h.linked j le le'
  rw [ChunkStore.get?, if_pos lt, at_j, Option.bind_some, slots i lt]

theorem put (h : s.Chained place first last cells loose) {j i : Nat} (le : first ≤ j)
    (le' : j ≤ last) (lt : i < s.capacity) (x : Option α) :
    ∃ chunks, s.put (place j) i x = some { s with chunks } ∧
      Chained { s with chunks } place first last
        (Function.update cells (j * s.capacity + i) x) loose := by
  obtain ⟨c, at_j, slots, next, prev⟩ := h.linked j le le'
  refine ⟨_, by rw [ChunkStore.put, if_pos lt, edit_of_chunk at_j], h.replace le le' _, ?_⟩
  intro k lk lk'
  by_cases same : k = j
  · subst same
    refine ⟨_, Function.update_self .., fun i' lt' ↦ ?_, next, prev⟩
    by_cases here : i' = i
    · subst here
      dsimp only
      rw [Function.update_self, Function.update_self]
    · have there : k * s.capacity + i' ≠ k * s.capacity + i := by omega
      dsimp only
      rw [Function.update_of_ne here, Function.update_of_ne there, slots i' lt']
  · obtain ⟨c', at_k, slots', next', prev'⟩ := h.linked k lk lk'
    have other : place k ≠ place j := fun eq ↦ same (h.distinct k j lk lk' le le' eq)
    refine ⟨c', (Function.update_of_ne other _ _).trans at_k, fun i' lt' ↦ ?_, next', prev'⟩
    -- slots of two chunks have different numbers
    have there : k * s.capacity + i' ≠ j * s.capacity + i := by
      intro eq
      have number := congrArg (· / s.capacity) eq
      have pos : 0 < s.capacity := Nat.zero_lt_of_lt lt
      simp only [Nat.mul_comm _ s.capacity, Nat.mul_add_div pos, Nat.div_eq_of_lt lt,
        Nat.div_eq_of_lt lt'] at number
      exact same number
    rw [Function.update_of_ne there, slots' i' lt']

theorem take (h : s.Chained place first last cells loose) {j i : Nat} (le : first ≤ j)
    (le' : j ≤ last) (lt : i < s.capacity) {x : α} (held : cells (j * s.capacity + i) = some x) :
    ∃ chunks, s.take (place j) i = some (x, { s with chunks }) ∧
      Chained { s with chunks } place first last
        (Function.update cells (j * s.capacity + i) none) loose := by
  obtain ⟨chunks, put, chained⟩ := h.put le le' lt none
  refine ⟨chunks, ?_, chained⟩
  rw [ChunkStore.take, h.get? le le' lt, held, put]
  rfl

/-- A store with the same chunks at the linked addresses is linked as well. -/
theorem of_same {s' : ChunkStore α} {first' : Nat} {loose' : Option Nat}
    (h : s.Chained place first last cells loose) (stocked : s'.Stocked place first' last loose')
    (le : first ≤ first')
    (same : ∀ j, first' ≤ j → j ≤ last → s'.chunks (place j) = s.chunks (place j))
    (capacity : s'.capacity = s.capacity) : s'.Chained place first' last cells loose' := by
  refine ⟨stocked, fun j lj lj' ↦ ?_⟩
  obtain ⟨c, at_j, slots, next, prev⟩ := h.linked j (Nat.le_trans le lj) lj'
  rw [same j lj lj', capacity]
  exact ⟨c, at_j, slots, next, fun behind ↦ prev (Nat.lt_of_le_of_lt le behind)⟩

/-- The new last chunk knows the one before it, and that one knows the new one. -/
theorem append (h : s.Chained place first last cells none) (le : first ≤ last)
    (empty : ∀ i < s.capacity, cells ((last + 1) * s.capacity + i) = none) :
    ∃ a s', s.append (place last) = some (a, s') ∧
      s'.Chained (Function.update place (last + 1) a) first (last + 1) cells none ∧
      s'.capacity = s.capacity ∧ s'.spare = none ∧
      s'.allocated = s.allocated + if s.spare.isSome then 0 else 1 := by
  obtain ⟨a, c, t, taken, stocked, at_a, cut, same, capacity, spare, allocated⟩ :=
    h.takeChunk
  obtain ⟨-, apart, c', at_a', slots⟩ := stocked.unlinked a rfl
  obtain rfl := Option.some.inj (at_a.symm.trans at_a')
  -- the new chunk learns of the last one before that learns of it
  have aware := stocked.replaceLoose (c := { c with prev := some (place last) }) slots
  obtain ⟨l, at_last, held, -, prev⟩ := h.linked last le (Nat.le_refl _)
  have other : place last ≠ a := apart last le (Nat.le_refl _)
  have at_last' : Function.update t.chunks a (some { c with prev := some (place last) })
      (place last) = some l := by
    rw [Function.update_of_ne other, same last le (Nat.le_refl _), at_last]
  have linked := (aware.replace le (Nat.le_refl _) { l with next := some a }).linkBehind le
  have placed {j : Nat} (le' : j ≤ last) : Function.update place (last + 1) a j = place j :=
    Function.update_of_ne (Nat.ne_of_lt (Nat.lt_succ_of_le le')) _ _
  refine ⟨a, _, ?_, ⟨linked, ?_⟩, capacity, spare, allocated⟩
  · rw [ChunkStore.append, taken]
    dsimp only [Option.bind_eq_bind, Option.pure_def]
    rw [edit_of_chunk at_a, Option.bind_some, edit_of_chunk at_last', Option.bind_some]
  intro j lj lj'
  dsimp only
  rw [capacity]
  rcases Nat.lt_trichotomy j last with before | rfl | behind
  · obtain ⟨d, at_j, slots', next', prev'⟩ := h.linked j lj (Nat.le_of_lt before)
    rw [if_pos before] at next'
    have ne : place j ≠ place last := fun eq ↦ Nat.ne_of_lt before
      (h.distinct j last lj (Nat.le_of_lt before) le (Nat.le_refl _) eq)
    rw [placed (Nat.le_of_lt before), Function.update_of_ne ne,
      Function.update_of_ne (apart j lj (Nat.le_of_lt before)), same j lj (Nat.le_of_lt before),
      if_pos (Nat.lt_succ_of_lt before), placed (Nat.succ_le_of_lt before),
      placed (Nat.le_trans (Nat.sub_le _ _) (Nat.le_of_lt before))]
    exact ⟨d, at_j, slots', next', prev'⟩
  · rw [placed (Nat.le_refl _), Function.update_self, if_pos (Nat.lt_succ_self _),
      Function.update_self, placed (Nat.sub_le _ _)]
    exact ⟨_, rfl, held, rfl, prev⟩
  · obtain rfl : j = last + 1 := Nat.le_antisymm lj' behind
    rw [Function.update_self, Function.update_of_ne other.symm, Function.update_self,
      if_neg (Nat.lt_irrefl _), Nat.add_sub_cancel, placed (Nat.le_refl _)]
    refine ⟨_, rfl, fun i lt ↦ ?_, cut, fun _ ↦ rfl⟩
    rw [empty i lt]
    exact slots i (capacity.symm ▸ lt)

theorem dropLast (h : s.Chained place first (last + 1) cells none) (le : first ≤ last)
    (empty : ∀ i < s.capacity, cells ((last + 1) * s.capacity + i) = none) :
    ∃ s', s.dropLast (place (last + 1)) = some (place last, s') ∧
      s'.Chained place first last cells none ∧ s'.capacity = s.capacity ∧
      s'.spare.isSome = true ∧ s'.allocated = s.allocated := by
  have le' : first ≤ last + 1 := Nat.le_succ_of_le le
  obtain ⟨l, at_last, held, -, prev⟩ := h.linked last le (Nat.le_succ _)
  obtain ⟨e, at_end, slots, -, prev'⟩ := h.linked (last + 1) le' (Nat.le_refl _)
  have ne {i j : Nat} (li : first ≤ i) (li' : i ≤ last + 1) (lj : first ≤ j)
      (lj' : j ≤ last + 1) (lt : i < j) : place i ≠ place j :=
    fun eq ↦ Nat.ne_of_lt lt (h.distinct i j li li' lj lj' eq)
  have at_end' : Function.update s.chunks (place last) (some { l with next := none })
      (place (last + 1)) = some e := by
    rw [Function.update_of_ne (ne le (Nat.le_succ _) le' (Nat.le_refl _) (Nat.lt_succ_self _)).symm,
      at_end]
  have stocked := (h.replace le (Nat.le_succ _) { l with next := none }).unlinkLast le at_end'
    fun i lt ↦ (slots i lt).trans (empty i lt)
  have chained : Chained { s with
      chunks := Function.update s.chunks (place last) (some { l with next := none }) } place first
        last cells (some (place (last + 1))) := by
    refine ⟨stocked, fun j lj lj' ↦ ?_⟩
    rcases Nat.lt_or_eq_of_le lj' with inside | rfl
    · obtain ⟨d, at_j, slots', next', prev'⟩ := h.linked j lj (Nat.le_succ_of_le lj')
      rw [if_pos (Nat.lt_succ_of_lt inside)] at next'
      rw [if_pos inside]
      refine ⟨d, ?_, slots', next', prev'⟩
      exact (Function.update_of_ne (ne lj (Nat.le_succ_of_le lj') le (Nat.le_succ _) inside)
        _ _).trans at_j
    · exact ⟨_, Function.update_self .., held, (if_neg (Nat.lt_irrefl _)).symm, prev⟩
  obtain ⟨s', retired, stocked', same, capacity, spare, allocated⟩ := stocked.retire
  refine ⟨s', ?_, chained.of_same stocked' (Nat.le_refl _) same capacity, capacity, spare,
    allocated⟩
  have back : e.prev = some (place last) := prev' (Nat.lt_succ_of_le le)
  rw [ChunkStore.dropLast, at_end]
  dsimp only [Option.bind_eq_bind, Option.bind_some, Option.pure_def]
  rw [back, Option.bind_some, edit_of_chunk at_last, Option.bind_some, retired, Option.bind_some]

theorem dropFirst (h : s.Chained place first last cells none) (lt : first < last)
    (empty : ∀ i < s.capacity, cells (first * s.capacity + i) = none) :
    ∃ s', s.dropFirst (place first) = some (place (first + 1), s') ∧
      s'.Chained place (first + 1) last cells none ∧ s'.capacity = s.capacity ∧
      s'.spare.isSome = true ∧ s'.allocated = s.allocated := by
  obtain ⟨c, at_first, slots, next, -⟩ := h.linked first (Nat.le_refl _) (Nat.le_of_lt lt)
  have stocked := h.unlinkFirst lt at_first fun i lt' ↦ (slots i lt').trans (empty i lt')
  obtain ⟨s', retired, stocked', same, capacity, spare, allocated⟩ := stocked.retire
  refine ⟨s', ?_, h.of_same stocked' (Nat.le_succ _) same capacity, capacity, spare, allocated⟩
  rw [if_pos lt] at next
  rw [ChunkStore.dropFirst, at_first]
  dsimp only [Option.bind_eq_bind, Option.bind_some, Option.pure_def]
  rw [next, Option.bind_some, retired, Option.bind_some]

/-- The chunks from one on are followed to the last one and no further. -/
theorem follow (h : s.Chained place first last cells loose) (n : Nat) {j : Nat} (le : first ≤ j)
    (le' : j ≤ last) :
    s.follow n (place j) = ((List.range' j (last + 1 - j)).map place).take n := by
  induction n generalizing j with
  | zero => rfl
  | succ n ih =>
    obtain ⟨c, at_j, -, next, -⟩ := h.linked j le le'
    have here : last + 1 - j = (last - j) + 1 := by omega
    rw [ChunkStore.follow, at_j, Option.bind_some, next, here, List.range'_succ, List.map_cons,
      List.take_succ_cons]
    rcases Nat.lt_or_eq_of_le le' with before | rfl
    · rw [if_pos before]
      dsimp only
      rw [ih (Nat.le_succ_of_le le) (Nat.succ_le_of_lt before), Nat.succ_sub_succ]
    · rw [if_neg (Nat.lt_irrefl _), Nat.sub_self, List.range'_zero, List.map_nil, List.take_nil]

end Chained

end ChunkStore

end Conduit
