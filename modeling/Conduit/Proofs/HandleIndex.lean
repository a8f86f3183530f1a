import Conduit.Proofs.HandleCalls

namespace Conduit

/-- A set of handles in two parts, with the position of each handle on record. -/
structure IndexedSet (α : Type) where
  items : Array α := #[]
  index : α → Option Nat := fun _ ↦ none
  activeLength : Nat := 0

namespace IndexedSet

variable {α : Type}

def empty : IndexedSet α := {}

def handles (m : IndexedSet α) : ActiveSet α := ⟨m.items, m.activeLength⟩

variable [DecidableEq α]

def swap (m : IndexedSet α) (i j : Nat) : Option (IndexedSet α) :=
  if i = j then some m
  else do
    let x ← m.items[i]?
    let y ← m.items[j]?
    return { m with
      items := m.items.swapIfInBounds i j
      index := Function.update (Function.update m.index y (some i)) x (some j) }

def promote (m : IndexedSet α) (i : Nat) : Option (IndexedSet α) :=
  (m.swap i m.activeLength).map fun m ↦ { m with activeLength := m.activeLength + 1 }

def deactivateAt (m : IndexedSet α) (i : Nat) : Option (IndexedSet α) :=
  if i < m.activeLength then
    { m with activeLength := m.activeLength - 1 }.swap i (m.activeLength - 1)
  else none

def eraseAt (m : IndexedSet α) (x : α) (i : Nat) : Option (IndexedSet α) :=
  if m.items.isEmpty then none
  else (m.swap i (m.items.size - 1)).map fun m ↦
    { m with items := m.items.pop, index := Function.update m.index x none }

def pushInactive (m : IndexedSet α) (x : α) : Bool × IndexedSet α :=
  if (m.index x).isSome then (false, m)
  else (true, { m with
    items := m.items.push x, index := Function.update m.index x (some m.items.size) })

def pushActive (m : IndexedSet α) (x : α) : Option (Bool × IndexedSet α) :=
  match m.pushInactive x with
  | (false, m) => some (false, m)
  | (true, m) => (m.promote (m.items.size - 1)).map (true, ·)

def activate (m : IndexedSet α) (x : α) : Option (Bool × IndexedSet α) :=
  match m.index x with
  | some i => if m.activeLength ≤ i then (m.promote i).map (true, ·) else some (false, m)
  | none => some (false, m)

def remove (m : IndexedSet α) (x : α) : Option (Option Bool × IndexedSet α) :=
  match m.index x with
  | none => some (none, m)
  | some i =>
    if i < m.activeLength then do
      let m ← m.deactivateAt i
      let m ← m.eraseAt x m.activeLength
      return (some true, m)
    else (m.eraseAt x i).map (some false, ·)

def call (m : IndexedSet α) : HandleCall α → Option (Option Bool × IndexedSet α)
  | .pushActive x => (m.pushActive x).map fun r ↦ (some r.1, r.2)
  | .pushInactive x => some (some (m.pushInactive x).1, (m.pushInactive x).2)
  | .activate x => (m.activate x).map fun r ↦ (some r.1, r.2)
  | .deactivateAt i => (m.deactivateAt i).map (none, ·)
  | .remove x => m.remove x

def callAll : IndexedSet α → List (HandleCall α) → Option (List (Option Bool) × IndexedSet α)
  | m, [] => some ([], m)
  | m, c :: cs => do
    let (answer, m) ← m.call c
    let (answers, m) ← m.callAll cs
    return (answer :: answers, m)

def Exact (m : IndexedSet α) : Prop := ∀ x i, m.index x = some i ↔ m.items[i]? = some x

namespace Exact

variable {m : IndexedSet α} {s : ActiveSet α} {x : α} {i j : Nat}

omit [DecidableEq α] in
theorem eq_of_getElem? (h : m.Exact) (at_i : m.items[i]? = some x) (at_j : m.items[j]? = some x) :
    i = j := by
  rw [← h] at at_i at_j
  exact Option.some.inj (at_i.symm.trans at_j)

theorem exchange (h : m.Exact) (items : Array α) {y : α} (at_i : m.items[i]? = some x)
    (at_j : m.items[j]? = some y) (apart : i ≠ j)
    (exchanged : ∀ k, items[k]? = if j = k then some x else if i = k then some y else m.items[k]?) :
    Exact { m with
      items, index := Function.update (Function.update m.index y (some i)) x (some j) } := by
  have distinct : y ≠ x := by
    intro same
    exact apart (h.eq_of_getElem? at_i (same ▸ at_j))
  intro z k
  dsimp only
  rw [exchanged]
  by_cases first : z = x
  · subst first
    rw [Function.update_self]
    split
    · simpa
    · rename_i off
      split
      · simp [off, distinct]
      · rename_i off'
        refine iff_of_false (by simpa using off) fun at_k ↦ off' (h.eq_of_getElem? at_i at_k)
  · rw [Function.update_of_ne first]
    by_cases second : z = y
    · subst second
      rw [Function.update_self]
      split
      · rename_i here
        refine iff_of_false ?_ (by simpa using distinct.symm)
        simpa [← here] using apart
      · rename_i off
        split
        · simpa
        · rename_i off'
          refine iff_of_false (by simpa using off') fun at_k ↦ off (h.eq_of_getElem? at_j at_k)
    · rw [Function.update_of_ne second, h]
      split
      · rename_i here
        rw [← here, at_j]
        simp [Ne.symm first, Ne.symm second]
      · split
        · rename_i here
          rw [← here, at_i]
          simp [Ne.symm first, Ne.symm second]
        · rfl

theorem swap (h : m.Exact) (hi : i < m.items.size) (hj : j < m.items.size) :
    ∃ m', m.swap i j = some m' ∧ m'.Exact ∧ m'.handles = m.handles.swap i j := by
  have exchanged := m.handles.getElem?_swap hi hj
  by_cases same : i = j
  · refine ⟨m, if_pos same, h, ?_⟩
    have items : (m.handles.swap i j).items = m.items := by
      apply Array.ext_getElem?
      intro k
      rw [exchanged, same]
      split
      · rename_i here
        rw [← here]
        rfl
      · rfl
    exact congrArg (ActiveSet.mk · m.activeLength) items.symm
  · have at_i : m.items[i]? = some m.items[i] := Array.getElem?_eq_getElem hi
    have at_j : m.items[j]? = some m.items[j] := Array.getElem?_eq_getElem hj
    have swapped := h.exchange (m.items.swapIfInBounds i j) at_i at_j same fun k ↦ by
      rw [← at_i, ← at_j]
      exact exchanged k
    refine ⟨_, ?_, swapped, rfl⟩
    rw [IndexedSet.swap, if_neg same, at_i, at_j]
    rfl

omit [DecidableEq α] in
theorem withActiveLength (h : m.Exact) (n : Nat) : Exact { m with activeLength := n } := h

theorem promote (h : m.Exact) (hi : i < m.items.size) (le : m.activeLength ≤ i) :
    ∃ m', m.promote i = some m' ∧ m'.Exact ∧ m'.handles = m.handles.promote i := by
  obtain ⟨m', swapped, holds, handles⟩ := h.swap hi (Nat.lt_of_le_of_lt le hi)
  have items := congrArg ActiveSet.items handles
  have length := congrArg ActiveSet.activeLength handles
  refine ⟨{ m' with activeLength := m'.activeLength + 1 }, ?_, holds.withActiveLength _, ?_⟩
  · rw [IndexedSet.promote, swapped]
    rfl
  · exact congrArg₂ ActiveSet.mk items (congrArg Nat.succ length)

theorem deactivateAt (h : m.Exact) (hi : i < m.activeLength) (le : m.activeLength ≤ m.items.size) :
    ∃ m', m.deactivateAt i = some m' ∧ m'.Exact ∧ m'.handles = m.handles.deactivateAt i := by
  obtain ⟨m', swapped, holds, handles⟩ := (h.withActiveLength (m.activeLength - 1)).swap
    (show i < m.items.size by omega) (show m.activeLength - 1 < m.items.size by omega)
  exact ⟨m', (if_pos hi).trans swapped, holds, handles⟩

theorem pop (h : m.Exact) (last : m.items[m.items.size - 1]? = some x) :
    Exact { m with items := m.items.pop, index := Function.update m.index x none } := by
  intro z k
  dsimp only
  rw [Array.getElem?_pop]
  by_cases gone : z = x
  · subst gone
    rw [Function.update_self]
    refine iff_of_false (Option.some_ne_none k).symm ?_
    split
    · rename_i before
      intro at_k
      exact absurd (h.eq_of_getElem? at_k last) (Nat.ne_of_lt before)
    · exact (Option.some_ne_none z).symm
  · rw [Function.update_of_ne gone, h]
    split
    · rfl
    · rename_i behind
      refine iff_of_false (fun at_k ↦ gone ?_) (Option.some_ne_none z).symm
      obtain ⟨lt, -⟩ := Array.getElem?_eq_some_iff.mp at_k
      have here : k = m.items.size - 1 := by omega
      rw [here, last] at at_k
      exact (Option.some.inj at_k).symm

theorem eraseAt (h : m.Exact) (at_i : m.items[i]? = some x) :
    ∃ m', m.eraseAt x i = some m' ∧ m'.Exact ∧ m'.handles = m.handles.eraseAt i := by
  obtain ⟨hi, -⟩ := Array.getElem?_eq_some_iff.mp at_i
  have some_item : ¬m.items.isEmpty = true := by
    rw [Array.isEmpty_iff_size_eq_zero]
    omega
  have hlast : m.items.size - 1 < m.items.size := by omega
  obtain ⟨m', swapped, holds, handles⟩ := h.swap hi hlast
  have items : m'.items = (m.handles.swap i (m.items.size - 1)).items :=
    congrArg ActiveSet.items handles
  have size : m'.items.size = m.items.size := by
    rw [items]
    exact Array.size_swapIfInBounds
  have last : m'.items[m'.items.size - 1]? = some x := by
    rw [size, items, m.handles.getElem?_swap hi hlast, if_pos rfl]
    exact at_i
  refine ⟨_, ?_, holds.pop last, ?_⟩
  · rw [IndexedSet.eraseAt, if_neg some_item, swapped]
    rfl
  · exact congrArg₂ ActiveSet.mk (congrArg Array.pop items)
      (congrArg ActiveSet.activeLength handles)

theorem index_eq (h : m.Exact) (sound : m.handles.Sound) (x : α) :
    m.index x = m.handles.indexOf? x := by
  apply Option.ext
  intro i
  rw [h, sound.indexOf?_eq_some_iff]
  rfl

theorem pushInactive (h : m.Exact) (sound : m.handles.Sound) (x : α) :
    (m.pushInactive x).1 = (m.handles.pushInactive x).1 ∧ (m.pushInactive x).2.Exact ∧
      (m.pushInactive x).2.handles = (m.handles.pushInactive x).2 := by
  have known : (m.index x).isSome = m.handles.contains x := by
    rw [h.index_eq sound]
    rfl
  rw [IndexedSet.pushInactive, ActiveSet.pushInactive, known]
  by_cases there : m.handles.contains x = true
  · rw [if_pos there, if_pos there]
    exact ⟨rfl, h, rfl⟩
  · rw [if_neg there, if_neg there]
    refine ⟨rfl, ?_, rfl⟩
    have new : x ∉ m.handles.items.toList := mt ActiveSet.contains_iff.mpr there
    intro z k
    dsimp only
    rw [Array.getElem?_push]
    by_cases same : z = x
    · subst same
      rw [Function.update_self]
      split
      · rename_i here
        simp [here]
      · rename_i off
        refine iff_of_false (by simpa using Ne.symm off) fun at_k ↦ new ?_
        rw [← Array.getElem?_toList] at at_k
        exact List.mem_of_getElem? at_k
    · rw [Function.update_of_ne same, h]
      split
      · rename_i here
        simp [here, Ne.symm same]
      · rfl

theorem pushActive (h : m.Exact) (sound : m.handles.Sound) (x : α) :
    ∃ m', m.pushActive x = some ((m.handles.pushActive x).1, m') ∧ m'.Exact ∧
      m'.handles = (m.handles.pushActive x).2 := by
  obtain ⟨answer, holds, handles⟩ := h.pushInactive sound x
  rw [IndexedSet.pushActive, ActiveSet.pushActive]
  cases pushed : m.pushInactive x with
  | mk new p =>
    rw [pushed] at answer holds handles
    dsimp only at holds handles
    have same : m.handles.pushInactive x = (new, p.handles) := Prod.ext answer.symm handles.symm
    rw [same]
    cases new with
    | false => exact ⟨p, rfl, holds, rfl⟩
    | true =>
      have unknown : ¬m.handles.contains x = true := by
        intro there
        rw [ActiveSet.pushInactive, if_pos there] at answer
        contradiction
      rw [ActiveSet.pushInactive, if_neg unknown] at handles
      have items : p.items = m.items.push x := congrArg ActiveSet.items handles
      have length : p.activeLength = m.activeLength := congrArg ActiveSet.activeLength handles
      have size : p.items.size = m.items.size + 1 := by rw [items, Array.size_push]
      have le : m.activeLength ≤ m.items.size := sound.activeLength_le
      obtain ⟨m', promoted, rest⟩ := holds.promote (i := p.items.size - 1) (by omega) (by omega)
      exact ⟨m', congrArg (Option.map _) promoted, rest⟩

theorem activate (h : m.Exact) (sound : m.handles.Sound) (x : α) :
    ∃ m', m.activate x = some ((m.handles.activate x).1, m') ∧ m'.Exact ∧
      m'.handles = (m.handles.activate x).2 := by
  rw [IndexedSet.activate, ActiveSet.activate, h.index_eq sound]
  cases index : m.handles.indexOf? x with
  | none => exact ⟨m, rfl, h, rfl⟩
  | some i =>
    have at_i := ActiveSet.indexOf?_eq_some index
    obtain ⟨hi, -⟩ := Array.getElem?_eq_some_iff.mp at_i
    have length : m.handles.activeLength = m.activeLength := rfl
    dsimp only
    rw [length]
    by_cases behind : m.activeLength ≤ i
    · obtain ⟨m', promoted, holds, handles⟩ := h.promote hi behind
      rw [if_pos behind, if_pos behind, promoted]
      exact ⟨m', rfl, holds, handles⟩
    · rw [if_neg behind, if_neg behind]
      exact ⟨m, rfl, h, rfl⟩

theorem remove (h : m.Exact) (sound : m.handles.Sound) (x : α) :
    ∃ m', m.remove x = some ((m.handles.remove x).1, m') ∧ m'.Exact ∧
      m'.handles = (m.handles.remove x).2 := by
  rw [IndexedSet.remove, ActiveSet.remove, h.index_eq sound]
  cases index : m.handles.indexOf? x with
  | none => exact ⟨m, rfl, h, rfl⟩
  | some i =>
    have at_i := ActiveSet.indexOf?_eq_some index
    have length : m.handles.activeLength = m.activeLength := rfl
    dsimp only
    rw [length]
    by_cases within : i < m.activeLength
    · have current := ActiveSet.current?_eq_some_iff.mpr ⟨within, at_i⟩
      obtain ⟨m', deactivated, holds, handles⟩ := h.deactivateAt within sound.activeLength_le
      have length' : m'.activeLength = m.activeLength - 1 := congrArg ActiveSet.activeLength handles
      have items : m'.items = (m.handles.deactivateAt i).items := congrArg ActiveSet.items handles
      have brought : m'.items[m'.activeLength]? = some x := by
        rw [length', items]
        exact sound.getElem?_deactivateAt current
      obtain ⟨m'', erased, holds', handles'⟩ := holds.eraseAt brought
      rw [if_pos within, if_pos within, deactivated]
      dsimp only [Option.bind_eq_bind, Option.bind_some]
      rw [erased]
      refine ⟨m'', rfl, holds', ?_⟩
      rw [handles', handles, length']
    · obtain ⟨m', erased, holds, handles⟩ := h.eraseAt at_i
      rw [if_neg within, if_neg within, erased]
      exact ⟨m', rfl, holds, handles⟩

/-- A call goes right, if it is about some handle, and its answer is the one that the handles alone
give. -/
theorem call (h : m.Exact) (sound : m.handles.Sound) (c : HandleCall α)
    (allowed : m.handles.named? c ≠ none) :
    ∃ m', m.call c = some ((m.handles.call c).1, m') ∧ m'.Exact ∧
      m'.handles = (m.handles.call c).2 := by
  cases c with
  | pushActive x =>
    obtain ⟨m', pushed, rest⟩ := h.pushActive sound x
    exact ⟨m', congrArg (Option.map _) pushed, rest⟩
  | pushInactive x =>
    obtain ⟨answer, rest⟩ := h.pushInactive sound x
    exact ⟨_, congrArg (fun b ↦ some (some b, (m.pushInactive x).2)) answer, rest⟩
  | activate x =>
    obtain ⟨m', activated, rest⟩ := h.activate sound x
    exact ⟨m', congrArg (Option.map _) activated, rest⟩
  | deactivateAt i =>
    obtain ⟨x, current⟩ := Option.ne_none_iff_exists'.mp allowed
    obtain ⟨within, -⟩ := ActiveSet.current?_eq_some_iff.mp current
    obtain ⟨m', deactivated, rest⟩ := h.deactivateAt within sound.activeLength_le
    exact ⟨m', congrArg (Option.map _) deactivated, rest⟩
  | remove x => exact h.remove sound x

theorem callAll (h : m.Exact) (sound : m.handles.Sound) {cs : List (HandleCall α)}
    (allowed : m.handles.Allows cs) :
    ∃ m', m.callAll cs = some ((m.handles.callAll cs).1, m') ∧ m'.Exact ∧
      m'.handles = (m.handles.callAll cs).2 := by
  induction cs generalizing m with
  | nil => exact ⟨m, rfl, h, rfl⟩
  | cons c cs ih =>
    obtain ⟨about, rest⟩ := allowed
    obtain ⟨x, named⟩ := Option.ne_none_iff_exists'.mp about
    obtain ⟨m', called, holds, handles⟩ := h.call sound c about
    have sound' : m'.handles.Sound := handles ▸ (sound.answers named).sound
    obtain ⟨m'', ran, holds', handles'⟩ := ih holds sound' (handles ▸ rest)
    rw [handles] at ran handles'
    refine ⟨m'', ?_, holds', handles'⟩
    rw [IndexedSet.callAll, called]
    dsimp only [Option.bind_eq_bind, Option.bind_some]
    rw [ran]
    rfl

end Exact

/-- Whatever is asked of a set of handles, each handle is there once, the record tells where, and
the active ones come first. A call is answered by the part that the handle it names is in and
changes the part of that handle alone. No other active handle moves, but that the last one gets the
place of a handle that leaves the active part. -/
theorem keeps_record (cs : List (HandleCall α))
    (allowed : (ActiveSet.empty : ActiveSet α).Allows cs) :
    let s := (ActiveSet.empty.callAll cs).2
    ∃ m : IndexedSet α, empty.callAll cs = some ((ActiveSet.empty.callAll cs).1, m) ∧
      m.handles = s ∧ s.items.toList.Nodup ∧ s.activeLength ≤ s.items.size ∧
      (∀ x i, m.index x = some i ↔ s.items[i]? = some x) ∧
      ∀ c x, s.named? c = some x →
        ∃ m', m.call c = some (c.answer (s.part? x), m') ∧ m'.handles = (s.call c).2 ∧
          m'.handles.part? x = c.part (s.part? x) ∧
          (∀ y ≠ x, (y ∈ m'.handles.active ↔ y ∈ s.active) ∧
            (y ∈ m'.handles.inactive ↔ y ∈ s.inactive)) ∧
          ∀ y ≠ x, y ∈ s.active → m'.index y =
            if x ∈ s.active ∧ x ∉ m'.handles.active ∧ m.index y = some (s.activeLength - 1) then
              m.index x else m.index y := by
  intro s
  have start : (empty : IndexedSet α).Exact := fun x i ↦ by simp [empty]
  have sound : s.Sound := ActiveSet.sound_empty.callAll allowed
  obtain ⟨m, ran, holds, handles⟩ := start.callAll ActiveSet.sound_empty allowed
  have handles : m.handles = s := handles
  have record : ∀ x i, m.index x = some i ↔ s.items[i]? = some x := by
    rw [← handles]
    exact holds
  refine ⟨m, ran, handles, sound.distinct, sound.activeLength_le, record, ?_⟩
  intro c x named
  have answers := sound.answers named
  rw [← handles] at sound named
  obtain ⟨m', called, holds', handles'⟩ :=
    holds.call sound c (named ▸ Option.some_ne_none x)
  rw [handles] at called handles'
  refine ⟨m', ?_, handles', ?_, ?_, ?_⟩
  · rw [called, answers.answer]
  · rw [handles', answers.part]
  · intro y other
    rw [handles']
    exact ⟨answers.mem_active_iff other, answers.mem_inactive_iff (handles ▸ sound) other⟩
  · intro y other active
    rw [holds.index_eq sound, holds.index_eq sound, holds'.index_eq (handles' ▸ answers.sound),
      handles, handles']
    exact answers.indexOf?_eq (handles ▸ sound) other active

/-- The first of three active handles goes, and the last one gets its place. -/
theorem keeps_record_as_first_goes :
    let cs : List (HandleCall Nat) := [.pushActive 1, .pushActive 2, .pushActive 3, .pushInactive 4,
      .pushActive 2, .deactivateAt 1, .activate 4]
    let answers := [some true, some true, some true, some true, some false, none, some true]
    (ActiveSet.empty : ActiveSet Nat).Allows cs ∧
      ∃ m m' : IndexedSet Nat, empty.callAll cs = some (answers, m) ∧ m.items = #[1, 3, 4, 2] ∧
        m.activeLength = 3 ∧ m.index 4 = some 2 ∧ m.call (.remove 1) = some (some true, m') ∧
        m'.index 3 = some 1 ∧ m'.index 4 = some 0 ∧ 2 ∈ m'.handles.inactive := by
  intro cs answers
  have allowed : (ActiveSet.empty : ActiveSet Nat).Allows cs := by decide +kernel
  have given : ((ActiveSet.empty : ActiveSet Nat).callAll cs).1 = answers := by decide +kernel
  have items : ((ActiveSet.empty : ActiveSet Nat).callAll cs).2.items = #[1, 3, 4, 2] := by
    decide +kernel
  have length : ((ActiveSet.empty : ActiveSet Nat).callAll cs).2.activeLength = 3 := by
    decide +kernel
  have left : ((ActiveSet.empty : ActiveSet Nat).callAll cs).2 = ⟨#[1, 3, 4, 2], 3⟩ :=
    congrArg₂ ActiveSet.mk items length
  obtain ⟨m, ran, handles, -, -, record, step⟩ := keeps_record cs allowed
  rw [given] at ran
  rw [left] at handles record step
  obtain ⟨m', called, -, nowhere, others, places⟩ := step (.remove 1) 1 rfl
  have at_first : m.index 1 = some 0 := (record 1 0).mpr rfl
  have at_second : m.index 3 = some 1 := (record 3 1).mpr rfl
  have at_third : m.index 4 = some 2 := (record 4 2).mpr rfl
  have gone : 1 ∉ m'.handles.active := by
    intro active
    rw [ActiveSet.part?_of_active active] at nowhere
    contradiction
  refine ⟨allowed, m, m', ran, congrArg ActiveSet.items handles,
    congrArg ActiveSet.activeLength handles, at_third, called, ?_, ?_, ?_⟩
  · rw [places 3 (by decide) (by decide), at_second]
    simp
  · rw [places 4 (by decide) (by decide), at_third, at_first]
    exact if_pos ⟨by decide, gone, rfl⟩
  · exact (others 2 (by decide)).2.mpr (by decide)

end IndexedSet

end Conduit
