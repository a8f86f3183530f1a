import Conduit.ActiveSet
import Mathlib.Data.List.Nodup
import Mathlib.Logic.Function.Basic

namespace Conduit

theorem getElem?_concat_iff {α : Type} {l : List α} {x y : α} {j : Nat} :
    (l ++ [x])[j]? = some y ↔ l[j]? = some y ∨ j = l.length ∧ y = x := by
  rw [List.getElem?_append]
  split
  · rename_i hlt
    exact (or_iff_left fun last ↦ Nat.ne_of_lt hlt last.1).symm
  · rename_i hle
    rw [List.getElem?_eq_none (Nat.le_of_not_lt hle), List.getElem?_singleton]
    split
    · have last : j = l.length := by omega
      simp [last, eq_comm]
    · have behind : j ≠ l.length := by omega
      simp [behind]

namespace ActiveSet

variable {α : Type} {s : ActiveSet α} {x y : α} {i j : Nat}

structure Sound (s : ActiveSet α) : Prop where
  distinct : s.items.toList.Nodup
  activeLength_le : s.activeLength ≤ s.items.size

theorem sound_empty : (empty : ActiveSet α).Sound := ⟨List.nodup_nil, Nat.le_refl 0⟩

theorem mem_active_iff : x ∈ s.active ↔ ∃ i < s.activeLength, s.items[i]? = some x := by
  simp only [active, List.mem_iff_getElem?, List.getElem?_take, Array.getElem?_toList]
  constructor
  · rintro ⟨i, hi⟩
    split at hi
    · exact ⟨i, ‹_›, hi⟩
    · contradiction
  · rintro ⟨i, hlt, hi⟩
    exact ⟨i, by rw [if_pos hlt, hi]⟩

theorem Sound.mem_inactive_iff (h : s.Sound) :
    x ∈ s.inactive ↔ x ∈ s.items.toList ∧ x ∉ s.active := by
  have whole : s.active ++ s.inactive = s.items.toList := List.take_append_drop _ _
  have apart := List.disjoint_of_nodup_append (whole ▸ h.distinct)
  rw [← whole, List.mem_append]
  constructor
  · intro aside
    exact ⟨.inr aside, fun active ↦ apart active aside⟩
  · rintro ⟨there, waits⟩
    exact there.resolve_left waits

theorem Sound.eq_of_getElem? (h : s.Sound) (hi : s.items[i]? = some x)
    (hj : s.items[j]? = some x) : i = j := by
  rw [← Array.getElem?_toList] at hi hj
  obtain ⟨hlt, -⟩ := List.getElem?_eq_some_iff.mp hi
  exact (List.getElem?_inj hlt h.distinct).mp (hi.trans hj.symm)

theorem Sound.notMem_active_of_le (h : s.Sound) (at_i : s.items[i]? = some x)
    (behind : s.activeLength ≤ i) : x ∉ s.active := by
  intro active
  obtain ⟨k, hk, at_k⟩ := mem_active_iff.mp active
  exact absurd (h.eq_of_getElem? at_k at_i ▸ hk) (Nat.not_lt.mpr behind)

theorem current?_eq_some_iff :
    s.current? i = some x ↔ i < s.activeLength ∧ s.items[i]? = some x := by
  unfold current?
  split
  · rename_i hlt
    exact (and_iff_right hlt).symm
  · rename_i hle
    exact iff_of_false nofun fun h ↦ hle h.1

theorem Sound.current?_eq_none_iff (h : s.Sound) : s.current? i = none ↔ s.activeLength ≤ i := by
  have le := h.activeLength_le
  unfold current?
  split
  · rename_i hlt
    rw [Array.getElem?_eq_none_iff]
    omega
  · rename_i hle
    exact iff_of_true rfl (Nat.le_of_not_lt hle)

theorem mem_active_of_current? (h : s.current? i = some x) : x ∈ s.active :=
  mem_active_iff.mpr ⟨i, current?_eq_some_iff.mp h⟩

def Aims (s : ActiveSet α) (i : Nat) : Prop := i < s.activeLength ∨ s.activeLength = 0 ∧ i = 0

theorem Aims.mono {s' : ActiveSet α} (h : s.Aims i) (le : s.activeLength ≤ s'.activeLength) :
    s'.Aims i := by
  rcases h with hlt | ⟨-, rfl⟩
  · exact .inl (Nat.lt_of_lt_of_le hlt le)
  · exact (Nat.eq_zero_or_pos s'.activeLength).symm.imp id (⟨·, rfl⟩)

theorem aims_wrap (s : ActiveSet α) (i : Nat) : s.Aims (if i ≥ s.activeLength then 0 else i) := by
  unfold Aims
  split <;> omega

theorem Sound.notMem_active (h : s.Sound) (aims : s.Aims i) (none : s.current? i = none) (x : α) :
    x ∉ s.active := by
  have le := h.current?_eq_none_iff.mp none
  have zero : s.activeLength = 0 := by
    unfold Aims at aims
    omega
  simp [active, zero]

theorem swap_perm (s : ActiveSet α) (i j : Nat) :
    (s.swap i j).items.toList.Perm s.items.toList := by
  simp only [swap, Array.swapIfInBounds_def]
  split
  · split
    · exact (Array.swap_perm _ _).toList
    · exact .refl _
  · exact .refl _

theorem getElem?_swap (s : ActiveSet α) (hi : i < s.items.size) (hj : j < s.items.size) (k : Nat) :
    (s.swap i j).items[k]? =
      if j = k then s.items[i]? else if i = k then s.items[j]? else s.items[k]? := by
  have within : (s.swap i j).items = s.items.swap i j hi hj := by
    rw [swap, Array.swapIfInBounds_def, dif_pos hi, dif_pos hj]
  rw [within, Array.getElem?_swap, Array.getElem?_eq_getElem hi, Array.getElem?_eq_getElem hj]

/-- The handle that was active at `i` no longer is. -/
theorem Sound.deactivateAt (h : s.Sound) (current : s.current? i = some x) :
    (s.deactivateAt i).Sound ∧ (s.deactivateAt i).items.toList.Perm s.items.toList ∧
      ∀ y, y ∈ (s.deactivateAt i).active ↔ y ∈ s.active ∧ y ≠ x := by
  obtain ⟨hlt, at_i⟩ := current?_eq_some_iff.mp current
  have le := h.activeLength_le
  have exchanged := s.getElem?_swap (show i < s.items.size by omega)
    (show s.activeLength - 1 < s.items.size by omega)
  have perm := s.swap_perm i (s.activeLength - 1)
  refine ⟨⟨perm.nodup_iff.mpr h.distinct, ?_⟩, perm, fun y ↦ ?_⟩
  · have size := perm.length_eq
    simp only [Array.length_toList] at size
    simp only [ActiveSet.deactivateAt, size]
    omega
  rw [mem_active_iff, mem_active_iff]
  constructor
  · rintro ⟨k, hk, at_k⟩
    simp only [ActiveSet.deactivateAt] at hk at_k
    rw [exchanged, if_neg (by omega)] at at_k
    split at at_k
    · refine ⟨⟨s.activeLength - 1, by omega, at_k⟩, ?_⟩
      rintro rfl
      have := h.eq_of_getElem? at_k at_i
      omega
    · rename_i other
      refine ⟨⟨k, by omega, at_k⟩, ?_⟩
      rintro rfl
      exact other (h.eq_of_getElem? at_i at_k)
  · rintro ⟨⟨k, hk, at_k⟩, other⟩
    have hne : i ≠ k := by
      rintro rfl
      exact other (Option.some.inj (at_k.symm.trans at_i))
    by_cases last : k = s.activeLength - 1
    · refine ⟨i, by simp only [ActiveSet.deactivateAt]; omega, ?_⟩
      simp only [ActiveSet.deactivateAt]
      rw [exchanged, if_neg (by omega), if_pos rfl, ← last, at_k]
    · refine ⟨k, by simp only [ActiveSet.deactivateAt]; omega, ?_⟩
      simp only [ActiveSet.deactivateAt]
      rw [exchanged, if_neg (by omega), if_neg hne, at_k]

theorem Sound.getElem?_deactivateAt (h : s.Sound) (current : s.current? i = some x) :
    (s.deactivateAt i).items[s.activeLength - 1]? = some x := by
  obtain ⟨hlt, at_i⟩ := current?_eq_some_iff.mp current
  have le := h.activeLength_le
  have exchanged := s.getElem?_swap (show i < s.items.size by omega)
    (show s.activeLength - 1 < s.items.size by omega) (s.activeLength - 1)
  rwa [if_pos rfl, at_i] at exchanged

/-- The handle at `i` is active then, and no other has moved among the active ones. -/
theorem Sound.promote (h : s.Sound) (at_i : s.items[i]? = some x) (hi : s.activeLength ≤ i) :
    (s.promote i).Sound ∧ (s.promote i).items.toList.Perm s.items.toList ∧
      (∀ y, y ∈ (s.promote i).active ↔ y ∈ s.active ∨ y = x) ∧
      ∀ k < s.activeLength, (s.promote i).current? k = s.current? k := by
  obtain ⟨hlt, -⟩ := Array.getElem?_eq_some_iff.mp at_i
  have exchanged := s.getElem?_swap hlt (show s.activeLength < s.items.size by omega)
  have perm := s.swap_perm i s.activeLength
  have kept {k : Nat} (hk : k < s.activeLength) : (s.promote i).items[k]? = s.items[k]? := by
    simp only [ActiveSet.promote]
    rw [exchanged, if_neg (by omega), if_neg (by omega)]
  have brought : (s.promote i).items[s.activeLength]? = some x := by
    simp only [ActiveSet.promote]
    rw [exchanged, if_pos rfl, at_i]
  have length : (s.promote i).activeLength = s.activeLength + 1 := rfl
  refine ⟨⟨perm.nodup_iff.mpr h.distinct, ?_⟩, perm, fun y ↦ ?_, fun k hk ↦ ?_⟩
  · have size := perm.length_eq
    simp only [Array.length_toList] at size
    simp only [ActiveSet.promote, size]
    omega
  · rw [mem_active_iff, mem_active_iff, length]
    constructor
    · rintro ⟨k, hk, at_k⟩
      by_cases last : k = s.activeLength
      · rw [last, brought] at at_k
        exact .inr (Option.some.inj at_k).symm
      · rw [kept (by omega)] at at_k
        exact .inl ⟨k, by omega, at_k⟩
    · rintro (⟨k, hk, at_k⟩ | rfl)
      · exact ⟨k, by omega, (kept hk).trans at_k⟩
      · exact ⟨s.activeLength, by omega, brought⟩
  · rw [current?, current?, length, if_pos (by omega), if_pos hk, kept hk]

/-- An inactive handle can go. -/
theorem Sound.eraseAt (h : s.Sound) (at_i : s.items[i]? = some x) (behind : s.activeLength ≤ i) :
    (s.eraseAt i).Sound ∧ s.items.toList.Perm ((s.eraseAt i).items.toList ++ [x]) ∧
      (s.eraseAt i).activeLength = s.activeLength ∧
      ∀ k < s.activeLength, (s.eraseAt i).items[k]? = s.items[k]? := by
  obtain ⟨hlt, -⟩ := Array.getElem?_eq_some_iff.mp at_i
  have exchanged := s.getElem?_swap hlt (show s.items.size - 1 < s.items.size by omega)
  have perm := s.swap_perm i (s.items.size - 1)
  have size : (s.swap i (s.items.size - 1)).items.size = s.items.size := by
    have length := perm.length_eq
    simpa only [Array.length_toList] using length
  have last : (s.swap i (s.items.size - 1)).items.toList.getLast? = some x := by
    rw [List.getLast?_eq_getElem?, Array.getElem?_toList, Array.length_toList, size, exchanged,
      if_pos rfl, at_i]
  have split : (s.swap i (s.items.size - 1)).items.toList = (s.eraseAt i).items.toList ++ [x] := by
    obtain ⟨init, whole⟩ := List.getLast?_eq_some_iff.mp last
    simp only [ActiveSet.eraseAt, Array.toList_pop]
    rw [whole, List.dropLast_concat]
  have left : s.items.toList.Perm ((s.eraseAt i).items.toList ++ [x]) := split ▸ perm.symm
  have length : (s.eraseAt i).items.size + 1 = s.items.size := by
    have length := left.length_eq
    simpa only [Array.length_toList, List.length_append, List.length_singleton] using length.symm
  refine ⟨⟨?_, ?_⟩, left, rfl, fun k hk ↦ ?_⟩
  · exact (List.nodup_append.mp (left.nodup_iff.mp h.distinct)).1
  · have same : (s.eraseAt i).activeLength = s.activeLength := rfl
    omega
  · have within : k < (s.swap i (s.items.size - 1)).items.size - 1 := by omega
    simp only [ActiveSet.eraseAt]
    rw [Array.getElem?_pop, if_pos within, exchanged]
    split
    · omega
    · rw [if_neg (by omega)]

section Handles

variable [DecidableEq α]

theorem indexOf?_eq_some (h : s.indexOf? x = some i) : s.items[i]? = some x := by
  rw [indexOf?, Array.idxOf?, Option.map_eq_some_iff] at h
  obtain ⟨i, found, rfl⟩ := h
  rw [Array.getElem?_eq_getElem i.isLt]
  exact congrArg some (Array.finIdxOf?_eq_some_iff.mp found).1

theorem indexOf?_eq_none_iff : s.indexOf? x = none ↔ x ∉ s.items.toList := by
  rw [indexOf?, Array.idxOf?_eq_none_iff, Array.mem_toList_iff]

theorem contains_iff : s.contains x = true ↔ x ∈ s.items.toList := by
  rw [contains, Option.isSome_iff_ne_none, ne_eq, indexOf?_eq_none_iff, not_not]

theorem contains_eq_false_iff : s.contains x = false ↔ x ∉ s.items.toList := by
  rw [← contains_iff, Bool.not_eq_true]

theorem activeLength_le_activate (s : ActiveSet α) (x : α) :
    s.activeLength ≤ (s.activate x).2.activeLength := by
  unfold ActiveSet.activate
  split
  · split
    · exact Nat.le_succ _
    · exact Nat.le_refl _
  · exact Nat.le_refl _

theorem activeLength_le_pushActive (s : ActiveSet α) (x : α) :
    s.activeLength ≤ (s.pushActive x).2.activeLength := by
  by_cases there : s.contains x = true
  · simp [ActiveSet.pushActive, pushInactive, there]
  · simp [ActiveSet.pushActive, pushInactive, there, ActiveSet.promote]

/-- A handle that is there is active then. -/
theorem Sound.activate (h : s.Sound) (x : α) :
    (s.activate x).2.Sound ∧ (s.activate x).2.items.toList.Perm s.items.toList ∧
      (∀ y, y ∈ (s.activate x).2.active ↔ y ∈ s.active ∨ y = x ∧ x ∈ s.items.toList) ∧
      ∀ k < s.activeLength, (s.activate x).2.current? k = s.current? k := by
  unfold ActiveSet.activate
  match index : s.indexOf? x with
  | none =>
    have absent := indexOf?_eq_none_iff.mp index
    exact ⟨h, .refl _, fun y ↦ by simp [absent], fun _ _ ↦ rfl⟩
  | some i =>
    have at_i := indexOf?_eq_some index
    have there : x ∈ s.items.toList := by
      rw [← Array.getElem?_toList] at at_i
      exact List.mem_of_getElem? at_i
    dsimp only
    split
    · rename_i inactive
      obtain ⟨sound, perm, active, kept⟩ := h.promote at_i inactive
      exact ⟨sound, perm, fun y ↦ by rw [active, and_iff_left there], kept⟩
    · rename_i active
      have already : x ∈ s.active := mem_active_iff.mpr ⟨i, by omega, at_i⟩
      refine ⟨h, .refl _, fun y ↦ ⟨.inl, ?_⟩, fun _ _ ↦ rfl⟩
      rintro (hy | ⟨rfl, -⟩)
      · exact hy
      · exact already

theorem Sound.foldl_activate (h : s.Sound) (xs : List α) :
    s.activeLength ≤ (xs.foldl (fun s x ↦ (s.activate x).2) s).activeLength ∧
      ∀ k < s.activeLength,
        (xs.foldl (fun s x ↦ (s.activate x).2) s).current? k = s.current? k := by
  induction xs generalizing s with
  | nil => exact ⟨Nat.le_refl _, fun _ _ ↦ rfl⟩
  | cons x xs ih =>
    obtain ⟨sound, -, -, kept⟩ := h.activate x
    have le := s.activeLength_le_activate x
    obtain ⟨le', kept'⟩ := ih sound
    refine ⟨Nat.le_trans le le', fun k hk ↦ ?_⟩
    exact (kept' k (Nat.lt_of_lt_of_le hk le)).trans (kept k hk)

/-- A new handle stands behind all others. -/
theorem Sound.pushInactive (h : s.Sound) (new : x ∉ s.items.toList) :
    let pushed : ActiveSet α := { s with items := s.items.push x }
    s.pushInactive x = (true, pushed) ∧ pushed.Sound ∧ (∀ y, y ∈ pushed.active ↔ y ∈ s.active) ∧
      ∀ k < s.activeLength, pushed.items[k]? = s.items[k]? := by
  intro pushed
  have le := h.activeLength_le
  have kept : ∀ k < s.activeLength, pushed.items[k]? = s.items[k]? := by
    intro k hk
    rw [Array.getElem?_push, if_neg (by omega)]
  refine ⟨?_, ⟨?_, ?_⟩, fun y ↦ ?_, kept⟩
  · simp [ActiveSet.pushInactive, contains_eq_false_iff.mpr new, pushed]
  · simp only [pushed, Array.toList_push]
    exact List.nodup_append_comm.mp (List.nodup_cons.mpr ⟨new, h.distinct⟩)
  · simp only [pushed, Array.size_push]
    omega
  · rw [mem_active_iff, mem_active_iff]
    exact exists_congr fun k ↦ and_congr_right fun hk ↦ by rw [kept k hk]

/-- A new handle is active. -/
theorem Sound.pushActive (h : s.Sound) (new : x ∉ s.items.toList) :
    (s.pushActive x).2.Sound ∧ (s.pushActive x).2.items.toList.Perm (s.items.toList ++ [x]) ∧
      (∀ y, y ∈ (s.pushActive x).2.active ↔ y ∈ s.active ∨ y = x) ∧
      ∀ k < s.activeLength, (s.pushActive x).2.current? k = s.current? k := by
  obtain ⟨pushed, sound, active, same⟩ := h.pushInactive new
  have at_end : (s.items.push x)[s.items.size]? = some x := Array.getElem?_push_size
  obtain ⟨sound', perm, active', kept⟩ := sound.promote at_end h.activeLength_le
  have promoted : (s.pushActive x).2 =
      ({ s with items := s.items.push x } : ActiveSet α).promote s.items.size := by
    simp [ActiveSet.pushActive, pushed]
  rw [promoted]
  refine ⟨sound', ?_, fun y ↦ by rw [active', active], fun k hk ↦ ?_⟩
  · rwa [Array.toList_push] at perm
  · rw [kept k hk, current?, current?, same k hk]

/-- A handle that goes is gone from both parts. -/
theorem Sound.remove (h : s.Sound) (there : x ∈ s.items.toList) :
    (s.remove x).2.Sound ∧ s.items.toList.Perm ((s.remove x).2.items.toList ++ [x]) ∧
      ∀ y, y ∈ (s.remove x).2.active ↔ y ∈ s.active ∧ y ≠ x := by
  unfold ActiveSet.remove
  match index : s.indexOf? x with
  | none => exact absurd there (indexOf?_eq_none_iff.mp index)
  | some i =>
    have at_i := indexOf?_eq_some index
    dsimp only
    split
    · rename_i active
      have current := current?_eq_some_iff.mpr ⟨active, at_i⟩
      obtain ⟨sound, perm, others⟩ := h.deactivateAt current
      obtain ⟨sound', perm', length, kept⟩ :=
        sound.eraseAt (h.getElem?_deactivateAt current) (Nat.le_refl _)
      refine ⟨sound', perm.symm.trans perm', fun y ↦ ?_⟩
      rw [← others, mem_active_iff, mem_active_iff, length]
      exact exists_congr fun k ↦ and_congr_right fun hk ↦ by rw [kept k hk]
    · rename_i inactive
      obtain ⟨sound, perm, length, kept⟩ := h.eraseAt at_i (Nat.le_of_not_lt inactive)
      refine ⟨sound, perm, fun y ↦ ?_⟩
      have same : y ∈ (s.eraseAt i).active ↔ y ∈ s.active := by
        rw [mem_active_iff, mem_active_iff, length]
        exact exists_congr fun k ↦ and_congr_right fun hk ↦ by rw [kept k hk]
      rw [same, iff_self_and]
      rintro active rfl
      exact h.notMem_active_of_le at_i (Nat.le_of_not_lt inactive) active

theorem remove_of_notMem (unknown : x ∉ s.items.toList) : s.remove x = (none, s) := by
  rw [ActiveSet.remove, indexOf?_eq_none_iff.mpr unknown]

theorem Sound.remove_active (h : s.Sound) (x : α) :
    (s.remove x).2.Sound ∧ ∀ y, y ∈ (s.remove x).2.active ↔ y ∈ s.active ∧ y ≠ x := by
  by_cases there : x ∈ s.items.toList
  · obtain ⟨sound, -, active⟩ := h.remove there
    exact ⟨sound, active⟩
  · rw [remove_of_notMem there]
    refine ⟨h, fun y ↦ (and_iff_left_of_imp ?_).symm⟩
    rintro active rfl
    exact there (List.mem_of_mem_take active)

theorem pushActive_of_mem (there : x ∈ s.items.toList) : (s.pushActive x).2 = s := by
  have known : s.contains x = true := contains_iff.mpr there
  simp [ActiveSet.pushActive, pushInactive, known]

/-- An active handle is found at its place among the active ones. -/
theorem Sound.activeIndex? (h : s.Sound) (active : x ∈ s.active) :
    ∃ i, s.activeIndex? x = some i ∧ s.current? i = some x := by
  match index : s.indexOf? x with
  | none => exact absurd (List.mem_of_mem_take active) (indexOf?_eq_none_iff.mp index)
  | some i =>
    have at_i := indexOf?_eq_some index
    obtain ⟨k, hk, at_k⟩ := mem_active_iff.mp active
    obtain rfl := h.eq_of_getElem? at_k at_i
    refine ⟨k, ?_, current?_eq_some_iff.mpr ⟨hk, at_k⟩⟩
    simp [ActiveSet.activeIndex?, index, hk]

theorem Sound.current?_pushActive (h : s.Sound) (current : s.current? i = some y) (x : α) :
    (s.pushActive x).2.current? i = some y := by
  obtain ⟨within, -⟩ := current?_eq_some_iff.mp current
  by_cases old : x ∈ s.items.toList
  · rwa [pushActive_of_mem old]
  · exact ((h.pushActive old).2.2.2 i within).trans current

theorem Sound.current?_activate (h : s.Sound) (current : s.current? i = some y) (x : α) :
    (s.activate x).2.current? i = some y := by
  obtain ⟨within, -⟩ := current?_eq_some_iff.mp current
  exact ((h.activate x).2.2.2 i within).trans current

theorem Sound.activeIndex?_remove (h : s.Sound) (current : s.current? i = some y) (other : x ≠ y) :
    ∃ j, (s.remove x).2.activeIndex? y = some j ∧ (s.remove x).2.current? j = some y := by
  obtain ⟨sound, active⟩ := h.remove_active x
  apply sound.activeIndex?
  exact (active y).mpr ⟨mem_active_of_current? current, other.symm⟩

theorem Sound.sound_pushActive (h : s.Sound) (x : α) : (s.pushActive x).2.Sound := by
  by_cases old : x ∈ s.items.toList
  · rwa [pushActive_of_mem old]
  · exact (h.pushActive old).1

end Handles

structure Tracks (s : ActiveSet α) (names : List α) (on : Nat → Bool) : Prop where
  sound : s.Sound
  distinct : names.Nodup
  known : ∀ y, y ∈ s.items.toList ↔ y ∈ names
  active : ∀ {j y}, names[j]? = some y → (y ∈ s.active ↔ on j = true)

namespace Tracks

variable {names : List α} {on : Nat → Bool} {k : Nat}

theorem congr {on' : Nat → Bool} (h : s.Tracks names on) (same : ∀ j < names.length, on' j = on j) :
    s.Tracks names on' := by
  refine ⟨h.sound, h.distinct, h.known, fun {j y} hj ↦ ?_⟩
  obtain ⟨hlt, -⟩ := List.getElem?_eq_some_iff.mp hj
  rw [same j hlt]
  exact h.active hj

theorem perm {names' : List α} (h : s.Tracks names fun _ ↦ true) (same : names.Perm names') :
    s.Tracks names' fun _ ↦ true := by
  refine ⟨h.sound, same.nodup_iff.mp h.distinct, fun y ↦ (h.known y).trans same.mem_iff,
    fun {j y} hj ↦ ?_⟩
  obtain ⟨k, hk⟩ := List.mem_iff_getElem?.mp (same.mem_iff.mpr (List.mem_of_getElem? hj))
  exact h.active hk

theorem eq_of_getElem? (h : s.Tracks names on) (hj : names[j]? = some x)
    (hk : names[k]? = some x) : j = k := by
  obtain ⟨hlt, -⟩ := List.getElem?_eq_some_iff.mp hj
  exact (List.getElem?_inj hlt h.distinct).mp (hj.trans hk.symm)

theorem exists_current (h : s.Tracks names on) (current : s.current? i = some x) :
    ∃ j, names[j]? = some x ∧ on j = true := by
  have active := mem_active_of_current? current
  have named : x ∈ names := (h.known x).mp (List.mem_of_mem_take active)
  obtain ⟨j, hj⟩ := List.mem_iff_getElem?.mp named
  exact ⟨j, hj, (h.active hj).mp active⟩

/-- What happens to one handle is seen under its name only. -/
theorem update {s' : ActiveSet α} (h : s.Tracks names on) (hj : names[j]? = some x) {b : Bool}
    (sound : s'.Sound) (perm : s'.items.toList.Perm s.items.toList)
    (here : x ∈ s'.active ↔ b = true) (elsewhere : ∀ y ≠ x, y ∈ s'.active ↔ y ∈ s.active) :
    s'.Tracks names (Function.update on j b) := by
  refine ⟨sound, h.distinct, fun y ↦ perm.mem_iff.trans (h.known y), fun {k y} hk ↦ ?_⟩
  by_cases same : k = j
  · subst same
    rw [Function.update_self, Option.some.inj (hk.symm.trans hj)]
    exact here
  · have other : y ≠ x := by
      rintro rfl
      exact same (h.eq_of_getElem? hk hj)
    rw [Function.update_of_ne same, elsewhere y other]
    exact h.active hk

theorem deactivateAt (h : s.Tracks names on) (current : s.current? i = some x)
    (hj : names[j]? = some x) :
    (s.deactivateAt i).Tracks names (Function.update on j false) := by
  obtain ⟨sound, perm, active⟩ := h.sound.deactivateAt current
  refine h.update hj sound perm ?_ fun y other ↦ ?_
  · simp [active]
  · rw [active, and_iff_left other]

variable [DecidableEq α]

theorem activate (h : s.Tracks names on) (hj : names[j]? = some x) :
    (s.activate x).2.Tracks names (Function.update on j true) := by
  obtain ⟨sound, perm, active, -⟩ := h.sound.activate x
  have there : x ∈ s.items.toList := (h.known x).mpr (List.mem_of_getElem? hj)
  refine h.update hj sound perm ?_ fun y other ↦ ?_
  · simp [active, there]
  · rw [active, or_iff_left fun same ↦ other same.1]

theorem foldl_activate (h : s.Tracks names on) {xs : List α} (known : ∀ x ∈ xs, x ∈ names)
    {on' : Nat → Bool}
    (heard : ∀ {j x}, names[j]? = some x → (on' j = true ↔ on j = true ∨ x ∈ xs)) :
    (xs.foldl (fun s x ↦ (s.activate x).2) s).Tracks names on' := by
  induction xs generalizing s on with
  | nil =>
    refine h.congr fun j hj ↦ Bool.eq_iff_iff.mpr ?_
    simpa using heard (List.getElem?_eq_getElem hj)
  | cons x xs ih =>
    obtain ⟨j, hj⟩ := List.mem_iff_getElem?.mp (known x List.mem_cons_self)
    refine ih (h.activate hj) (fun y hy ↦ known y (List.mem_cons_of_mem _ hy)) fun {k y} hk ↦ ?_
    rw [heard hk, List.mem_cons]
    by_cases same : k = j
    · subst same
      simp [Option.some.inj (hk.symm.trans hj)]
    · have other : y ≠ x := by
        rintro rfl
        exact same (h.eq_of_getElem? hk hj)
      rw [Function.update_of_ne same, or_iff_right other]

theorem pushActive (h : s.Tracks names on) (new : x ∉ names) :
    (s.pushActive x).2.Tracks (names ++ [x]) (Function.update on names.length true) := by
  obtain ⟨sound, perm, active, -⟩ := h.sound.pushActive (mt (h.known x).mp new)
  refine ⟨sound, List.nodup_append_comm.mp (List.nodup_cons.mpr ⟨new, h.distinct⟩), fun y ↦ ?_,
    fun {k y} hk ↦ ?_⟩
  · rw [perm.mem_iff, List.mem_append, List.mem_append, h.known]
  · rw [active]
    rcases getElem?_concat_iff.mp hk with old | ⟨rfl, rfl⟩
    · obtain ⟨hlt, -⟩ := List.getElem?_eq_some_iff.mp old
      have other : y ≠ x := by
        rintro rfl
        exact new (List.mem_of_getElem? old)
      rw [Function.update_of_ne (Nat.ne_of_lt hlt), or_iff_left other]
      exact h.active old
    · simp

theorem pushAll (h : s.Tracks names fun _ ↦ true) {order : List α}
    (distinct : (names ++ order).Nodup) :
    (order.foldl (fun s x ↦ (s.pushActive x).2) s).Tracks (names ++ order) fun _ ↦ true := by
  induction order generalizing s names with
  | nil => rwa [List.append_nil]
  | cons x order ih =>
    have new : x ∉ names := fun old ↦
      (List.nodup_middle.mp distinct).notMem (List.mem_append_left _ old)
    rw [List.append_cons] at distinct ⊢
    refine ih ((h.pushActive new).congr fun j _ ↦ ?_) distinct
    rw [Function.update_apply, ite_self]

end Tracks

/-- Handles that were pushed in some order are all there, and active. -/
theorem tracks_pushAll [DecidableEq α] {order names : List α} (covers : order.Perm names)
    (distinct : names.Nodup) :
    (order.foldl (fun s x ↦ (s.pushActive x).2) empty).Tracks names fun _ ↦ true := by
  have none_known : (empty : ActiveSet α).Tracks [] fun _ ↦ true :=
    ⟨sound_empty, List.nodup_nil, fun _ ↦ Iff.rfl, nofun⟩
  exact (none_known.pushAll (covers.nodup_iff.mpr distinct)).perm covers

end ActiveSet

end Conduit
