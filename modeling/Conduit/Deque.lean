namespace Conduit

/-- A list open at both ends: its first part in order, and the rest of it from the last item on.

When one part runs out, half of the other one is turned over to it. So the items pushed pay for the
turns, from whichever end they are popped. -/
structure Deque (α : Type) where
  front : List α := []
  back : List α := []

namespace Deque

variable {α : Type}

def toList (d : Deque α) : List α := d.front ++ d.back.reverse

def pushFront (d : Deque α) (x : α) : Deque α := { d with front := x :: d.front }

def pushBack (d : Deque α) (x : α) : Deque α := { d with back := x :: d.back }

def front? : Deque α → Option α
  | ⟨x :: _, _⟩ => some x
  | ⟨[], back⟩ => back.getLast?

def back? : Deque α → Option α
  | ⟨_, x :: _⟩ => some x
  | ⟨front, []⟩ => front.getLast?

def popFront? : Deque α → Option (α × Deque α)
  | ⟨x :: front, back⟩ => some (x, ⟨front, back⟩)
  | ⟨[], back⟩ =>
    let kept := back.length / 2
    match (back.drop kept).reverse with
    | [] => none
    | x :: front => some (x, ⟨front, back.take kept⟩)

def popBack? : Deque α → Option (α × Deque α)
  | ⟨front, x :: back⟩ => some (x, ⟨front, back⟩)
  | ⟨front, []⟩ =>
    let kept := front.length / 2
    match (front.drop kept).reverse with
    | [] => none
    | x :: back => some (x, ⟨front.take kept, back⟩)

def dropFront (d : Deque α) : Deque α :=
  match d.popFront? with
  | some (_, d) => d
  | none => d

@[simp] theorem toList_empty : ({} : Deque α).toList = [] := rfl

@[simp] theorem toList_pushFront (d : Deque α) (x : α) :
    (d.pushFront x).toList = x :: d.toList := rfl

@[simp] theorem toList_pushBack (d : Deque α) (x : α) :
    (d.pushBack x).toList = d.toList ++ [x] := by
  simp [toList, pushBack]

theorem front?_eq_head? (d : Deque α) : d.front? = d.toList.head? := by
  rcases d with ⟨_ | ⟨x, front⟩, back⟩ <;> simp [front?, toList]

theorem back?_eq_getLast? (d : Deque α) : d.back? = d.toList.getLast? := by
  rcases d with ⟨front, _ | ⟨x, back⟩⟩ <;> simp [back?, toList]

theorem toList_of_popFront? {d rest : Deque α} {x : α} (h : d.popFront? = some (x, rest)) :
    d.toList = x :: rest.toList := by
  rcases d with ⟨_ | ⟨y, front⟩, back⟩
  · simp only [popFront?] at h
    split at h
    · simp at h
    · rename_i y front turned
      obtain ⟨rfl, rfl⟩ : y = x ∧ ⟨front, back.take (back.length / 2)⟩ = rest := by simpa using h
      have whole := congrArg List.reverse (List.take_append_drop (back.length / 2) back)
      rw [List.reverse_append, turned] at whole
      simpa [toList] using whole.symm
  · obtain ⟨rfl, rfl⟩ : y = x ∧ ⟨front, back⟩ = rest := by simpa [popFront?] using h
    rfl

theorem toList_of_popBack? {d rest : Deque α} {x : α} (h : d.popBack? = some (x, rest)) :
    d.toList = rest.toList ++ [x] := by
  rcases d with ⟨front, _ | ⟨y, back⟩⟩
  · simp only [popBack?] at h
    split at h
    · simp at h
    · rename_i y back turned
      obtain ⟨rfl, rfl⟩ : y = x ∧ ⟨front.take (front.length / 2), back⟩ = rest := by simpa using h
      have whole := List.take_append_drop (front.length / 2) front
      rw [← List.reverse_reverse (front.drop _), turned] at whole
      simpa [toList] using whole.symm
  · obtain ⟨rfl, rfl⟩ : y = x ∧ ⟨front, back⟩ = rest := by simpa [popBack?] using h
    simp [toList]

theorem popFront?_eq_none_iff (d : Deque α) : d.popFront? = none ↔ d.toList = [] := by
  rcases d with ⟨_ | ⟨x, front⟩, back⟩
  · simp only [popFront?, toList]
    split
    · rename_i turned
      simp only [List.reverse_eq_nil_iff, List.drop_eq_nil_iff] at turned
      have : back = [] := List.length_eq_zero_iff.mp (by omega)
      simp [this]
    · rename_i turned
      simp only [reduceCtorEq, false_iff, List.nil_append, List.reverse_eq_nil_iff]
      rintro rfl
      simp at turned
  · simp [popFront?, toList]

theorem popBack?_eq_none_iff (d : Deque α) : d.popBack? = none ↔ d.toList = [] := by
  rcases d with ⟨front, _ | ⟨x, back⟩⟩
  · simp only [popBack?, toList]
    split
    · rename_i turned
      simp only [List.reverse_eq_nil_iff, List.drop_eq_nil_iff] at turned
      have : front = [] := List.length_eq_zero_iff.mp (by omega)
      simp [this]
    · rename_i turned
      simp only [reduceCtorEq, false_iff, List.reverse_nil, List.append_nil]
      rintro rfl
      simp at turned
  · simp [popBack?, toList]

theorem toList_dropFront (d : Deque α) : d.dropFront.toList = d.toList.tail := by
  unfold dropFront
  split
  · rename_i h
    rw [toList_of_popFront? h, List.tail_cons]
  · rename_i h
    rw [(popFront?_eq_none_iff d).mp h, List.tail_nil]

end Deque

end Conduit
