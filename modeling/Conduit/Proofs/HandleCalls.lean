import Conduit.Proofs.Partition

namespace Conduit

inductive HandleCall (α : Type) where
  | pushActive (x : α)
  | pushInactive (x : α)
  | activate (x : α)
  | deactivateAt (i : Nat)
  | remove (x : α)

namespace HandleCall

variable {α : Type}

/-- Where a call leaves the handle that it names, by where it was: among the active ones, among the
inactive ones, or nowhere. -/
def part : HandleCall α → Option Bool → Option Bool
  | pushActive _, p => p.or (some true)
  | pushInactive _, p => p.or (some false)
  | activate _, p => p.map fun _ ↦ true
  | deactivateAt _, p => p.map fun _ ↦ false
  | remove _, _ => none

def answer : HandleCall α → Option Bool → Option Bool
  | pushActive _, p | pushInactive _, p => some p.isNone
  | activate _, p => some (p = some false)
  | deactivateAt _, _ => none
  | remove _, p => p

end HandleCall

namespace ActiveSet

variable {α : Type} [DecidableEq α] {s s' : ActiveSet α} {x y : α} {i k : Nat}

def call (s : ActiveSet α) : HandleCall α → Option Bool × ActiveSet α
  | .pushActive x => (some (s.pushActive x).1, (s.pushActive x).2)
  | .pushInactive x => (some (s.pushInactive x).1, (s.pushInactive x).2)
  | .activate x => (some (s.activate x).1, (s.activate x).2)
  | .deactivateAt i => (none, s.deactivateAt i)
  | .remove x => s.remove x

def callAll : ActiveSet α → List (HandleCall α) → List (Option Bool) × ActiveSet α
  | s, [] => ([], s)
  | s, c :: cs => ((s.call c).1 :: ((s.call c).2.callAll cs).1, ((s.call c).2.callAll cs).2)

/-- The handle that a call is about. To set one aside, it must be active. -/
def named? (s : ActiveSet α) : HandleCall α → Option α
  | .pushActive x | .pushInactive x | .activate x | .remove x => some x
  | .deactivateAt i => s.current? i

/-- Each call is about some handle when its turn comes. -/
def Allows : ActiveSet α → List (HandleCall α) → Prop
  | _, [] => True
  | s, c :: cs => s.named? c ≠ none ∧ (s.call c).2.Allows cs

instance decidableAllows : (s : ActiveSet α) → (cs : List (HandleCall α)) → Decidable (s.Allows cs)
  | _, [] => isTrue trivial
  | s, c :: cs =>
    have := decidableAllows (s.call c).2 cs
    inferInstanceAs (Decidable (s.named? c ≠ none ∧ (s.call c).2.Allows cs))

def part? (s : ActiveSet α) (x : α) : Option Bool :=
  if x ∈ s.active then some true else if x ∈ s.inactive then some false else none

theorem part?_of_active (active : x ∈ s.active) : s.part? x = some true := if_pos active

theorem Sound.part?_eq (h : s.Sound) (x : α) : s.part? x =
    if x ∈ s.active then some true else if x ∈ s.items.toList then some false else none := by
  by_cases active : x ∈ s.active
  · rw [part?, if_pos active, if_pos active]
  · have aside : x ∈ s.inactive ↔ x ∈ s.items.toList := by
      rw [h.mem_inactive_iff, and_iff_left active]
    rw [part?, if_neg active, if_neg active, if_congr aside rfl rfl]

theorem Sound.part?_of_inactive (h : s.Sound) (there : x ∈ s.items.toList) (waits : x ∉ s.active) :
    s.part? x = some false := by
  rw [h.part?_eq, if_neg waits, if_pos there]

theorem Sound.part?_of_notMem (h : s.Sound) (unknown : x ∉ s.items.toList) : s.part? x = none := by
  have waits : x ∉ s.active := fun active ↦ unknown (List.mem_of_mem_take active)
  rw [h.part?_eq, if_neg waits, if_neg unknown]

theorem part?_eq_some_true_iff : s.part? x = some true ↔ x ∈ s.active := by
  constructor
  · intro on
    by_contra waits
    rw [part?, if_neg waits] at on
    split at on <;> contradiction
  · exact part?_of_active

theorem Sound.part?_eq_some_false_iff (h : s.Sound) : s.part? x = some false ↔ x ∈ s.inactive := by
  rw [h.mem_inactive_iff]
  constructor
  · intro off
    have waits : x ∉ s.active := by
      intro active
      rw [part?_of_active active] at off
      contradiction
    refine ⟨?_, waits⟩
    by_contra unknown
    rw [h.part?_of_notMem unknown] at off
    contradiction
  · rintro ⟨there, waits⟩
    exact h.part?_of_inactive there waits

theorem Sound.part?_congr (h : s.Sound) (h' : s'.Sound) (active : y ∈ s'.active ↔ y ∈ s.active)
    (there : y ∈ s'.items.toList ↔ y ∈ s.items.toList) : s'.part? y = s.part? y := by
  rw [h.part?_eq, h'.part?_eq, if_congr active rfl (if_congr there rfl rfl)]

/-- Where the handle at `k` is when the one at `i` has left the active part: the last active one
takes the free place. -/
def movedTo (s : ActiveSet α) (i k : Nat) : Nat := if k + 1 = s.activeLength then i else k

/-- What a call about `x` does: it gives an answer and puts `x` into some part, and no other handle
comes to be in another part. Of the others that are active only the last one moves, and that only if
`x` leaves the active part. -/
structure Answers (s : ActiveSet α) (x : α) (c : HandleCall α) (r : Option Bool × ActiveSet α) :
    Prop where
  sound : r.2.Sound
  answer : r.1 = c.answer (s.part? x)
  part : r.2.part? x = c.part (s.part? x)
  others : ∀ y ≠ x, r.2.part? y = s.part? y
  stays : (s.part? x = some true → r.2.part? x = some true) →
    ∀ y k, s.current? k = some y → r.2.current? k = some y
  moves : r.2.part? x ≠ some true → ∀ i, s.current? i = some x →
    ∀ y ≠ x, ∀ k, s.current? k = some y → r.2.current? (s.movedTo i k) = some y

theorem Sound.indexOf?_eq_some_iff (h : s.Sound) : s.indexOf? x = some i ↔ s.items[i]? = some x := by
  constructor
  · exact indexOf?_eq_some
  · intro at_i
    cases index : s.indexOf? x with
    | none =>
      rw [← Array.getElem?_toList] at at_i
      exact absurd (List.mem_of_getElem? at_i) (indexOf?_eq_none_iff.mp index)
    | some j => rw [h.eq_of_getElem? at_i (indexOf?_eq_some index)]

/-- A call that changes nothing leaves every handle in its part and at its place. -/
theorem Sound.answers_same (h : s.Sound) {c : HandleCall α} {a : Option Bool}
    (answer : a = c.answer (s.part? x)) (part : s.part? x = c.part (s.part? x)) :
    s.Answers x c (a, s) := by
  refine ⟨h, answer, part, fun _ _ ↦ rfl, fun _ _ _ current ↦ current, ?_⟩
  intro left i current
  exact absurd (part?_of_active (mem_active_of_current? current)) left

theorem Sound.part?_isNone (h : s.Sound) : (s.part? x).isNone = true ↔ x ∉ s.items.toList := by
  constructor
  · intro nowhere known
    rw [h.part?_eq, if_pos known] at nowhere
    split at nowhere <;> contradiction
  · intro unknown
    rw [h.part?_of_notMem unknown]
    rfl

theorem Sound.answers_known (h : s.Sound) (known : x ∈ s.items.toList) {c : HandleCall α} {b : Bool}
    (answer : ∀ p, c.answer p = some p.isNone) (part : ∀ p, c.part p = p.or (some b)) :
    s.Answers x c (some false, s) := by
  have placed : (s.part? x).isNone = false := by
    rw [← Bool.not_eq_true, h.part?_isNone]
    exact not_not_intro known
  apply h.answers_same
  · rw [answer, placed]
  · rw [part]
    cases at_x : s.part? x with
    | none =>
      rw [at_x] at placed
      contradiction
    | some p => rfl

omit [DecidableEq α] in
theorem current?_ne_of_notMem (unknown : x ∉ s.items.toList) : s.current? i ≠ some x := by
  intro current
  exact unknown (List.mem_of_mem_take (mem_active_of_current? current))

theorem Sound.answers_pushInactive (h : s.Sound) (x : α) :
    s.Answers x (.pushInactive x) (s.call (.pushInactive x)) := by
  by_cases known : x ∈ s.items.toList
  · have same : s.call (.pushInactive x) = (some false, s) := by
      simp only [call, ActiveSet.pushInactive, contains_iff.mpr known, if_true]
    rw [same]
    exact h.answers_known known (fun _ ↦ rfl) (fun _ ↦ rfl)
  · obtain ⟨new, sound, active, kept⟩ := h.pushInactive known
    rw [call, new]
    refine ⟨sound, ?_, ?_, ?_, ?_, ?_⟩
    · rw [HandleCall.answer, h.part?_isNone.mpr known]
    · have waits : x ∉ ({ s with items := s.items.push x } : ActiveSet α).active := by
        rw [active]
        exact fun on ↦ known (List.mem_of_mem_take on)
      rw [sound.part?_of_inactive (by simp) waits, h.part?_of_notMem known]
      rfl
    · intro y other
      exact h.part?_congr sound (active y) (by simp [other])
    · intro _ y k current
      obtain ⟨hk, at_k⟩ := current?_eq_some_iff.mp current
      exact current?_eq_some_iff.mpr ⟨hk, (kept k hk).trans at_k⟩
    · intro _ i current
      exact absurd current (current?_ne_of_notMem known)

theorem Sound.answers_pushActive (h : s.Sound) (x : α) :
    s.Answers x (.pushActive x) (s.call (.pushActive x)) := by
  by_cases known : x ∈ s.items.toList
  · have same : s.call (.pushActive x) = (some false, s) := by
      simp only [call, ActiveSet.pushActive, ActiveSet.pushInactive, contains_iff.mpr known, if_true]
    rw [same]
    exact h.answers_known known (fun _ ↦ rfl) (fun _ ↦ rfl)
  · obtain ⟨sound, perm, active, -⟩ := h.pushActive known
    have new : (s.pushActive x).1 = true := by
      simp [ActiveSet.pushActive, ActiveSet.pushInactive, contains_eq_false_iff.mpr known]
    refine ⟨sound, ?_, ?_, ?_, ?_, ?_⟩
    · rw [call, new, HandleCall.answer, h.part?_isNone.mpr known]
    · rw [call, part?_of_active ((active x).mpr (.inr rfl)), h.part?_of_notMem known]
      rfl
    · intro y other
      apply h.part?_congr sound
      · rw [active, or_iff_left other]
      · simp [perm.mem_iff, other]
    · intro _ y k current
      exact h.current?_pushActive current x
    · intro _ i current
      exact absurd current (current?_ne_of_notMem known)

theorem Sound.answers_activate (h : s.Sound) (x : α) :
    s.Answers x (.activate x) (s.call (.activate x)) := by
  obtain ⟨sound, perm, active, -⟩ := h.activate x
  have there : x ∈ (s.activate x).2.items.toList ↔ x ∈ s.items.toList := perm.mem_iff
  have part : (s.activate x).2.part? x = (s.part? x).map fun _ ↦ true := by
    by_cases known : x ∈ s.items.toList
    · rw [part?_of_active ((active x).mpr (.inr ⟨rfl, known⟩)), h.part?_eq, if_pos known]
      split <;> rfl
    · rw [h.part?_of_notMem known, sound.part?_of_notMem (mt there.mp known)]
      rfl
  have answer : (s.activate x).1 = decide (s.part? x = some false) := by
    rw [ActiveSet.activate]
    cases index : s.indexOf? x with
    | none =>
      rw [h.part?_of_notMem (indexOf?_eq_none_iff.mp index)]
      rfl
    | some i =>
      have at_i := indexOf?_eq_some index
      dsimp only
      split
      · rename_i behind
        have waits := h.notMem_active_of_le at_i behind
        rw [← Array.getElem?_toList] at at_i
        rw [h.part?_of_inactive (List.mem_of_getElem? at_i) waits]
        rfl
      · rename_i within
        have on : x ∈ s.active := mem_active_iff.mpr ⟨i, Nat.lt_of_not_le within, at_i⟩
        rw [part?_of_active on]
        rfl
  refine ⟨sound, congrArg some answer, part, ?_, ?_, ?_⟩
  · intro y other
    apply h.part?_congr sound
    · exact (active y).trans (or_iff_left fun same ↦ other same.1)
    · exact perm.mem_iff
  · intro _ y k current
    exact h.current?_activate current x
  · intro left i current
    have on : (s.activate x).2.part? x = some true := by
      rw [part, part?_of_active (mem_active_of_current? current)]
      rfl
    exact absurd on left

omit [DecidableEq α] in
theorem Sound.current?_deactivateAt (h : s.Sound) (within : i < s.activeLength) (ne : k ≠ i)
    (current : s.current? k = some y) : (s.deactivateAt i).current? (s.movedTo i k) = some y := by
  have le := h.activeLength_le
  obtain ⟨hk, at_k⟩ := current?_eq_some_iff.mp current
  have exchanged := s.getElem?_swap (show i < s.items.size by omega)
    (show s.activeLength - 1 < s.items.size by omega)
  rw [current?_eq_some_iff, movedTo]
  simp only [ActiveSet.deactivateAt]
  split
  · rename_i last
    refine ⟨by omega, ?_⟩
    rw [exchanged, if_neg (by omega), if_pos rfl, ← at_k]
    congr 1
    omega
  · refine ⟨by omega, ?_⟩
    rw [exchanged, if_neg (by omega), if_neg (Ne.symm ne), at_k]

omit [DecidableEq α] in
theorem ne_of_other (current : s.current? i = some x) (other : y ≠ x)
    (current' : s.current? k = some y) : k ≠ i := by
  intro same
  rw [same, current] at current'
  exact other (Option.some.inj current').symm

theorem Sound.answers_deactivateAt (h : s.Sound) (current : s.current? i = some x) :
    s.Answers x (.deactivateAt i) (s.call (.deactivateAt i)) := by
  obtain ⟨sound, perm, active⟩ := h.deactivateAt current
  obtain ⟨within, at_i⟩ := current?_eq_some_iff.mp current
  have on := mem_active_of_current? current
  have there : x ∈ (s.deactivateAt i).items.toList := perm.mem_iff.mpr (List.mem_of_mem_take on)
  have waits : x ∉ (s.deactivateAt i).active := by simp [active]
  have aside := sound.part?_of_inactive there waits
  refine ⟨sound, rfl, ?_, ?_, ?_, ?_⟩
  · rw [part?_of_active on]
    exact aside
  · intro y other
    exact h.part?_congr sound ((active y).trans (and_iff_left other)) perm.mem_iff
  · intro stays
    have same : (s.deactivateAt i).part? x = some true := stays (part?_of_active on)
    rw [aside] at same
    contradiction
  · intro _ j current' y other k at_k
    obtain ⟨-, at_j⟩ := current?_eq_some_iff.mp current'
    rw [h.eq_of_getElem? at_j at_i]
    exact h.current?_deactivateAt within (ne_of_other current other at_k) at_k

theorem Sound.answers_remove (h : s.Sound) (x : α) :
    s.Answers x (.remove x) (s.call (.remove x)) := by
  by_cases known : x ∈ s.items.toList
  · obtain ⟨sound, perm, active⟩ := h.remove known
    have gone : x ∉ (s.remove x).2.items.toList := by
      intro still
      have distinct := perm.nodup_iff.mp h.distinct
      rw [List.nodup_append] at distinct
      exact distinct.2.2 x still x (List.mem_singleton_self x) rfl
    have others : ∀ y ≠ x, (s.remove x).2.part? y = s.part? y := by
      intro y other
      apply h.part?_congr sound ((active y).trans (and_iff_left other))
      rw [perm.mem_iff]
      simp [other]
    cases index : s.indexOf? x with
    | none => exact absurd known (indexOf?_eq_none_iff.mp index)
    | some i =>
      have at_i := indexOf?_eq_some index
      by_cases within : i < s.activeLength
      · have current := current?_eq_some_iff.mpr ⟨within, at_i⟩
        have on := mem_active_of_current? current
        have removed :
            s.remove x = (some true, (s.deactivateAt i).eraseAt (s.activeLength - 1)) := by
          simp only [ActiveSet.remove, index, if_pos within]
        obtain ⟨-, -, length, kept⟩ := (h.deactivateAt current).1.eraseAt
          (h.getElem?_deactivateAt current) (Nat.le_refl _)
        refine ⟨sound, ?_, sound.part?_of_notMem gone, others, ?_, ?_⟩
        · rw [call, removed, HandleCall.answer, part?_of_active on]
        · intro stays
          have still := stays (part?_of_active on)
          rw [call, sound.part?_of_notMem gone] at still
          contradiction
        · intro _ j current' y other k at_k
          obtain ⟨-, at_j⟩ := current?_eq_some_iff.mp current'
          have moved := h.current?_deactivateAt within (ne_of_other current other at_k) at_k
          obtain ⟨lt, at_k'⟩ := current?_eq_some_iff.mp moved
          rw [h.eq_of_getElem? at_j at_i, call, removed, current?_eq_some_iff, length]
          exact ⟨lt, (kept _ lt).trans at_k'⟩
      · have removed : s.remove x = (some false, s.eraseAt i) := by
          simp only [ActiveSet.remove, index, if_neg within]
        have waits := h.notMem_active_of_le at_i (Nat.le_of_not_lt within)
        obtain ⟨-, -, length, kept⟩ := h.eraseAt at_i (Nat.le_of_not_lt within)
        refine ⟨sound, ?_, sound.part?_of_notMem gone, others, ?_, ?_⟩
        · rw [call, removed, HandleCall.answer, h.part?_of_inactive known waits]
        · intro _ y k current
          obtain ⟨hk, at_k⟩ := current?_eq_some_iff.mp current
          rw [call, removed, current?_eq_some_iff, length]
          exact ⟨hk, (kept k hk).trans at_k⟩
        · intro _ j current
          exact absurd (mem_active_of_current? current) waits
  · have same : s.call (.remove x) = (none, s) := remove_of_notMem known
    have nowhere := h.part?_of_notMem known
    rw [same]
    exact h.answers_same nowhere.symm nowhere

theorem Sound.answers (h : s.Sound) {c : HandleCall α} (named : s.named? c = some x) :
    s.Answers x c (s.call c) := by
  cases c with
  | deactivateAt i => exact h.answers_deactivateAt named
  | pushActive z =>
    obtain rfl := Option.some.inj named
    exact h.answers_pushActive z
  | pushInactive z =>
    obtain rfl := Option.some.inj named
    exact h.answers_pushInactive z
  | activate z =>
    obtain rfl := Option.some.inj named
    exact h.answers_activate z
  | remove z =>
    obtain rfl := Option.some.inj named
    exact h.answers_remove z

theorem Sound.callAll (h : s.Sound) {cs : List (HandleCall α)} (allowed : s.Allows cs) :
    (s.callAll cs).2.Sound := by
  induction cs generalizing s with
  | nil => exact h
  | cons c cs ih =>
    obtain ⟨about, rest⟩ := allowed
    obtain ⟨x, named⟩ := Option.ne_none_iff_exists'.mp about
    exact ih (h.answers named).sound rest

namespace Answers

variable {c : HandleCall α} {r : Option Bool × ActiveSet α}

theorem mem_active_iff (h : s.Answers x c r) (other : y ≠ x) : y ∈ r.2.active ↔ y ∈ s.active := by
  rw [← part?_eq_some_true_iff, h.others y other, part?_eq_some_true_iff]

theorem mem_inactive_iff (h : s.Answers x c r) (sound : s.Sound) (other : y ≠ x) :
    y ∈ r.2.inactive ↔ y ∈ s.inactive := by
  rw [← h.sound.part?_eq_some_false_iff, h.others y other, sound.part?_eq_some_false_iff]

/-- A handle that stays active stays at its place, unless it is the last one and gets the place of
`x`. -/
theorem indexOf?_eq (h : s.Answers x c r) (sound : s.Sound) (other : y ≠ x) (active : y ∈ s.active) :
    r.2.indexOf? y = if x ∈ s.active ∧ x ∉ r.2.active ∧ s.indexOf? y = some (s.activeLength - 1) then
      s.indexOf? x else s.indexOf? y := by
  obtain ⟨k, hk, at_k⟩ := ActiveSet.mem_active_iff.mp active
  have current := current?_eq_some_iff.mpr ⟨hk, at_k⟩
  have place := sound.indexOf?_eq_some_iff.mpr at_k
  have found {j : Nat} (at_j : r.2.current? j = some y) : r.2.indexOf? y = some j :=
    h.sound.indexOf?_eq_some_iff.mpr (current?_eq_some_iff.mp at_j).2
  rw [place]
  by_cases leaves : x ∈ s.active ∧ x ∉ r.2.active
  · obtain ⟨on, off⟩ := leaves
    obtain ⟨i, hi, at_i⟩ := ActiveSet.mem_active_iff.mp on
    rw [sound.indexOf?_eq_some_iff.mpr at_i, found (h.moves (mt part?_eq_some_true_iff.mp off) i
      (current?_eq_some_iff.mpr ⟨hi, at_i⟩) y other k current), movedTo]
    by_cases last : k + 1 = s.activeLength
    · rw [if_pos last, if_pos ⟨on, off, congrArg some (by omega)⟩]
    · rw [if_neg last, if_neg]
      rintro ⟨-, -, same⟩
      have := Option.some.inj same
      omega
  · rw [if_neg fun all ↦ leaves ⟨all.1, all.2.1⟩]
    apply found (h.stays ?_ y k current)
    intro on
    rw [part?_eq_some_true_iff] at on ⊢
    exact not_not.mp fun off ↦ leaves ⟨on, off⟩

end Answers

end ActiveSet

end Conduit
