import Conduit.Proofs.Reception
import Conduit.Proofs.Dispatch

namespace Conduit

namespace ActiveSet

variable {α : Type} {s : ActiveSet α} {x y : α} {c n : Nat}

/-- Two handles that differ in something are not both where the cursor stands. -/
theorem current?_ne_of_not {R : α → Prop} (current : s.current? c = some y) (fails : ¬R y)
    (holds : R x) : s.current? c ≠ some x := by
  rw [current]
  rintro ⟨⟩
  exact fails holds

/-- An active handle that a cursor comes to after at most `n` turns of others. If it has passed the
handle, all inactive ones may come to be active behind the last one and get their turns first. -/
structure Due (s : ActiveSet α) (c : Nat) (x : α) (n : Nat) : Prop where
  sound : s.Sound
  within : c < s.activeLength
  place : ∃ i, s.current? i = some x ∧ (c ≤ i ∧ i ≤ c + n ∨ i < c ∧ s.items.size + i ≤ c + n)

theorem Sound.due (h : s.Sound) (aims : s.Aims c) (active : x ∈ s.active) :
    s.Due c x (s.length - 1) := by
  obtain ⟨i, hlt, at_i⟩ := mem_active_iff.mp active
  have le := h.activeLength_le
  have within : c < s.activeLength := by
    unfold Aims at aims
    omega
  refine ⟨h, within, i, current?_eq_some_iff.mpr ⟨hlt, at_i⟩, ?_⟩
  rw [length]
  omega

theorem Due.current?_ne_none (h : s.Due c x n) : s.current? c ≠ none := by
  intro idle
  have beyond := h.sound.current?_eq_none_iff.mp idle
  exact absurd h.within (Nat.not_lt.mpr beyond)

theorem Due.ne_of_other (h : s.Due c x n) (other : s.current? c ≠ some x) :
    ∃ i, i ≠ c ∧ i < s.activeLength ∧ s.items[i]? = some x ∧
      (c ≤ i ∧ i ≤ c + n ∨ i < c ∧ s.items.size + i ≤ c + n) := by
  obtain ⟨i, at_i, place⟩ := h.place
  obtain ⟨hlt, item⟩ := current?_eq_some_iff.mp at_i
  exact ⟨i, fun here ↦ other (here ▸ at_i), hlt, item, place⟩

/-- A turn of another handle brings it nearer. -/
theorem Due.advance (h : s.Due c x n) (other : s.current? c ≠ some x) :
    ∃ k, n = k + 1 ∧ s.Due ((c + 1) % s.activeLength) x k := by
  obtain ⟨i, apart, hlt, item, place⟩ := h.ne_of_other other
  have le := h.sound.activeLength_le
  have within := h.within
  have at_i := current?_eq_some_iff.mpr ⟨hlt, item⟩
  refine ⟨n - 1, by omega, h.sound, Nat.mod_lt _ (by omega), i, at_i, ?_⟩
  by_cases last : c + 1 = s.activeLength
  · rw [last, Nat.mod_self]
    omega
  · rw [Nat.mod_eq_of_lt (by omega)]
    omega

/-- It comes no later for a handle that is set aside where the cursor stands. -/
theorem Due.deactivate (h : s.Due c x n) (other : s.current? c ≠ some x) :
    (s.deactivateAt c).Due (if c ≥ (s.deactivateAt c).activeLength then 0 else c) x n := by
  obtain ⟨i, apart, hlt, item, place⟩ := h.ne_of_other other
  have le := h.sound.activeLength_le
  have within := h.within
  have exchanged := s.getElem?_swap (show c < s.items.size by omega)
    (show s.activeLength - 1 < s.items.size by omega)
  have length : (s.deactivateAt c).activeLength = s.activeLength - 1 := rfl
  have size : (s.deactivateAt c).items.size = s.items.size := by
    have perm := (s.swap_perm c (s.activeLength - 1)).length_eq
    simp only [Array.length_toList] at perm
    exact perm
  obtain ⟨y, current⟩ := Option.ne_none_iff_exists'.mp h.current?_ne_none
  refine ⟨(h.sound.deactivateAt current).1, by split <;> omega, ?_⟩
  rw [size]
  by_cases last : i = s.activeLength - 1
  · -- the last active handle takes the place of the one that goes
    refine ⟨c, current?_eq_some_iff.mpr ⟨by omega, ?_⟩, ?_⟩
    · simp only [ActiveSet.deactivateAt]
      rw [exchanged, if_neg (by omega), if_pos rfl, ← last, item]
    · split <;> omega
  · refine ⟨i, current?_eq_some_iff.mpr ⟨by omega, ?_⟩, ?_⟩
    · simp only [ActiveSet.deactivateAt]
      rw [exchanged, if_neg (by omega), if_neg (by omega), item]
    · split <;> omega

/-- Handles that come to be active do so behind the others. -/
theorem Due.activate [DecidableEq α] (h : s.Due c x n) (y : α) : (s.activate y).2.Due c x n := by
  obtain ⟨i, at_i, place⟩ := h.place
  obtain ⟨sound, perm, -, -⟩ := h.sound.activate y
  have size := perm.length_eq
  simp only [Array.length_toList] at size
  refine ⟨sound, Nat.lt_of_lt_of_le h.within (s.activeLength_le_activate y), i, ?_, ?_⟩
  · exact h.sound.current?_activate at_i y
  · rwa [size]

structure Aimed (s : ActiveSet α) (c : Nat) : Prop where
  sound : s.Sound
  aims : s.Aims c

namespace Aimed

theorem empty : (empty : ActiveSet α).Aimed 0 := ⟨sound_empty, .inr ⟨rfl, rfl⟩⟩

theorem due (h : s.Aimed c) (active : x ∈ s.active) : s.Due c x (s.length - 1) :=
  h.sound.due h.aims active

theorem notMem_active (h : s.Aimed c) (none : s.current? c = none) (x : α) : x ∉ s.active :=
  h.sound.notMem_active h.aims none x

theorem advance (h : s.Aimed c) (current : s.current? c = some x) :
    s.Aimed ((c + 1) % s.activeLength) := by
  have within := (current?_eq_some_iff.mp current).1
  exact ⟨h.sound, .inl (Nat.mod_lt _ (Nat.lt_of_le_of_lt (Nat.zero_le _) within))⟩

variable [DecidableEq α]

theorem activate (h : s.Aimed c) (y : α) : (s.activate y).2.Aimed c :=
  ⟨(h.sound.activate y).1, h.aims.mono (s.activeLength_le_activate y)⟩

theorem pushActive (h : s.Aimed c) (y : α) : (s.pushActive y).2.Aimed c :=
  ⟨h.sound.sound_pushActive y, h.aims.mono (s.activeLength_le_pushActive y)⟩

/-- A cursor may be put where an active handle was found. -/
theorem seek (h : s.Aimed c) {i : Nat} (index : s.activeIndex? x = some i) : s.Aimed i := by
  have within : i < s.activeLength := by
    simpa using (Option.filter_eq_some_iff.mp index).2
  exact ⟨h.sound, .inl within⟩

/-- It starts over only where an active handle went. -/
theorem remove (h : s.Aimed c) (y : α) : (s.remove y).2.Aimed
    (if (s.remove y).1 = some true ∧ c ≥ (s.remove y).2.activeLength then 0 else c) := by
  refine ⟨(h.sound.remove_active y).1, ?_⟩
  have wrapped := aims_wrap (s.remove y).2 c
  by_cases gone : (s.remove y).1 = some true
  · simpa only [gone, true_and] using wrapped
  · rw [if_neg fun both ↦ gone both.1]
    refine h.aims.mono (Nat.le_of_eq ?_)
    match index : s.indexOf? y with
    | none => simp only [ActiveSet.remove, index]
    | some i =>
      simp only [ActiveSet.remove, index] at gone ⊢
      split
      · rename_i active
        exact absurd (congrArg Prod.fst (if_pos active)) gone
      · rfl

end Aimed

end ActiveSet

namespace Net

namespace Rota

variable {r : Rota} {id : Nat}

def Aimed (r : Rota) : Prop := r.pipes.Aimed r.current

theorem current_forget (r : Rota) (id : Nat) : (r.forget id).current =
    if (r.pipes.remove id).1 = some true ∧ r.current ≥ (r.pipes.remove id).2.activeLength then 0
    else r.current := by
  unfold forget
  split <;> rename_i removed
  · rw [current_wrap, removed]
    simp
  · rename_i inactive
    rw [removed]
    exact (if_neg fun both ↦ inactive both.1).symm

namespace Aimed

theorem deactivate (h : r.Aimed) (current : r.current? = some id) : r.deactivate.Aimed := by
  refine ⟨?_, r.aims_deactivate⟩
  rw [pipes_deactivate]
  exact (h.sound.deactivateAt current).1

theorem advance (h : r.Aimed) (current : r.current? = some id) : r.advance.Aimed :=
  ActiveSet.Aimed.advance h current

theorem forget (h : r.Aimed) (id : Nat) : (r.forget id).Aimed := by
  rw [Aimed, current_forget, pipes_forget]
  exact ActiveSet.Aimed.remove h id

theorem seek (h : r.Aimed) (id : Nat) : (r.seek id).Aimed := by
  unfold Rota.seek
  split <;> rename_i index
  · exact ActiveSet.Aimed.seek h index
  · exact h

theorem forgetBeside (h : r.Aimed) (id : Nat) (midst : Option Nat) :
    (r.forgetBeside id midst).Aimed := by
  cases midst with
  | none => exact h.forget id
  | some p => exact (h.forget id).seek p

end Aimed

def Due (r : Rota) (id n : Nat) : Prop := r.pipes.Due r.current id n

variable {n : Nat}

theorem Due.deactivate (h : r.Due id n) (other : r.current? ≠ some id) :
    r.deactivate.Due id n := by
  rw [Due, current_deactivate, pipes_deactivate]
  exact ActiveSet.Due.deactivate h other

theorem Due.advance (h : r.Due id n) (other : r.current? ≠ some id) :
    ∃ k, n = k + 1 ∧ r.advance.Due id k := ActiveSet.Due.advance h other

end Rota

namespace FairQueue

variable {t : Table} {q : FairQueue} {ps : Pairs} {id : Nat}

theorem aimed_took (h : q.Aimed) (current : q.current? = some id) (r : Received) :
    (q.took r).Aimed := by
  unfold took
  split
  · exact h
  · exact Rota.Aimed.advance h current

theorem aimed_terminated (h : q.Aimed) (id : Nat) (credential : Bytes) :
    (q.terminated id credential).Aimed := by
  have given (b : Prop) [Decidable b] : (if b then { q with more := false } else q).Aimed := by
    split <;> exact h
  have attributed {q : FairQueue} (h : q.Aimed) : (if q.lastIn = some id then
      { q with savedCredential := credential, lastIn := none } else q).Aimed := by
    split <;> exact h
  exact attributed ((given _).forgetBeside id _)

theorem aimed_heed (h : q.Aimed) (id : Nat) (events : List Pipe.Event) :
    (events.foldl (heed id) q).Aimed := by
  induction events generalizing q with
  | nil => exact h
  | cons e events ih =>
    cases e with
    | readActivated => exact ih (ActiveSet.Aimed.activate h id)
    | writeActivated | hiccuped | terminated => exact ih h

theorem Serves.aimed {r : Option Received × FairQueue × Pairs} (serves : q.Serves t ps r)
    (h : q.Aimed) : r.2.1.Aimed := by
  induction serves with
  | rests => exact h
  | takes current => exact aimed_took h current _
  | @skips q _ _ _ current _ _ ih =>
    have abandoned : { q with more := false }.Aimed := h
    exact ih (Rota.Aimed.deactivate abandoned current)

theorem Looks.aimed {r : Bool × FairQueue × Pairs} (looks : q.Looks t ps r) (h : q.Aimed) :
    r.2.1.Aimed := by
  induction looks with
  | rests | sees => exact h
  | skips current _ _ ih => exact ih (Rota.Aimed.deactivate h current)

end FairQueue

namespace Reception

theorem Aimed.step {w : Reception} (h : w.queue.Aimed) (s : Step) : (w.step s).queue.Aimed := by
  cases s with
  | floor => exact h
  | attach id => exact ActiveSet.Aimed.pushActive h id
  | activated id => exact ActiveSet.Aimed.activate h id
  | terminated id credential => exact FairQueue.aimed_terminated h id credential
  | receive => exact (w.queue.receive_serves w.table w.pairs).aimed h
  | hasIn =>
    cases more : w.queue.more with
    | true =>
      rw [Reception.step, FairQueue.hasIn_of_more w.table w.pairs more]
      exact h
    | false => exact (FairQueue.hasIn_looks w.table w.pairs more).aimed h
  | hear id => exact FairQueue.aimed_heed h id _

theorem aimed_run {w : Reception} (h : w.queue.Aimed) (steps : List Step) :
    (w.run steps).queue.Aimed := by
  induction steps generalizing w with
  | nil => exact h
  | cons s steps ih => exact ih (Aimed.step h s)

end Reception

namespace LoadBalancer

variable {t : Table} {m : Message} {b : LoadBalancer} {ps : Pairs} {id : Nat}

theorem aimed_terminated (h : b.Aimed) (id : Nat) : (b.terminated id).Aimed := by
  have given (c : Prop) [Decidable c] : (if c then { b with dropping := true } else b).Aimed := by
    split <;> exact h
  exact (given _).forgetBeside id _

theorem Puts.aimed {r : Sent × LoadBalancer × Pairs} (puts : b.Puts t m ps r) (h : b.Aimed) :
    r.2.1.Aimed := by
  induction puts with
  | rests | begins | aborts => exact h
  | ends current => exact Rota.Aimed.advance h current
  | loses current => exact Rota.Aimed.deactivate h current
  | skips current _ _ _ ih => exact ih (Rota.Aimed.deactivate h current)

theorem Looks.aimed {r : Bool × LoadBalancer × Pairs} (looks : b.Looks t ps r) (h : b.Aimed) :
    r.2.1.Aimed := by
  induction looks with
  | rests | sees => exact h
  | skips current _ _ ih => exact ih (Rota.Aimed.deactivate h current)

end LoadBalancer

namespace Dispatch

theorem Aimed.step {w : Dispatch} (h : w.balancer.Aimed) (s : Step) :
    (w.step s).balancer.Aimed := by
  cases s with
  | floor c => cases c <;> exact h
  | attach id => exact ActiveSet.Aimed.pushActive h id
  | activated id => exact ActiveSet.Aimed.activate h id
  | terminated id => exact LoadBalancer.aimed_terminated h id
  | hasOut =>
    cases more : w.balancer.more with
    | true =>
      rw [Dispatch.step, LoadBalancer.hasOut_of_more w.table w.pairs more]
      exact h
    | false => exact (LoadBalancer.hasOut_looks w.table w.pairs more).aimed h
  | send m =>
    rw [Dispatch.step, (offer_floor _ _ _).2]
    cases dropping : w.balancer.dropping with
    | true =>
      rw [LoadBalancer.send_of_dropping w.table m w.pairs dropping]
      exact h
    | false => exact (LoadBalancer.send_puts w.table m w.pairs dropping).aimed h

theorem aimed_run {w : Dispatch} (h : w.balancer.Aimed) (steps : List Step) :
    (w.run steps).balancer.Aimed := by
  induction steps generalizing w with
  | nil => exact h
  | cons s steps ih => exact ih (Aimed.step h s)

end Dispatch

end Net

end Conduit
