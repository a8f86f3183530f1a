import Conduit.Proofs.Providers

namespace Conduit

namespace Pool

def idleAt (pools : List Pool) (number : ℕ) : ℕ := pools[number]?.elim 0 fun p ↦ p.idle.length

def Refills (p p' : Pool) : Prop := p'.capacity = p.capacity ∧ p'.idle.length ≤ p.capacity

theorem Refills.leave {p p' : Pool} (h : p.Refills p') : p.Refills p'.leave := by
  refine ⟨h.1, ?_⟩
  have room := h.2
  rw [Pool.leave, List.length_tail]
  omega

theorem Refills.put {p p' : Pool} (h : p.Refills p') (storage : Bytes) :
    p.Refills (p'.put storage) := by
  unfold Pool.put
  split
  · refine ⟨h.1, ?_⟩
    have capacity := h.1
    rw [List.length_cons]
    omega
  · exact h

def Serve (pools pools' : List Pool) : Prop :=
  ∀ (number : ℕ) (p : Pool), pools[number]? = some p →
    ∃ p', pools'[number]? = some p' ∧ p.Refills p'

theorem serve_refl {pools : List Pool} (within : ∀ p ∈ pools, p.idle.length ≤ p.capacity) :
    Serve pools pools :=
  fun _ p found ↦ ⟨p, found, rfl, within p (List.mem_of_getElem? found)⟩

theorem Serve.modify {pools pools' : List Pool} (h : Serve pools pools') {f : Pool → Pool}
    (refills : ∀ p p' : Pool, p.Refills p' → p.Refills (f p')) (number : ℕ) :
    Serve pools (pools'.modify number f) := by
  intro number' p found
  obtain ⟨p', found', room⟩ := h number' p found
  rw [List.getElem?_modify, found', Option.map_eq_map, Option.map_some]
  by_cases same : number = number'
  · exact ⟨f p', by rw [if_pos same], refills p p' room⟩
  · exact ⟨p', by rw [if_neg same], room⟩

theorem Serve.drawn {pools pools' : List Pool} (h : Serve pools pools') (supply : Supply)
    (size : ℕ) : Serve pools (supply.drawn size pools') := by
  rw [Supply.drawn]
  cases supply.poolFor size with
  | none => exact h
  | some number => exact h.modify (fun _ _ ↦ Refills.leave) number

theorem Serve.put {pools pools' : List Pool} (h : Serve pools pools') (storage : Bytes)
    (number : ℕ) : Serve pools (pools'.modify number (Pool.put storage)) :=
  h.modify (fun _ _ room ↦ room.put storage) number

theorem idleAt_modify {pools : List Pool} {number' : ℕ} {p : Pool}
    (found : pools[number']? = some p) (f : Pool → Pool) (number : ℕ) :
    idleAt (pools.modify number f) number' =
      if number = number' then (f p).idle.length else p.idle.length := by
  rw [idleAt, List.getElem?_modify, found, Option.map_eq_map, Option.map_some, Option.elim_some]
  split <;> rfl

end Pool

/-- An allocator tells for each pool that it names how much that one holds, whoever else names it. -/
theorem Allocator.pooled_eq (a : Allocator) :
    a.pooled = a.supply.handles.map fun handle ↦ Pool.idleAt a.stock handle.2 := by
  rw [pooled, pools, List.map_map]
  refine List.map_congr_left fun handle _ ↦ ?_
  change (a.stock[handle.2]?.elim [] Pool.idle).length = _
  rw [Pool.idleAt]
  cases a.stock[handle.2]? <;> rfl

end Conduit
