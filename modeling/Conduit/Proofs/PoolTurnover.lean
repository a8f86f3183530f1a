import Conduit.Proofs.PooledBodies

namespace Conduit.Slots

/-- A use drops the last payload over a body from this pool. -/
def GivesBack (hs : List Holding) (u : Use) (pool : ℕ) : Prop :=
  ∃ place origin bytes, u = .drop place ∧ held hs place = .payload origin (some pool) bytes ∧
    ∀ other, (held hs other).origin? = some origin → other = place

/-- A use asks for a body of a size that this pool serves, for the supply asked. -/
def Takes (u : Use) (pool : ℕ) : Prop :=
  ∃ supply size, u = .allocate supply size ∧ supply.poolFor size = some pool

inductive Turn (hs : List Holding) (u : Use) : List Pool → List Pool → Prop where
  | same {pools : List Pool} (gives : ∀ pool, ¬GivesBack hs u pool)
    (takes : ∀ pool, ¬Takes u pool) : Turn hs u pools pools
  | take {pools : List Pool} {pool : ℕ} (takes : Takes u pool) :
    Turn hs u pools (pools.modify pool Pool.leave)
  | give {pools : List Pool} {pool : ℕ} (gives : GivesBack hs u pool) (storage : Bytes) :
    Turn hs u pools (pools.modify pool (Pool.put storage))

variable {pools : List Pool} {number : ℕ → ℕ} {s : Slots} {hs : List Holding} {u : Use}
  {pool pool' : ℕ}

theorem Takes.unique (h : Takes u pool) (h' : Takes u pool') : pool = pool' := by
  obtain ⟨supply, size, rfl, served⟩ := h
  obtain ⟨supply', size', same, served'⟩ := h'
  cases same
  exact Option.some.inj (served.symm.trans served')

theorem GivesBack.unique (h : GivesBack hs u pool) (h' : GivesBack hs u pool') : pool = pool' := by
  obtain ⟨place, origin, bytes, rfl, there, -⟩ := h
  obtain ⟨place', origin', bytes', same, there', -⟩ := h'
  cases same
  cases there.symm.trans there'
  rfl

theorem Takes.not_givesBack (h : Takes u pool) : ¬GivesBack hs u pool' := by
  intro gives
  obtain ⟨supply, size, rfl, -⟩ := h
  obtain ⟨place, origin, bytes, same, -⟩ := gives
  contradiction

theorem Turn.idleAt {pools pools' : List Pool} (turn : Turn hs u pools pools') {p : Pool}
    (found : pools[pool]? = some p) :
    let before := Pool.idleAt pools pool
    let after := Pool.idleAt pools' pool
    (after = before + 1 ↔ GivesBack hs u pool ∧ before < p.capacity) ∧
      (before = after + 1 ↔ Takes u pool ∧ 0 < before) ∧
      (after = before ∨ after = before + 1 ∨ before = after + 1) := by
  intro before after
  have held : before = p.idle.length := by
    dsimp only [before]
    rw [Pool.idleAt, found, Option.elim]
  cases turn with
  | same gives takes =>
    have gives := gives pool
    have takes := takes pool
    simp [before, after, gives, takes]
  | @take pool' takes =>
    have gives : ¬GivesBack hs u pool := takes.not_givesBack
    have left : after = if pool' = pool then p.leave.idle.length else p.idle.length :=
      Pool.idleAt_modify found Pool.leave pool'
    rw [Pool.leave, List.length_tail, ← held] at left
    by_cases here : pool' = pool
    · rw [if_pos here] at left
      have takes : Takes u pool := here ▸ takes
      simp only [gives, takes, false_and, true_and, iff_false]
      omega
    · have takes : ¬Takes u pool := fun takes' ↦ here (takes.unique takes')
      rw [if_neg here] at left
      simp only [gives, takes, false_and, iff_false]
      omega
  | @give pool' gives storage =>
    have takes : ¬Takes u pool := fun takes ↦ takes.not_givesBack gives
    have left : after = if pool' = pool then (p.put storage).idle.length else p.idle.length :=
      Pool.idleAt_modify found (Pool.put storage) pool'
    by_cases here : pool' = pool
    · rw [if_pos here, Pool.put] at left
      have gives : GivesBack hs u pool := here ▸ gives
      simp only [gives, takes, false_and, true_and, iff_false]
      by_cases room : p.idle.length < p.capacity
      · rw [if_pos room, List.length_cons] at left
        omega
      · rw [if_neg room] at left
        omega
    · have gives : ¬GivesBack hs u pool := fun gives' ↦ here (gives.unique gives')
      rw [if_neg here] at left
      simp only [gives, takes, false_and, iff_false]
      omega

theorem Turn.of_idle (allocate : ∀ supply size, u ≠ .allocate supply size)
    (drop : ∀ place, u ≠ .drop place) : Turn hs u pools pools := by
  refine .same ?_ ?_
  · intro pool gives
    obtain ⟨place, origin, bytes, same, -⟩ := gives
    exact drop place same
  · intro pool takes
    obtain ⟨supply, size, same, -⟩ := takes
    exact allocate supply size same

theorem Turn.of_allocate (supply : Supply) (size : ℕ) :
    Turn hs (.allocate supply size) pools (supply.drawn size pools) := by
  rw [Supply.drawn]
  cases served : supply.poolFor size with
  | some pool => exact .take ⟨supply, size, rfl, served⟩
  | none =>
    refine .same ?_ ?_
    · intro pool gives
      obtain ⟨place, origin, bytes, same, -⟩ := gives
      contradiction
    · intro pool takes
      obtain ⟨supply', size', same, served'⟩ := takes
      cases same
      rw [served] at served'
      contradiction

/-- With no other payload from its origin, a payload is the last one on its buffer. -/
theorem Accounts.report_of_last (h : Accounts pools number s hs) {place origin : Nat}
    {share : Share Nat} (there : s.shelf.share? place = some share)
    (here : (held hs place).origin? = some origin)
    (last : ∀ other, (held hs other).origin? = some origin → other = place) :
    (s.shelf.drop place).1 = share.payload.buffer.report? := by
  have buffer := (h.kept place).origin?
  rw [there, here, Option.map_some, Option.map_some] at buffer
  refine Shelf.report_of_last there ?_
  intro i share' there' same
  have buffer' := (h.kept i).origin?
  rw [there', Option.map_some, same, buffer] at buffer'
  obtain ⟨origin', here', number'⟩ := Option.map_eq_some_iff.mp buffer'.symm
  have known := h.apart origin' origin ⟨i, here'⟩ ⟨place, here⟩ number'
  exact last i (known ▸ here')

theorem Accounts.report_of_other (h : Accounts pools number s hs) {place other origin : Nat}
    {share : Share Nat} (there : s.shelf.share? place = some share)
    (here : (held hs place).origin? = some origin) (apart : other ≠ place)
    (here' : (held hs other).origin? = some origin) : (s.shelf.drop place).1 = none := by
  have buffer := (h.kept place).origin?
  have buffer' := (h.kept other).origin?
  rw [there, here, Option.map_some, Option.map_some] at buffer
  rw [here', Option.map_some, ← buffer] at buffer'
  obtain ⟨share', there', same⟩ := Option.map_eq_some_iff.mp buffer'
  exact Shelf.report_of_other there apart there' same

/-- The storage of a body comes back with the last payload, and to the pool that it is from. -/
theorem Accounts.turn_drop (h : Accounts pools number s hs) (place : Nat) :
    Turn hs (.drop place) s.allocator.stock (s.drop place).allocator.stock := by
  have takes (pool : ℕ) : ¬Takes (.drop place) pool := by
    intro takes
    obtain ⟨supply, size, same, -⟩ := takes
    contradiction
  have kept := h.kept place
  rw [allocator_drop]
  cases there : s.shelf.share? place with
  | none =>
    rw [Shelf.report_of_empty there]
    refine .same ?_ takes
    intro pool gives
    obtain ⟨place', origin, bytes, same, here, -⟩ := gives
    cases same
    have buffer := kept.origin?
    rw [there, here] at buffer
    contradiction
  | some share =>
    rw [there] at kept
    obtain ⟨origin, bytes, here⟩ := kept.of_share
    have from_origin : (held hs place).origin? = some origin := congrArg Holding.origin? here
    by_cases last : ∀ other, (held hs other).origin? = some origin → other = place
    · rw [h.report_of_last there from_origin last]
      cases due : share.payload.buffer.report? with
      | none =>
        rw [due, Option.map_none] at here
        refine .same ?_ takes
        intro pool gives
        obtain ⟨place', origin', bytes', same, here', -⟩ := gives
        cases same
        cases here.symm.trans here'
      | some r =>
        rw [due, Option.map_some] at here
        exact .give ⟨place, origin, bytes, rfl, here, last⟩ r.2
    · rw [not_forall] at last
      obtain ⟨other, last⟩ := last
      rw [Classical.not_imp] at last
      obtain ⟨here', apart⟩ := last
      rw [h.report_of_other there from_origin apart here']
      refine .same ?_ takes
      intro pool gives
      obtain ⟨place', origin', bytes', same, here'', last⟩ := gives
      cases same
      obtain ⟨rfl, -, -⟩ := Holding.payload.inj (here.symm.trans here'')
      exact apart (last other here')

/-- A use goes through, is noted in the account, and changes the pools as the account says. -/
theorem Accounts.use (h : Accounts pools number s hs) (u : Use)
    (fits : ∀ supply size, u = .allocate supply size → supply.Ample ∧ size < Storage.limit) :
    ∃ shown s' number', s.use u = .ok (shown, s') ∧ Accounts pools number' s' (u.noted hs) ∧
      Turn hs u s.allocator.stock s'.allocator.stock ∧
      ∀ supply size, u = .allocate supply size → shown = some (List.replicate size 0) := by
  cases u with
  | allocate supply size =>
    obtain ⟨ample, fits⟩ := fits supply size rfl
    have used : s.use (.allocate supply size) = .ok (some (List.replicate size 0),
        ({ s with allocator.stock := supply.drawn size s.allocator.stock } : Slots).add
          (some { room := size, home := supply.poolFor size })) := by
      rw [Slots.use, Slots.allocateFrom, ample.allocate fits]
      rfl
    refine ⟨_, _, number, used, h.allocate supply size, Turn.of_allocate supply size, ?_⟩
    intro supply' size' same
    cases same
    rfl
  | write place data =>
    have turn : Turn hs (.write place data) s.allocator.stock s.allocator.stock :=
      .of_idle (fun _ _ ↦ Use.noConfusion) fun _ ↦ Use.noConfusion
    refine ⟨_, (s.fill place data).2, number, rfl, h.write place data, ?_,
      fun _ _ ↦ Use.noConfusion⟩
    rw [(s.shelf_fill place data).2]
    exact turn
  | freeze place =>
    obtain ⟨number', accounts⟩ := h.freeze place
    refine ⟨_, (s.freeze place).2, number', rfl, accounts, ?_, fun _ _ ↦ Use.noConfusion⟩
    rw [allocator_freeze]
    exact .of_idle (fun _ _ ↦ Use.noConfusion) fun _ ↦ Use.noConfusion
  | clone place =>
    have accounts := h.view place ⟨.unbounded, .unbounded⟩
    rw [Holding.view_whole] at accounts
    exact ⟨_, _, number, rfl, accounts,
      .of_idle (fun _ _ ↦ Use.noConfusion) fun _ ↦ Use.noConfusion, fun _ _ ↦ Use.noConfusion⟩
  | view place w =>
    exact ⟨_, _, number, rfl, h.view place w,
      .of_idle (fun _ _ ↦ Use.noConfusion) fun _ ↦ Use.noConfusion, fun _ _ ↦ Use.noConfusion⟩
  | drop place =>
    have serve : Pool.Serve pools (s.drop place).allocator.stock := by
      rw [allocator_drop]
      cases (s.shelf.drop place).1 with
      | none => exact h.serve
      | some r => exact h.serve.put r.2 r.1
    exact ⟨_, _, number, rfl, h.drop place serve, h.turn_drop place, fun _ _ ↦ Use.noConfusion⟩

theorem Accounts.useAll (h : Accounts pools number s hs) (us : List Use)
    (fits : ∀ supply size, .allocate supply size ∈ us → supply.Ample ∧ size < Storage.limit) :
    ∃ s' number', s.useAll us = .ok s' ∧ Accounts pools number' s' (us.foldl Use.noted hs) := by
  induction us generalizing s hs number with
  | nil => exact ⟨s, number, rfl, h⟩
  | cons u us ih =>
    obtain ⟨shown, s₁, number₁, used, accounts, -⟩ := h.use u fun supply size same ↦
      fits supply size (same ▸ List.mem_cons_self)
    obtain ⟨s', number', ran, accounts⟩ := ih accounts fun supply size later ↦
      fits supply size (List.mem_cons_of_mem u later)
    refine ⟨s', number', ?_, accounts⟩
    rw [Slots.useAll, used]
    exact ran

/-- Through every run over shared pools, each use asking any supply that names them, a body is given
blank, and a place shows just what was put there. A pool never holds more than it may. It has one
storage more just when the last payload goes over a body that it gave and there is room, one less
just when it serves a body and has storage, and else as much as before. -/
theorem pools_conserve_storage (a : Allocator)
    (within : ∀ p ∈ a.stock, p.idle.length ≤ p.capacity) (us : List Use) (u : Use)
    (fits : ∀ supply size, .allocate supply size ∈ us ++ [u] →
      supply.Ample ∧ size < Storage.limit) :
    ∃ s shown s', ({ allocator := a } : Slots).useAll us = .ok s ∧ s.use u = .ok (shown, s') ∧
      (∀ supply size, u = .allocate supply size → shown = some (List.replicate size 0)) ∧
      (∀ place, s.shown? place = (held (account us) place).bytes?) ∧
      ∀ pool p, a.stock[pool]? = some p →
        let before := Pool.idleAt s.allocator.stock pool
        let after := Pool.idleAt s'.allocator.stock pool
        (∀ maxSize, Allocator.pooled ⟨.pool maxSize pool, s.allocator.stock⟩ = [before] ∧
          Allocator.pooled ⟨.pool maxSize pool, s'.allocator.stock⟩ = [after]) ∧
        before ≤ p.capacity ∧
        (after = before + 1 ↔ GivesBack (account us) u pool ∧ before < p.capacity) ∧
        (before = after + 1 ↔ Takes u pool ∧ 0 < before) ∧
        (after = before ∨ after = before + 1 ∨ before = after + 1) := by
  have started : Accounts a.stock id { allocator := a } [] := .start within
  obtain ⟨s, number, ran, accounts⟩ := started.useAll us fun supply size there ↦
    fits supply size (List.mem_append_left _ there)
  obtain ⟨shown, s', number', used, -, turn, blank⟩ := accounts.use u
    fun supply size same ↦ fits supply size (same ▸ List.mem_append_right us List.mem_cons_self)
  refine ⟨s, shown, s', ran, used, blank, accounts.shown?, ?_⟩
  intro pool p found before after
  obtain ⟨p', now, capacity, room⟩ := accounts.serve pool p found
  have held : before = p'.idle.length := by
    dsimp only [before]
    rw [Pool.idleAt, now, Option.elim]
  refine ⟨fun maxSize ↦ ⟨?_, ?_⟩, held ▸ room, capacity ▸ turn.idleAt now⟩
  · exact Allocator.pooled_eq ⟨.pool maxSize pool, s.allocator.stock⟩
  · exact Allocator.pooled_eq ⟨.pool maxSize pool, s'.allocator.stock⟩

/-- Two supplies for small and for large bodies name one pool. The storage of a small body is back
once the view of it goes, after the payload that the view was taken from, and then serves a large
one. -/
theorem pools_conserve_storage_shared :
    let supply : Supply := .threshold 8 (.pool 32 0) (.pool 32 0)
    let a : Allocator := { supply, stock := [{ capacity := 2 }] }
    let us : List Use := [.allocate supply 4, .write 0 [1, 2, 3], .freeze 0,
      .view 0 ⟨.included 1, .excluded 4⟩, .drop 0, .drop 1]
    (∀ p ∈ a.stock, p.idle.length ≤ p.capacity) ∧
      (∀ supply' size, .allocate supply' size ∈ us ++ [.allocate supply 20] →
        supply'.Ample ∧ size < Storage.limit) ∧
      ∃ s shown s', ({ allocator := a } : Slots).useAll us = .ok s ∧
        s.use (.allocate supply 20) = .ok (shown, s') ∧ shown = some (List.replicate 20 0) ∧
        Allocator.pooled ⟨supply, s.allocator.stock⟩ = [1, 1] ∧
        Allocator.pooled ⟨supply, s'.allocator.stock⟩ = [0, 0] := by
  intro supply a us
  have within : ∀ p ∈ a.stock, p.idle.length ≤ p.capacity := by simp [a]
  have ample : supply.Ample := by simp [supply, Supply.Ample, Storage.limit]
  have fits : ∀ supply' size, .allocate supply' size ∈ us ++ [.allocate supply 20] →
      supply'.Ample ∧ size < Storage.limit := by
    intro supply' size there
    have asked : supply' = supply ∧ size = 4 ∨ supply' = supply ∧ size = 20 := by
      simpa [us] using there
    rcases asked with ⟨rfl, rfl⟩ | ⟨rfl, rfl⟩
    · exact ⟨ample, by simp [Storage.limit]⟩
    · exact ⟨ample, by simp [Storage.limit]⟩
  obtain ⟨s, shown, s', ran, used, blank, -, counts⟩ :=
    pools_conserve_storage a within us (.allocate supply 20) fits
  have back : Pool.idleAt s.allocator.stock 0 = 1 := by
    have known : (({ allocator := a } : Slots).useAll us).map (Pool.idleAt ·.allocator.stock 0) =
        .ok 1 := by
      decide +kernel
    rw [ran] at known
    exact Except.ok.inj known
  obtain ⟨-, -, -, falls, -⟩ := counts 0 { capacity := 2 } rfl
  have taken := falls.mpr ⟨⟨supply, 20, rfl, rfl⟩, back ▸ Nat.one_pos⟩
  have gone : Pool.idleAt s'.allocator.stock 0 = 0 := by omega
  refine ⟨within, fits, s, shown, s', ran, used, blank supply 20 rfl, ?_, ?_⟩
  · rw [Allocator.pooled_eq]
    exact congrArg (fun n ↦ [n, n]) back
  · rw [Allocator.pooled_eq]
    exact congrArg (fun n ↦ [n, n]) gone

end Conduit.Slots
