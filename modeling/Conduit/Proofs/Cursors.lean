import Conduit.Proofs.Rotation

namespace Conduit

namespace ActiveSet

variable {α : Type} {s : ActiveSet α} {x : α} {i : Nat}

def deactivateAt? (s : ActiveSet α) (i : Nat) : Option (ActiveSet α) :=
  if i < s.activeLength then some (s.deactivateAt i) else none

def remove? [DecidableEq α] (s : ActiveSet α) (x : α) : Option (Option Bool × ActiveSet α) :=
  match s.indexOf? x with
  | none => some (none, s)
  | some i =>
    if i < s.activeLength then
      (s.deactivateAt? i).map fun rest ↦ (some true, rest.eraseAt (s.activeLength - 1))
    else some (some false, s.eraseAt i)

theorem deactivateAt?_eq (current : s.current? i = some x) :
    s.deactivateAt? i = some (s.deactivateAt i) :=
  if_pos (current?_eq_some_iff.mp current).1

theorem remove?_eq [DecidableEq α] (s : ActiveSet α) (x : α) : s.remove? x = some (s.remove x) := by
  rw [remove?, remove]
  cases s.indexOf? x with
  | none => rfl
  | some i =>
    dsimp only
    split
    · rename_i within
      rw [deactivateAt?, if_pos within]
      rfl
    · rfl

theorem activeLength_ne_zero (current : s.current? i = some x) : s.activeLength ≠ 0 := by
  have within := (current?_eq_some_iff.mp current).1
  omega

theorem current?_of_length_zero (none_active : s.activeLength = 0) : s.current? i = none :=
  if_neg (by omega)

/-- A cursor that stands on an active handle finds one, if there is one. -/
theorem Aimed.current?_eq_none_iff {c : Nat} (h : s.Aimed c) :
    s.current? c = none ↔ s.activeLength = 0 := by
  have aims := h.aims
  unfold Aims at aims
  rw [h.sound.current?_eq_none_iff]
  omega

end ActiveSet

namespace Net

open Pipe

theorem foldlM_eq_some {σ γ : Type} {step? : σ → γ → Option σ} {step : σ → γ → σ}
    (goes_right : ∀ s c, step? s c = some (step s c)) (s : σ) (cs : List γ) :
    cs.foldlM step? s = some (cs.foldl step s) := by
  have always : step? = fun s c ↦ pure (step s c) := by
    funext s c
    exact goes_right s c
  rw [always]
  exact List.foldlM_pure

namespace Rota

variable {r : Rota} {id : Nat}

def deactivate? (r : Rota) : Option Rota :=
  (r.pipes.deactivateAt? r.current).map fun pipes ↦ { r with pipes }.wrap

def advance? (r : Rota) : Option Rota :=
  if r.pipes.activeLength = 0 then none else some r.advance

def forget? (r : Rota) (id : Nat) : Option Rota :=
  (r.pipes.remove? id).map fun
    | (some true, pipes) => { r with pipes }.wrap
    | (_, pipes) => { r with pipes }

def forgetBeside? (r : Rota) (id : Nat) (midst : Option Nat) : Option Rota :=
  (r.forget? id).map fun r ↦
    match midst with
    | some p => r.seek p
    | none => r

theorem deactivate?_eq (current : r.current? = some id) : r.deactivate? = some r.deactivate := by
  rw [deactivate?, ActiveSet.deactivateAt?_eq current]
  rfl

theorem advance?_eq (current : r.current? = some id) : r.advance? = some r.advance :=
  if_neg (ActiveSet.activeLength_ne_zero current)

theorem forgetBeside?_eq (r : Rota) (id : Nat) (midst : Option Nat) :
    r.forgetBeside? id midst = some (r.forgetBeside id midst) := by
  rw [forgetBeside?, forget?, ActiveSet.remove?_eq]
  cases midst <;> rfl

end Rota

namespace FairQueue

variable {t : Table} {q : FairQueue} {ps : Pairs} {id : Nat}

def terminated? (q : FairQueue) (id : Nat) (credential : Bytes) : Option FairQueue := do
  let reading := if q.more then q.current? else none
  let q := if reading = some id then { q with more := false } else q
  let q := { q with toRota := ← q.toRota.forgetBeside? id reading }
  return if q.lastIn = some id then { q with savedCredential := credential, lastIn := none } else q

def receiveIn? (t : Table) : Nat → FairQueue → Pairs →
    Option (Option Received × FairQueue × Pairs)
  | 0, q, ps => if q.current?.isNone then some (none, q, ps) else none
  | turns + 1, q, ps =>
    match q.current? with
    | none => some (none, q, ps)
    | some id =>
      match t.act id Link.read ps with
      | (some (some m), ps) =>
        let q := { q with more := m.more }
        if m.more then some (some ⟨m, id⟩, q, ps)
        else q.advance?.map fun r ↦ (some ⟨m, id⟩, { q with toRota := r, lastIn := some id }, ps)
      | (_, ps) =>
        q.deactivate?.bind fun r ↦ receiveIn? t turns { q with toRota := r, more := false } ps

def receive? (q : FairQueue) (t : Table) (ps : Pairs) :
    Option (Option Received × FairQueue × Pairs) := receiveIn? t q.pipes.activeLength q ps

def hasInIn? (t : Table) : Nat → FairQueue → Pairs → Option (Bool × FairQueue × Pairs)
  | 0, q, ps => if q.current?.isNone then some (false, q, ps) else none
  | turns + 1, q, ps =>
    match q.current? with
    | none => some (false, q, ps)
    | some id =>
      match t.act id Link.checkRead ps with
      | (some true, ps) => some (true, q, ps)
      | (_, ps) => q.deactivate?.bind fun r ↦ hasInIn? t turns { q with toRota := r } ps

def hasIn? (q : FairQueue) (t : Table) (ps : Pairs) : Option (Bool × FairQueue × Pairs) :=
  if q.more then some (true, q, ps) else hasInIn? t q.pipes.activeLength q ps

/-- What may be asked of a fair queue. The table and the pipes may be others each time. -/
inductive Call where
  | attach (id : Nat)
  | activated (id : Nat)
  | terminated (id : Nat) (credential : Bytes)
  | receive (t : Table) (ps : Pairs)
  | hasIn (t : Table) (ps : Pairs)

def perform (q : FairQueue) : Call → FairQueue
  | .attach id => q.attach id
  | .activated id => q.activated id
  | .terminated id credential => q.terminated id credential
  | .receive t ps => (q.receive t ps).2.1
  | .hasIn t ps => (q.hasIn t ps).2.1

def perform? (q : FairQueue) : Call → Option FairQueue
  | .attach id => some (q.attach id)
  | .activated id => some (q.activated id)
  | .terminated id credential => q.terminated? id credential
  | .receive t ps => (q.receive? t ps).map (·.2.1)
  | .hasIn t ps => (q.hasIn? t ps).map (·.2.1)

theorem terminated?_eq (q : FairQueue) (id : Nat) (credential : Bytes) :
    q.terminated? id credential = some (q.terminated id credential) := by
  rw [terminated?, Rota.forgetBeside?_eq]
  rfl

theorem receiveIn?_eq {turns : Nat} (enough : q.pipes.activeLength ≤ turns) :
    receiveIn? t turns q ps = some (receiveN t (turns + 1) q ps) := by
  induction turns generalizing q ps with
  | zero =>
    have idle : q.current? = none := ActiveSet.current?_of_length_zero (Nat.le_zero.mp enough)
    simp only [receiveIn?, receiveN, idle, Option.isNone_none, if_true]
  | succ turns ih =>
    rw [receiveIn?, receiveN]
    cases current : q.current? with
    | none => rfl
    | some id =>
      have fewer := Rota.activeLength_deactivate_lt current (Nat.lt_succ_of_le enough)
      have skip (ps' : Pairs) : receiveIn? t turns { q with more := false }.deactivate ps' = _ :=
        ih (Nat.le_of_lt_succ fewer)
      dsimp only
      rw [Rota.deactivate?_eq current]
      cases t.act id Link.read ps with
      | mk answer ps' =>
        cases answer with
        | none => exact skip ps'
        | some read =>
          cases read with
          | none => exact skip ps'
          | some m =>
            dsimp only
            rw [Rota.advance?_eq current]
            split <;> rfl

theorem receive?_eq (q : FairQueue) (t : Table) (ps : Pairs) :
    q.receive? t ps = some (q.receive t ps) := receiveIn?_eq (Nat.le_refl _)

theorem hasInIn?_eq {turns : Nat} (enough : q.pipes.activeLength ≤ turns) :
    hasInIn? t turns q ps = some (hasInN t (turns + 1) q ps) := by
  induction turns generalizing q ps with
  | zero =>
    have idle : q.current? = none := ActiveSet.current?_of_length_zero (Nat.le_zero.mp enough)
    simp only [hasInIn?, hasInN, idle, Option.isNone_none, if_true]
  | succ turns ih =>
    rw [hasInIn?, hasInN]
    cases current : q.current? with
    | none => rfl
    | some id =>
      have fewer := Rota.activeLength_deactivate_lt current (Nat.lt_succ_of_le enough)
      have skip (ps' : Pairs) : hasInIn? t turns q.deactivate ps' = _ :=
        ih (Nat.le_of_lt_succ fewer)
      dsimp only
      rw [Rota.deactivate?_eq current]
      cases t.act id Link.checkRead ps with
      | mk answer ps' =>
        cases answer with
        | none => exact skip ps'
        | some ready =>
          cases ready with
          | false => exact skip ps'
          | true => rfl

theorem hasIn?_eq (q : FairQueue) (t : Table) (ps : Pairs) :
    q.hasIn? t ps = some (q.hasIn t ps) := by
  rw [hasIn?, hasIn]
  split
  · rfl
  · exact hasInIn?_eq (Nat.le_refl _)

theorem perform?_eq (q : FairQueue) (c : Call) : q.perform? c = some (q.perform c) := by
  cases c with
  | attach | activated => rfl
  | terminated id credential => exact q.terminated?_eq id credential
  | receive t ps => exact congrArg (Option.map _) (q.receive?_eq t ps)
  | hasIn t ps => exact congrArg (Option.map _) (q.hasIn?_eq t ps)

theorem aimed_perform (h : q.Aimed) (c : Call) : (q.perform c).Aimed := by
  cases c with
  | attach id => exact ActiveSet.Aimed.pushActive h id
  | activated id => exact ActiveSet.Aimed.activate h id
  | terminated id credential => exact aimed_terminated h id credential
  | receive t ps => exact (q.receive_serves t ps).aimed h
  | hasIn t ps =>
    cases more : q.more with
    | true =>
      rw [FairQueue.perform, hasIn_of_more t ps more]
      exact h
    | false => exact (hasIn_looks t ps more).aimed h

end FairQueue

namespace LoadBalancer

variable {t : Table} {m : Message} {b : LoadBalancer} {ps : Pairs} {id : Nat}

def terminated? (b : LoadBalancer) (id : Nat) : Option LoadBalancer := do
  let writing := if b.more then b.current? else none
  let b := if writing = some id then { b with dropping := true } else b
  return { b with toRota := ← b.toRota.forgetBeside? id writing }

def sendIn? (t : Table) (m : Message) : Nat → LoadBalancer → Pairs →
    Option (Sent × LoadBalancer × Pairs)
  | 0, b, ps => if b.current?.isNone then some (.refused .wouldBlock, b, ps) else none
  | turns + 1, b, ps =>
    match b.current? with
    | none => some (.refused .wouldBlock, b, ps)
    | some id =>
      match t.act id (·.write m) ps with
      | (some true, ps) =>
        let b := { b with more := m.more }
        if m.more then some (.placed id, b, ps)
        else b.advance?.map fun r ↦
          (.placed id, { b with toRota := r }, (t.act id (fun l ↦ ((), l.flush)) ps).2)
      | (some false, ps) =>
        if b.more then
          some (.refused .aborted, b.abort m, (t.act id (fun l ↦ ((), l.rollback)) ps).2)
        else b.deactivate?.bind fun r ↦ sendIn? t m turns { b with toRota := r } ps
      | (none, ps) =>
        b.deactivate?.bind fun r ↦
          let b := { b with toRota := r }
          if b.more then some (.refused .aborted, b.abort m, ps) else sendIn? t m turns b ps

def send? (b : LoadBalancer) (m : Message) (t : Table) (ps : Pairs) :
    Option (Sent × LoadBalancer × Pairs) :=
  if b.dropping then some (.dropped, { b with more := m.more, dropping := m.more }, ps)
  else sendIn? t m b.pipes.activeLength b ps

def hasOutIn? (t : Table) : Nat → LoadBalancer → Pairs → Option (Bool × LoadBalancer × Pairs)
  | 0, b, ps => if b.current?.isNone then some (false, b, ps) else none
  | turns + 1, b, ps =>
    match b.current? with
    | none => some (false, b, ps)
    | some id =>
      match t.act id Link.checkWrite ps with
      | (some true, ps) => some (true, b, ps)
      | (_, ps) => b.deactivate?.bind fun r ↦ hasOutIn? t turns { b with toRota := r } ps

def hasOut? (b : LoadBalancer) (t : Table) (ps : Pairs) : Option (Bool × LoadBalancer × Pairs) :=
  if b.more then some (true, b, ps) else hasOutIn? t b.pipes.activeLength b ps

/-- What may be asked of a load balancer. The table and the pipes may be others each time. -/
inductive Call where
  | attach (id : Nat)
  | activated (id : Nat)
  | terminated (id : Nat)
  | send (m : Message) (t : Table) (ps : Pairs)
  | hasOut (t : Table) (ps : Pairs)

def perform (b : LoadBalancer) : Call → LoadBalancer
  | .attach id => b.attach id
  | .activated id => b.activated id
  | .terminated id => b.terminated id
  | .send m t ps => (b.send m t ps).2.1
  | .hasOut t ps => (b.hasOut t ps).2.1

def perform? (b : LoadBalancer) : Call → Option LoadBalancer
  | .attach id => some (b.attach id)
  | .activated id => some (b.activated id)
  | .terminated id => b.terminated? id
  | .send m t ps => (b.send? m t ps).map (·.2.1)
  | .hasOut t ps => (b.hasOut? t ps).map (·.2.1)

theorem terminated?_eq (b : LoadBalancer) (id : Nat) :
    b.terminated? id = some (b.terminated id) := by
  rw [terminated?, Rota.forgetBeside?_eq]
  rfl

theorem sendIn?_eq {turns : Nat} (enough : b.pipes.activeLength ≤ turns) :
    sendIn? t m turns b ps = some (sendN t m (turns + 1) b ps) := by
  induction turns generalizing b ps with
  | zero =>
    have idle : b.current? = none := ActiveSet.current?_of_length_zero (Nat.le_zero.mp enough)
    simp only [sendIn?, sendN, idle, Option.isNone_none, if_true]
  | succ turns ih =>
    rw [sendIn?, sendN]
    cases current : b.current? with
    | none => rfl
    | some id =>
      have fewer := Rota.activeLength_deactivate_lt current (Nat.lt_succ_of_le enough)
      have skip (ps' : Pairs) : sendIn? t m turns b.deactivate ps' = _ :=
        ih (Nat.le_of_lt_succ fewer)
      dsimp only
      rw [Rota.deactivate?_eq current]
      cases t.act id (·.write m) ps with
      | mk answer ps' =>
        cases answer with
        | none =>
          dsimp only [Option.bind_some]
          split
          · rfl
          · exact skip ps'
        | some accepted =>
          cases accepted with
          | false =>
            dsimp only [Option.bind_some]
            split
            · rfl
            · exact skip ps'
          | true =>
            dsimp only
            rw [Rota.advance?_eq current]
            split <;> rfl

theorem send?_eq (b : LoadBalancer) (m : Message) (t : Table) (ps : Pairs) :
    b.send? m t ps = some (b.send m t ps) := by
  rw [send?, send]
  split
  · rfl
  · exact sendIn?_eq (Nat.le_refl _)

theorem hasOutIn?_eq {turns : Nat} (enough : b.pipes.activeLength ≤ turns) :
    hasOutIn? t turns b ps = some (hasOutN t (turns + 1) b ps) := by
  induction turns generalizing b ps with
  | zero =>
    have idle : b.current? = none := ActiveSet.current?_of_length_zero (Nat.le_zero.mp enough)
    simp only [hasOutIn?, hasOutN, idle, Option.isNone_none, if_true]
  | succ turns ih =>
    rw [hasOutIn?, hasOutN]
    cases current : b.current? with
    | none => rfl
    | some id =>
      have fewer := Rota.activeLength_deactivate_lt current (Nat.lt_succ_of_le enough)
      have skip (ps' : Pairs) : hasOutIn? t turns b.deactivate ps' = _ :=
        ih (Nat.le_of_lt_succ fewer)
      dsimp only
      rw [Rota.deactivate?_eq current]
      cases t.act id Link.checkWrite ps with
      | mk answer ps' =>
        cases answer with
        | none => exact skip ps'
        | some room =>
          cases room with
          | false => exact skip ps'
          | true => rfl

theorem hasOut?_eq (b : LoadBalancer) (t : Table) (ps : Pairs) :
    b.hasOut? t ps = some (b.hasOut t ps) := by
  rw [hasOut?, hasOut]
  split
  · rfl
  · exact hasOutIn?_eq (Nat.le_refl _)

theorem perform?_eq (b : LoadBalancer) (c : Call) : b.perform? c = some (b.perform c) := by
  cases c with
  | attach | activated => rfl
  | terminated id => exact b.terminated?_eq id
  | send m t ps => exact congrArg (Option.map _) (b.send?_eq m t ps)
  | hasOut t ps => exact congrArg (Option.map _) (b.hasOut?_eq t ps)

theorem aimed_perform (h : b.Aimed) (c : Call) : (b.perform c).Aimed := by
  cases c with
  | attach id => exact ActiveSet.Aimed.pushActive h id
  | activated id => exact ActiveSet.Aimed.activate h id
  | terminated id => exact aimed_terminated h id
  | send m t ps =>
    cases dropping : b.dropping with
    | true =>
      rw [LoadBalancer.perform, send_of_dropping t m ps dropping]
      exact h
    | false => exact (send_puts t m ps dropping).aimed h
  | hasOut t ps =>
    cases more : b.more with
    | true =>
      rw [LoadBalancer.perform, hasOut_of_more t ps more]
      exact h
    | false => exact (hasOut_looks t ps more).aimed h

end LoadBalancer

/-- Whatever is asked of a fair queue or of a load balancer, over whatever tables, its cursor stands
on an active pipe if there is one. So no remainder by zero is taken, no handle is set aside that is
not active, and a search is over within as many turns as there are active pipes. -/
theorem cursors_on_active :
    (∀ cs : List FairQueue.Call,
      let q := cs.foldl FairQueue.perform {}
      cs.foldlM FairQueue.perform? {} = some q ∧
      (q.current < q.pipes.activeLength ∨ q.pipes.activeLength = 0 ∧ q.current = 0) ∧
      (q.current? = none ↔ q.pipes.activeLength = 0) ∧
      ∀ t ps, q.receive? t ps = some (q.receive t ps) ∧ q.hasIn? t ps = some (q.hasIn t ps)) ∧
    ∀ cs : List LoadBalancer.Call,
      let b := cs.foldl LoadBalancer.perform {}
      cs.foldlM LoadBalancer.perform? {} = some b ∧
      (b.current < b.pipes.activeLength ∨ b.pipes.activeLength = 0 ∧ b.current = 0) ∧
      (b.current? = none ↔ b.pipes.activeLength = 0) ∧
      ∀ m t ps, b.send? m t ps = some (b.send m t ps) ∧ b.hasOut? t ps = some (b.hasOut t ps) := by
  constructor
  · intro cs q
    have aimed : q.Aimed := by
      refine List.foldlRecOn cs _ (motive := fun q : FairQueue ↦ q.Aimed) ActiveSet.Aimed.empty ?_
      exact fun _ aimed c _ ↦ FairQueue.aimed_perform aimed c
    refine ⟨foldlM_eq_some FairQueue.perform?_eq {} cs, aimed.aims, ?_, ?_⟩
    · exact ActiveSet.Aimed.current?_eq_none_iff aimed
    · intro t ps
      exact ⟨q.receive?_eq t ps, q.hasIn?_eq t ps⟩
  · intro cs b
    have aimed : b.Aimed := by
      refine List.foldlRecOn cs _ (motive := fun b : LoadBalancer ↦ b.Aimed) ActiveSet.Aimed.empty ?_
      exact fun _ aimed c _ ↦ LoadBalancer.aimed_perform aimed c
    refine ⟨foldlM_eq_some LoadBalancer.perform?_eq {} cs, aimed.aims, ?_, ?_⟩
    · exact ActiveSet.Aimed.current?_eq_none_iff aimed
    · intro m t ps
      exact ⟨b.send?_eq m t ps, b.hasOut?_eq t ps⟩

end Net

end Conduit
