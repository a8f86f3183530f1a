import Conduit.Net.FairQueue
import Conduit.Net.LoadBalancer
import Conduit.Proofs.Partition

namespace Conduit.Net

open Pipe

namespace Rota

variable {r : Rota} {id id' : Nat}

theorem current_wrap (r : Rota) :
    r.wrap.current = if r.current ≥ r.pipes.activeLength then 0 else r.current := by
  unfold wrap
  split <;> rfl

theorem pipes_wrap (r : Rota) : r.wrap.pipes = r.pipes := by
  unfold wrap
  split <;> rfl

theorem pipes_seek (r : Rota) (id : Nat) : (r.seek id).pipes = r.pipes := by
  unfold seek
  split <;> rfl

theorem pipes_deactivate (r : Rota) : r.deactivate.pipes = r.pipes.deactivateAt r.current :=
  pipes_wrap _

theorem current_deactivate (r : Rota) : r.deactivate.current =
    if r.current ≥ (r.pipes.deactivateAt r.current).activeLength then 0 else r.current :=
  current_wrap _

theorem aims_deactivate (r : Rota) : r.deactivate.pipes.Aims r.deactivate.current := by
  rw [current_deactivate, pipes_deactivate]
  exact ActiveSet.aims_wrap _ _

theorem pipes_forget (r : Rota) (id : Nat) : (r.forget id).pipes = (r.pipes.remove id).2 := by
  unfold forget
  split <;> rename_i removed
  · rw [pipes_wrap, removed]
  · rw [removed]

theorem pipes_forgetBeside (r : Rota) (id : Nat) (midst : Option Nat) :
    (r.forgetBeside id midst).pipes = (r.pipes.remove id).2 := by
  cases midst with
  | none => exact r.pipes_forget id
  | some p => exact (pipes_seek _ p).trans (r.pipes_forget id)

/-- The cursor follows the pipe in the middle of a message when another one goes. -/
theorem current?_forgetBeside (sound : r.pipes.Sound) (current : r.current? = some id)
    (other : id' ≠ id) : (r.forgetBeside id' (some id)).current? = some id := by
  obtain ⟨i, index, at_i⟩ := sound.activeIndex?_remove current other
  rw [forgetBeside, seek, pipes_forget, index]
  exact at_i

theorem activeLength_deactivate_lt {turns : Nat} (current : r.current? = some id)
    (enough : r.pipes.activeLength < turns + 1) : r.deactivate.pipes.activeLength < turns := by
  have aimed := (ActiveSet.current?_eq_some_iff.mp current).1
  rw [pipes_deactivate, ActiveSet.deactivateAt]
  dsimp only
  omega

end Rota

namespace FairQueue

variable {t : Table} {q : FairQueue} {ps : Pairs} {id id' : Nat}

theorem pipes_attach (q : FairQueue) (id : Nat) :
    (q.attach id).pipes = (q.pipes.pushActive id).2 := rfl

theorem pipes_activated (q : FairQueue) (id : Nat) :
    (q.activated id).pipes = (q.pipes.activate id).2 := rfl

theorem pipes_deactivate (q : FairQueue) :
    q.deactivate.pipes = q.pipes.deactivateAt q.current := q.toRota.pipes_deactivate

theorem pipes_terminated (q : FairQueue) (id : Nat) (credential : Bytes) :
    (q.terminated id credential).pipes = (q.pipes.remove id).2 := by
  have given (b : Prop) [Decidable b] :
      (if b then { q with more := false } else q).pipes = q.pipes := by
    split <;> rfl
  have attributed (q : FairQueue) : (if q.lastIn = some id then
      { q with savedCredential := credential, lastIn := none } else q).pipes = q.pipes := by
    split <;> rfl
  refine (attributed _).trans ?_
  rw [Rota.pipes_forgetBeside, given]

/-- The cursor follows the pipe that is being read when another one goes. -/
theorem current?_terminated (sound : q.pipes.Sound) (more : q.more = true)
    (current : q.current? = some id) (other : id' ≠ id) (credential : Bytes) :
    (q.terminated id' credential).current? = some id ∧
      (q.terminated id' credential).more = true := by
  have reading : (if q.more then q.current? else none) = some id := by rw [if_pos more, current]
  have beside : ¬some id = some id' := fun same ↦ other (Option.some.inj same).symm
  have sought := Rota.current?_forgetBeside sound current other
  simp only [terminated, reading, if_neg beside]
  split
  · exact ⟨sought, more⟩
  · exact ⟨sought, more⟩

/-- It stays with a pipe until the last frame of a message. -/
def took (q : FairQueue) (r : Received) : FairQueue :=
  if r.message.more then { q with more := true }
  else { q with more := false, lastIn := some r.pipe }.advance

theorem pipes_took (q : FairQueue) (r : Received) : (q.took r).pipes = q.pipes := by
  unfold took
  split <;> rfl

inductive Serves (t : Table) : FairQueue → Pairs → Option Received × FairQueue × Pairs → Prop
  | rests {q : FairQueue} {ps : Pairs} (idle : q.current? = none) : Serves t q ps (none, q, ps)
  | takes {q : FairQueue} {ps : Pairs} {id : Nat} {m : Message} (current : q.current? = some id)
    (read : (t.act id Link.read ps).1 = some (some m)) :
    Serves t q ps (some ⟨m, id⟩, q.took ⟨m, id⟩, (t.act id Link.read ps).2)
  | skips {q : FairQueue} {ps : Pairs} {id : Nat} {r : Option Received × FairQueue × Pairs}
    (current : q.current? = some id) (nothing : (t.act id Link.read ps).1.join = none)
    (rest : Serves t { q with more := false }.deactivate (t.act id Link.read ps).2 r) :
    Serves t q ps r

theorem receiveN_serves {turns : Nat} (enough : q.pipes.activeLength < turns) :
    Serves t q ps (receiveN t turns q ps) := by
  induction turns generalizing q ps with
  | zero => contradiction
  | succ turns ih =>
    match current : q.current? with
    | none =>
      simp only [receiveN, current]
      exact .rests current
    | some id =>
      have skips (nothing : (t.act id Link.read ps).1.join = none) : Serves t q ps
          (receiveN t turns { q with more := false }.deactivate (t.act id Link.read ps).2) :=
        .skips current nothing (ih (Rota.activeLength_deactivate_lt current enough))
      simp only [receiveN, current]
      split
      · rename_i m ps' acted
        have taken : (if m.more then { q with more := m.more }
            else { { q with more := m.more } with lastIn := some id }.advance) =
              q.took ⟨m, id⟩ := by
          cases more : m.more <;> simp [took, more]
        have takes := Serves.takes current (congrArg Prod.fst acted)
        rw [acted] at takes
        rw [taken]
        exact takes
      · rename_i answer ps' other acted
        rw [acted] at skips
        apply skips
        match answer, other with
        | none, _ | some none, _ => rfl
        | some (some m), other => exact absurd rfl (other m)

theorem receive_serves (q : FairQueue) (t : Table) (ps : Pairs) : q.Serves t ps (q.receive t ps) :=
  receiveN_serves (Nat.lt_succ_self _)

inductive Looks (t : Table) : FairQueue → Pairs → Bool × FairQueue × Pairs → Prop
  | rests {q : FairQueue} {ps : Pairs} (idle : q.current? = none) : Looks t q ps (false, q, ps)
  | sees {q : FairQueue} {ps : Pairs} {id : Nat} (current : q.current? = some id)
    (ready : (t.act id Link.checkRead ps).1 = some true) :
    Looks t q ps (true, q, (t.act id Link.checkRead ps).2)
  | skips {q : FairQueue} {ps : Pairs} {id : Nat} {r : Bool × FairQueue × Pairs}
    (current : q.current? = some id) (nothing : (t.act id Link.checkRead ps).1 ≠ some true)
    (rest : Looks t q.deactivate (t.act id Link.checkRead ps).2 r) : Looks t q ps r

theorem hasInN_looks {turns : Nat} (enough : q.pipes.activeLength < turns) :
    Looks t q ps (hasInN t turns q ps) := by
  induction turns generalizing q ps with
  | zero => contradiction
  | succ turns ih =>
    match current : q.current? with
    | none =>
      simp only [hasInN, current]
      exact .rests current
    | some id =>
      have skips (nothing : (t.act id Link.checkRead ps).1 ≠ some true) :
          Looks t q ps (hasInN t turns q.deactivate (t.act id Link.checkRead ps).2) :=
        .skips current nothing (ih (Rota.activeLength_deactivate_lt current enough))
      simp only [hasInN, current]
      split
      · rename_i ps' acted
        have sees := Looks.sees current (congrArg Prod.fst acted)
        rw [acted] at sees
        exact sees
      · rename_i answer ps' other acted
        rw [acted] at skips
        exact skips other

theorem hasIn_looks (t : Table) (ps : Pairs) (first : q.more = false) :
    q.Looks t ps (q.hasIn t ps) := by
  rw [hasIn, first]
  exact hasInN_looks (Nat.lt_succ_self _)

theorem hasIn_of_more (t : Table) (ps : Pairs) (more : q.more = true) :
    q.hasIn t ps = (true, q, ps) := if_pos more

end FairQueue

namespace LoadBalancer

variable {t : Table} {m : Message} {b : LoadBalancer} {ps : Pairs} {id id' : Nat}

def writing? (b : LoadBalancer) : Option Nat :=
  if b.more = true ∧ b.dropping = false then b.current? else none

theorem writing?_of_not_more (h : b.more = false) : b.writing? = none := by simp [writing?, h]

theorem writing?_of_dropping (h : b.dropping = true) : b.writing? = none := by simp [writing?, h]

theorem pipes_deactivate (b : LoadBalancer) :
    b.deactivate.pipes = b.pipes.deactivateAt b.current := b.toRota.pipes_deactivate

theorem pipes_terminated (b : LoadBalancer) (id : Nat) :
    (b.terminated id).pipes = (b.pipes.remove id).2 := by
  have given (c : Prop) [Decidable c] :
      (if c then { b with dropping := true } else b).pipes = b.pipes := by
    split <;> rfl
  rw [terminated]
  dsimp only
  rw [Rota.pipes_forgetBeside, given]

/-- A message is dropped from where the pipe that it was written to goes. -/
theorem flags_terminated (b : LoadBalancer) (id : Nat) :
    (b.terminated id).more = b.more ∧ (b.terminated id).dropping =
      (b.dropping || b.more && b.current? = some id) := by
  have given : (if (if b.more then b.current? else none) = some id then
      { b with dropping := true } else b) =
        { b with dropping := b.dropping || b.more && b.current? = some id } := by
    obtain ⟨rota, more, dropping⟩ := b
    cases more with
    | false => simp
    | true =>
      simp only [if_true, Bool.true_and]
      split <;> simp_all
  rw [terminated]
  dsimp only
  rw [given]
  exact ⟨rfl, rfl⟩

/-- The cursor follows the pipe that is being written when another one goes. -/
theorem current?_terminated (sound : b.pipes.Sound) (more : b.more = true)
    (current : b.current? = some id) (other : id' ≠ id) :
    (b.terminated id').current? = some id := by
  have writing : (if b.more then b.current? else none) = some id := by rw [if_pos more, current]
  have beside : ¬some id = some id' := fun same ↦ other (Option.some.inj same).symm
  simp only [terminated, writing, if_neg beside]
  exact Rota.current?_forgetBeside sound current other

inductive Puts (t : Table) (m : Message) :
    LoadBalancer → Pairs → Sent × LoadBalancer × Pairs → Prop
  | rests {b : LoadBalancer} {ps : Pairs} (idle : b.current? = none) :
    Puts t m b ps (.refused .wouldBlock, b, ps)
  | begins {b : LoadBalancer} {ps : Pairs} {id : Nat} (current : b.current? = some id)
    (accepted : (t.act id (·.write m) ps).1 = some true) (more : m.more = true) :
    Puts t m b ps (.placed id, { b with more := true }, (t.act id (·.write m) ps).2)
  | ends {b : LoadBalancer} {ps : Pairs} {id : Nat} (current : b.current? = some id)
    (accepted : (t.act id (·.write m) ps).1 = some true) (last : m.more = false) :
    Puts t m b ps (.placed id, { b with more := false }.advance,
      (t.act id (fun l ↦ ((), l.flush)) (t.act id (·.write m) ps).2).2)
  | aborts {b : LoadBalancer} {ps : Pairs} {id : Nat} (current : b.current? = some id)
    (refused : (t.act id (·.write m) ps).1 = some false) (begun : b.more = true) :
    Puts t m b ps (.refused .aborted, b.abort m,
      (t.act id (fun l ↦ ((), l.rollback)) (t.act id (·.write m) ps).2).2)
  | loses {b : LoadBalancer} {ps : Pairs} {id : Nat} (current : b.current? = some id)
    (gone : (t.act id (·.write m) ps).1 = none) (begun : b.more = true) :
    Puts t m b ps (.refused .aborted, b.deactivate.abort m, (t.act id (·.write m) ps).2)
  | skips {b : LoadBalancer} {ps : Pairs} {id : Nat} {r : Sent × LoadBalancer × Pairs}
    (current : b.current? = some id) (refused : (t.act id (·.write m) ps).1 ≠ some true)
    (first : b.more = false) (rest : Puts t m b.deactivate (t.act id (·.write m) ps).2 r) :
    Puts t m b ps r

theorem sendN_puts {turns : Nat} (enough : b.pipes.activeLength < turns) :
    Puts t m b ps (sendN t m turns b ps) := by
  induction turns generalizing b ps with
  | zero => contradiction
  | succ turns ih =>
    match current : b.current? with
    | none =>
      simp only [sendN, current]
      exact .rests current
    | some id =>
      have skips (refused : (t.act id (·.write m) ps).1 ≠ some true) (begun : ¬b.more = true) :
          Puts t m b ps (sendN t m turns b.deactivate (t.act id (·.write m) ps).2) :=
        .skips current refused (Bool.not_eq_true _ ▸ begun)
          (ih (Rota.activeLength_deactivate_lt current enough))
      simp only [sendN, current]
      match acted : t.act id (·.write m) ps with
      | (some true, ps') =>
        have accepted := congrArg Prod.fst acted
        cases more : m.more with
        | true =>
          have begins := Puts.begins current accepted more
          rw [acted] at begins
          exact begins
        | false =>
          have ends := Puts.ends current accepted more
          rw [acted] at ends
          exact ends
      | (some false, ps') =>
        rw [acted] at skips
        dsimp only
        split
        · rename_i begun
          have aborts := Puts.aborts current (congrArg Prod.fst acted) begun
          rw [acted] at aborts
          exact aborts
        · rename_i first
          exact skips nofun first
      | (none, ps') =>
        rw [acted] at skips
        dsimp only
        split
        · rename_i begun
          have loses := Puts.loses current (congrArg Prod.fst acted) begun
          rw [acted] at loses
          exact loses
        · rename_i first
          exact skips nofun first

theorem send_puts (t : Table) (m : Message) (ps : Pairs) (keeps : b.dropping = false) :
    b.Puts t m ps (b.send m t ps) := by
  rw [send, keeps]
  exact sendN_puts (Nat.lt_succ_self _)

inductive Looks (t : Table) : LoadBalancer → Pairs → Bool × LoadBalancer × Pairs → Prop
  | rests {b : LoadBalancer} {ps : Pairs} (idle : b.current? = none) : Looks t b ps (false, b, ps)
  | sees {b : LoadBalancer} {ps : Pairs} {id : Nat} (current : b.current? = some id)
    (room : (t.act id Link.checkWrite ps).1 = some true) :
    Looks t b ps (true, b, (t.act id Link.checkWrite ps).2)
  | skips {b : LoadBalancer} {ps : Pairs} {id : Nat} {r : Bool × LoadBalancer × Pairs}
    (current : b.current? = some id) (full : (t.act id Link.checkWrite ps).1 ≠ some true)
    (rest : Looks t b.deactivate (t.act id Link.checkWrite ps).2 r) : Looks t b ps r

theorem hasOutN_looks {turns : Nat} (enough : b.pipes.activeLength < turns) :
    Looks t b ps (hasOutN t turns b ps) := by
  induction turns generalizing b ps with
  | zero => contradiction
  | succ turns ih =>
    match current : b.current? with
    | none =>
      simp only [hasOutN, current]
      exact .rests current
    | some id =>
      have skips (full : (t.act id Link.checkWrite ps).1 ≠ some true) :
          Looks t b ps (hasOutN t turns b.deactivate (t.act id Link.checkWrite ps).2) :=
        .skips current full (ih (Rota.activeLength_deactivate_lt current enough))
      simp only [hasOutN, current]
      split
      · rename_i ps' acted
        have sees := Looks.sees current (congrArg Prod.fst acted)
        rw [acted] at sees
        exact sees
      · rename_i answer ps' other acted
        rw [acted] at skips
        exact skips other

theorem hasOut_looks (t : Table) (ps : Pairs) (first : b.more = false) :
    b.Looks t ps (b.hasOut t ps) := by
  rw [hasOut, first]
  exact hasOutN_looks (Nat.lt_succ_self _)

theorem hasOut_of_more (t : Table) (ps : Pairs) (more : b.more = true) :
    b.hasOut t ps = (true, b, ps) := if_pos more

/-- The rest of a message that was given up is dropped, and no pipe is tried. -/
theorem send_of_dropping (t : Table) (m : Message) (ps : Pairs) (dropping : b.dropping = true) :
    b.send m t ps = (.dropped, { b with more := m.more, dropping := m.more }, ps) :=
  if_pos dropping

end LoadBalancer

end Conduit.Net
