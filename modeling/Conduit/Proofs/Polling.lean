import Conduit.Proofs.Readiness

namespace Conduit

namespace ActiveSet

variable {α : Type} {s : ActiveSet α} {x : α} {i : Nat}

/-- What does not hold of a handle is not sought among fewer when that one is set aside. -/
theorem Sound.exists_active_deactivateAt (h : s.Sound) (current : s.current? i = some x)
    {R : α → Prop} (fails : ¬R x) :
    (∃ y ∈ (s.deactivateAt i).active, R y) ↔ ∃ y ∈ s.active, R y := by
  obtain ⟨-, -, active⟩ := h.deactivateAt current
  constructor
  · rintro ⟨y, hy, holds⟩
    exact ⟨y, ((active y).mp hy).1, holds⟩
  · rintro ⟨y, hy, holds⟩
    refine ⟨y, (active y).mpr ⟨hy, ?_⟩, holds⟩
    rintro rfl
    exact fails holds

end ActiveSet

namespace Net

open Pipe

namespace FairQueue

open Reception (Orderly)

variable {t : Table} {q : FairQueue} {ps : Pairs}

theorem Serves.eq_receive {r : Option Received × FairQueue × Pairs} (h : q.Serves t ps r) :
    q.receive t ps = r := by
  have enough : q.pipes.activeLength < q.pipes.activeLength + 1 := Nat.lt_succ_self _
  rw [receive]
  generalize q.pipes.activeLength + 1 = turns at enough
  induction h generalizing turns with
  | @rests q ps idle =>
    cases turns with
    | zero => contradiction
    | succ turns => simp only [receiveN, idle]
  | @takes q ps id m current read =>
    obtain ⟨ps', acted⟩ : ∃ ps', t.act id Link.read ps = (some (some m), ps') :=
      ⟨_, Prod.ext read rfl⟩
    cases turns with
    | zero => contradiction
    | succ turns =>
      cases more : m.more <;> simp [receiveN, current, acted, more, took]
  | @skips q ps id r current nothing _ ih =>
    cases turns with
    | zero => contradiction
    | succ turns =>
      have rest := ih _ (Rota.activeLength_deactivate_lt current enough)
      rcases acted : t.act id Link.read ps with ⟨_ | _ | m, ps'⟩ <;> rw [acted] at nothing rest
      · simpa only [receiveN, current, acted] using rest
      · simpa only [receiveN, current, acted] using rest
      · exact absurd nothing (Option.some_ne_none m)

theorem Serves.served_iff {r : Option Received × FairQueue × Pairs} (serves : q.Serves t ps r)
    (h : Orderly t q ps) (aimed : q.Aimed) :
    r.1.isSome = true ↔ ∃ id ∈ q.pipes.active, t.Offers ps id := by
  induction serves with
  | rests idle =>
    refine iff_of_false nofun ?_
    rintro ⟨id, active, -⟩
    exact aimed.notMem_active idle id active
  | takes current read =>
    refine iff_of_true rfl ⟨_, ActiveSet.mem_active_of_current? current, ?_⟩
    exact (Table.act_read_iff h.links).mp (read ▸ rfl)
  | @skips q ps id r current nothing _ ih =>
    have unready : ¬t.Offers ps id := by
      rw [← Table.act_read_iff h.links, nothing]
      nofun
    have after : Orderly t { q with more := false } (t.act id Link.read ps).2 :=
      ⟨(h.act (c := .read) (f := Link.read) trivial (fun _ ↦ rfl) id).links, h.pipes⟩
    have aimed' : Rota.Aimed q.deactivate.toRota := aimed.deactivate current
    rw [ih (after.deactivate current) aimed',
      Table.act_read_of_not_offers h.links unready]
    simp only [Table.offers_act_checkRead h.links, pipes_deactivate]
    exact h.pipes.exists_active_deactivateAt current unready

/-- What is received after a look is what would have been received without, and the look told
whether there is anything. -/
theorem Looks.serves {l : Bool × FairQueue × Pairs} {r : Option Received × FairQueue × Pairs}
    (looks : q.Looks t ps l) (h : Orderly t q ps) (first : q.more = false)
    (serves : l.2.1.Serves t l.2.2 r) : q.Serves t ps r ∧ r.1.isSome = l.1 := by
  induction looks with
  | rests idle =>
    refine ⟨serves, ?_⟩
    rw [← serves.eq_receive, (Serves.rests idle).eq_receive]
    rfl
  | @sees q ps id current ready =>
    have offers := (Table.act_checkRead_iff h.links).mp ready
    obtain ⟨m, some⟩ := Option.isSome_iff_exists.mp ((Table.act_read_iff h.links).mpr offers)
    have read := Option.join_eq_some_iff.mp some
    have again : t.act id Link.read (t.act id Link.checkRead ps).2 = t.act id Link.read ps :=
      Table.act_read_act_checkRead h.links
    have later := Serves.takes current (again.symm ▸ read)
    rw [← serves.eq_receive, later.eq_receive, again]
    exact ⟨.takes current read, rfl⟩
  | @skips q ps id l current nothing _ ih =>
    have unready : ¬t.Offers ps id := by rwa [← Table.act_checkRead_iff h.links]
    have after := h.act (c := .checkRead) (f := Link.checkRead) trivial (fun _ ↦ rfl) id
    obtain ⟨rest, told⟩ := ih (after.deactivate current) first serves
    have none_read : (t.act id Link.read ps).1.join = none := by
      rw [← Option.not_isSome_iff_eq_none, Table.act_read_iff h.links]
      exact unready
    have idle : { q with more := false } = q := by rw [← first]
    refine ⟨.skips current none_read ?_, told⟩
    rwa [idle, Table.act_read_of_not_offers h.links unready]

theorem receive_hasIn (h : Orderly t q ps) :
    (q.hasIn t ps).2.1.receive t (q.hasIn t ps).2.2 = q.receive t ps ∧
      (q.more = false → (q.receive t ps).1.isSome = (q.hasIn t ps).1) := by
  cases first : q.more with
  | true =>
    rw [hasIn_of_more t ps first]
    exact ⟨rfl, nofun⟩
  | false =>
    obtain ⟨serves, told⟩ := (hasIn_looks t ps first).serves h first (receive_serves _ t _)
    have same := serves.eq_receive
    exact ⟨same.symm, fun _ ↦ same ▸ told⟩

end FairQueue

namespace Reception

variable {steps : List Step}

/-- To ask a queue whether it has a frame changes nothing of what it gives next, and the answer is
right, but for one case: in the middle of a message it says yes, also when neither the rest of that
message is to be had nor any other frame. -/
theorem hasIn_agrees_iff (plain : ∀ s ∈ steps, s.Plain) :
    let w := run {} steps
    let looked := w.queue.hasIn w.table w.pairs
    let received := w.queue.receive w.table w.pairs
    looked.2.1.receive w.table looked.2.2 = received ∧
      (received.1.isSome = true → looked.1 = true) ∧
      ((looked.1 = true ↔ received.1.isSome = true) ↔
        ¬(w.queue.more = true ∧ ¬∃ id ∈ w.queue.pipes.active, w.table.Offers w.pairs id)) := by
  intro w looked received
  have orderly := orderly_run plain
  have aimed : w.queue.Aimed := aimed_run (w := {}) ActiveSet.Aimed.empty steps
  obtain ⟨same, right⟩ := FairQueue.receive_hasIn orderly
  have served := (FairQueue.receive_serves w.queue w.table w.pairs).served_iff orderly aimed
  refine ⟨same, ?_⟩
  cases more : w.queue.more with
  | true =>
    have yes : looked.1 = true := by
      simp only [looked, FairQueue.hasIn_of_more w.table w.pairs more]
    simp [yes, ← served, received, Option.isSome_iff_ne_none]
  | false =>
    have agrees : received.1.isSome = looked.1 := right more
    simp [agrees]

/-- A pipe begins to terminate in the middle of a message, and says no more. -/
theorem hasIn_after_end_within_message :
    let part : Message := { flags := Flag.more }
    let steps : List Step := [.floor (.build {}), .floor (.enter 2 ⟨0, .second⟩), .attach 2,
      .floor (.call ⟨0, .first⟩ (.write part)), .floor (.call ⟨0, .first⟩ (.write {})),
      .floor (.call ⟨0, .first⟩ .flush), .receive, .floor (.call ⟨0, .second⟩ (.terminate false))]
    let w := run {} steps
    (w.queue.hasIn w.table w.pairs).1 = true ∧
      (w.queue.receive w.table w.pairs).1.isNone = true := by
  decide +kernel

/-- Another pipe has a message, and the look is right also in the middle of one. -/
theorem hasIn_agrees_beside_other_pipe :
    let part : Message := { flags := Flag.more }
    let steps : List Step := [.floor (.build {}), .floor (.enter 2 ⟨0, .second⟩), .attach 2,
      .floor (.build {}), .floor (.enter 4 ⟨1, .second⟩), .attach 4,
      .floor (.call ⟨0, .first⟩ (.write part)), .floor (.call ⟨0, .first⟩ (.write {})),
      .floor (.call ⟨0, .first⟩ .flush), .receive, .floor (.call ⟨1, .first⟩ (.write {})),
      .floor (.call ⟨1, .first⟩ .flush), .floor (.leave 2)]
    let w := run {} steps
    let looked := w.queue.hasIn w.table w.pairs
    (∀ s ∈ steps, s.Plain) ∧ w.queue.more = true ∧ looked.1 = true ∧
      (w.queue.receive w.table w.pairs).1.map (·.pipe) = some 4 ∧
      looked.2.1.receive w.table looked.2.2 = w.queue.receive w.table w.pairs := by
  intro part steps w looked
  have plain : ∀ s ∈ steps, s.Plain := by
    simp only [steps, List.forall_mem_cons, List.not_mem_nil, false_imp_iff, implies_true,
      Step.Plain, Call.Plain]
    decide
  exact ⟨plain, by decide +kernel, by decide +kernel, by decide +kernel,
    (hasIn_agrees_iff plain).1⟩

end Reception

namespace LoadBalancer

variable {t : Table} {b : LoadBalancer} {ps : Pairs} {m : Message}

/-- What comes of a frame that is put to a pipe is what the balancer does with it. -/
theorem Puts.eq_sendN {r : Sent × LoadBalancer × Pairs} (h : b.Puts t m ps r) {turns : Nat}
    (enough : b.pipes.activeLength < turns) : sendN t m turns b ps = r := by
  induction h generalizing turns with
  | @rests b ps idle =>
    cases turns with
    | zero => contradiction
    | succ turns => simp only [sendN, idle]
  | @begins b ps id current accepted more | @ends b ps id current accepted more =>
    obtain ⟨ps', acted⟩ : ∃ ps', t.act id (·.write m) ps = (some true, ps') :=
      ⟨_, Prod.ext accepted rfl⟩
    cases turns with
    | zero => contradiction
    | succ turns => simp [sendN, current, acted, more]
  | @aborts b ps id current refused begun | @loses b ps id current refused begun =>
    obtain ⟨ps', acted⟩ : ∃ ps', t.act id (·.write m) ps = (_, ps') :=
      ⟨_, Prod.ext refused rfl⟩
    cases turns with
    | zero => contradiction
    | succ turns => simp [sendN, current, acted, begun]
  | @skips b ps id r current refused first _ ih =>
    cases turns with
    | zero => contradiction
    | succ turns =>
      have rest := ih (Rota.activeLength_deactivate_lt current enough)
      rcases acted : t.act id (·.write m) ps with ⟨_ | _ | _, ps'⟩ <;>
        rw [acted] at refused rest
      · simpa [sendN, current, acted, first] using rest
      · simpa [sendN, current, acted, first] using rest
      · contradiction

/-- In the middle of a message all depends on the pipe that holds its first frames. -/
theorem Puts.accepted_iff_of_more {r : Sent × LoadBalancer × Pairs} (h : b.Puts t m ps r)
    (begun : b.more = true) :
    (∀ x, r.1 ≠ .refused x) ↔ ∃ id, b.current? = some id ∧ t.Takes ps id := by
  cases h with
  | rests idle => simp [idle]
  | begins current accepted | ends current accepted =>
    exact iff_of_true (fun _ ↦ nofun) ⟨_, current, Table.act_write_iff.mp accepted⟩
  | @aborts _ _ id current refused | @loses _ _ id current refused =>
    have full : ¬t.Takes ps id := by
      rw [← Table.act_write_iff (m := m), refused]
      nofun
    refine iff_of_false (fun accepted ↦ accepted _ rfl) ?_
    rintro ⟨id', current', takes⟩
    exact full (Option.some.inj (current.symm.trans current') ▸ takes)
  | skips _ _ first => exact absurd (begun.symm.trans first) nofun

theorem Looks.seen_iff {l : Bool × LoadBalancer × Pairs} (looks : b.Looks t ps l)
    (aimed : b.Aimed) : l.1 = true ↔ ∃ id ∈ b.pipes.active, t.Takes ps id := by
  induction looks with
  | rests idle =>
    refine iff_of_false nofun ?_
    rintro ⟨id, active, -⟩
    exact aimed.notMem_active idle id active
  | sees current room =>
    refine iff_of_true rfl ⟨_, ActiveSet.mem_active_of_current? current, ?_⟩
    exact Table.act_checkWrite_iff.mp room
  | @skips b ps id l current full _ ih =>
    have refuses : ¬t.Takes ps id := Table.act_checkWrite_iff.not.mp full
    rw [ih (aimed.deactivate current)]
    simp only [Table.takes_act_checkWrite, pipes_deactivate]
    exact aimed.sound.exists_active_deactivateAt current refuses

theorem Looks.flags {l : Bool × LoadBalancer × Pairs} (looks : b.Looks t ps l) :
    l.2.1.more = b.more ∧ l.2.1.dropping = b.dropping := by
  induction looks with
  | rests | sees => exact ⟨rfl, rfl⟩
  | skips _ _ _ ih => exact ih

/-- What comes of the first frame of a message after a look is what would have come of it without,
and the look told whether it is accepted. -/
theorem Looks.puts {l : Bool × LoadBalancer × Pairs} {r : Sent × LoadBalancer × Pairs}
    (looks : b.Looks t ps l) (first : b.more = false) (puts : l.2.1.Puts t m l.2.2 r) :
    b.Puts t m ps r ∧ ((∀ x, r.1 ≠ .refused x) ↔ l.1 = true) := by
  induction looks with
  | @rests b ps idle =>
    have rests : b.Puts t m ps (.refused .wouldBlock, b, ps) := .rests idle
    have enough : b.pipes.activeLength < b.pipes.activeLength + 1 := Nat.lt_succ_self _
    refine ⟨puts, ?_⟩
    rw [← puts.eq_sendN enough, rests.eq_sendN enough]
    simp
  | @sees b ps id current room =>
    have takes := Table.act_checkWrite_iff.mp room
    rw [Table.act_checkWrite_of_takes takes] at puts
    have accepted : (t.act id (·.write m) ps).1 = some true := Table.act_write_iff.mpr takes
    refine ⟨puts, iff_of_true ?_ rfl⟩
    cases puts with
    | rests idle => exact absurd (idle.symm.trans current) nofun
    | begins | ends => exact fun _ ↦ nofun
    | aborts _ _ begun | loses _ _ begun => exact absurd (begun.symm.trans first) nofun
    | skips current' refused =>
      obtain rfl := Option.some.inj (current.symm.trans current')
      exact absurd accepted refused
  | @skips b ps id l current full _ ih =>
    have refuses : ¬t.Takes ps id := Table.act_checkWrite_iff.not.mp full
    obtain ⟨rest, told⟩ := ih first puts
    refine ⟨.skips current (Table.act_write_iff.not.mpr refuses) first ?_, told⟩
    rwa [Table.act_write_of_not_takes refuses]

theorem send_hasOut (t : Table) (m : Message) (ps : Pairs) (keeps : b.dropping = false) :
    (b.hasOut t ps).2.1.send m t (b.hasOut t ps).2.2 = b.send m t ps ∧
      (b.more = false →
        ((∀ x, (b.send m t ps).1 ≠ .refused x) ↔ (b.hasOut t ps).1 = true)) := by
  cases first : b.more with
  | true =>
    rw [hasOut_of_more t ps first]
    exact ⟨rfl, nofun⟩
  | false =>
    have looks := hasOut_looks t ps first
    have later := send_puts t m (b.hasOut t ps).2.2 (looks.flags.2.trans keeps)
    obtain ⟨puts, told⟩ := looks.puts first later
    have enough : b.pipes.activeLength < b.pipes.activeLength + 1 := Nat.lt_succ_self _
    have same : b.send m t ps = _ :=
      ((send_puts t m ps keeps).eq_sendN enough).symm.trans (puts.eq_sendN enough)
    exact ⟨same.symm, fun _ ↦ same ▸ told⟩

end LoadBalancer

namespace Dispatch

/-- To ask a balancer whether a frame can be sent changes nothing of what becomes of the next one,
and the answer is right, but for two cases. In the middle of a message it says yes, also when the
pipe that holds the first frames takes no more. Where the rest of a message is to be dropped that
was given up, it says no unless some pipe has room, though none is needed. -/
theorem hasOut_agrees_iff (steps : List Step) (m : Message) :
    let w := run {} steps
    let looked := w.balancer.hasOut w.table w.pairs
    let sent := w.balancer.send m w.table w.pairs
    (looked.2.1.send m w.table looked.2.2).1 = sent.1 ∧
      (w.balancer.dropping = false → looked.2.1.send m w.table looked.2.2 = sent) ∧
      ((looked.1 = true ↔ ∀ x, sent.1 ≠ .refused x) ↔
        ¬(w.balancer.more = true ∧ w.balancer.dropping = false ∧
            ¬∃ id, w.balancer.current? = some id ∧ w.table.Takes w.pairs id) ∧
          ¬(w.balancer.more = false ∧ w.balancer.dropping = true ∧
            ¬∃ id ∈ w.balancer.pipes.active, w.table.Takes w.pairs id)) := by
  intro w looked sent
  have aimed : w.balancer.Aimed := aimed_run (w := {}) ActiveSet.Aimed.empty steps
  have shortcut (more : w.balancer.more = true) : looked = (true, w.balancer, w.pairs) :=
    LoadBalancer.hasOut_of_more w.table w.pairs more
  have dropped {b : LoadBalancer} {ps : Pairs} (dropping : b.dropping = true) :
      (b.send m w.table ps).1 = .dropped :=
    congrArg Prod.fst (LoadBalancer.send_of_dropping w.table m ps dropping)
  cases dropping : w.balancer.dropping with
  | true =>
    have answer : sent.1 = .dropped := dropped dropping
    cases more : w.balancer.more with
    | true => simp [shortcut more, answer, sent]
    | false =>
      have looks := LoadBalancer.hasOut_looks w.table w.pairs more
      have later : (looked.2.1.send m w.table looked.2.2).1 = .dropped :=
        dropped (looks.flags.2.trans dropping)
      have seen : looked.1 = true ↔ _ := looks.seen_iff aimed
      simp [answer, later, seen]
  | false =>
    obtain ⟨same, right⟩ := LoadBalancer.send_hasOut w.table m w.pairs dropping
    refine ⟨congrArg Prod.fst same, fun _ ↦ same, ?_⟩
    cases more : w.balancer.more with
    | true =>
      have accepted := (LoadBalancer.send_puts w.table m w.pairs dropping).accepted_iff_of_more more
      simp only [shortcut more, sent, accepted]
      simp
    | false =>
      have agrees : (∀ x, sent.1 ≠ .refused x) ↔ looked.1 = true := right more
      simp [agrees]

/-- A pipe begins to terminate in the middle of a message. The next frame is refused against what
the balancer said, and the one behind it goes nowhere, though it is not asked for. -/
theorem hasOut_after_end_within_message :
    let part : Message := { flags := Flag.more }
    let steps : List Step := [.floor (.build {}), .floor (.enter 1 ⟨0, .first⟩), .attach 1,
      .send part, .floor (.call ⟨0, .first⟩ (.terminate true))]
    let w := run {} steps
    let v := run {} (steps ++ [.send part])
    ((w.balancer.hasOut w.table w.pairs).1 = true ∧
        (w.balancer.send part w.table w.pairs).1 = .refused .aborted) ∧
      (v.balancer.hasOut v.table v.pairs).1 = false ∧
        (v.balancer.send {} v.table v.pairs).1 = .dropped := by
  decide +kernel

/-- A full pipe is passed by, and the frame goes to the one that was found to have room. -/
theorem hasOut_agrees_beside_full_pipe :
    let steps : List Step := [.floor (.build { highMarks := (1, 1) }),
      .floor (.enter 1 ⟨0, .first⟩), .attach 1, .send {}, .floor (.build {}),
      .floor (.enter 3 ⟨1, .first⟩), .attach 3]
    let w := run {} steps
    let looked := w.balancer.hasOut w.table w.pairs
    w.balancer.dropping = false ∧ looked.1 = true ∧
      (w.balancer.send {} w.table w.pairs).1 = .placed 3 ∧
      looked.2.1.send {} w.table looked.2.2 = w.balancer.send {} w.table w.pairs := by
  intro steps w looked
  have keeps : w.balancer.dropping = false := by decide +kernel
  exact ⟨keeps, by decide +kernel, by decide +kernel, (hasOut_agrees_iff steps {}).2.1 keeps⟩

end Dispatch

end Net

end Conduit
