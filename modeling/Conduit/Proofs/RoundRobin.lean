import Conduit.Proofs.Readiness

namespace Conduit.Net

open Pipe

namespace FairQueue

open Reception (Orderly)

variable {t : Table} {q : FairQueue} {ps : Pairs} {id n : Nat}

theorem due_heed (h : q.Due id n) (id' : Nat) (events : List Event) :
    (events.foldl (heed id') q).Due id n := by
  induction events generalizing q with
  | nil => exact h
  | cons e events ih =>
    cases e with
    | readActivated => exact ih (ActiveSet.Due.activate h id')
    | writeActivated | hiccuped | terminated => exact ih h

/-- The pipe that has a frame is the one that is read, or it has moved up by a turn with the last
frame of a message of another. -/
theorem Serves.due {r : Option Received × FairQueue × Pairs} (serves : q.Serves t ps r)
    (h : q.Due id n) (orderly : Orderly t q ps) (offers : t.Offers ps id) :
    ∃ x, r.1 = some x ∧ (x.pipe = id ∨
      ∃ k, r.2.1.Due id k ∧ n = k + if x.message.more then 0 else 1) := by
  induction serves with
  | rests idle => exact absurd idle (ActiveSet.Due.current?_ne_none h)
  | @takes q ps id' m current read =>
    refine ⟨_, rfl, ?_⟩
    by_cases own : id' = id
    · exact .inl own
    · have other : q.current? ≠ some id := ActiveSet.current?_ne_of_not current (Ne.symm own) rfl
      right
      cases more : m.more with
      | true =>
        simp only [took, more, if_true]
        exact ⟨n, h, rfl⟩
      | false =>
        obtain ⟨k, rfl, nearer⟩ := h.advance other
        simp only [took, more, Bool.false_eq_true, if_false]
        exact ⟨k, nearer, rfl⟩
  | @skips q ps id' r current nothing _ ih =>
    have unready : ¬t.Offers ps id' := by
      rw [← Table.act_read_iff orderly.links, nothing]
      exact Bool.false_ne_true
    have other : q.current? ≠ some id := ActiveSet.current?_ne_of_not current unready offers
    have after : Orderly t { q with more := false } (t.act id' Link.read ps).2 :=
      ⟨(orderly.act (c := .read) (f := Link.read) trivial (fun _ ↦ rfl) id').links, orderly.pipes⟩
    have still : t.Offers (t.act id' Link.read ps).2 id := by
      rw [Table.act_read_of_not_offers orderly.links unready]
      exact (Table.offers_act_checkRead orderly.links).mpr offers
    exact ih (h.deactivate other) (after.deactivate current) still

/-- A look sets no pipe aside that has a frame. -/
theorem Looks.due {r : Bool × FairQueue × Pairs} (looks : q.Looks t ps r) (h : q.Due id n)
    (orderly : Orderly t q ps) (offers : t.Offers ps id) : r.2.1.Due id n := by
  induction looks with
  | rests | sees => exact h
  | @skips q ps id' r current nothing _ ih =>
    have unready : ¬t.Offers ps id' := by rwa [← Table.act_checkRead_iff orderly.links]
    have other : q.current? ≠ some id := ActiveSet.current?_ne_of_not current unready offers
    have after := orderly.act (c := .checkRead) (f := Link.checkRead) trivial (fun _ ↦ rfl) id'
    exact ih (h.deactivate other) (after.deactivate current)
      ((Table.offers_act_checkRead orderly.links).mpr offers)

end FairQueue

namespace Reception

variable {w : Reception} {id n : Nat} {s : Step} {before steps : List Step}

def answer (w : Reception) : Step → List (Option FairQueue.Received)
  | .receive => [(w.queue.receive w.table w.pairs).1]
  | _ => []

/-- What the queue was asked for and gave, in the order of a run. -/
def received : Reception → List Step → List (Option FairQueue.Received)
  | _, [] => []
  | w, s :: steps => w.answer s ++ (w.step s).received steps

/-- At each step of a run the pipe has a frame to read. -/
def Offering (id : Nat) : Reception → List Step → Prop
  | _, [] => True
  | w, s :: steps => w.table.Offers w.pairs id ∧ (w.step s).Offering id steps

/-- No pipe is attached to the queue or forgotten by it. -/
def Step.Stays : Step → Prop
  | .attach _ | .terminated _ _ => False
  | .floor _ | .activated _ | .receive | .hasIn | .hear _ => True

/-- Whether the last frame of a message was received. -/
def complete (r : Option FairQueue.Received) : Bool := r.any (!·.message.more)

theorem due_step (due : w.queue.Due id n) (orderly : Orderly w.table w.queue w.pairs)
    (offers : w.table.Offers w.pairs id) (stays : s.Stays)
    (unserved : ∀ x, some x ∈ w.answer s → x.pipe ≠ id) :
    none ∉ w.answer s ∧
      ∃ k, (w.step s).queue.Due id k ∧ n = k + (w.answer s).countP complete := by
  cases s with
  | attach | terminated => exact stays.elim
  | floor => exact ⟨nofun, n, due, rfl⟩
  | activated id' => exact ⟨nofun, n, ActiveSet.Due.activate due id', rfl⟩
  | hear id' => exact ⟨nofun, n, FairQueue.due_heed due id' _, rfl⟩
  | hasIn =>
    refine ⟨nofun, n, ?_, rfl⟩
    cases more : w.queue.more with
    | true =>
      rw [step, FairQueue.hasIn_of_more w.table w.pairs more]
      exact due
    | false => exact (FairQueue.hasIn_looks w.table w.pairs more).due due orderly offers
  | receive =>
    obtain ⟨x, given, turn⟩ :=
      (FairQueue.receive_serves w.queue w.table w.pairs).due due orderly offers
    have answered : w.answer .receive = [some x] := congrArg ([·]) given
    rw [answered] at unserved ⊢
    obtain ⟨k, nearer, counted⟩ := turn.resolve_left (unserved x List.mem_cons_self)
    refine ⟨by simp, k, nearer, counted.trans ?_⟩
    cases more : x.message.more <;> simp [complete, more]

theorem due_run (due : w.queue.Due id n) (orderly : Orderly w.table w.queue w.pairs)
    (plain : ∀ s ∈ steps, s.Plain) (stays : ∀ s ∈ steps, s.Stays) (offering : w.Offering id steps)
    (unserved : ∀ x, some x ∈ w.received steps → x.pipe ≠ id) :
    none ∉ w.received steps ∧ (w.received steps).countP complete ≤ n := by
  induction steps generalizing w n with
  | nil => exact ⟨nofun, Nat.zero_le n⟩
  | cons s steps ih =>
    obtain ⟨plain, others⟩ := List.forall_mem_cons.mp plain
    obtain ⟨stay, stays⟩ := List.forall_mem_cons.mp stays
    obtain ⟨offers, offering⟩ := offering
    obtain ⟨given, k, nearer, rfl⟩ := due_step due orderly offers stay
      fun x hx ↦ unserved x (List.mem_append_left _ hx)
    obtain ⟨rest, fewer⟩ := ih nearer (orderly.step plain) others stays offering
      fun x hx ↦ unserved x (List.mem_append_right _ hx)
    simp only [received, List.mem_append, List.countP_append, not_or]
    exact ⟨⟨given, rest⟩, by omega⟩

end Reception

def Sent.isPlaced : Sent → Bool
  | .placed _ => true
  | .dropped | .refused _ => false

namespace LoadBalancer

variable {t : Table} {m : Message} {b : LoadBalancer} {ps : Pairs} {id n : Nat}

/-- The pipe that has room gets the message, or it has moved up by a turn with the last frame of one
that another gets. -/
theorem Puts.due {r : Sent × LoadBalancer × Pairs} (puts : b.Puts t m ps r) (h : b.Due id n)
    (takes : t.Takes ps id) :
    m.more = false ∧ r.1 = .placed id ∨
      ∃ k, r.2.1.Due id k ∧ n = k + if r.1.isPlaced && !m.more then 1 else 0 := by
  induction puts with
  | rests idle => exact absurd idle (ActiveSet.Due.current?_ne_none h)
  | begins _ _ more =>
    right
    refine ⟨n, h, ?_⟩
    simp [more]
  | @ends b ps id' current accepted last =>
    by_cases own : id' = id
    · exact .inl ⟨last, congrArg Sent.placed own⟩
    · have other : b.current? ≠ some id := ActiveSet.current?_ne_of_not current (Ne.symm own) rfl
      obtain ⟨k, rfl, nearer⟩ := h.advance other
      right
      refine ⟨k, nearer, ?_⟩
      simp [last, Sent.isPlaced]
  | aborts => exact .inr ⟨n, h, rfl⟩
  | @loses b ps id' current gone _ =>
    have full : ¬t.Takes ps id' := by
      rw [← Table.act_write_iff (m := m), gone]
      nofun
    have other : b.current? ≠ some id := ActiveSet.current?_ne_of_not current full takes
    have set_aside : (b.deactivate.abort m).Due id n := h.deactivate other
    exact .inr ⟨n, set_aside, rfl⟩
  | @skips b ps id' r current refused _ _ ih =>
    have full : ¬t.Takes ps id' := Table.act_write_iff.not.mp refused
    have other : b.current? ≠ some id := ActiveSet.current?_ne_of_not current full takes
    have still : t.Takes (t.act id' (·.write m) ps).2 id := by
      rw [Table.act_write_of_not_takes full]
      exact Table.takes_act_checkWrite.mpr takes
    exact ih (h.deactivate other) still

/-- A look sets no pipe aside that has room. -/
theorem Looks.due {r : Bool × LoadBalancer × Pairs} (looks : b.Looks t ps r) (h : b.Due id n)
    (takes : t.Takes ps id) : r.2.1.Due id n := by
  induction looks with
  | rests | sees => exact h
  | @skips b ps id' r current full _ ih =>
    have refuses : ¬t.Takes ps id' := Table.act_checkWrite_iff.not.mp full
    have other : b.current? ≠ some id := ActiveSet.current?_ne_of_not current refuses takes
    exact ih (h.deactivate other) (Table.takes_act_checkWrite.mpr takes)

end LoadBalancer

namespace Dispatch

variable {w : Dispatch} {id n : Nat} {s : Step} {before steps : List Step}

def answer (w : Dispatch) : Step → List (Message × Sent)
  | .send m => [(m, (w.balancer.send m w.table w.pairs).1)]
  | _ => []

/-- The frames that a run offers, and what becomes of each. -/
def offered : Dispatch → List Step → List (Message × Sent)
  | _, [] => []
  | w, s :: steps => w.answer s ++ (w.step s).offered steps

/-- At each step of a run the pipe has room for a frame. -/
def Taking (id : Nat) : Dispatch → List Step → Prop
  | _, [] => True
  | w, s :: steps => w.table.Takes w.pairs id ∧ (w.step s).Taking id steps

def Step.Stays : Step → Prop
  | .attach _ | .terminated _ => False
  | .floor _ | .activated _ | .hasOut | .send _ => True

/-- Whether the last frame of a message was put to a pipe. -/
def complete (a : Message × Sent) : Bool := a.2.isPlaced && !a.1.more

theorem due_step (due : w.balancer.Due id n) (takes : w.table.Takes w.pairs id) (stays : s.Stays)
    (unserved : ∀ m, (m, .placed id) ∈ w.answer s → m.more = true) :
    ∃ k, (w.step s).balancer.Due id k ∧ n = k + (w.answer s).countP complete := by
  cases s with
  | attach | terminated => exact stays.elim
  | floor c => cases c <;> exact ⟨n, due, rfl⟩
  | activated id' => exact ⟨n, ActiveSet.Due.activate due id', rfl⟩
  | hasOut =>
    refine ⟨n, ?_, rfl⟩
    cases more : w.balancer.more with
    | true =>
      rw [step, LoadBalancer.hasOut_of_more w.table w.pairs more]
      exact due
    | false => exact (LoadBalancer.hasOut_looks w.table w.pairs more).due due takes
  | send m =>
    rw [step, (offer_floor _ _ _).2]
    cases dropping : w.balancer.dropping with
    | true =>
      refine ⟨n, ?_, ?_⟩
      · rw [LoadBalancer.send_of_dropping w.table m w.pairs dropping]
        exact due
      · simp [answer, LoadBalancer.send_of_dropping w.table m w.pairs dropping, complete,
          Sent.isPlaced]
    | false =>
      obtain ⟨last, own⟩ | ⟨k, nearer, counted⟩ :=
        (LoadBalancer.send_puts w.table m w.pairs dropping).due due takes
      · have begun := unserved m (List.mem_singleton.mpr (congrArg (m, ·) own.symm))
        exact absurd (last.symm.trans begun) Bool.false_ne_true
      · refine ⟨k, nearer, counted.trans ?_⟩
        simp [answer, complete]

theorem due_run (due : w.balancer.Due id n) (stays : ∀ s ∈ steps, s.Stays)
    (taking : w.Taking id steps)
    (unserved : ∀ m, (m, .placed id) ∈ w.offered steps → m.more = true) :
    (w.offered steps).countP complete ≤ n := by
  induction steps generalizing w n with
  | nil => exact Nat.zero_le n
  | cons s steps ih =>
    obtain ⟨stay, stays⟩ := List.forall_mem_cons.mp stays
    obtain ⟨takes, taking⟩ := taking
    obtain ⟨k, nearer, rfl⟩ := due_step due takes stay
      fun m hm ↦ unserved m (List.mem_append_left _ hm)
    have fewer := ih nearer stays taking fun m hm ↦ unserved m (List.mem_append_right _ hm)
    rw [offered, List.countP_append]
    omega

end Dispatch

/-- As long as an active pipe of a queue has a frame to read, each receive returns one, and before
one of this pipe the others give as many whole messages as there are others, at most. As long as an
active pipe of a balancer has room, the others get as many whole messages as there are others, at
most, before one goes to this pipe. -/
theorem served_within_round :
    (∀ (before steps : List Reception.Step) (id : Nat),
      let w := Reception.run {} before
      (∀ s ∈ before, s.Plain) → (∀ s ∈ steps, s.Plain ∧ s.Stays) →
      id ∈ w.queue.pipes.active → w.Offering id steps →
      (∀ x, some x ∈ w.received steps → x.pipe ≠ id) →
        none ∉ w.received steps ∧
          (w.received steps).countP Reception.complete ≤ w.queue.pipes.length - 1) ∧
    ∀ (before steps : List Dispatch.Step) (id : Nat),
      let w := Dispatch.run {} before
      (∀ s ∈ steps, s.Stays) → id ∈ w.balancer.pipes.active → w.Taking id steps →
      (∀ m, (m, .placed id) ∈ w.offered steps → m.more = true) →
        (w.offered steps).countP Dispatch.complete ≤ w.balancer.pipes.length - 1 := by
  constructor
  · intro before steps id w plain goes active offering unserved
    have aimed : w.queue.Aimed := Reception.aimed_run (w := {}) ActiveSet.Aimed.empty before
    have due : w.queue.Due id (w.queue.pipes.length - 1) := ActiveSet.Aimed.due aimed active
    exact Reception.due_run due (Reception.orderly_run plain) (fun s hs ↦ (goes s hs).1)
      (fun s hs ↦ (goes s hs).2) offering unserved
  · intro before steps id w stays active taking unserved
    have aimed : w.balancer.Aimed := Dispatch.aimed_run (w := {}) ActiveSet.Aimed.empty before
    have due : w.balancer.Due id (w.balancer.pipes.length - 1) := ActiveSet.Aimed.due aimed active
    exact Dispatch.due_run due stays taking unserved

/-- With two pipes, the one that waits sees the other served once. -/
theorem served_within_round_of_two_pipes :
    let before : List Reception.Step := [.floor (.build {}), .floor (.enter 2 ⟨0, .second⟩),
      .attach 2, .floor (.build {}), .floor (.enter 4 ⟨1, .second⟩), .attach 4,
      .floor (.call ⟨0, .first⟩ (.write {})), .floor (.call ⟨0, .first⟩ .flush),
      .floor (.call ⟨1, .first⟩ (.write {})), .floor (.call ⟨1, .first⟩ .flush)]
    let w := Reception.run {} before
    let earlier : List Dispatch.Step := [.floor (.build {}), .floor (.enter 1 ⟨0, .first⟩),
      .attach 1, .floor (.build {}), .floor (.enter 3 ⟨1, .first⟩), .attach 3]
    let v := Dispatch.run {} earlier
    ((w.received [.receive]).countP Reception.complete = 1 ∧
        none ∉ w.received [.receive] ∧
        (w.received [.receive]).countP Reception.complete ≤ w.queue.pipes.length - 1) ∧
      (v.offered [.send {}]).countP Dispatch.complete = 1 ∧
        (v.offered [.send {}]).countP Dispatch.complete ≤ v.balancer.pipes.length - 1 := by
  intro before w earlier v
  obtain ⟨receives, sends⟩ := served_within_round
  have plain : ∀ s ∈ before, s.Plain := by
    simp only [before, List.forall_mem_cons, List.not_mem_nil, false_imp_iff, implies_true,
      Reception.Step.Plain, Call.Plain]
    decide
  have offers : w.table.Offers w.pairs 4 :=
    (Table.act_checkRead_iff (Reception.orderly_run plain).links).mp (by decide +kernel)
  have takes : v.table.Takes v.pairs 3 := Table.act_checkWrite_iff.mp (by decide +kernel)
  have others : (w.received [.receive]).all (·.all (·.pipe ≠ 4)) = true := by decide +kernel
  have placed : v.offered [.send {}] = [({}, .placed 1)] := by decide +kernel
  refine ⟨⟨by decide +kernel, ?_⟩, by decide +kernel, ?_⟩
  · apply receives before [.receive] 4 plain
    · simp [Reception.Step.Plain, Reception.Step.Stays]
    · decide +kernel
    · exact ⟨offers, trivial⟩
    · intro x hx
      simpa using List.all_eq_true.mp others _ hx
  · apply sends earlier [.send {}] 3
    · simp [Dispatch.Step.Stays]
    · decide +kernel
    · exact ⟨takes, trivial⟩
    · change ∀ m, (m, .placed 3) ∈ v.offered [.send {}] → m.more = true
      rw [placed]
      simp

end Conduit.Net
