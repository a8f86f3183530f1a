import Conduit.Proofs.CallEdits

namespace Conduit

theorem ChunkQueue.frontPos_popBack {α : Type} (q : ChunkQueue α) :
    q.popBack.2.frontPos = q.frontPos := by
  have stepped : q.stepBack.frontPos = q.frontPos := by
    unfold stepBack
    split
    · split <;> rfl
    · rfl
  unfold popBack
  split
  · rfl
  · simp only
    split <;> exact stepped

/-- What the two ends do with a queue. -/
inductive QueueUse (α : Type) where
  | write (x : α) (incomplete : Bool)
  | unwrite
  | flush
  | checkRead
  | read

inductive Reply (α : Type) where
  | none
  | flag (b : Bool)
  | item (x : Option α)

structure SharedQueue (α : Type) where
  queue : ChunkQueue α
  /-- Items before it may be read. There is none while the reader sleeps. -/
  shared : Option Nat := some 0
  /-- Where the last flush of the writer ended. -/
  published : Nat := 0
  complete : Nat := 0
  /-- What the reader found shared as it last looked. -/
  limit : Option Nat := some 0

namespace SharedQueue

variable {α : Type}

def create (chunkSize : Nat) : SharedQueue α := { queue := ChunkQueue.empty chunkSize }

/-- Puts `next` in the place of an expected position. The answer is what was there. -/
def exchange (q : SharedQueue α) (expected next : Option Nat) : Option Nat × SharedQueue α :=
  (q.shared, if q.shared = expected then { q with shared := next } else q)

def write (q : SharedQueue α) (x : α) (incomplete : Bool) : SharedQueue α :=
  let queue := q.queue.pushBack x
  { q with queue, complete := if incomplete then q.complete else queue.backPos }

def unwrite (q : SharedQueue α) : Option α × SharedQueue α :=
  if q.queue.backPos = q.complete then (none, q)
  else
    let (x, queue) := q.queue.popBack
    (x, { q with queue })

/-- There is no answer if another position is found than the last one that was published. -/
def flush (q : SharedQueue α) : Option (Bool × SharedQueue α) :=
  if q.published = q.complete then some (true, q)
  else
    match q.exchange (some q.published) (some q.complete) with
    | (none, q) => some (false, { q with shared := some q.complete, published := q.complete })
    | (some found, after) =>
      if found = q.published then some (true, { after with published := q.complete }) else none

def checkRead (q : SharedQueue α) : Bool × SharedQueue α :=
  let front := some q.queue.frontPos
  if front ≠ q.limit ∧ q.limit ≠ none then (true, q)
  else
    let (found, q) := q.exchange front none
    (found ≠ front && found ≠ none, { q with limit := found })

def read (q : SharedQueue α) : Option α × SharedQueue α :=
  match q.checkRead with
  | (false, q) => (none, q)
  | (true, q) =>
    let (x, queue) := q.queue.popFront
    (x, { q with queue })

def use (q : SharedQueue α) : QueueUse α → Option (Reply α × SharedQueue α)
  | .write x incomplete => some (.none, q.write x incomplete)
  | .unwrite => some (q.unwrite.map .item id)
  | .flush => q.flush.map (Prod.map .flag id)
  | .checkRead => some (q.checkRead.map .flag id)
  | .read => some (q.read.map .item id)

def useAll : SharedQueue α → List (QueueUse α) → Option (List (Reply α) × SharedQueue α)
  | q, [] => some ([], q)
  | q, u :: us => do
    let (r, q) ← q.use u
    let (rs, q) ← q.useAll us
    return (r :: rs, q)

end SharedQueue

namespace Channel

variable {α : Type}

def use (c : Channel α) : QueueUse α → Reply α × Channel α
  | .write x incomplete => (.none, c.write x incomplete)
  | .unwrite => c.unwrite.map .item id
  | .flush => c.flush.map .flag id
  | .checkRead => c.checkRead.map .flag id
  | .read => c.read.map .item id

def useAll : Channel α → List (QueueUse α) → List (Reply α) × Channel α
  | c, [] => ([], c)
  | c, u :: us =>
    let (r, c) := c.use u
    let (rs, c) := c.useAll us
    (r :: rs, c)

/-- The same items and limits as its two ends hold them. A reader that found the mark of its own
sleep has no limit, and is where it was. -/
structure Shows (c : Channel α) (q : SharedQueue α) : Prop where
  queue : c.queue = q.queue
  published : c.published = q.published
  complete : c.complete = q.complete
  shared : q.shared = if c.asleep then none else some c.published
  limit : q.limit = some c.limit ∨ q.limit = none ∧ c.limit = c.queue.frontPos

namespace Shows

variable {c : Channel α} {q : SharedQueue α}

theorem create (chunkSize : Nat) :
    (Channel.create chunkSize : Channel α).Shows (SharedQueue.create chunkSize) :=
  ⟨rfl, rfl, rfl, rfl, .inl rfl⟩

theorem write (h : c.Shows q) (x : α) (incomplete : Bool) :
    (c.write x incomplete).Shows (q.write x incomplete) := by
  refine ⟨?_, h.published, ?_, h.shared, ?_⟩
  · simp only [Channel.write, SharedQueue.write, h.queue]
  · simp only [Channel.write, SharedQueue.write, h.queue, h.complete]
  · simpa only [Channel.write, SharedQueue.write, ChunkQueue.frontPos_pushBack] using h.limit

theorem unwrite (h : c.Shows q) :
    q.unwrite.1 = c.unwrite.1 ∧ c.unwrite.2.Shows q.unwrite.2 := by
  unfold Channel.unwrite SharedQueue.unwrite
  rw [← h.queue, ← h.complete]
  split
  · exact ⟨rfl, h⟩
  · refine ⟨rfl, rfl, h.published, rfl, h.shared, ?_⟩
    simpa only [ChunkQueue.frontPos_popBack] using h.limit

/-- A flush that does not find what it published last finds the mark of a reader that sleeps. -/
theorem flush (h : c.Shows q) : ∃ q', q.flush = some (c.flush.1, q') ∧ c.flush.2.Shows q' := by
  unfold Channel.flush SharedQueue.flush
  rw [← h.published, ← h.complete]
  split
  · exact ⟨q, rfl, h⟩
  · have shared := h.shared
    cases asleep : c.asleep with
    | true =>
      rw [asleep, if_pos rfl] at shared
      rw [SharedQueue.exchange, shared, if_neg nofun]
      refine ⟨_, rfl, h.queue, h.complete, h.complete, ?_, h.limit⟩
      simp [h.complete]
    | false =>
      rw [asleep, if_neg Bool.false_ne_true] at shared
      simp only [SharedQueue.exchange, shared, if_true]
      exact ⟨_, rfl, h.queue, rfl, h.complete, rfl, h.limit⟩

/-- A reader that is told of something to read has a limit. -/
theorem checkRead (h : c.Shows q) : q.checkRead.1 = c.checkRead.1 ∧
    c.checkRead.2.Shows q.checkRead.2 ∧
    (c.checkRead.1 = true → q.checkRead.2.limit = some c.checkRead.2.limit) := by
  have shared := h.shared
  unfold Channel.checkRead SharedQueue.checkRead
  rw [← h.queue]
  by_cases ahead : c.queue.frontPos = c.limit
  · have looks : ¬(some c.queue.frontPos ≠ q.limit ∧ q.limit ≠ none) := by
      rcases h.limit with limit | ⟨limit, -⟩ <;> simp [limit, ahead]
    rw [if_neg looks, if_neg (not_not_intro ahead)]
    cases asleep : c.asleep with
    | true =>
      rw [asleep, if_pos rfl] at shared
      rw [SharedQueue.exchange, shared, if_neg nofun]
      refine ⟨rfl, ⟨h.queue, h.published, h.complete, ?_, .inr ⟨rfl, ahead.symm⟩⟩, nofun⟩
      rw [if_pos rfl, asleep, if_pos rfl, shared]
    | false =>
      rw [asleep, if_neg Bool.false_ne_true] at shared
      rw [SharedQueue.exchange, shared, if_neg Bool.false_ne_true]
      by_cases drained : c.published = c.limit
      · rw [if_pos (congrArg some (drained.trans ahead.symm)), if_pos drained]
        refine ⟨?_, ⟨h.queue, h.published, h.complete, rfl, .inl (congrArg some drained)⟩, nofun⟩
        simp [drained, ahead]
      · have found : some c.published ≠ some c.queue.frontPos := by simpa [ahead] using drained
        rw [if_neg found, if_neg drained]
        refine ⟨by simp [found], ⟨h.queue, h.published, h.complete, ?_, .inl rfl⟩, fun _ ↦ rfl⟩
        simp only [shared, Bool.false_eq_true, if_false]
  · obtain limit := h.limit.resolve_right fun limit ↦ ahead limit.2.symm
    have seen : some c.queue.frontPos ≠ q.limit ∧ q.limit ≠ none := by simp [limit, ahead]
    rw [if_pos seen, if_pos ahead]
    exact ⟨rfl, h, fun _ ↦ limit⟩

theorem read (h : c.Shows q) : q.read.1 = c.read.1 ∧ c.read.2.Shows q.read.2 := by
  obtain ⟨told, shows, limit⟩ := h.checkRead
  unfold Channel.read SharedQueue.read
  match found : c.checkRead, found' : q.checkRead with
  | (false, d), (false, e) =>
    rw [found, found'] at shows
    exact ⟨rfl, shows⟩
  | (true, d), (true, e) =>
    rw [found, found'] at shows limit
    have same : d.queue.popFront = e.queue.popFront := by rw [shows.queue]
    exact ⟨congrArg Prod.fst same.symm, congrArg Prod.snd same, shows.published, shows.complete,
      shows.shared, .inl (limit rfl)⟩
  | (true, d), (false, e) | (false, d), (true, e) =>
    rw [found, found'] at told
    exact absurd told nofun

theorem use (h : c.Shows q) (u : QueueUse α) :
    ∃ q', q.use u = some ((c.use u).1, q') ∧ (c.use u).2.Shows q' := by
  cases u with
  | write x incomplete => exact ⟨_, rfl, h.write x incomplete⟩
  | unwrite =>
    obtain ⟨same, shows⟩ := h.unwrite
    exact ⟨_, congrArg some (Prod.ext (congrArg Reply.item same) rfl), shows⟩
  | flush =>
    obtain ⟨q', flushed, shows⟩ := h.flush
    refine ⟨q', ?_, shows⟩
    rw [SharedQueue.use, flushed]
    rfl
  | checkRead =>
    obtain ⟨same, shows, -⟩ := h.checkRead
    exact ⟨_, congrArg some (Prod.ext (congrArg Reply.flag same) rfl), shows⟩
  | read =>
    obtain ⟨same, shows⟩ := h.read
    exact ⟨_, congrArg some (Prod.ext (congrArg Reply.item same) rfl), shows⟩

/-- Whatever both ends do in turn, the queue replies as the channel does, and every flush finds what
it expects. -/
theorem useAll (h : c.Shows q) (us : List (QueueUse α)) :
    ∃ q', q.useAll us = some ((c.useAll us).1, q') ∧ (c.useAll us).2.Shows q' := by
  induction us generalizing c q with
  | nil => exact ⟨q, rfl, h⟩
  | cons u us ih =>
    obtain ⟨q', used, shows⟩ := h.use u
    obtain ⟨q'', others, shows'⟩ := ih shows
    refine ⟨q'', ?_, shows'⟩
    rw [SharedQueue.useAll, used]
    simp only [Option.bind_eq_bind, Option.bind_some, others]
    rfl

end Shows

theorem useAll_concat (c : Channel α) (us : List (QueueUse α)) (u : QueueUse α) :
    (c.useAll (us ++ [u])).2 = ((c.useAll us).2.use u).2 := by
  induction us generalizing c with
  | nil => rfl
  | cons v us ih => exact ih _

/-- What a queue that its two ends share came to. At each use it replied as the channel did, and
every flush found what it expects. -/
def Shared (c : Channel α) : Prop :=
  ∃ (chunkSize : Nat) (us : List (QueueUse α)) (q : SharedQueue α),
    c = ((create chunkSize).useAll us).2 ∧ c.Shows q ∧
      (SharedQueue.create chunkSize).useAll us = some (((create chunkSize).useAll us).1, q)

namespace Shared

variable {c : Channel α}

theorem of_uses (chunkSize : Nat) (us : List (QueueUse α)) :
    ((Channel.create chunkSize).useAll us).2.Shared := by
  obtain ⟨q, used, shows⟩ := (Shows.create chunkSize).useAll us
  exact ⟨chunkSize, us, q, rfl, shows, used⟩

theorem create (chunkSize : Nat) : (Channel.create chunkSize : Channel α).Shared :=
  of_uses chunkSize []

theorem use (h : c.Shared) (u : QueueUse α) : (c.use u).2.Shared := by
  obtain ⟨chunkSize, us, -, rfl, -, -⟩ := h
  rw [← useAll_concat]
  exact of_uses chunkSize (us ++ [u])

theorem write (h : c.Shared) (x : α) (incomplete : Bool) : (c.write x incomplete).Shared :=
  h.use (.write x incomplete)

theorem flush (h : c.Shared) : c.flush.2.Shared := h.use .flush

theorem checkRead (h : c.Shared) : c.checkRead.2.Shared := h.use .checkRead

theorem read (h : c.Shared) : c.read.2.Shared := h.use .read

theorem peek (h : c.Shared) : c.peek.2.Shared := by
  have looked := h.checkRead
  unfold Channel.peek
  split <;> rename_i found <;> rwa [found] at looked

theorem rollback (h : c.Shared) : c.rollback.Shared := by
  unfold Channel.rollback
  generalize c.queue.backPos - c.complete = n
  induction n generalizing c with
  | zero => exact h
  | succ n ih => exact ih (h.use .unwrite)

end Shared

end Channel

namespace Pipe

/-- All queues that an end writes, and the one its commands come through. -/
structure Endpoint.Shared (e : Endpoint) : Prop where
  writing : e.lane.writing.Shared
  fresh : ∀ c ∈ e.lane.fresh, c.Shared
  letters : e.inbox.letters.Shared

structure Link.Shared (l : Link) : Prop where
  self : l.self.Shared
  peer : l.peer.Shared

namespace Endpoint.Shared

variable {e : Endpoint}

theorem of_eq (h : e.Shared) {d : Endpoint}
    (same : (d.lane, d.inbox.letters) = (e.lane, e.inbox.letters)) : d.Shared := by
  obtain ⟨lane, letters⟩ := Prod.mk.inj same
  exact ⟨lane ▸ h.writing, lane ▸ h.fresh, letters ▸ h.letters⟩

theorem reading (h : e.Shared) : e.lane.reading.Shared := by
  unfold Lane.reading
  cases found : e.lane.fresh.getLast? with
  | none => exact h.writing
  | some c => exact h.fresh c (List.mem_of_getLast? found)

theorem setReading (h : e.Shared) {c : Channel Item} (hc : c.Shared) :
    { e with lane := e.lane.setReading c }.Shared := by
  cases fresh : e.lane.fresh with
  | nil =>
    have same : e.lane.setReading c = { e.lane with writing := c } := by
      simp [Lane.setReading, fresh]
    rw [same]
    exact ⟨hc, h.fresh, h.letters⟩
  | cons d others =>
    have same : e.lane.setReading c = { e.lane with fresh := e.lane.fresh.dropLast ++ [c] } := by
      simp [Lane.setReading, fresh]
    rw [same]
    refine ⟨h.writing, fun d hd ↦ ?_, h.letters⟩
    rcases List.mem_append.mp hd with hd | hd
    · exact h.fresh d (List.dropLast_subset _ hd)
    · exact List.mem_singleton.mp hd ▸ hc

theorem renew (h : e.Shared) (chunkSize : Nat) :
    { e with lane := e.lane.renew chunkSize }.Shared := by
  refine ⟨h.writing, fun d hd ↦ ?_, h.letters⟩
  rcases List.mem_append.mp hd with hd | hd
  · exact h.fresh d hd
  · exact List.mem_singleton.mp hd ▸ .create chunkSize

theorem follow (h : e.Shared) : { e with lane := e.lane.follow }.Shared := by
  cases fresh : e.lane.fresh with
  | nil =>
    have same : e.lane.follow = e.lane := by simp [Lane.follow, fresh]
    rw [same]
    exact h
  | cons next others =>
    have same : e.lane.follow = ⟨next, others⟩ := by simp [Lane.follow, fresh]
    rw [same]
    have each := h.fresh
    rw [fresh] at each
    exact ⟨each next List.mem_cons_self, fun d hd ↦ each d (List.mem_cons_of_mem _ hd), h.letters⟩

theorem send (h : e.Shared) (c : Command) : { e with inbox := e.inbox.send c }.Shared :=
  ⟨h.writing, h.fresh, (h.letters.write c false).flush⟩

end Endpoint.Shared

namespace Link.Shared

variable {l : Link}

theorem swap (h : l.Shared) : l.swap.Shared := ⟨h.peer, h.self⟩

theorem send (h : l.Shared) (c : Command) : (l.send c).Shared := ⟨h.self, h.peer.send c⟩

theorem inbound (h : l.Shared) : l.inbound.Shared := h.peer.reading

theorem outbound (h : l.Shared) : l.outbound.Shared := h.self.writing

theorem setInbound (h : l.Shared) {c : Channel Item} (hc : c.Shared) : (l.setInbound c).Shared :=
  ⟨h.self, h.peer.setReading hc⟩

theorem setOutbound (h : l.Shared) {c : Channel Item} (hc : c.Shared) : (l.setOutbound c).Shared :=
  ⟨⟨hc, h.self.fresh, h.self.letters⟩, h.peer⟩

theorem note (h : l.Shared) (n : Note) : (l.modifySelf (·.note n)).Shared := by
  refine ⟨h.self.of_eq ?_, h.peer⟩
  cases n <;> rfl

theorem edit (h : l.Shared) (e : Edit) : (l.edit e).Shared := by
  cases e with
  | note n => exact h.note n
  | tell c => exact h.send c
  | look => exact h.setInbound h.inbound.peek
  | take => exact h.setInbound h.inbound.read
  | takeBack => exact h.setOutbound h.outbound.rollback
  | put x incomplete => exact h.setOutbound (h.outbound.write x incomplete)
  | publish =>
    have flushed := h.setOutbound h.outbound.flush
    rcases l.edit_publish with silent | told
    · exact silent ▸ flushed
    · exact told ▸ flushed.send .activateRead
  | renew => exact ⟨h.self, h.peer.renew _⟩
  | follow => exact ⟨h.self.follow, h.peer⟩
  | receive => exact ⟨⟨h.self.writing, h.self.fresh, h.self.letters.read⟩, h.peer⟩
  | poll => exact ⟨h.self.of_eq rfl, h.peer⟩
  | abandon => exact ⟨h.self, h.peer.of_eq rfl⟩

theorem perform (h : l.Shared) (c : Call) : (l.perform c).Shared :=
  (l.perform_edits c).keep (fun e _ start ↦ start.edit e) h

end Link.Shared

theorem Pair.ofSettings_shared (s : Settings) (side : Side) :
    ((ofSettings s).link side).Shared := by
  have each (id peerId highMark peerMark chunkSize : Nat) (delay : Bool) :
      (endpoint id peerId highMark peerMark chunkSize delay).Shared :=
    ⟨.create chunkSize, nofun, (Channel.Shared.create Mailbox.chunkSize).checkRead⟩
  cases side <;> exact ⟨each .., each ..⟩

/-- Whatever the owners of a pipe do, all its queues are what two ends that share them come to. -/
theorem Pair.run_shared (s : Settings) (side : Side) (calls : List (Side × Call)) :
    (((ofSettings s).run calls).link side).Shared := by
  refine @watch_induction Unit unnoted side (fun l _ ↦ l.Shared) calls ?_ ?_ _ ()
    (ofSettings_shared s side)
  · intro l _ c _ h
    exact h.perform c
  · intro l _ c _ h
    exact (h.swap.perform c).swap

end Pipe

end Conduit
