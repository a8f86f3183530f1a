import Conduit.Proofs.Wakefulness

namespace Conduit

structure Channel.Settled {α : Type} (c : Channel α) : Prop where
  complete : c.complete = c.queue.backPos
  awake : c.asleep = false

namespace Channel.Settled

variable {α : Type} {c : Channel α}

theorem rollback (h : c.Settled) : c.rollback = c := by
  rw [Channel.rollback, h.complete, Nat.sub_self]
  rfl

theorem write (h : c.Settled) (x : α) : (c.write x false).Settled := ⟨rfl, h.awake⟩

theorem flush (h : c.Settled) : c.flush.1 = true ∧ c.flush.2.Settled := by
  unfold Channel.flush
  split
  · exact ⟨rfl, h⟩
  · exact ⟨by rw [h.awake]; rfl, h.complete, rfl⟩

end Channel.Settled

namespace Pipe

inductive Answer where
  | done
  | whether (b : Bool)
  | frame (m : Option Message)
  | report (r : Link.Report)
  | wait (w : Wait)
deriving DecidableEq

structure Sight where
  id : Nat
  peerId : Nat
  state : State
  marks : Nat × Nat
  room : Bool
  routingId : Option UInt32
  credential : Bytes
  description : String
deriving DecidableEq

namespace Link

def answer (l : Link) : Call → Answer
  | .write m => .whether (l.write m).1
  | .checkWrite => .whether l.checkWrite.1
  | .read => .frame l.read.1
  | .checkRead => .whether l.checkRead.1
  | .process => .report l.process.1
  | .poll => .wait l.poll.1
  | .rollback | .flush | .setWatermarks .. | .setBoosts .. | .sendWatermarks .. | .setNoDelay
  | .setRoutingId _ | .hiccup | .terminate _ | .abandon => .done

def sight (l : Link) : Sight where
  id := l.self.id
  peerId := l.self.peerId
  state := l.self.state
  marks := (l.self.highMark, l.self.lowMark)
  room := l.checkMark
  routingId := l.self.routingId
  credential := l.self.credential
  description := l.self.describe

end Link

namespace Pair

def sights (p : Pair) : Sight × Sight := ((p.link .first).sight, (p.link .second).sight)

/-- All that both owners see of a run. -/
def account : Pair → List (Side × Call) → List (Answer × Sight × Sight)
  | _, [] => []
  | p, (s, c) :: calls =>
    ((p.link s).answer c, (p.perform s c).sights) :: account (p.perform s c) calls

end Pair

namespace State

def Precedes (s t : State) : Prop :=
  (t = .active → s = .active) ∧ (t.reads = true → s.reads = true)

theorem Precedes.refl {s : State} : s.Precedes s := ⟨id, id⟩

theorem precedes_of_not_reads (s : State) {t : State} (h : t.reads = false) : s.Precedes t := by
  refine ⟨?_, fun reads ↦ absurd (h.symm.trans reads) Bool.false_ne_true⟩
  rintro rfl
  exact absurd h.symm Bool.false_ne_true

end State

namespace Endpoint

def alter (e : Endpoint) (delay : Bool) (lane : Lane) : Endpoint := { e with delay, lane }

/-- Two records of an end that differ in its queues, and unless it is active in whether it reads on.
-/
def Like (e e' : Endpoint) : Prop :=
  ∃ delay lane, e' = e.alter delay lane ∧ (e.state = .active → delay = e.delay)

def Blind (f : Endpoint → Endpoint) : Prop :=
  ∀ e delay lane, f (e.alter delay lane) = (f e).alter delay lane

theorem Blind.kept {f : Endpoint → Endpoint} (blind : Blind f) (e : Endpoint) :
    (f e).delay = e.delay ∧ (f e).lane = e.lane := by
  have same : f e = (f e).alter e.delay e.lane := blind e e.delay e.lane
  rw [same]
  exact ⟨rfl, rfl⟩

/-- What an end wrote, in one of two ways, is not read any more, and it will write no more frames.
-/
structure Unread (e e' reader : Endpoint) : Prop where
  settled : e.lane.writing.Settled
  settled' : e'.lane.writing.Settled
  ended : e.state ≠ .active
  followed : .hiccup ∉ e.inbox.contents
  left : reader.state.reads = false

namespace Like

variable {e e' : Endpoint}

theorem refl : e.Like e := ⟨e.delay, e.lane, rfl, fun _ ↦ rfl⟩

theorem state (h : e.Like e') : e'.state = e.state := by
  obtain ⟨delay, lane, rfl, -⟩ := h
  rfl

theorem inOpen (h : e.Like e') : e'.inOpen = e.inOpen := by
  obtain ⟨delay, lane, rfl, -⟩ := h
  rfl

theorem outOpen (h : e.Like e') : e'.outOpen = e.outOpen := by
  obtain ⟨delay, lane, rfl, -⟩ := h
  rfl

theorem inActive (h : e.Like e') : e'.inActive = e.inActive := by
  obtain ⟨delay, lane, rfl, -⟩ := h
  rfl

theorem outActive (h : e.Like e') : e'.outActive = e.outActive := by
  obtain ⟨delay, lane, rfl, -⟩ := h
  rfl

theorem lowMark (h : e.Like e') : e'.lowMark = e.lowMark := by
  obtain ⟨delay, lane, rfl, -⟩ := h
  rfl

theorem messagesRead (h : e.Like e') : e'.messagesRead = e.messagesRead := by
  obtain ⟨delay, lane, rfl, -⟩ := h
  rfl

theorem inbox (h : e.Like e') : e'.inbox = e.inbox := by
  obtain ⟨delay, lane, rfl, -⟩ := h
  rfl

theorem delay (h : e.Like e') (active : e.state = .active) : e'.delay = e.delay := by
  obtain ⟨delay, lane, rfl, same⟩ := h
  exact same active

theorem modify (h : e.Like e') {f : Endpoint → Endpoint} (blind : Blind f)
    (precedes : e.state.Precedes (f e).state) : (f e).Like (f e') := by
  obtain ⟨delay, lane, rfl, same⟩ := h
  exact ⟨delay, lane, blind e delay lane, fun active ↦
    (same (precedes.1 active)).trans (blind.kept e).1.symm⟩

theorem setDelay (h : e.Like e') (delay : Bool) : { e with delay }.Like { e' with delay } := by
  obtain ⟨_, lane, rfl, -⟩ := h
  exact ⟨delay, lane, rfl, fun _ ↦ rfl⟩

theorem setLane (h : e.Like e') (lane lane' : Lane) :
    { e with lane }.Like { e' with lane := lane' } := by
  obtain ⟨delay, _, rfl, same⟩ := h
  exact ⟨delay, lane', rfl, same⟩

end Like

end Endpoint

namespace Link

structure Like (l l' : Link) : Prop where
  self : l.self.Like l'.self
  peer : l.peer.Like l'.peer
  outgoing : l'.self.lane = l.self.lane ∨ l.self.Unread l'.self l.peer
  incoming : l'.peer.lane = l.peer.lane ∨ l.peer.Unread l'.peer l.self

namespace Like

variable {l l' : Link}

theorem swap (h : l.Like l') : l.swap.Like l'.swap := ⟨h.peer, h.self, h.incoming, h.outgoing⟩

theorem outbound (h : l.Like l') :
    l'.outbound = l.outbound ∨ l.outbound.Settled ∧ l'.outbound.Settled :=
  h.outgoing.imp (congrArg Lane.writing) fun unread ↦ ⟨unread.settled, unread.settled'⟩

/-- As long as an end writes or reads, the queue in that direction is the same. -/
theorem lane_of_active (h : l.Like l') (active : l.self.state = .active) :
    l'.self.lane = l.self.lane := by
  rcases h.outgoing with same | unread
  · exact same
  · exact absurd active unread.ended

theorem peer_lane_of_reads (h : l.Like l') (reads : l.self.state.reads = true) :
    l'.peer.lane = l.peer.lane := by
  rcases h.incoming with same | unread
  · exact same
  · exact absurd (unread.left.symm.trans reads) Bool.false_ne_true

theorem inbound_of_reads (h : l.Like l') (reads : l.self.state.reads = true) :
    l'.inbound = l.inbound := congrArg Lane.reading (h.peer_lane_of_reads reads)

theorem sight (h : l.Like l') : l'.sight = l.sight := by
  obtain ⟨e, p⟩ := l
  obtain ⟨e', p'⟩ := l'
  obtain ⟨⟨delay, lane, rfl, -⟩, ⟨delay', lane', rfl, -⟩, -, -⟩ := h
  rfl

theorem modifySelf (h : l.Like l') {f : Endpoint → Endpoint} (blind : Endpoint.Blind f)
    (precedes : l.self.state.Precedes (f l.self).state)
    (inbox : (f l.self).inbox = l.self.inbox) : (l.modifySelf f).Like (l'.modifySelf f) := by
  have lane (e : Endpoint) : (f e).lane = e.lane := (blind.kept e).2
  refine ⟨h.self.modify blind precedes, h.peer, h.outgoing.imp (fun same ↦ ?_) fun unread ↦ ?_,
    h.incoming.imp_right fun unread ↦ ?_⟩
  · exact (lane _).trans (same.trans (lane _).symm)
  · refine ⟨?_, ?_, mt precedes.1 unread.ended, inbox.symm ▸ unread.followed, unread.left⟩
    · exact (lane _).symm ▸ unread.settled
    · exact (lane _).symm ▸ unread.settled'
  · refine { unread with left := ?_ }
    exact Bool.eq_false_iff.mpr (mt precedes.2 (Bool.eq_false_iff.mp unread.left))

/-- A change of other parts of an end than its state. -/
theorem modify (h : l.Like l') {f : Endpoint → Endpoint} (blind : Endpoint.Blind f)
    (state : (f l.self).state = l.self.state) (inbox : (f l.self).inbox = l.self.inbox) :
    (l.modifySelf f).Like (l'.modifySelf f) :=
  h.modifySelf blind (state ▸ .refl) inbox

theorem setDelay (h : l.Like l') (delay : Bool) :
    (l.modifySelf ({ · with delay })).Like (l'.modifySelf ({ · with delay })) := by
  refine ⟨h.self.setDelay delay, h.peer, h.outgoing.imp_right fun unread ↦ ?_,
    h.incoming.imp_right fun unread ↦ ?_⟩
  · exact ⟨unread.settled, unread.settled', unread.ended, unread.followed, unread.left⟩
  · exact { unread with left := unread.left }

theorem setState (h : l.Like l') {state : State} (precedes : l.self.state.Precedes state) :
    (l.setState state).Like (l'.setState state) :=
  h.modifySelf (fun _ _ _ ↦ rfl) precedes rfl

theorem setInbox (h : l.Like l') {b : Mailbox Command}
    (heard : .hiccup ∉ l.self.inbox.contents → .hiccup ∉ b.contents) :
    (l.modifySelf ({ · with inbox := b })).Like (l'.modifySelf ({ · with inbox := b })) := by
  have alike := h.self.modify (f := fun e ↦ { e with inbox := b }) (fun _ _ _ ↦ rfl) .refl
  refine ⟨alike, h.peer, h.outgoing.imp_right fun unread ↦ ?_,
    h.incoming.imp_right fun unread ↦ ?_⟩
  · exact ⟨unread.settled, unread.settled', unread.ended, heard unread.followed, unread.left⟩
  · exact { unread with left := unread.left }

theorem setPeerInbox (h : l.Like l') {f : Mailbox Command → Mailbox Command}
    (told : .hiccup ∉ l.peer.inbox.contents → .hiccup ∉ (f l.peer.inbox).contents) :
    Like { l with peer := { l.peer with inbox := f l.peer.inbox } }
      { l' with peer := { l'.peer with inbox := f l'.peer.inbox } } := by
  rw [h.peer.inbox]
  exact (h.swap.setInbox told).swap

theorem send (h : l.Like l') {c : Command} (plain : c ≠ .hiccup) :
    (l.send c).Like (l'.send c) := by
  refine h.setPeerInbox (f := (·.send c)) fun followed ↦ ?_
  rw [Mailbox.contents_send, List.mem_append, List.mem_singleton, not_or]
  exact ⟨followed, plain.symm⟩

theorem setInbound (h : l.Like l') (reads : l.self.state.reads = true) (c : Channel Item) :
    (l.setInbound c).Like (l'.setInbound c) := by
  have same := h.peer_lane_of_reads reads
  refine ⟨h.self, h.peer.setLane _ _, h.outgoing.imp_right fun unread ↦ ?_, .inl ?_⟩
  · exact { unread with left := unread.left }
  · exact congrArg (Lane.setReading · c) same

theorem setOutbound (h : l.Like l') {f : Channel Item → Channel Item}
    (settled : l.self.state ≠ .active → ∀ c : Channel Item, c.Settled → (f c).Settled) :
    (l.setOutbound (f l.outbound)).Like (l'.setOutbound (f l'.outbound)) := by
  refine ⟨h.self.setLane _ _, h.peer, h.outgoing.imp (fun same ↦ ?_) fun unread ↦ ?_,
    h.incoming.imp_right fun unread ↦ ?_⟩
  · exact congrArg (fun lane : Lane ↦ { lane with writing := f lane.writing }) same
  · have settled := settled unread.ended
    exact ⟨settled _ unread.settled, settled _ unread.settled', unread.ended, unread.followed,
      unread.left⟩
  · exact { unread with left := unread.left }

theorem rollback (h : l.Like l') : l.rollback.Like l'.rollback := by
  unfold Link.rollback
  rw [h.self.outOpen]
  split
  · exact h.setOutbound fun _ _ settled ↦ settled.rollback.symm ▸ settled
  · exact h

theorem acknowledge (h : l.Like l') {state : State} (ended : state.reads = false) :
    (l.acknowledge state).Like (l'.acknowledge state) := by
  have closed : l.closeOut.Like l'.closeOut := h.modify (fun _ _ _ ↦ rfl) rfl rfl
  exact (closed.send (by simp)).setState (State.precedes_of_not_reads _ ended)

theorem fallIdle (h : l.Like l') : l.fallIdle.Like l'.fallIdle :=
  h.modify (fun _ _ _ ↦ rfl) rfl rfl

theorem meetDelimiter (h : l.Like l') : l.meetDelimiter.Like l'.meetDelimiter := by
  unfold Link.meetDelimiter
  rw [h.self.state]
  split
  · exact h.setState (State.precedes_of_not_reads _ rfl)
  · exact h.rollback.acknowledge rfl
  · exact h

theorem checkRead (h : l.Like l') :
    l'.checkRead.1 = l.checkRead.1 ∧ l.checkRead.2.Like l'.checkRead.2 := by
  unfold Link.checkRead
  rw [Endpoint.canRead_eq, Endpoint.canRead_eq, h.self.state, h.self.inOpen]
  split
  · exact ⟨rfl, h⟩
  · rename_i able
    have reads : l.self.state.reads = true := by
      simp only [Bool.or_eq_true, Bool.not_eq_true', not_or] at able
      exact Bool.not_eq_false _ ▸ able.1
    rw [h.inbound_of_reads reads]
    have looked := h.setInbound reads l.inbound.peek.2
    dsimp only
    cases l.inbound.peek.1 with
    | none => exact ⟨rfl, looked.fallIdle⟩
    | some item =>
      cases item with
      | delimiter =>
        refine ⟨rfl, ?_⟩
        rw [looked.inbound_of_reads reads]
        exact (looked.setInbound reads _).meetDelimiter
      | frame m => exact ⟨rfl, looked⟩

theorem readItem (h : l.Like l') (reads : l.self.state.reads = true) :
    l'.readItem.1 = l.readItem.1 ∧ l.readItem.2.Like l'.readItem.2 ∧
      l.readItem.2.self = l.self := by
  unfold Link.readItem
  rw [h.self.inOpen, h.inbound_of_reads reads]
  split
  · exact ⟨rfl, h.setInbound reads _, rfl⟩
  · exact ⟨rfl, h, rfl⟩

theorem countRead (h : l.Like l') (m : Message) : (l.countRead m).Like (l'.countRead m) := by
  unfold Link.countRead
  rw [h.self.messagesRead]
  split
  · have counted := h.modify (f := ({ · with messagesRead := l.self.messagesRead + 1 }))
      (fun _ _ _ ↦ rfl) rfl rfl
    dsimp only
    rw [counted.self.lowMark]
    split
    · exact counted.send (c := .activateWrite) (by simp)
    · exact counted
  · exact h

theorem readN (h : l.Like l') (reads : l.self.state.reads = true) (turns : Nat) :
    (Link.readN turns l').1 = (Link.readN turns l).1 ∧
      (Link.readN turns l).2.Like (Link.readN turns l').2 := by
  induction turns generalizing l l' with
  | zero => exact ⟨rfl, h⟩
  | succ turns ih =>
    obtain ⟨same, took, self⟩ := h.readItem reads
    rw [Link.readN, Link.readN]
    generalize l.readItem = r at same took self
    generalize l'.readItem = r' at same took
    obtain ⟨item, k⟩ := r
    obtain ⟨item', k'⟩ := r'
    obtain rfl : item' = item := same
    dsimp only at took self ⊢
    cases item' with
    | none => exact ⟨rfl, took.fallIdle⟩
    | some item =>
      cases item with
      | delimiter => exact ⟨rfl, took.meetDelimiter⟩
      | frame m =>
        dsimp only
        split
        · have kept := took.modify (f := ({ · with credential := m.data }))
            (fun _ _ _ ↦ rfl) rfl rfl
          exact ih kept ((congrArg (·.state.reads) self).trans reads)
        · exact ⟨rfl, took.countRead m⟩

theorem read (h : l.Like l') : l'.read.1 = l.read.1 ∧ l.read.2.Like l'.read.2 := by
  unfold Link.read
  rw [Endpoint.canRead_eq, Endpoint.canRead_eq, h.self.state]
  split
  · rename_i reads
    rw [h.inbound_of_reads reads]
    exact h.readN reads _
  · exact ⟨rfl, h⟩

theorem checkWrite (h : l.Like l') : l'.checkWrite.1 = l.checkWrite.1 ∧
    l.checkWrite.2.Like l'.checkWrite.2 ∧ (l.checkWrite.1 = true →
      l.checkWrite.2 = l ∧ l'.checkWrite.2 = l' ∧ l.self.state = .active) := by
  have room : l'.checkMark = l.checkMark := congrArg Sight.room h.sight
  unfold Link.checkWrite
  rw [h.self.state, h.self.outOpen, room]
  split
  · exact ⟨rfl, h, fun able ↦ absurd able Bool.false_ne_true⟩
  · rename_i able
    have active : l.self.state = .active := by
      simp only [Bool.or_eq_true, not_or, bne_iff_ne, not_not] at able
      exact able.1
    split
    · exact ⟨rfl, h, fun _ ↦ ⟨rfl, rfl, active⟩⟩
    · have idle := h.modify (f := ({ · with outActive := false })) (fun _ _ _ ↦ rfl) rfl rfl
      exact ⟨rfl, idle, fun able ↦ absurd able Bool.false_ne_true⟩

theorem countWritten (h : l.Like l') (m : Message) :
    (l.countWritten m).Like (l'.countWritten m) := by
  unfold Link.countWritten
  split
  · exact h.modify (fun _ _ _ ↦ rfl) rfl rfl
  · exact h

theorem write (h : l.Like l') (m : Message) :
    (l'.write m).1 = (l.write m).1 ∧ (l.write m).2.Like (l'.write m).2 := by
  obtain ⟨same, looked, able⟩ := h.checkWrite
  unfold Link.write
  generalize l.checkWrite = r at same looked able
  generalize l'.checkWrite = r' at same looked able
  obtain ⟨room, k⟩ := r
  obtain ⟨room', k'⟩ := r'
  obtain rfl : room' = room := same
  dsimp only at looked able ⊢
  cases room' with
  | false => exact ⟨rfl, looked⟩
  | true =>
    obtain ⟨rfl, rfl, active⟩ := able rfl
    refine ⟨rfl, Like.countWritten ?_ m⟩
    exact looked.setOutbound (f := (·.write (.frame m) m.more)) fun ended ↦ absurd active ended

theorem flush (h : l.Like l') : l.flush.Like l'.flush := by
  unfold Link.flush
  rw [h.self.state, h.self.outOpen]
  split
  · exact h
  · have flushed : (l.setOutbound l.outbound.flush.2).Like (l'.setOutbound l'.outbound.flush.2) :=
      h.setOutbound (f := (·.flush.2)) fun _ _ settled ↦ settled.flush.2
    have awake : l'.outbound.flush.1 = l.outbound.flush.1 := by
      rcases h.outbound with same | ⟨settled, settled'⟩
      · rw [same]
      · rw [settled.flush.1, settled'.flush.1]
    dsimp only
    rw [awake]
    split
    · exact flushed
    · exact flushed.send (c := .activateRead) (by simp)

theorem hiccup (h : l.Like l') : l.hiccup.Like l'.hiccup := by
  unfold Link.hiccup
  rw [h.self.state, h.self.inOpen]
  split
  · rename_i able
    have reads : l.self.state.reads = true := by rw [able.1]; rfl
    have outgoing := h.lane_of_active able.1
    have incoming := h.peer_lane_of_reads reads
    obtain ⟨e, r⟩ := l
    obtain ⟨e', r'⟩ := l'
    obtain ⟨⟨delay, lane, rfl, same⟩, ⟨delay', lane', rfl, same'⟩, -, -⟩ := h
    obtain rfl : lane = e.lane := outgoing
    obtain rfl : lane' = r.lane := incoming
    exact ⟨⟨delay, _, rfl, same⟩, ⟨delay', _, rfl, same'⟩, .inl rfl, .inl rfl⟩
  · exact h

theorem writeDelimiter (h : l.Like l') : l.writeDelimiter.Like l'.writeDelimiter := by
  have idle := h.modify (f := ({ · with outActive := false })) (fun _ _ _ ↦ rfl) rfl rfl
  unfold Link.writeDelimiter
  dsimp only
  rw [idle.self.outOpen]
  split
  · apply Like.flush
    exact idle.rollback.setOutbound (f := (·.write .delimiter false)) fun _ _ settled ↦
      settled.write _
  · exact idle

theorem terminate (h : l.Like l') (delay : Bool) :
    (l.terminate delay).Like (l'.terminate delay) := by
  have asked := h.setDelay delay
  have requested := (asked.send (c := .term) (by simp)).setState
    (State.precedes_of_not_reads _ (t := .terminating) rfl)
  have agreed : ((l.modifySelf ({ · with delay })).rollback.acknowledge .termAckSent).Like
      ((l'.modifySelf ({ · with delay })).rollback.acknowledge .termAckSent) :=
    asked.rollback.acknowledge rfl
  unfold Link.terminate
  dsimp only
  rw [asked.self.state]
  split
  · exact asked
  · exact asked
  · exact asked
  · exact asked
  · exact requested.writeDelimiter
  · exact requested.writeDelimiter
  · split
    · exact asked.writeDelimiter
    · exact agreed.writeDelimiter

/-- A change of the queues that an end writes, where they are the same. -/
theorem modifyLane (h : l.Like l') (lane : l'.self.lane = l.self.lane) {f : Endpoint → Endpoint}
    (blind : ∀ (e : Endpoint) delay, f (e.alter delay e.lane) = (f e).alter delay (f e).lane)
    (state : (f l.self).state = l.self.state) : (l.modifySelf f).Like (l'.modifySelf f) := by
  obtain ⟨delay, queues, altered, same⟩ := h.self
  have queues : queues = l.self.lane := by
    rw [altered] at lane
    exact lane
  rw [queues] at altered
  have changed : f l'.self = (f l.self).alter delay (f l.self).lane := by rw [altered, blind]
  have kept : (f l.self).delay = l.self.delay := by
    have own : f l.self = (f l.self).alter l.self.delay (f l.self).lane := blind l.self l.self.delay
    rw [own]
    rfl
  have followed : (f l'.self).lane = (f l.self).lane := by
    rw [changed]
    rfl
  refine ⟨⟨delay, _, changed, fun active ↦ ?_⟩, h.peer, .inl followed,
    h.incoming.imp_right fun unread ↦ ?_⟩
  · exact (same (state ▸ active)).trans kept.symm
  · exact { unread with left := (congrArg State.reads state).trans unread.left }

theorem followHiccup (h : l.Like l') (lane : l'.self.lane = l.self.lane) :
    l'.followHiccup.1 = l.followHiccup.1 ∧ l.followHiccup.2.Like l'.followHiccup.2 := by
  have outbound : l'.outbound = l.outbound := congrArg Lane.writing lane
  unfold Link.followHiccup
  rw [h.self.outOpen, outbound]
  split
  · generalize (l.outbound.flush.2.readAll).1.countP Item.counts = unread
    have followed := h.modifyLane lane (f := fun e ↦
      { e with
        lane := e.lane.follow
        messagesWritten := e.messagesWritten - unread
        outActive := true }) (fun _ _ ↦ rfl) rfl
    dsimp only
    rw [followed.self.state]
    exact ⟨rfl, followed⟩
  · exact ⟨rfl, h.modifyLane lane (f := fun e ↦ { e with lane := e.lane.follow })
      (fun _ _ ↦ rfl) rfl⟩

theorem meetTerm (h : l.Like l') : l.meetTerm.Like l'.meetTerm := by
  unfold Link.meetTerm
  rw [h.self.state]
  split
  · rename_i active
    rw [h.self.delay active]
    split
    · exact h.setState (by rw [active]; exact ⟨nofun, fun _ ↦ rfl⟩)
    · exact h.acknowledge rfl
  · exact h.acknowledge rfl
  · exact h.acknowledge rfl
  · exact h

theorem meetTermAck (h : l.Like l') : l.meetTermAck.Like l'.meetTermAck := by
  have closed : (l.closeOut.send .termAck).Like (l'.closeOut.send .termAck) :=
    (h.modify (f := ({ · with outOpen := false })) (fun _ _ _ ↦ rfl) rfl rfl).send (by simp)
  unfold Link.meetTermAck
  rw [h.self.state]
  split
  · exact closed.modifySelf (fun _ _ _ ↦ rfl) (State.precedes_of_not_reads _ rfl) rfl
  · exact h.modifySelf (fun _ _ _ ↦ rfl) (State.precedes_of_not_reads _ rfl) rfl

theorem obey (h : l.Like l') {c : Command} (lane : c = .hiccup → l'.self.lane = l.self.lane) :
    (l'.obey c).1 = (l.obey c).1 ∧ (l.obey c).2.Like (l'.obey c).2 := by
  cases c with
  | activateRead =>
    simp only [Link.obey]
    rw [Endpoint.canRead_eq, Endpoint.canRead_eq, h.self.state, h.self.inActive]
    split
    · exact ⟨rfl, h.modify (f := ({ · with inActive := true })) (fun _ _ _ ↦ rfl) rfl rfl⟩
    · exact ⟨rfl, h⟩
  | activateWrite =>
    simp only [Link.obey]
    rw [h.self.state, h.self.outActive]
    split
    · exact ⟨rfl, h.modify (f := ({ · with outActive := true })) (fun _ _ _ ↦ rfl) rfl rfl⟩
    · exact ⟨rfl, h⟩
  | hiccup => exact h.followHiccup (lane rfl)
  | term => exact ⟨rfl, h.meetTerm⟩
  | termAck => exact ⟨rfl, h.meetTermAck⟩
  | watermarks inbound outbound =>
    exact ⟨rfl, h.modify (f := (·.setWatermarks inbound outbound)) (fun _ _ _ ↦ rfl) rfl rfl⟩

theorem processN (h : l.Like l') (sound : l.self.inbox.Sound) (turns : Nat) :
    (Link.processN turns l').1 = (Link.processN turns l).1 ∧
      (Link.processN turns l).2.Like (Link.processN turns l').2 := by
  induction turns generalizing l l' with
  | zero => exact ⟨rfl, h⟩
  | succ turns ih =>
    simp only [Link.processN, receive, h.self.inbox]
    cases letters : l.self.inbox.contents with
    | nil =>
      obtain ⟨b, found, -, left⟩ := sound.receive_nil letters
      rw [found]
      exact ⟨rfl, h.setInbox fun _ ↦ left ▸ List.not_mem_nil⟩
    | cons c rest =>
      obtain ⟨b, found, sound', left⟩ := sound.receive_cons letters
      rw [found]
      dsimp only
      have received := h.setInbox (b := b) fun followed ↦ by
        rw [letters, List.mem_cons, not_or] at followed
        exact left ▸ followed.2
      have lane : c = .hiccup → l'.self.lane = l.self.lane := by
        rintro rfl
        rcases h.outgoing with same | unread
        · exact same
        · exact absurd (letters ▸ List.mem_cons_self) unread.followed
      obtain ⟨events, obeyed⟩ := received.obey lane
      have kept : ((l.modifySelf ({ · with inbox := b })).obey c).2.self.inbox = b :=
        (obey_self _ c).1
      obtain ⟨report, others⟩ := ih obeyed (kept.symm ▸ sound')
      rw [events, report]
      exact ⟨rfl, others⟩

/-- What nobody can tell apart nobody can tell apart after a call, whatever its answer. -/
theorem perform (h : l.Like l') (sound : l.Sound) (c : Call) :
    l'.answer c = l.answer c ∧ (l.perform c).Like (l'.perform c) := by
  cases c with
  | write m => exact ⟨congrArg Answer.whether (h.write m).1, (h.write m).2⟩
  | rollback => exact ⟨rfl, h.rollback⟩
  | flush => exact ⟨rfl, h.flush⟩
  | checkWrite => exact ⟨congrArg Answer.whether h.checkWrite.1, h.checkWrite.2.1⟩
  | read => exact ⟨congrArg Answer.frame h.read.1, h.read.2⟩
  | checkRead => exact ⟨congrArg Answer.whether h.checkRead.1, h.checkRead.2⟩
  | setWatermarks inbound outbound =>
    exact ⟨rfl, h.modify (f := (·.setWatermarks inbound outbound)) (fun _ _ _ ↦ rfl) rfl rfl⟩
  | setBoosts inbound outbound =>
    exact ⟨rfl, h.modify (f := (·.setBoosts inbound outbound)) (fun _ _ _ ↦ rfl) rfl rfl⟩
  | sendWatermarks inbound outbound => exact ⟨rfl, h.send (by simp)⟩
  | setNoDelay => exact ⟨rfl, h.setDelay false⟩
  | setRoutingId routingId =>
    exact ⟨rfl, h.modify (f := ({ · with routingId })) (fun _ _ _ ↦ rfl) rfl rfl⟩
  | hiccup => exact ⟨rfl, h.hiccup⟩
  | terminate delay => exact ⟨rfl, h.terminate delay⟩
  | process =>
    have processed := h.processN sound.self.inbox (l.self.inbox.letters.queue.length + 1)
    simp only [answer, Link.perform, Link.process, h.self.inbox]
    exact ⟨congrArg Answer.report processed.1, processed.2⟩
  | poll =>
    simp only [answer, Link.perform, Link.poll, h.self.inbox]
    exact ⟨trivial, h.setInbox id⟩
  | abandon => exact ⟨rfl, h.setPeerInbox (f := Mailbox.close) id⟩

end Like

end Link

namespace Pair

variable {p p' : Pair} {side : Side}

theorem sights_eq (h : (p.link side).Like (p'.link side)) : p'.sights = p.sights := by
  have own := h.sight
  have peer := h.swap.sight
  cases side with
  | first => exact Prod.ext own peer
  | second => exact Prod.ext peer own

theorem account_eq (h : (p.link side).Like (p'.link side)) (sound : (p.link side).Sound)
    (calls : List (Side × Call)) : p'.account calls = p.account calls := by
  induction calls generalizing p p' with
  | nil => rfl
  | cons call calls ih =>
    obtain ⟨s, c⟩ := call
    have next : (p'.link s).answer c = (p.link s).answer c ∧
        ((p.perform s c).link side).Like ((p'.perform s c).link side) ∧
        ((p.perform s c).link side).Sound := by
      by_cases own : s = side
      · subst own
        obtain ⟨answer, like⟩ := h.perform sound c
        rw [perform_own, perform_own]
        exact ⟨answer, like, sound.perform c⟩
      · obtain rfl := Side.eq_other_of_ne own
        obtain ⟨answer, like⟩ := h.swap.perform sound.swap c
        rw [perform_other, perform_other, link_other, link_other]
        exact ⟨answer, like.swap, (sound.swap.perform c).swap⟩
    obtain ⟨answer, like, sound⟩ := next
    rw [account, account, answer, sights_eq like, ih like sound]

end Pair

end Pipe

end Conduit
