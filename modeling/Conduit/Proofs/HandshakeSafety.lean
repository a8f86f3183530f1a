import Conduit.Proofs.Assertions
import Conduit.Proofs.SharedPosition

namespace Conduit.Pipe

def State.acks : State → Nat
  | .termAckSent | .doubleTerminated | .terminated => 1
  | _ => 0

/-- How often an end in this state may have asked to terminate. -/
def State.asks : State → Nat
  | .terminating | .doubleTerminated | .terminated => 1
  | _ => 0

theorem State.acks_le_one (s : State) : s.acks ≤ 1 := by
  cases s <;> decide

theorem State.asks_le_one (s : State) : s.asks ≤ 1 := by
  cases s <;> decide

structure Link.Tells (l : Link) (cs : List Command) (l' : Link) : Prop where
  contents : l'.peer.inbox.contents = l.peer.inbox.contents ++ cs
  acks : l.self.state.acks + cs.count .termAck = l'.self.state.acks
  asks : l.self.state.asks + cs.count .term ≤ l'.self.state.asks

namespace Link.Tells

variable {l l₁ l₂ : Link} {cs ds : List Command}

theorem nothing (contents : l₁.peer.inbox.contents = l.peer.inbox.contents)
    (state : l₁.self.state = l.self.state) : l.Tells [] l₁ :=
  ⟨contents.trans (List.append_nil _).symm, state ▸ rfl, state ▸ Nat.le_refl _⟩

theorem turned {s t : State} (contents : l₁.peer.inbox.contents = l.peer.inbox.contents)
    (before : l.self.state = s) (after : l₁.self.state = t) (acks : s.acks = t.acks)
    (asks : s.asks ≤ t.asks) : l.Tells [] l₁ := by
  subst before after
  exact ⟨contents.trans (List.append_nil _).symm, acks, asks⟩

theorem one {c : Command} {s t : State} (sound : l.peer.inbox.Sound)
    (sent : l₁.peer.inbox = l.peer.inbox.send c) (before : l.self.state = s)
    (after : l₁.self.state = t) (acks : s.acks + [c].count .termAck = t.acks)
    (asks : s.asks + [c].count .term ≤ t.asks) : l.Tells [c] l₁ := by
  subst before after
  refine ⟨?_, acks, asks⟩
  rw [sent, (sound.send c).2]

theorem trans (h : l.Tells cs l₁) (more : l₁.Tells ds l₂) : l.Tells (cs ++ ds) l₂ := by
  have acks := h.acks
  have asks := h.asks
  have acks' := more.acks
  have asks' := more.asks
  refine ⟨?_, ?_, ?_⟩
  · rw [more.contents, h.contents, List.append_assoc]
  · rw [List.count_append]
    omega
  · rw [List.count_append]
    omega

theorem meetTerm (sound : l.peer.inbox.Sound) : ∃ cs, l.Tells cs l.meetTerm := by
  unfold Link.meetTerm
  split <;> rename_i state
  · split
    · exact ⟨[], turned rfl state rfl rfl (Nat.le_refl _)⟩
    · exact ⟨[.termAck], one sound rfl state rfl rfl (Nat.le_refl _)⟩
  · exact ⟨[.termAck], one sound rfl state rfl rfl (Nat.le_refl _)⟩
  · exact ⟨[.termAck], one sound rfl state rfl rfl (Nat.le_refl _)⟩
  · exact ⟨[], nothing rfl rfl⟩

theorem meetTermAck (sound : l.peer.inbox.Sound)
    (expected : l.self.state = .terminating ∨ l.self.state = .termAckSent ∨
      l.self.state = .doubleTerminated) : ∃ cs, l.Tells cs l.meetTermAck := by
  rcases expected with state | state | state
  · refine ⟨[.termAck], one sound ?_ state rfl rfl (Nat.le_refl _)⟩
    simp only [Link.meetTermAck, if_pos state]
    rfl
  · refine ⟨[], turned ?_ state rfl rfl (Nat.zero_le _)⟩
    simp only [Link.meetTermAck, state, reduceCtorEq, if_false]
    rfl
  · refine ⟨[], turned ?_ state rfl rfl (Nat.le_refl _)⟩
    simp only [Link.meetTermAck, state, reduceCtorEq, if_false]
    rfl

theorem obey (sound : l.peer.inbox.Sound) {c : Command}
    (expected : c = .termAck → l.self.state = .terminating ∨ l.self.state = .termAckSent ∨
      l.self.state = .doubleTerminated) : ∃ cs, l.Tells cs (l.obey c).2 := by
  cases c with
  | term => exact meetTerm sound
  | termAck => exact meetTermAck sound (expected rfl)
  | watermarks inbound outbound => exact ⟨[], nothing rfl rfl⟩
  | activateRead | activateWrite =>
    refine ⟨[], ?_⟩
    simp only [Link.obey]
    split
    · exact nothing rfl rfl
    · exact nothing rfl rfl
  | hiccup =>
    refine ⟨[], ?_⟩
    simp only [Link.obey, Link.followHiccup]
    split
    · exact nothing rfl rfl
    · exact nothing rfl rfl

end Link.Tells

theorem Move.tells {l l' : Link} {d : Deed} (h : Move l d l') (sound : l.Sound)
    (shaking : l.Shaking) : ∃ cs, l.Tells cs l' := by
  have inbox := sound.peer.inbox
  cases h with
  | adjust self peer => exact ⟨[], .nothing peer.contents self.state⟩
  | @signal c hc =>
    refine ⟨[c], .one inbox rfl rfl rfl ?_ ?_⟩
    · cases c <;> first | rfl | contradiction
    · cases c <;> first | exact Nat.le_refl _ | contradiction
  | look | listen | publish | take => exact ⟨[], .nothing rfl rfl⟩
  | push active =>
    refine ⟨[], ?_⟩
    unfold Link.countWritten
    split
    · exact .nothing rfl rfl
    · exact .nothing rfl rfl
  | takeBack opened => exact ⟨[], .nothing (by rw [Link.rollback_peer]) l.rollback_state⟩
  | meet active front held => exact ⟨[], .turned rfl active rfl rfl (Nat.le_refl _)⟩
  | finish waiting front held =>
    refine ⟨[.termAck], .one inbox ?_ waiting rfl rfl (Nat.le_refl _)⟩
    rw [Link.acknowledge_peer, Link.rollback_peer]
    rfl
  | giveUp waiting =>
    refine ⟨[.termAck], .one inbox ?_ waiting rfl rfl (Nat.le_refl _)⟩
    rw [Link.acknowledge_peer, Link.rollback_peer]
  | renew active => exact ⟨[.hiccup], .one inbox rfl active active rfl (Nat.le_refl _)⟩
  | request unasked =>
    have sent : ((l.send .term).setState .terminating).endStream.peer.inbox =
        l.peer.inbox.send .term := by
      rw [Link.endStream_peer]
      rfl
    have after : ((l.send .term).setState .terminating).endStream.self.state = .terminating := by
      rw [Link.endStream_self]
      rfl
    rcases unasked with before | before
    · exact ⟨[.term], .one inbox sent before after rfl (Nat.le_refl _)⟩
    · exact ⟨[.term], .one inbox sent before after rfl (Nat.le_refl _)⟩
  | delimit waiting =>
    refine ⟨[], .nothing ?_ ?_⟩
    · rw [Link.endStream_peer]
    · rw [Link.endStream_self]
  | @obey c rest b letters hb left =>
    let received := l.modifySelf ({ · with inbox := b })
    have told : ∃ cs, received.Tells cs (received.obey c).2 := by
      apply Link.Tells.obey (l := received) inbox
      rintro rfl
      have due : l.self.due = .termAck :: rest.filter Command.shakes := by
        rw [Endpoint.due, letters, List.filter_cons]
        rfl
      rw [Link.Shaking, due] at shaking
      exact shaking.termAck_expected
    obtain ⟨cs, contents, acks, asks⟩ := told
    exact ⟨cs, contents, acks, asks⟩

theorem Moves.tells {l l' : Link} {ds : List Deed} (h : Moves l ds l') (sound : l.Sound)
    (shaking : l.Shaking) : ∃ cs, l.Tells cs l' := by
  induction h with
  | nil => exact ⟨[], .nothing rfl rfl⟩
  | quiet first _ ih | deed first _ ih =>
    obtain ⟨cs, told⟩ := first.tells sound shaking
    obtain ⟨ds, others⟩ := ih (first.sound sound) (first.shaking sound shaking)
    exact ⟨cs ++ ds, told.trans others⟩

def Link.sent (l : Link) (c : Call) : List Command :=
  (l.perform c).peer.inbox.contents.drop l.peer.inbox.contents.length

def sending : Observer (List Command) where
  own l c sent := sent ++ l.sent c
  peer _ _ sent := sent

theorem Link.tells_perform {l : Link} (sound : l.Sound) (shaking : l.Shaking) (c : Call) :
    l.Tells (l.sent c) (l.perform c) := by
  obtain ⟨cs, told⟩ := (Moves.perform sound c).tells sound shaking
  have same : l.sent c = cs := by rw [sent, told.contents, List.drop_left]
  rwa [same]

theorem Pair.sent_of_state {s : Settings} {p : Pair} (made : create s = .ok p) (side : Side)
    (calls : List (Side × Call)) :
    (p.watch sending side [] calls).count .termAck = ((p.run calls).link side).self.state.acks ∧
      (p.watch sending side [] calls).count .term ≤ ((p.run calls).link side).self.state.asks := by
  obtain ⟨sound, start⟩ := shaking made side []
  have kept := @watch_keep side calls p (List Command) sending
    (fun l sent ↦ l.Shaking ∧ sent.count .termAck = l.self.state.acks ∧
      sent.count .term ≤ l.self.state.asks) ?_ ?_ [] sound ⟨start, ?_⟩
  · exact kept.2.2
  · intro l sent c _ sound moves h
    obtain ⟨shaking, acks, asks⟩ := h
    have told := l.tells_perform sound shaking c
    refine ⟨moves.keep sound (fun _ ↦ Move.shaking) shaking, ?_, ?_⟩
    · rw [sending, List.count_append, acks, told.acks]
    · rw [sending, List.count_append]
      have := told.asks
      omega
  · intro l sent c _ sound moves h
    obtain ⟨shaking, told⟩ := h
    have shaking' := moves.keep sound (fun _ ↦ Move.shaking) shaking.symm
    refine ⟨shaking'.symm, ?_⟩
    rw [Link.swap_self, moves.peer_state]
    exact told
  · obtain ⟨rfl, pos⟩ := create_eq_ok made
    cases side <;> exact ⟨rfl, Nat.le_refl 0⟩

theorem Shaking.of_terminated {s : State} {d q : List Command}
    (h : Shaking s d .terminated q) :
    ((s = .termAckSent ∨ s = .doubleTerminated) ∧ .termAck ∈ d) ∨ s = .terminated := by
  rcases h with h | h
  · cases h with
    | confirmed => exact .inl ⟨.inl rfl, List.mem_cons_self⟩
    | crossedOver => exact .inl ⟨.inr rfl, List.mem_cons_self⟩
    | closed => exact .inr rfl
  · cases h with
    | asked unasked => exact absurd unasked (by simp)
    | closed => exact .inr rfl

/-- Whatever its owners do, nothing that the ends of a pipe assert fails, also as they flush a queue
that both of them share. Each end asks to terminate, agrees to and reports the end of the pipe at
most once. An end is done only if its peer is done too, or has just the agreement left to hear. -/
theorem handshake_safe {s : Settings} {p : Pair} (made : Pair.create s = .ok p)
    (calls : List (Side × Call)) :
    p.run? calls = some (p.run calls) ∧
      (∀ (α : Type) (chunkSize : Nat) (uses : List (QueueUse α)),
        ∃ q, (SharedQueue.create chunkSize).useAll uses =
          some (((Channel.create chunkSize).useAll uses).1, q)) ∧
      ∀ side, let sent := p.watch sending side [] calls
        let l := (p.run calls).link side
        l.Shared ∧ sent.count .term ≤ 1 ∧ sent.count .termAck ≤ 1 ∧
          p.watch reporting side 0 calls ≤ 1 ∧
          (l.peer.state = .terminated →
            ((l.self.state = .termAckSent ∨ l.self.state = .doubleTerminated) ∧
              .termAck ∈ l.self.inbox.contents) ∨ l.self.state = .terminated) := by
  refine ⟨Pair.run?_eq made calls, ?_, ?_⟩
  · intro α chunkSize uses
    obtain ⟨q, used, -⟩ := (Channel.Shows.create chunkSize).useAll uses
    exact ⟨q, used⟩
  · intro side sent l
    obtain ⟨acks, asks⟩ := Pair.sent_of_state made side calls
    have reports := Pair.reports made side calls
    have shaking := (Pair.shaking made side calls).2
    refine ⟨?_, Nat.le_trans asks (State.asks_le_one _), ?_, ?_, ?_⟩
    · obtain ⟨rfl, -⟩ := Pair.create_eq_ok made
      exact Pair.run_shared s side calls
    · exact Nat.le_trans (Nat.le_of_eq acks) (State.acks_le_one _)
    · rw [reports, State.reports]
      split <;> decide
    · intro done
      rw [Link.Shaking, done] at shaking
      rcases shaking.of_terminated with ⟨state, ack⟩ | state
      · exact .inl ⟨state, (List.mem_filter.mp ack).1⟩
      · exact .inr state

theorem handshake_safe_as_requests_cross :
    let p := Pair.ofSettings {}
    let calls : List (Side × Call) := [(.first, .write { flags := Flag.more }), (.second, .hiccup),
      (.first, .terminate true), (.second, .terminate false), (.first, .process),
      (.second, .process)]
    let l := (p.run calls).link .first
    p.run? calls = some (p.run calls) ∧ l.self.state = .doubleTerminated ∧
      .termAck ∈ l.self.inbox.contents := by
  intro p calls l
  obtain ⟨asserted, -, safe⟩ := handshake_safe (s := {}) (p := p) rfl calls
  have done : l.peer.state = .terminated := by decide +kernel
  have waits : l.self.state = .doubleTerminated := by decide +kernel
  refine ⟨asserted, waits, ?_⟩
  rcases (safe .first).2.2.2.2 done with ⟨-, ack⟩ | ended
  · exact ack
  · exact absurd (waits.symm.trans ended) nofun

end Conduit.Pipe
