import Conduit.Proofs.EndpointSound
import Conduit.Proofs.PipeRun

namespace Conduit.Pipe

def Command.isSignal : Command → Bool
  | .activateRead | .activateWrite | .watermarks .. => true
  | .hiccup | .term | .termAck => false

inductive Deed where
  /-- It changes nothing that counts. -/
  | quiet
  | push (m : Message)
  | takeBack
  | publish
  /-- It reads a frame, and counts it unless it is a credential. -/
  | take (m : Message)
  /-- It reads the delimiter before it knows of the request of the peer. -/
  | meet
  /-- It reads the delimiter that it waited for, and agrees to terminate. -/
  | finish
  | renew
  /-- It asks the peer to terminate, behind its last message. -/
  | request
  /-- It ends its messages while those of the peer are still to be read. -/
  | delimit
  /-- It agrees to terminate with messages of the peer still to be read. -/
  | giveUp
  | obey (c : Command)
deriving DecidableEq

namespace Link

def endStream (l : Link) : Link :=
  if l.self.outOpen then l.setOutbound (l.outbound.rollback.write .delimiter false).flush.2 else l

end Link

inductive Move : Link → Deed → Link → Prop
  | adjust {l l' : Link} (self : l'.self.SameBooks l.self) (peer : l'.peer.SameBooks l.peer) :
    Move l .quiet l'
  | signal {l : Link} {c : Command} (hc : c.isSignal = true) : Move l .quiet (l.send c)
  /-- It looks whether there is something to read. -/
  | look {l : Link} {c : Channel Item}
    (held : c.Holds l.inbound.readable l.inbound.awaiting l.inbound.unfinished) :
    Move l .quiet (l.setInbound c)
  /-- It finds no command. -/
  | listen {l : Link} {b : Mailbox Command} (sound : b.Sound)
    (same : b.contents = l.self.inbox.contents) :
    Move l .quiet (l.modifySelf ({ · with inbox := b }))
  | push {l : Link} {m : Message} (active : l.self.state = .active) :
    Move l (.push m) ((l.setOutbound (l.outbound.write (.frame m) m.more)).countWritten m)
  | takeBack {l : Link} (opened : l.self.outOpen = true) : Move l .takeBack l.rollback
  | publish {l : Link} (opened : l.self.outOpen = true) :
    Move l .publish (l.setOutbound l.outbound.flush.2)
  | take {l : Link} {m : Message} {rest : List Item} {c : Channel Item}
    (reads : l.self.state.reads = true) (front : l.inbound.readable = .frame m :: rest)
    (held : c.Holds rest l.inbound.awaiting l.inbound.unfinished) :
    Move l (.take m) ((l.setInbound c).modifySelf fun e ↦
      { e with messagesRead :=
          e.messagesRead + if m.counts && !m.isCredential then 1 else 0 })
  | meet {l : Link} {rest : List Item} {c : Channel Item} (active : l.self.state = .active)
    (front : l.inbound.readable = .delimiter :: rest)
    (held : c.Holds rest l.inbound.awaiting l.inbound.unfinished) :
    Move l .meet ((l.setInbound c).setState .delimiterReceived)
  | finish {l : Link} {rest : List Item} {c : Channel Item}
    (waiting : l.self.state = .waitingForDelimiter)
    (front : l.inbound.readable = .delimiter :: rest)
    (held : c.Holds rest l.inbound.awaiting l.inbound.unfinished) :
    Move l .finish ((l.setInbound c).rollback.acknowledge .termAckSent)
  | renew {l : Link} (active : l.self.state = .active) :
    Move l .renew
      ({ l with peer := { l.peer with lane := l.peer.lane.renew l.self.chunkSize } }.send .hiccup)
  | request {l : Link} (unasked : l.self.state = .active ∨ l.self.state = .delimiterReceived) :
    Move l .request ((l.send .term).setState .terminating).endStream
  | delimit {l : Link} (waiting : l.self.state = .waitingForDelimiter) :
    Move l .delimit l.endStream
  | giveUp {l : Link} (waiting : l.self.state = .waitingForDelimiter) :
    Move l .giveUp (l.rollback.acknowledge .termAckSent)
  | obey {l : Link} {c : Command} {rest : List Command} {b : Mailbox Command}
    (letters : l.self.inbox.contents = c :: rest) (sound : b.Sound) (left : b.contents = rest) :
    Move l (.obey c) ((l.modifySelf ({ · with inbox := b })).obey c).2

inductive Moves : Link → List Deed → Link → Prop
  | nil {l : Link} : Moves l [] l
  | quiet {l l₁ l₂ : Link} {ds : List Deed} (first : Move l .quiet l₁) (others : Moves l₁ ds l₂) :
    Moves l ds l₂
  | deed {l l₁ l₂ : Link} {d : Deed} {ds : List Deed} (first : Move l d l₁)
    (others : Moves l₁ ds l₂) : Moves l (d :: ds) l₂

namespace Moves

theorem append {l l₁ l₂ : Link} {ds es : List Deed} (h : Moves l ds l₁) (more : Moves l₁ es l₂) :
    Moves l (ds ++ es) l₂ := by
  induction h with
  | nil => exact more
  | quiet first _ ih => exact .quiet first (ih more)
  | deed first _ ih => exact .deed first (ih more)

theorem of_move {l l' : Link} {d : Deed} (h : Move l d l') : Moves l [d] l' := .deed h .nil

theorem of_quiet {l l' : Link} (h : Move l .quiet l') : Moves l [] l' := .quiet h .nil

/-- The first deed that counts, and what comes before and behind it. -/
theorem split {l l' : Link} {d : Deed} {ds : List Deed} (h : Moves l (d :: ds) l') :
    ∃ l₁ l₂, Moves l [] l₁ ∧ Move l₁ d l₂ ∧ Moves l₂ ds l' := by
  generalize told : d :: ds = es at h
  induction h with
  | nil => exact absurd told (List.cons_ne_nil _ _)
  | quiet first _ ih =>
    obtain ⟨l₁, l₂, before, deed, behind⟩ := ih told
    exact ⟨l₁, l₂, .quiet first before, deed, behind⟩
  | deed first others _ =>
    obtain ⟨rfl, rfl⟩ := List.cons.inj told
    exact ⟨_, _, .nil, first, others⟩

end Moves

structure Link.Sound (l : Link) : Prop where
  self : l.self.Sound
  peer : l.peer.Sound

theorem Link.Sound.swap {l : Link} (h : l.Sound) : l.swap.Sound := ⟨h.peer, h.self⟩

namespace Link

@[simp] theorem rollback_state (l : Link) : l.rollback.self.state = l.self.state := by
  unfold Link.rollback
  split <;> rfl

theorem Sound.outbound {l : Link} (h : l.Sound) : l.outbound.Sound := h.self.lane.writing

theorem Sound.inbound {l : Link} (h : l.Sound) : l.inbound.Sound := h.peer.lane.reading

theorem Sound.send {l : Link} (h : l.Sound) {c : Command} (hc : c ≠ .hiccup) : (l.send c).Sound :=
  ⟨h.self, h.peer.send hc⟩

theorem Sound.setInbound {l : Link} (h : l.Sound) {c : Channel Item} {r : List Item}
    (held : c.Holds r l.inbound.awaiting l.inbound.unfinished)
    (taken : r <:+ l.inbound.readable) : (l.setInbound c).Sound :=
  ⟨h.self, h.peer.setReading held taken⟩

theorem Sound.setOutbound {l : Link} (h : l.Sound) {c : Channel Item} (sound : c.Sound)
    (unfinished : ∀ x ∈ c.unfinished, x.more = true) (ordered : Lane.Ordered c.queue.toList)
    (unended : l.self.state = .active → .delimiter ∉ c.queue.toList) : (l.setOutbound c).Sound :=
  ⟨h.self.setWriting sound unfinished ordered unended, h.peer⟩

theorem Sound.rollback {l : Link} (h : l.Sound) : l.rollback.Sound := by
  unfold Link.rollback
  split
  · have held := h.outbound.holds.rollback
    have shorter : l.outbound.rollback.queue.toList <+: l.outbound.queue.toList := by
      rw [held.toList_eq, h.outbound.toList_eq, List.append_nil]
      exact List.prefix_append _ _
    refine h.setOutbound held.sound ?_ (h.self.lane.ordered.sublist shorter.sublist) ?_
    · simp [held.unfinished]
    · exact fun active hmem ↦ h.self.unended active (shorter.mem hmem)
  · exact h

theorem Sound.flush {l : Link} (h : l.Sound) : (l.setOutbound l.outbound.flush.2).Sound := by
  have held := h.outbound.holds.flush
  have same : l.outbound.flush.2.queue.toList = l.outbound.queue.toList := by
    rw [held.toList_eq, h.outbound.toList_eq, List.append_nil]
  apply h.setOutbound held.sound
  · rw [held.unfinished]
    exact h.self.lane.unfinished
  · rw [same]
    exact h.self.lane.ordered
  · rw [same]
    exact h.self.unended

theorem Sound.endStream {l : Link} (h : l.Sound) (ended : l.self.state ≠ .active) :
    l.endStream.Sound := by
  unfold Link.endStream
  split
  · have held := (h.outbound.holds.rollback.write_whole .delimiter).flush
    have kept : l.outbound.readable ++ l.outbound.awaiting <+: l.outbound.queue.toList := by
      rw [h.outbound.toList_eq]
      exact List.prefix_append _ _
    refine h.setOutbound held.sound ?_ ?_ (fun active ↦ absurd active ended)
    · simp [held.unfinished]
    · rw [held.toList_eq]
      simpa using Lane.Ordered.concat_delimiter (h.self.lane.ordered.sublist kept.sublist)
  · exact h

theorem Sound.modifySelf {l : Link} (h : l.Sound) {f : Endpoint → Endpoint}
    (same : (f l.self).SameQueues l.self) : (l.modifySelf f).Sound :=
  ⟨h.self.of_sameQueues same, h.peer⟩

theorem Sound.push {l : Link} (h : l.Sound) (m : Message) (active : l.self.state = .active) :
    (l.setOutbound (l.outbound.write (.frame m) m.more)).Sound := by
  have unended : .delimiter ∉ l.outbound.queue.toList := h.self.unended active
  have items : (l.outbound.write (.frame m) m.more).queue.toList =
      l.outbound.queue.toList ++ [.frame m] := by
    simp [Channel.write]
  have ordered : Lane.Ordered (l.outbound.write (.frame m) m.more).queue.toList :=
    items ▸ Lane.Ordered.concat h.self.lane.ordered unended _
  have unended' : .delimiter ∉ (l.outbound.write (.frame m) m.more).queue.toList := by
    simpa [items] using unended
  cases more : m.more with
  | true =>
    rw [more] at ordered unended'
    have held := h.outbound.holds.write_incomplete (.frame m)
    refine h.setOutbound held.sound ?_ ordered (fun _ ↦ unended')
    intro x hx
    rw [held.unfinished] at hx
    rcases List.mem_append.mp hx with hx | hx
    · exact h.self.lane.unfinished x hx
    · rw [List.mem_singleton.mp hx]
      exact more
  | false =>
    rw [more] at ordered unended'
    have held := h.outbound.holds.write_whole (.frame m)
    refine h.setOutbound held.sound ?_ ordered (fun _ ↦ unended')
    simp [held.unfinished]

theorem Sound.setState {l : Link} (h : l.Sound) {state : State} (hs : state ≠ .active)
    (hout : l.self.state.writes = state.writes) (hin : l.self.state ≠ .terminated)
    (hin' : state ≠ .terminated) : (l.setState state).Sound :=
  ⟨h.self.setState hs (h.self.outOpen.trans hout)
    (by rw [h.self.inOpen, bne_iff_ne.mpr hin, bne_iff_ne.mpr hin']), h.peer⟩

theorem Sound.acknowledge {l : Link} (h : l.Sound) {state : State} (hout : state.writes = false)
    (hin : l.self.state ≠ .terminated) (hin' : state ≠ .terminated) :
    (l.acknowledge state).Sound := by
  have hs : state ≠ .active := by
    rintro rfl
    exact absurd hout Bool.noConfusion
  have hopen : l.self.inOpen = (state != .terminated) := by
    rw [h.self.inOpen, bne_iff_ne.mpr hin, bne_iff_ne.mpr hin']
  exact ⟨h.self.setState hs hout.symm hopen, h.peer.send nofun⟩

theorem Sound.ask {l : Link} (h : l.Sound)
    (unasked : l.self.state = .active ∨ l.self.state = .delimiterReceived) :
    ((l.send .term).setState .terminating).Sound := by
  have sent : (l.send .term).Sound := h.send nofun
  have state : (l.send .term).self.state = l.self.state := rfl
  apply sent.setState
  · nofun
  · rcases unasked with h | h <;> rw [state, h] <;> rfl
  · rcases unasked with h | h <;> rw [state, h] <;> nofun
  · nofun

theorem Sound.meetTerm {l : Link} (h : l.Sound) : l.meetTerm.Sound := by
  unfold Link.meetTerm
  split
  · rename_i active
    split
    · exact h.setState nofun (by rw [active]; rfl) (by rw [active]; nofun) nofun
    · exact h.acknowledge rfl (by rw [active]; nofun) nofun
  · rename_i met
    exact h.acknowledge rfl (by rw [met]; nofun) nofun
  · rename_i asked
    exact h.acknowledge rfl (by rw [asked]; nofun) nofun
  · exact h

theorem Sound.meetTermAck {l : Link} (h : l.Sound) : l.meetTermAck.Sound := by
  have closed : { l.self with state := .terminated, inOpen := false, outOpen := false }.Sound :=
    @Endpoint.Sound.setState _ h.self .terminated nofun _ _ rfl rfl
  unfold Link.meetTermAck
  split
  · exact ⟨closed.of_sameQueues (.of_eq rfl), h.peer.send nofun⟩
  · exact ⟨closed.of_sameQueues (.of_eq rfl), h.peer⟩

theorem Sound.followHiccup {l : Link} (h : l.Sound) {b : Mailbox Command} {rest : List Command}
    (letters : l.self.inbox.contents = .hiccup :: rest) (sound : b.Sound)
    (left : b.contents = rest) : (l.modifySelf ({ · with inbox := b })).followHiccup.2.Sound := by
  have followed := h.self.follow letters sound left
  unfold Link.followHiccup
  split
  · exact ⟨followed.of_sameQueues (.of_eq rfl), h.peer⟩
  · exact ⟨followed, h.peer⟩

theorem Sound.obey {l : Link} (h : l.Sound) {c : Command} (hc : c ≠ .hiccup) :
    (l.obey c).2.Sound := by
  cases c with
  | activateRead =>
    simp only [Link.obey]
    split
    · exact ⟨h.self.of_sameQueues (.of_eq rfl), h.peer⟩
    · exact h
  | activateWrite =>
    simp only [Link.obey]
    split
    · exact ⟨h.self.of_sameQueues (.of_eq rfl), h.peer⟩
    · exact h
  | hiccup => contradiction
  | term => exact h.meetTerm
  | termAck => exact h.meetTermAck
  | watermarks inbound outbound =>
    exact ⟨h.self.of_sameQueues (.of_eq rfl), h.peer⟩

end Link

theorem Move.sound {l l' : Link} {d : Deed} (h : Move l d l') (start : l.Sound) : l'.Sound := by
  cases h with
  | adjust self peer =>
    exact ⟨start.self.of_sameQueues self.toSameQueues, start.peer.of_sameQueues peer.toSameQueues⟩
  | @signal c hc =>
    apply start.send
    rintro rfl
    exact absurd hc Bool.noConfusion
  | look held => exact start.setInbound held (List.suffix_refl _)
  | listen sound same => exact ⟨start.self.setInbox sound (by rw [same]), start.peer⟩
  | push active =>
    unfold Link.countWritten
    split
    · exact (start.push _ active).modifySelf (.of_eq rfl)
    · exact start.push _ active
  | takeBack opened => exact start.rollback
  | publish opened => exact start.flush
  | take reads front held =>
    have taken := start.setInbound held (front ▸ List.suffix_cons _ _)
    exact taken.modifySelf (.of_eq rfl)
  | @meet rest c active front held =>
    have taken := start.setInbound held (front ▸ List.suffix_cons _ _)
    have state : (l.setInbound c).self.state = .active := active
    exact taken.setState nofun (by rw [state]; rfl) (by rw [state]; nofun) nofun
  | @finish rest c waiting front held =>
    have taken := (start.setInbound held (front ▸ List.suffix_cons _ _)).rollback
    have state : (l.setInbound c).rollback.self.state = .waitingForDelimiter := by
      rw [Link.rollback_state]
      exact waiting
    exact taken.acknowledge rfl (by rw [state]; nofun) nofun
  | renew active => exact ⟨start.self, start.peer.announce start.self.chunkSize_pos⟩
  | request unasked => exact (start.ask unasked).endStream nofun
  | delimit waiting => exact start.endStream (by rw [waiting]; nofun)
  | giveUp waiting =>
    have state : l.rollback.self.state = .waitingForDelimiter := by rw [l.rollback_state, waiting]
    exact start.rollback.acknowledge rfl (by rw [state]; nofun) nofun
  | @obey c rest b letters sound left =>
    by_cases hc : c = .hiccup
    · subst hc
      exact Link.Sound.followHiccup start letters sound left
    · have received : (l.modifySelf ({ · with inbox := b })).Sound := by
        refine ⟨start.self.setInbox sound ?_, start.peer⟩
        rw [left, letters, List.count_cons_of_ne hc]
      exact received.obey hc

namespace Moves

variable {l l' : Link} {ds : List Deed}

theorem sound (h : Moves l ds l') (start : l.Sound) : l'.Sound := by
  induction h with
  | nil => exact start
  | quiet first _ ih => exact ih (first.sound start)
  | deed first _ ih => exact ih (first.sound start)

/-- What each of some deeds keeps, all of them keep. -/
theorem keep {Inv : Link → Prop} (h : Moves l ds l') (sound : l.Sound)
    (step : ∀ {l d l'}, d = .quiet ∨ d ∈ ds → Move l d l' → l.Sound → Inv l → Inv l')
    (start : Inv l) : Inv l' := by
  induction h with
  | nil => exact start
  | quiet first _ ih => exact ih (first.sound sound) step (step (.inl rfl) first sound start)
  | deed first _ ih =>
    refine ih (first.sound sound) ?_ (step (.inr List.mem_cons_self) first sound start)
    exact fun told ↦ step (told.imp_right (List.mem_cons_of_mem _))

end Moves

end Conduit.Pipe
