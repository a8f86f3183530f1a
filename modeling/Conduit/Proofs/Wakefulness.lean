import Conduit.Proofs.CallEdits
import Conduit.Proofs.Line

namespace Conduit

namespace Channel

variable {α : Type}

theorem asleep_rollback (c : Channel α) : c.rollback.asleep = c.asleep := by
  unfold Channel.rollback
  generalize c.queue.backPos - c.complete = n
  induction n generalizing c with
  | zero => rfl
  | succ n ih =>
    rw [unwriteN, ih]
    unfold unwrite
    split <;> rfl

theorem asleep_flush {c : Channel α} (awake : c.flush.1 = true) :
    c.flush.2.asleep = c.asleep := by
  unfold Channel.flush at awake ⊢
  split
  · rfl
  · rename_i published
    rw [if_neg published] at awake
    simpa using awake

theorem asleep_peek_of_some {c : Channel α} {x : α} (h : c.peek.1 = some x) :
    c.peek.2.asleep = c.asleep := by
  unfold peek at h ⊢
  split <;> rename_i found
  · rw [found] at h
    exact absurd h nofun
  · have same := asleep_checkRead (c := c) (by rw [found])
    rwa [found] at same

theorem Holds.asleep_peek_nil {c : Channel α} {a u : List α} (h : c.Holds [] a u) :
    c.peek.2.asleep = true := by
  have read := h.asleep_read_nil
  obtain ⟨d, found, -⟩ := h.checkRead_nil
  rw [Channel.read, found] at read
  rwa [peek, found]

end Channel

theorem Mailbox.contents_send {α : Type} (b : Mailbox α) (x : α) :
    (b.send x).contents = b.contents ++ [x] := by
  have kept (c : Channel α) : c.flush.2.queue = c.queue := by
    unfold Channel.flush
    split <;> rfl
  simp only [contents, send, kept, Channel.write, ChunkQueue.toList_pushBack]

namespace Pipe

namespace Lane

theorem reading_setWriting (l : Lane) (c : Channel Item) :
    { l with writing := c }.reading = if l.fresh = [] then c else l.reading := by
  unfold reading
  match l.fresh with
  | [] => rfl
  | next :: others => rw [List.getLast?_cons, if_neg (List.cons_ne_nil _ _)]; rfl

theorem reading_follow (l : Lane) : l.follow.reading = l.reading := by
  obtain ⟨writing, fresh⟩ := l
  match fresh with
  | [] => rfl
  | [next] => rfl
  | next :: other :: others =>
    simp only [reading, follow, List.getLast?_cons, Option.getD_some]

end Lane

namespace Link

def Wakeful (l : Link) : Prop :=
  l.self.inActive = false → l.self.state.reads = true →
    l.inbound.asleep = true ∨ .activateRead ∈ l.self.inbox.contents

structure Spares (l l' : Link) : Prop where
  inActive : l'.peer.inActive = l.peer.inActive
  state : l'.peer.state = l.peer.state
  letters : l.peer.inbox.contents ⊆ l'.peer.inbox.contents
  asleep : l.self.lane.reading.asleep = true →
    l'.self.lane.reading.asleep = true ∨ .activateRead ∈ l'.peer.inbox.contents

structure Writes (l l' : Link) : Prop extends l.Spares l' where
  idle : l'.self.inActive = l.self.inActive
  reads : l'.self.state.reads = true → l.self.state.reads = true
  contents : l'.self.inbox.contents = l.self.inbox.contents
  inbound : l'.inbound = l.inbound

namespace Spares

variable {l l₁ l₂ : Link}

theorem refl : l.Spares l := ⟨rfl, rfl, List.Subset.refl _, .inl⟩

theorem trans (h : l.Spares l₁) (h' : l₁.Spares l₂) : l.Spares l₂ := by
  refine ⟨h'.inActive.trans h.inActive, h'.state.trans h.state, ?_, ?_⟩
  · exact List.Subset.trans h.letters h'.letters
  · intro asleep
    rcases h.asleep asleep with asleep | woken
    · exact h'.asleep asleep
    · exact .inr (h'.letters woken)

theorem wakeful (h : l.Spares l₁) (wakeful : l.swap.Wakeful) : l₁.swap.Wakeful := by
  intro idle reads
  simp only [swap_self, h.inActive, h.state] at idle reads
  rcases wakeful idle reads with asleep | woken
  · exact h.asleep asleep
  · exact .inr (h.letters woken)

theorem send (l : Link) (c : Command) : l.Spares (l.send c) := by
  refine ⟨rfl, rfl, ?_, .inl⟩
  have sent : (l.send c).peer.inbox.contents = l.peer.inbox.contents ++ [c] :=
    Mailbox.contents_send _ c
  rw [sent]
  exact List.subset_append_left _ _

theorem setInbound (l : Link) (c : Channel Item) : l.Spares (l.setInbound c) :=
  ⟨rfl, rfl, List.Subset.refl _, .inl⟩

theorem setOutbound {c : Channel Item} (asleep : c.asleep = l.outbound.asleep) :
    l.Spares (l.setOutbound c) := by
  refine ⟨rfl, rfl, List.Subset.refl _, ?_⟩
  intro sleeps
  left
  have reading : (l.setOutbound c).self.lane.reading =
      if l.self.lane.fresh = [] then c else l.self.lane.reading := Lane.reading_setWriting _ c
  rw [reading]
  split
  · rename_i still
    rwa [asleep, outbound, ← Lane.reading_eq_writing still]
  · exact sleeps

/-- A flush finds the peer awake or tells it. -/
theorem publish (l : Link) : l.Spares (l.edit .publish) := by
  simp only [Link.edit]
  split <;> rename_i awake
  · exact setOutbound (Channel.asleep_flush awake)
  · have told := Mailbox.contents_send l.peer.inbox .activateRead
    refine ⟨rfl, rfl, (send (l.setOutbound l.outbound.flush.2) .activateRead).letters, fun _ ↦ ?_⟩
    right
    simp only [Link.send, Link.setOutbound, Link.modifySelf, told]
    exact List.mem_append_right _ List.mem_cons_self

theorem follow (l : Link) : l.Spares (l.edit .follow) := by
  refine ⟨rfl, rfl, List.Subset.refl _, ?_⟩
  intro asleep
  left
  rwa [← Lane.reading_follow] at asleep

theorem note (l : Link) (n : Note) : l.Spares (l.modifySelf (·.note n)) := by
  cases n <;> exact ⟨rfl, rfl, List.Subset.refl _, .inl⟩

theorem edit (l : Link) (e : Edit) : l.Spares (l.edit e) := by
  cases e with
  | note n => exact note l n
  | tell c => exact send l c
  | look | take => exact setInbound l _
  | takeBack => exact setOutbound (Channel.asleep_rollback _)
  | put x incomplete => exact setOutbound rfl
  | publish => exact publish l
  | follow => exact follow l
  | renew | receive | poll | abandon => exact ⟨rfl, rfl, List.Subset.refl _, .inl⟩

theorem of_edits {s : List Scope} (h : Edits s l l₁) : l.Spares l₁ :=
  h.lift refl trans fun l e _ ↦ edit l e

end Spares

namespace Writes

variable {l l₁ l₂ : Link}

theorem refl : l.Writes l :=
  { Spares.refl with idle := rfl, reads := id, contents := rfl, inbound := rfl }

theorem trans (h : l.Writes l₁) (h' : l₁.Writes l₂) : l.Writes l₂ :=
  { h.toSpares.trans h'.toSpares with
    idle := h'.idle.trans h.idle
    reads := fun reads ↦ h.reads (h'.reads reads)
    contents := h'.contents.trans h.contents
    inbound := h'.inbound.trans h.inbound }

theorem wakeful (h : l.Writes l₁) (wakeful : l.Wakeful) : l₁.Wakeful := by
  intro idle reads
  rw [h.inbound, h.contents]
  exact wakeful (h.idle.symm.trans idle) (h.reads reads)

theorem note {n : Note} (aloof : .input ∉ n.scope ∧ .ending ∉ n.scope) :
    l.Writes (l.modifySelf (·.note n)) := by
  obtain ⟨unread, unended⟩ := aloof
  have spares := Spares.note l n
  cases n with
  | state s =>
    refine { spares with idle := rfl, reads := ?_, contents := rfl, inbound := rfl }
    intro (reads : s.reads = true)
    rw [Note.scope, if_pos reads] at unread
    exact absurd List.mem_cons_self unread
  | inActive => exact absurd List.mem_cons_self unread
  | terminated => exact absurd List.mem_cons_self unended
  | closeOut | outActive | counted | written | unwritten | credential | marks | boosts | delay
  | routingId => exact { spares with idle := rfl, reads := id, contents := rfl, inbound := rfl }

/-- It neither reads nor hears commands nor ends the handshake. -/
theorem of_edits {s : List Scope} (h : Edits s l l₁)
    (aloof : .input ∉ s ∧ .inbox ∉ s ∧ .ending ∉ s) : l.Writes l₁ := by
  obtain ⟨unread, unheard, unended⟩ := aloof
  refine h.lift refl trans ?_
  intro l e within
  have spares := Spares.edit l e
  cases e with
  | note n => exact note ⟨fun h ↦ unread (within h), fun h ↦ unended (within h)⟩
  | look | take | renew => exact absurd (within List.mem_cons_self) unread
  | receive => exact absurd (within List.mem_cons_self) unheard
  | publish =>
    rcases l.edit_publish with same | same <;> rw [same] at spares ⊢ <;>
      exact { spares with idle := rfl, reads := id, contents := rfl, inbound := rfl }
  | tell | takeBack | put | follow | poll | abandon =>
    exact { spares with idle := rfl, reads := id, contents := rfl, inbound := rfl }

theorem meetDelimiter (l : Link) : l.Writes l.meetDelimiter :=
  of_edits (s := []) (meetDelimiter_edits l) (by simp)

/-- Asked to terminate, an end goes on reading only if it does so far. -/
theorem meetTerm (l : Link) : l.Writes l.meetTerm := by
  have agreed (state : State) (ends : state.reads = false) : l.Writes (l.acknowledge state) :=
    of_edits (s := []) (acknowledge_edits l ends) (by simp)
  unfold Link.meetTerm
  split <;> rename_i state
  · split
    · refine { Spares.note l (.state .waitingForDelimiter) with
        idle := rfl
        reads := ?_
        contents := rfl
        inbound := rfl }
      intro _
      rw [state]
      rfl
    · exact agreed _ rfl
  · exact agreed _ rfl
  · exact agreed _ rfl
  · exact refl

end Writes

variable {l : Link}

/-- What it comes to that an end looks for something to read, and whether it finds nothing. -/
structure Reads (l : Link) (nothing : Prop) (l' : Link) : Prop extends l.Spares l' where
  wakeful : l.Wakeful → l'.Wakeful
  reads : l'.self.state.reads = true → l.self.state.reads = true
  idle : nothing → l'.self.state.reads = true → l'.self.inActive = false

theorem Reads.nothing {c : Channel Item} (asleep : c.asleep = true) :
    l.Reads True (l.setInbound c).fallIdle := by
  refine { Spares.setInbound l c with wakeful := ?_, reads := id, idle := fun _ _ ↦ rfl }
  intro _ _ _
  left
  have inbound : (l.setInbound c).fallIdle.inbound = c := l.inbound_setInbound c
  rwa [inbound]

theorem Reads.something {c : Channel Item} (asleep : c.asleep = l.inbound.asleep) :
    l.Reads False (l.setInbound c) := by
  refine { Spares.setInbound l c with wakeful := ?_, reads := id, idle := nofun }
  intro wakeful idle reads
  rw [inbound_setInbound, asleep]
  exact wakeful idle reads

theorem Reads.then_writes {n : Prop} {l₁ l₂ : Link} (h : l.Reads False l₁) (h' : l₁.Writes l₂)
    (some : ¬n) : l.Reads n l₂ :=
  { h.toSpares.trans h'.toSpares with
    wakeful := fun wakeful ↦ h'.wakeful (h.wakeful wakeful)
    reads := fun reads ↦ h.reads (h'.reads reads)
    idle := fun none ↦ absurd none some }

/-- A delimiter ends the reading. -/
theorem Reads.ended {n : Prop} {c : Channel Item} (reads : l.self.state.reads = true) :
    l.Reads n (l.setInbound c).meetDelimiter := by
  have writes := Writes.meetDelimiter (l.setInbound c)
  have ended : (l.setInbound c).meetDelimiter.self.state.reads = false := by
    have same : (l.setInbound c).self.state = l.self.state := rfl
    unfold Link.meetDelimiter
    rw [same]
    match state : l.self.state with
    | .active | .waitingForDelimiter => rfl
    | .delimiterReceived | .termAckSent | .terminating | .doubleTerminated | .terminated =>
      rw [state] at reads
      exact absurd reads Bool.false_ne_true
  have never {P : Prop} (still : (l.setInbound c).meetDelimiter.self.state.reads = true) : P :=
    absurd (ended.symm.trans still) Bool.false_ne_true
  exact { (Spares.setInbound l c).trans writes.toSpares with
    wakeful := fun _ _ still ↦ never still
    reads := fun _ ↦ reads
    idle := fun _ still ↦ never still }

theorem Sound.reads_readN (h : l.Sound) (reads : l.self.state.reads = true) {turns : Nat}
    (enough : l.inbound.readable.length < turns) :
    l.Reads ((Link.readN turns l).1 = none) (Link.readN turns l).2 := by
  induction turns generalizing l with
  | zero => omega
  | succ turns ih =>
    have opened := h.inOpen reads
    have held := h.inbound.holds
    cases front : l.inbound.readable using Item.front_cases with
    | nothing =>
      rw [front] at held
      obtain ⟨c, found, -⟩ := held.read_nil
      have asleep := held.asleep_read_nil
      rw [found] at asleep
      simp only [Link.readN, Link.readItem, opened, if_true, found]
      exact .nothing asleep
    | delimiter rest =>
      rw [front] at held
      obtain ⟨c, found, -⟩ := held.read_cons
      simp only [Link.readN, Link.readItem, opened, if_true, found]
      exact .ended reads
    | frame m rest =>
      rw [front] at held
      obtain ⟨c, found, left⟩ := held.read_cons
      have asleep := held.asleep_read_cons
      rw [found] at asleep
      have took : l.Reads False (l.setInbound c) := .something asleep
      simp only [Link.readN, Link.readItem, opened, if_true, found]
      split
      · let kept : Link := (l.setInbound c).modifySelf ({ · with credential := m.data })
        have note : (l.setInbound c).Writes kept :=
          .note (n := .credential m.data) (by simp [Note.scope])
        have keeps : l.Reads False kept := took.then_writes note id
        have sound : kept.Sound :=
          (h.setInbound left (front ▸ List.suffix_cons _ _)).modifySelf (.of_eq rfl)
        have items : kept.inbound.readable = rest := by
          have inbound : kept.inbound = c := l.inbound_setInbound c
          rw [inbound, left.readable]
        have others := ih sound reads (by rw [items]; rw [front, List.length_cons] at enough; omega)
        exact { keeps.toSpares.trans others.toSpares with
          wakeful := fun wakeful ↦ others.wakeful (keeps.wakeful wakeful)
          reads := fun _ ↦ reads
          idle := others.idle }
      · exact took.then_writes (.of_edits (countRead_edits _ m) (by simp)) (Option.some_ne_none m)

theorem Sound.reads_read (h : l.Sound) : l.Reads (l.read.1 = none) l.read.2 := by
  match reads : l.self.state.reads with
  | true =>
    have whole := h.reads_readN reads h.length_readable_lt
    rwa [Link.read, l.self.canRead_eq, if_pos reads]
  | false =>
    rw [read_of_not_reads reads]
    refine { Spares.refl with wakeful := id, reads := id, idle := ?_ }
    intro _ still
    exact absurd (reads.symm.trans still) Bool.false_ne_true

theorem Sound.reads_checkRead (h : l.Sound) : l.Reads (l.checkRead.1 = false) l.checkRead.2 := by
  match reads : l.self.state.reads with
  | true =>
    have opened : ¬(!l.self.canRead || !l.self.inOpen) = true := by
      rw [l.self.canRead_eq, reads, h.inOpen reads]
      exact Bool.false_ne_true
    have held := h.inbound.holds
    cases front : l.inbound.readable using Item.front_cases with
    | nothing =>
      rw [front] at held
      obtain ⟨c, found, -⟩ := held.peek_nil
      have asleep := held.asleep_peek_nil
      rw [found] at asleep
      simp only [Link.checkRead, if_neg opened, found]
      exact .nothing asleep
    | delimiter rest =>
      rw [front] at held
      obtain ⟨c, found, -⟩ := held.peek_cons
      have asleep := Channel.asleep_peek_of_some (c := l.inbound) (by rw [found])
      rw [found] at asleep
      simp only [Link.checkRead, if_neg opened, found]
      have looked : l.Reads False (l.setInbound c) := .something asleep
      let behind := (l.setInbound c).inbound.read.2
      have ended : (l.setInbound c).Reads True ((l.setInbound c).setInbound behind).meetDelimiter :=
        .ended reads
      exact { looked.toSpares.trans ended.toSpares with
        wakeful := fun wakeful ↦ ended.wakeful (looked.wakeful wakeful)
        reads := fun _ ↦ reads
        idle := fun _ ↦ ended.idle trivial }
    | frame m rest =>
      rw [front] at held
      obtain ⟨c, found, -⟩ := held.peek_cons
      have asleep := Channel.asleep_peek_of_some (c := l.inbound) (by rw [found])
      rw [found] at asleep
      simp only [Link.checkRead, if_neg opened, found]
      exact (Reads.something asleep).then_writes .refl Bool.false_ne_true.symm
  | false =>
    rw [checkRead_of_not_reads reads]
    refine { Spares.refl with wakeful := id, reads := id, idle := ?_ }
    intro _ still
    exact absurd (reads.symm.trans still) Bool.false_ne_true

structure Hears (l : Link) (events : List Event) (l' : Link) : Prop extends l.Spares l' where
  wakeful : l.Wakeful → l'.Wakeful
  reads : l'.self.state.reads = true → l.self.state.reads = true
  woken : .readActivated ∈ events → l.self.inActive = false ∧ l.self.state.reads = true
  active : l'.self.state.reads = true →
    (l'.self.inActive = true ↔ l.self.inActive = true ∨ .readActivated ∈ events)

theorem Hears.trans {l₁ l₂ : Link} {es es' : List Event} (h : l.Hears es l₁)
    (h' : l₁.Hears es' l₂) : l.Hears (es ++ es') l₂ := by
  refine { h.toSpares.trans h'.toSpares with
    wakeful := fun wakeful ↦ h'.wakeful (h.wakeful wakeful)
    reads := fun reads ↦ h.reads (h'.reads reads)
    woken := ?_
    active := ?_ }
  · intro told
    rcases List.mem_append.mp told with told | told
    · exact h.woken told
    · obtain ⟨idle, reads⟩ := h'.woken told
      have before := mt (h.active reads).mpr (by rw [idle]; exact Bool.false_ne_true)
      exact ⟨Bool.eq_false_iff.mpr fun active ↦ before (.inl active), h.reads reads⟩
  · intro reads
    rw [h'.active reads, h.active (h'.reads reads), List.mem_append, or_assoc]

variable {b : Mailbox Command} {c : Command} {rest : List Command}

/-- What an end hears that is no signal to read. -/
theorem Writes.hears {l' : Link} {events : List Event}
    (h : (l.modifySelf ({ · with inbox := b })).Writes l')
    (letters : .activateRead ∈ l.self.inbox.contents → .activateRead ∈ b.contents)
    (silent : .readActivated ∉ events) : l.Hears events l' := by
  refine { h.toSpares with
    wakeful := ?_
    reads := h.reads
    woken := fun told ↦ absurd told silent
    active := ?_ }
  · intro wakeful
    apply h.wakeful
    intro idle reads
    exact (wakeful idle reads).imp_right letters
  · intro _
    rw [h.idle, or_iff_left silent]
    rfl

theorem hears_activateRead :
    l.Hears ((l.modifySelf ({ · with inbox := b })).obey .activateRead).1
      ((l.modifySelf ({ · with inbox := b })).obey .activateRead).2 := by
  let received : Link := l.modifySelf ({ · with inbox := b })
  by_cases idle : l.self.inActive = false ∧ l.self.state.reads = true
  · have heard : received.obey .activateRead =
        ([.readActivated], received.modifySelf ({ · with inActive := true })) := by
      have reads : received.self.canRead = true := by rw [Endpoint.canRead_eq]; exact idle.2
      have asleep : received.self.inActive = false := idle.1
      rw [Carries.obey_activateRead reads, if_pos asleep]
    rw [heard]
    exact { (Spares.refl : l.Spares l) with
      wakeful := fun _ active ↦ absurd active.symm Bool.false_ne_true
      reads := id
      woken := fun _ ↦ idle
      active := fun _ ↦ iff_of_true rfl (.inr List.mem_cons_self) }
  · have heard : received.obey .activateRead = ([], received) := by
      have deaf : ¬(!received.self.inActive && received.self.canRead) = true := by
        rw [Endpoint.canRead_eq]
        simpa [received, modifySelf] using idle
      rw [obey, if_neg deaf]
    rw [heard]
    exact { (Spares.refl : l.Spares l) with
      wakeful := fun _ active reads ↦ absurd ⟨active, reads⟩ idle
      reads := id
      woken := fun told ↦ absurd told List.not_mem_nil
      active := fun _ ↦ (or_iff_left List.not_mem_nil).symm }

theorem hears_termAck :
    l.Hears [.terminated] (l.modifySelf ({ · with inbox := b })).meetTermAck := by
  let received : Link := l.modifySelf ({ · with inbox := b })
  have spares : received.Spares received.meetTermAck := .of_edits (meetTermAck_edits received)
  have ended : ¬received.meetTermAck.self.state.reads = true := by
    unfold meetTermAck
    split <;> exact Bool.false_ne_true
  exact { spares with
    wakeful := fun _ _ still ↦ absurd still ended
    reads := fun still ↦ absurd still ended
    woken := by simp
    active := fun still ↦ absurd still ended }

theorem hears_obey (letters : l.self.inbox.contents = c :: rest) (left : b.contents = rest) :
    l.Hears ((l.modifySelf ({ · with inbox := b })).obey c).1
      ((l.modifySelf ({ · with inbox := b })).obey c).2 := by
  have kept (other : c ≠ .activateRead) (h : .activateRead ∈ l.self.inbox.contents) :
      .activateRead ∈ b.contents := by
    rw [letters] at h
    rw [left]
    exact (List.mem_cons.mp h).resolve_left other.symm
  cases c with
  | activateRead => exact hears_activateRead
  | termAck => exact hears_termAck
  | term => exact (Writes.meetTerm _).hears (kept (by simp)) List.not_mem_nil
  | watermarks inbound outbound =>
    have adjusted := Writes.of_edits (obey_edits (l.modifySelf ({ · with inbox := b }))
      (.watermarks inbound outbound)) (by simp [Command.scopes])
    exact adjusted.hears (kept (by simp)) List.not_mem_nil
  | activateWrite =>
    have resumed := Writes.of_edits (obey_edits (l.modifySelf ({ · with inbox := b }))
      .activateWrite) (by simp [Command.scopes])
    apply resumed.hears (kept (by simp))
    simp only [obey]
    split <;> simp
  | hiccup =>
    have followed := Writes.of_edits (followHiccup_edits (l.modifySelf ({ · with inbox := b })))
      (by simp)
    apply followed.hears (kept (by simp))
    simp only [obey, followHiccup]
    split
    · split <;> simp
    · exact List.not_mem_nil

theorem Hearing.hears {l' : Link} {cs : List Command} {es : List Event}
    (h : l.Hearing cs es l') : l.Hears es l' := by
  induction h with
  | @done l => exact Writes.hears (b := l.self.inbox) .refl id List.not_mem_nil
  | listen _ same => exact Writes.refl.hears (same ▸ id) List.not_mem_nil
  | obey letters _ left _ ih => exact (hears_obey letters left).trans ih

theorem Sound.hears_process (h : l.Sound) : l.Hears l.process.1.events l.process.2 :=
  h.hearing_process.hears

theorem wakeful_hiccup (wakeful : l.Wakeful) : l.hiccup.Wakeful := by
  unfold Link.hiccup
  split
  · intro idle
    exact absurd idle nofun
  · exact wakeful

/-- What a call does that neither reads nor hears commands nor moves on to a fresh queue. -/
theorem Writes.perform (l : Link) {c : Call}
    (other : c ≠ .read ∧ c ≠ .checkRead ∧ c ≠ .process ∧ c ≠ .hiccup) :
    l.Writes (l.perform c) :=
  of_edits (l.perform_edits c) (by cases c <;> simp_all [Call.scopes])

theorem Spares.perform (l : Link) (c : Call) : l.Spares (l.perform c) := of_edits (l.perform_edits c)

theorem Sound.wakeful_perform (h : l.Sound) (c : Call) (wakeful : l.Wakeful) :
    (l.perform c).Wakeful := by
  by_cases other : c ≠ .read ∧ c ≠ .checkRead ∧ c ≠ .process ∧ c ≠ .hiccup
  · exact (Writes.perform l other).wakeful wakeful
  · simp only [ne_eq, not_and_or, not_not] at other
    rcases other with rfl | rfl | rfl | rfl
    · exact h.reads_read.wakeful wakeful
    · exact h.reads_checkRead.wakeful wakeful
    · exact h.hears_process.wakeful wakeful
    · exact wakeful_hiccup wakeful

/-- A wakeful end that has something to read, and fell idle before it came, was told. -/
theorem Sound.told (h : l.Sound) (wakeful : l.Wakeful) (idle : l.self.inActive = false)
    (reads : l.self.state.reads = true) (some : l.inbound.readable ≠ []) :
    .activateRead ∈ l.self.inbox.contents := by
  apply (wakeful idle reads).resolve_left
  intro asleep
  exact some (h.inbound.holds.asleep asleep)

end Link

end Pipe

end Conduit
