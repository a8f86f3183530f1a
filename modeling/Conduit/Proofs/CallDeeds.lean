import Conduit.Proofs.PipeDeeds

namespace Conduit.Pipe

def Deed.ofDelimiter (state : State) : Deed := if state = .active then .meet else .finish

def Deed.ofRead (state : State) : List Item → List Deed
  | [] => []
  | .delimiter :: _ => [.ofDelimiter state]
  | .frame m :: rest => .take m :: if m.isCredential then ofRead state rest else []

def Deed.ofLook (state : State) : List Item → List Deed
  | .delimiter :: _ => [.ofDelimiter state]
  | _ => []

def Item.answer : List Item → Option Message
  | [] => none
  | .delimiter :: _ => none
  | .frame m :: rest => if m.isCredential then answer rest else some m

@[elab_as_elim]
theorem Item.front_cases {motive : List Item → Prop} (nothing : motive [])
    (frame : ∀ m rest, motive (.frame m :: rest)) (delimiter : ∀ rest, motive (.delimiter :: rest))
    (items : List Item) : motive items :=
  match items with
  | [] => nothing
  | .frame m :: rest => frame m rest
  | .delimiter :: rest => delimiter rest

namespace Link

def deeds (l : Link) : Call → List Deed
  | .write m => if l.checkWrite.1 then [.push m] else []
  | .rollback => if l.self.outOpen then [.takeBack] else []
  | .flush => if l.self.state = .termAckSent ∨ l.self.outOpen = false then [] else [.publish]
  | .read => if l.self.state.reads then Deed.ofRead l.self.state l.inbound.readable else []
  | .checkRead => if l.self.state.reads then Deed.ofLook l.self.state l.inbound.readable else []
  | .hiccup => if l.self.state = .active then [.renew] else []
  | .terminate delay =>
    match l.self.state with
    | .active | .delimiterReceived => [.request]
    | .waitingForDelimiter => [if delay then .delimit else .giveUp]
    | _ => []
  | .process => l.self.inbox.contents.map .obey
  | _ => []

end Link

def Deed.isRead : Deed → Bool
  | .take _ | .meet | .finish => true
  | _ => false

def Call.allows : Call → Deed → Bool
  | .write _, .push _ | .rollback, .takeBack | .flush, .publish | .hiccup, .renew => true
  | .terminate _, .request | .terminate _, .delimit | .terminate _, .giveUp => true
  | .process, .obey _ => true
  | .read, d | .checkRead, d => d.isRead
  | _, _ => false

theorem Deed.isRead_ofDelimiter (s : State) : (ofDelimiter s).isRead = true := by
  unfold ofDelimiter
  split <;> rfl

theorem Deed.isRead_of_mem_ofRead {s : State} {items : List Item} {d : Deed}
    (h : d ∈ ofRead s items) : d.isRead = true := by
  induction items with
  | nil => exact absurd h List.not_mem_nil
  | cons x rest ih =>
    cases x with
    | delimiter =>
      rw [List.mem_singleton.mp h]
      exact isRead_ofDelimiter s
    | frame m =>
      rw [ofRead, List.mem_cons] at h
      rcases h with rfl | h
      · rfl
      · split at h
        · exact ih h
        · exact absurd h List.not_mem_nil

theorem Deed.isRead_of_mem_ofLook {s : State} {items : List Item} {d : Deed}
    (h : d ∈ ofLook s items) : d.isRead = true := by
  unfold ofLook at h
  split at h
  · rw [List.mem_singleton.mp h]
    exact isRead_ofDelimiter s
  · exact absurd h List.not_mem_nil

theorem Link.allows_of_mem_deeds {l : Link} {c : Call} {d : Deed} (h : d ∈ l.deeds c) :
    c.allows d = true := by
  have one {b : Prop} [Decidable b] {e : Deed} (h : d ∈ if b then [e] else []) : d = e := by
    split at h
    · exact List.mem_singleton.mp h
    · exact absurd h List.not_mem_nil
  cases c with
  | write | rollback | hiccup =>
    rw [one h]
    rfl
  | flush =>
    simp only [deeds] at h
    split at h
    · exact absurd h List.not_mem_nil
    · rw [List.mem_singleton.mp h]
      rfl
  | read =>
    simp only [deeds] at h
    split at h
    · exact Deed.isRead_of_mem_ofRead h
    · exact absurd h List.not_mem_nil
  | checkRead =>
    simp only [deeds] at h
    split at h
    · exact Deed.isRead_of_mem_ofLook h
    · exact absurd h List.not_mem_nil
  | terminate delay =>
    simp only [deeds] at h
    split at h
    · rw [List.mem_singleton.mp h]
      rfl
    · rw [List.mem_singleton.mp h]
      rfl
    · rw [List.mem_singleton.mp h]
      cases delay <;> rfl
    · exact absurd h List.not_mem_nil
  | process =>
    obtain ⟨c, -, rfl⟩ := List.mem_map.mp h
    rfl
  | checkWrite | setWatermarks | setBoosts | sendWatermarks | setNoDelay | setRoutingId | poll
  | abandon => exact absurd h List.not_mem_nil

theorem Link.renew_notMem_deeds {l : Link} {c : Call} (hc : c ≠ .hiccup) : .renew ∉ l.deeds c := by
  intro hd
  have allowed := allows_of_mem_deeds hd
  cases c with
  | hiccup => contradiction
  | _ => exact absurd allowed Bool.false_ne_true

namespace Link

theorem Sound.inOpen {l : Link} (h : l.Sound) (reads : l.self.state.reads = true) :
    l.self.inOpen = true := by
  rw [h.self.inOpen, bne_iff_ne]
  intro terminated
  rw [terminated] at reads
  exact absurd reads Bool.noConfusion

theorem checkWrite_moves (l : Link) :
    Moves l [] l.checkWrite.2 ∧
      (l.checkWrite.1 = true → l.checkWrite.2 = l ∧ l.self.state = .active) := by
  unfold checkWrite
  split
  · exact ⟨.nil, fun h ↦ absurd h Bool.false_ne_true⟩
  · rename_i opened
    have active : l.self.state = .active := by
      simp only [Bool.or_eq_true, not_or, bne_iff_ne, ne_eq, not_not] at opened
      exact opened.1
    split
    · exact ⟨.nil, fun _ ↦ ⟨rfl, active⟩⟩
    · exact ⟨.of_quiet (.adjust (.of_eq rfl) .refl),
        fun h ↦ absurd h Bool.false_ne_true⟩

theorem of_push_mem_deeds {l : Link} {c : Call} {m : Message} (h : .push m ∈ l.deeds c) :
    c = .write m ∧ l.checkWrite.1 = true := by
  have allowed := allows_of_mem_deeds h
  cases c with
  | write x =>
    simp only [deeds] at h
    split at h
    · exact ⟨congrArg Call.write (Deed.push.inj (List.mem_singleton.mp h)).symm, ‹_›⟩
    · exact absurd h List.not_mem_nil
  | _ => exact absurd allowed Bool.false_ne_true

theorem of_obey_mem_deeds {l : Link} {c : Call} {x : Command} (h : .obey x ∈ l.deeds c) :
    x ∈ l.self.inbox.contents := by
  have allowed := allows_of_mem_deeds h
  cases c with
  | process =>
    obtain ⟨y, hy, same⟩ := List.mem_map.mp h
    exact Deed.obey.inj same ▸ hy
  | _ => exact absurd allowed Bool.false_ne_true

theorem write_moves (l : Link) (m : Message) :
    Moves l (l.deeds (.write m)) (l.perform (.write m)) := by
  obtain ⟨moves, accepted⟩ := l.checkWrite_moves
  simp only [deeds, perform, write]
  match h : l.checkWrite with
  | (false, l') =>
    rw [h] at moves
    simpa using moves
  | (true, l') =>
    rw [h] at accepted
    obtain ⟨rfl, active⟩ := accepted rfl
    exact .of_move (.push active)

theorem flush_moves {l : Link} (state : l.self.state ≠ .termAckSent)
    (opened : l.self.outOpen = true) : Moves (l.setOutbound l.outbound.flush.2) [] l.flush := by
  have open' : ¬(l.self.state = .termAckSent ∨ l.self.outOpen = false) := by simp [state, opened]
  simp only [flush, if_neg open']
  split
  · exact .nil
  · exact .of_quiet (.signal rfl)

@[simp] theorem inbound_setInbound (l : Link) (c : Channel Item) :
    (l.setInbound c).inbound = c := Lane.reading_setReading _ c

theorem readItem_self (l : Link) : l.readItem.2.self = l.self := by
  unfold readItem
  split <;> rfl

theorem Sound.readItem_cons {l : Link} (h : l.Sound) (reads : l.self.state.reads = true) {x : Item}
    {rest : List Item} (front : l.inbound.readable = x :: rest) :
    ∃ c, l.readItem = (some x, l.setInbound c) ∧
      c.Holds rest l.inbound.awaiting l.inbound.unfinished := by
  have held := h.inbound.holds
  rw [front] at held
  obtain ⟨c, hc, hheld⟩ := held.read_cons
  exact ⟨c, by rw [readItem, if_pos (h.inOpen reads), hc], hheld⟩

theorem Sound.readItem_nil {l : Link} (h : l.Sound) (reads : l.self.state.reads = true)
    (front : l.inbound.readable = []) :
    ∃ c, l.readItem = (none, l.setInbound c) ∧
      c.Holds l.inbound.readable l.inbound.awaiting l.inbound.unfinished := by
  have held := h.inbound.holds
  rw [front] at held
  obtain ⟨c, hc, hheld⟩ := held.read_nil
  exact ⟨c, by rw [readItem, if_pos (h.inOpen reads), hc], by rwa [front]⟩

theorem fallIdle_moves (l : Link) : Moves l [] l.fallIdle :=
  .of_quiet (.adjust (.of_eq rfl) .refl)

theorem meetDelimiter_moves {l : Link} (reads : l.self.state.reads = true) {rest : List Item}
    {c : Channel Item} (front : l.inbound.readable = .delimiter :: rest)
    (held : c.Holds rest l.inbound.awaiting l.inbound.unfinished) :
    Moves l [.ofDelimiter l.self.state] (l.setInbound c).meetDelimiter := by
  match state : l.self.state with
  | .active =>
    have met : (l.setInbound c).meetDelimiter = (l.setInbound c).setState .delimiterReceived := by
      simp [meetDelimiter, setInbound, state]
    rw [met]
    exact .of_move (.meet state front held)
  | .waitingForDelimiter =>
    have met : (l.setInbound c).meetDelimiter =
        (l.setInbound c).rollback.acknowledge .termAckSent := by
      simp [meetDelimiter, setInbound, state]
    rw [met]
    exact .of_move (.finish state front held)
  | .delimiterReceived | .termAckSent | .terminating | .doubleTerminated | .terminated =>
    rw [state] at reads
    exact absurd reads Bool.noConfusion

theorem countRead_moves {l : Link} {c : Channel Item} {m : Message} {rest : List Item}
    (reads : l.self.state.reads = true) (front : l.inbound.readable = .frame m :: rest)
    (held : c.Holds rest l.inbound.awaiting l.inbound.unfinished)
    (frame : m.isCredential = false) : Moves l [.take m] ((l.setInbound c).countRead m) := by
  have took := Move.take reads front held
  rw [frame, Bool.not_false, Bool.and_true] at took
  simp only [countRead]
  split
  · rename_i counted
    rw [if_pos counted] at took
    split
    · exact .deed took (.of_quiet (.signal rfl))
    · exact .of_move took
  · rename_i uncounted
    rw [if_neg uncounted] at took
    exact .of_move took

theorem keepCredential_moves {l : Link} {c : Channel Item} {m : Message} {rest : List Item}
    (reads : l.self.state.reads = true) (front : l.inbound.readable = .frame m :: rest)
    (held : c.Holds rest l.inbound.awaiting l.inbound.unfinished)
    (credential : m.isCredential = true) :
    Moves l [.take m] ((l.setInbound c).modifySelf ({ · with credential := m.data })) := by
  have took := Move.take reads front held
  rw [credential, Bool.not_true, Bool.and_false] at took
  exact .deed took (.of_quiet (.adjust (.of_eq rfl) .refl))

/-- Reading past credentials takes them, and then what is behind them. -/
theorem Sound.readN {l : Link} (h : l.Sound) (reads : l.self.state.reads = true) {turns : Nat}
    (enough : l.inbound.readable.length < turns) :
    (readN turns l).1 = Item.answer l.inbound.readable ∧
      Moves l (Deed.ofRead l.self.state l.inbound.readable) (readN turns l).2 := by
  induction turns generalizing l with
  | zero => omega
  | succ turns ih =>
    cases front : l.inbound.readable using Item.front_cases with
    | nothing =>
      obtain ⟨c, hc, held⟩ := h.readItem_nil reads front
      simp only [Link.readN, hc]
      exact ⟨rfl, .quiet (.look held) (fallIdle_moves _)⟩
    | delimiter rest =>
      obtain ⟨c, hc, held⟩ := h.readItem_cons reads front
      simp only [Link.readN, hc]
      exact ⟨rfl, meetDelimiter_moves reads front held⟩
    | frame m rest =>
      obtain ⟨c, hc, held⟩ := h.readItem_cons reads front
      simp only [Link.readN, hc]
      split
      · rename_i credential
        have took := keepCredential_moves reads front held credential
        have items : (l.setInbound c).inbound.readable = rest := by
          rw [inbound_setInbound, held.readable]
        rw [front, List.length_cons] at enough
        have fewer : (l.setInbound c).inbound.readable.length < turns := by
          rw [items]
          omega
        have next := ih (took.sound h) reads fewer
        rw [Item.answer, Deed.ofRead, if_pos credential, if_pos credential, ← items]
        exact ⟨next.1, took.append next.2⟩
      · rename_i frame
        rw [Item.answer, Deed.ofRead, if_neg frame, if_neg frame]
        exact ⟨rfl, countRead_moves reads front held (by simpa using frame)⟩

theorem Sound.length_readable_lt {l : Link} (h : l.Sound) :
    l.inbound.readable.length < l.inbound.queue.length + 1 := by
  have hlen := h.inbound.queue.length_eq
  rw [h.inbound.toList_eq, List.length_append, List.length_append] at hlen
  rw [ChunkQueue.length]
  omega

theorem Sound.read {l : Link} (h : l.Sound) (reads : l.self.state.reads = true) :
    l.read.1 = Item.answer l.inbound.readable ∧
      Moves l (Deed.ofRead l.self.state l.inbound.readable) l.read.2 := by
  rw [Link.read, l.self.canRead_eq, if_pos reads]
  exact h.readN reads h.length_readable_lt

theorem read_of_not_reads {l : Link} (reads : l.self.state.reads = false) :
    l.read = (none, l) := by
  rw [read, l.self.canRead_eq, reads, if_neg Bool.false_ne_true]

theorem Sound.checkRead {l : Link} (h : l.Sound) (reads : l.self.state.reads = true) :
    Moves l (Deed.ofLook l.self.state l.inbound.readable) l.checkRead.2 := by
  have opened : ¬(!l.self.canRead || !l.self.inOpen) = true := by
    rw [l.self.canRead_eq, reads, h.inOpen reads]
    exact Bool.false_ne_true
  have held := h.inbound.holds
  cases front : l.inbound.readable using Item.front_cases with
  | nothing =>
    rw [front] at held
    obtain ⟨c, hc, hheld⟩ := held.peek_nil
    rw [← front] at hheld
    simp only [Link.checkRead, if_neg opened, hc]
    exact .quiet (.look hheld) (fallIdle_moves _)
  | frame m rest =>
    rw [front] at held
    obtain ⟨c, hc, hheld⟩ := held.peek_cons
    rw [← front] at hheld
    simp only [Link.checkRead, if_neg opened, hc]
    exact .of_quiet (.look hheld)
  | delimiter rest =>
    rw [front] at held
    obtain ⟨c, hc, hheld⟩ := held.peek_cons
    obtain ⟨d, hd, dheld⟩ := hheld.read_cons
    simp only [Link.checkRead, if_neg opened, hc]
    -- the item is first looked at and then read, so that the channel is put back twice
    have looked : Move l .quiet (l.setInbound c) := by
      rw [← front] at hheld
      exact .look hheld
    rw [inbound_setInbound, hd]
    have still : (l.setInbound c).inbound.readable = .delimiter :: rest := by
      rw [inbound_setInbound, hheld.readable]
    refine .quiet looked (meetDelimiter_moves (l := l.setInbound c) reads still ?_)
    rw [inbound_setInbound, hheld.awaiting, hheld.unfinished]
    exact dheld

theorem checkRead_of_not_reads {l : Link} (reads : l.self.state.reads = false) :
    l.checkRead = (false, l) := by
  rw [checkRead, l.self.canRead_eq, reads, Bool.not_false, Bool.true_or, if_pos rfl]

theorem Sound.hiccup {l : Link} (h : l.Sound) : Moves l (l.deeds .hiccup) l.hiccup := by
  by_cases active : l.self.state = .active
  · have opened := h.inOpen (by rw [active]; rfl)
    simp only [deeds, Link.hiccup, active, opened, and_self, if_true]
    exact .deed (.renew active)
      (.of_quiet (.adjust (.of_eq rfl) .refl))
  · simp only [deeds, Link.hiccup, active, false_and, if_false]
    exact .nil

theorem writeDelimiter_of_shut {l : Link} (shut : l.self.outOpen = false) :
    l.writeDelimiter = l.modifySelf ({ · with outActive := false }) := by
  simp [writeDelimiter, modifySelf, shut]

theorem writeDelimiter_of_open {l : Link} (opened : l.self.outOpen = true)
    (state : l.self.state ≠ .termAckSent) : l.writeDelimiter =
      if (l.outbound.rollback.write .delimiter false).flush.1 then
        l.endStream.modifySelf ({ · with outActive := false })
      else (l.endStream.modifySelf ({ · with outActive := false })).send .activateRead := by
  simp [endStream, writeDelimiter, modifySelf, opened, Link.rollback, flush, setOutbound, outbound,
    state]

/-- A delimiter is behind the last message, and then it is only left to wake the reader. -/
theorem writeDelimiter_moves {l : Link} (state : l.self.state ≠ .termAckSent) :
    Moves l.endStream [] l.writeDelimiter := by
  match opened : l.self.outOpen with
  | false =>
    have ended : l.endStream = l := by simp [endStream, opened]
    rw [ended, writeDelimiter_of_shut opened]
    exact .of_quiet (.adjust (.of_eq rfl) .refl)
  | true =>
    have kept : Move l.endStream .quiet (l.endStream.modifySelf ({ · with outActive := false })) :=
      .adjust (.of_eq rfl) .refl
    rw [writeDelimiter_of_open opened state]
    split
    · exact .of_quiet kept
    · exact .quiet kept (.of_quiet (.signal rfl))

theorem terminate_moves (l : Link) (delay : Bool) :
    Moves l (l.deeds (.terminate delay)) (l.terminate delay) := by
  let asked : Link := l.modifySelf ({ · with delay })
  have kept : Move l .quiet asked :=
    .adjust (.of_eq rfl) .refl
  have request (unasked : l.self.state = .active ∨ l.self.state = .delimiterReceived) :
      Moves l [.request] ((asked.send .term).setState .terminating).writeDelimiter :=
    .quiet kept (.deed (.request unasked) (writeDelimiter_moves nofun))
  unfold deeds terminate
  match state : l.self.state with
  | .active =>
    have state' : (l.modifySelf ({ · with delay })).self.state = .active := state
    simp only [state']
    exact request (.inl state)
  | .delimiterReceived =>
    have state' : (l.modifySelf ({ · with delay })).self.state = .delimiterReceived := state
    simp only [state']
    exact request (.inr state)
  | .waitingForDelimiter =>
    have waiting : asked.self.state = .waitingForDelimiter := state
    simp only [waiting, asked]
    split
    · exact .quiet kept (.deed (.delimit waiting) (writeDelimiter_moves (by rw [waiting]; nofun)))
    · refine .quiet kept (.deed (.giveUp waiting) ?_)
      rw [writeDelimiter_of_shut rfl]
      exact .of_quiet (.adjust (.of_eq rfl) .refl)
  | .terminating | .doubleTerminated | .termAckSent | .terminated =>
    have late : (l.modifySelf ({ · with delay })).self.state = _ := state
    simp only [late]
    exact .of_quiet kept

/-- Obeying a command leaves those that are still to be obeyed, and what was read. Only a hiccup
changes queues and what was written. -/
theorem obey_self (l : Link) (c : Command) :
    (l.obey c).2.self.inbox = l.self.inbox ∧
      (l.obey c).2.self.messagesRead = l.self.messagesRead ∧
      (c ≠ .hiccup → (l.obey c).2.self.lane = l.self.lane ∧
        (l.obey c).2.self.messagesWritten = l.self.messagesWritten) := by
  cases c with
  | activateRead | activateWrite =>
    simp only [obey]
    split <;> exact ⟨rfl, rfl, fun _ ↦ ⟨rfl, rfl⟩⟩
  | hiccup =>
    simp only [obey, followHiccup]
    split <;> exact ⟨rfl, rfl, fun hc ↦ absurd rfl hc⟩
  | term =>
    simp only [obey, meetTerm]
    split
    · split <;> exact ⟨rfl, rfl, fun _ ↦ ⟨rfl, rfl⟩⟩
    · exact ⟨rfl, rfl, fun _ ↦ ⟨rfl, rfl⟩⟩
    · exact ⟨rfl, rfl, fun _ ↦ ⟨rfl, rfl⟩⟩
    · exact ⟨rfl, rfl, fun _ ↦ ⟨rfl, rfl⟩⟩
  | termAck =>
    simp only [obey, meetTermAck]
    split <;> exact ⟨rfl, rfl, fun _ ↦ ⟨rfl, rfl⟩⟩
  | watermarks inbound outbound => exact ⟨rfl, rfl, fun _ ↦ ⟨rfl, rfl⟩⟩

theorem count_terminated_obey (l : Link) (c : Command) :
    (l.obey c).1.count .terminated = if c = .termAck then 1 else 0 := by
  cases c with
  | activateRead | activateWrite =>
    simp only [obey]
    split <;> rfl
  | hiccup =>
    simp only [obey, followHiccup]
    split
    · split <;> rfl
    · rfl
  | term | termAck | watermarks => rfl

/-- An end hears commands one after the other, and tells its owner of these events. -/
inductive Hearing : Link → List Command → List Event → Link → Prop
  | done {l : Link} : Hearing l [] [] l
  /-- It finds none. -/
  | listen {l : Link} {b : Mailbox Command} (sound : b.Sound)
    (same : b.contents = l.self.inbox.contents) :
    Hearing l [] [] (l.modifySelf ({ · with inbox := b }))
  | obey {l l' : Link} {c : Command} {rest cs : List Command} {b : Mailbox Command}
    {es : List Event} (letters : l.self.inbox.contents = c :: rest) (sound : b.Sound)
    (left : b.contents = rest)
    (others : Hearing ((l.modifySelf ({ · with inbox := b })).obey c).2 cs es l') :
    Hearing l (c :: cs) (((l.modifySelf ({ · with inbox := b })).obey c).1 ++ es) l'

namespace Hearing

variable {l l' : Link} {cs : List Command} {es : List Event}

theorem letters (h : l.Hearing cs es l') :
    l.self.inbox.contents = cs ++ l'.self.inbox.contents := by
  induction h with
  | done => rfl
  | listen _ same => exact same.symm
  | obey letters _ left _ ih =>
    rw [(obey_self _ _).1] at ih
    rw [letters, ← left, List.cons_append, ← ih]
    rfl

theorem moves (h : l.Hearing cs es l') : Moves l (cs.map .obey) l' := by
  induction h with
  | done => exact .nil
  | listen sound same => exact .of_quiet (.listen sound same)
  | obey letters sound left _ ih => exact .deed (.obey letters sound left) ih

theorem count_terminated (h : l.Hearing cs es l') :
    es.count .terminated = cs.count .termAck := by
  induction h with
  | done | listen => rfl
  | obey _ _ _ _ ih =>
    rw [List.count_append, ih, count_terminated_obey, List.count_cons]
    simp [Nat.add_comm]

end Hearing

theorem hearing_processN {l : Link} (h : l.self.inbox.Sound) (turns : Nat) :
    ∃ cs, l.Hearing cs (processN turns l).1.events (processN turns l).2 ∧
      (processN turns l).1.processed = cs.length ∧
      (l.self.inbox.contents.length < turns → cs = l.self.inbox.contents) := by
  induction turns generalizing l with
  | zero => exact ⟨[], .done, rfl, fun enough ↦ absurd enough (Nat.not_lt_zero _)⟩
  | succ turns ih =>
    match letters : l.self.inbox.contents with
    | [] =>
      obtain ⟨b, found, sound, left⟩ := h.receive_nil letters
      simp only [processN, receive, found]
      exact ⟨[], .listen sound (left.trans letters.symm), rfl, fun _ ↦ rfl⟩
    | c :: rest =>
      obtain ⟨b, found, sound, left⟩ := h.receive_cons letters
      have kept : ((l.modifySelf ({ · with inbox := b })).obey c).2.self.inbox = b :=
        (obey_self _ c).1
      simp only [processN, receive, found]
      obtain ⟨cs, others, counted, all⟩ := ih (kept.symm ▸ sound)
      refine ⟨c :: cs, .obey letters sound left others, congrArg Nat.succ counted,
        fun enough ↦ ?_⟩
      rw [kept] at all
      rw [all (left ▸ Nat.lt_of_succ_lt_succ enough), ← left]

theorem length_contents_lt {l : Link} (h : l.self.inbox.Sound) :
    l.self.inbox.contents.length < l.self.inbox.letters.queue.length + 1 := by
  have hlen := h.sound.queue.length_eq
  rw [ChunkQueue.length, Mailbox.contents]
  omega

theorem hearing_process {l : Link} (h : l.self.inbox.Sound) :
    l.Hearing l.self.inbox.contents l.process.1.events l.process.2 ∧
      l.process.1.processed = l.self.inbox.contents.length := by
  obtain ⟨cs, hearing, counted, all⟩ := hearing_processN h (l.self.inbox.letters.queue.length + 1)
  rw [all (length_contents_lt h)] at hearing counted
  exact ⟨hearing, counted⟩

theorem Sound.hearing_process {l : Link} (h : l.Sound) :
    l.Hearing l.self.inbox.contents l.process.1.events l.process.2 :=
  (Link.hearing_process h.self.inbox).1

theorem Sound.process {l : Link} (h : l.Sound) :
    Moves l (l.self.inbox.contents.map .obey) l.process.2 ∧
      l.process.1.events.count .terminated = l.self.inbox.contents.count .termAck ∧
      l.process.2.self.inbox.contents = [] :=
  ⟨h.hearing_process.moves, h.hearing_process.count_terminated,
    List.self_eq_append_right.mp h.hearing_process.letters⟩

end Link

theorem Moves.perform {l : Link} (h : l.Sound) (c : Call) : Moves l (l.deeds c) (l.perform c) := by
  cases c with
  | write m => exact l.write_moves m
  | rollback =>
    simp only [Link.deeds, Link.perform]
    split
    · rename_i opened
      exact .of_move (.takeBack opened)
    · rename_i shut
      rw [Link.rollback, if_neg shut]
      exact .nil
  | flush =>
    simp only [Link.deeds, Link.perform]
    split
    · rename_i shut
      rw [Link.flush, if_pos shut]
      exact .nil
    · rename_i opened
      rw [not_or, Bool.not_eq_false] at opened
      exact .deed (.publish opened.2) (Link.flush_moves opened.1 opened.2)
  | checkWrite => exact l.checkWrite_moves.1
  | read =>
    simp only [Link.deeds, Link.perform]
    split
    · rename_i reads
      exact (h.read reads).2
    · rename_i reads
      rw [Link.read_of_not_reads (by simpa using reads)]
      exact .nil
  | checkRead =>
    simp only [Link.deeds, Link.perform]
    split
    · rename_i reads
      exact h.checkRead reads
    · rename_i reads
      rw [Link.checkRead_of_not_reads (by simpa using reads)]
      exact .nil
  | setWatermarks | setBoosts | setNoDelay | setRoutingId | poll =>
    exact .of_quiet (.adjust (.of_eq rfl) .refl)
  | sendWatermarks inbound outbound => exact .of_quiet (.signal rfl)
  | hiccup => exact h.hiccup
  | terminate delay => exact l.terminate_moves delay
  | process => exact h.process.1
  | abandon => exact .of_quiet (.adjust .refl (.of_eq rfl))

theorem Link.Sound.perform {l : Link} (h : l.Sound) (c : Call) : (l.perform c).Sound :=
  (Moves.perform h c).sound h

theorem Link.Sound.performAll {l : Link} (h : l.Sound) (cs : List Call) :
    (cs.foldl Link.perform l).Sound := by
  induction cs generalizing l with
  | nil => exact h
  | cons c cs ih => exact ih (h.perform c)

theorem Pair.endpoint_sound {id peerId highMark peerMark chunkSize : Nat} {delay : Bool}
    (h : 0 < chunkSize) : (endpoint id peerId highMark peerMark chunkSize delay).Sound where
  chunkSize_pos := h
  lane := {
    writing := .create h
    fresh := nofun
    unfinished := by
      have none_left : (Channel.create chunkSize : Channel Item).unfinished = [] :=
        (Channel.Blank.create h).holds.unfinished
      simp [endpoint, none_left]
    ordered := .nil }
  inbox := Mailbox.create_sound.1
  hiccups := by
    rw [endpoint, Mailbox.create_sound.2]
    rfl
  unended := fun _ ↦ List.not_mem_nil
  outOpen := rfl
  inOpen := rfl

theorem Pair.ofSettings_sound {s : Settings} (h : 0 < s.chunkSize) (side : Side) :
    ((ofSettings s).link side).Sound := by
  cases side <;> exact ⟨endpoint_sound h, endpoint_sound h⟩

namespace Pair

variable {side : Side} {calls : List (Side × Call)} {p : Pair}

/-- What the deeds of each call keep, as one end sees it, holds after every run. -/
theorem watch_keep {κ : Type} {o : Observer κ} {Inv : Link → κ → Prop}
    (own : ∀ l k c, (side, c) ∈ calls → l.Sound → Moves l (l.deeds c) (l.perform c) → Inv l k →
      Inv (l.perform c) (o.own l c k))
    (peer : ∀ l k c, (side.other, c) ∈ calls → l.Sound → Moves l (l.deeds c) (l.perform c) →
      Inv l.swap k → Inv (l.perform c).swap (o.peer l c k))
    {k : κ} (sound : (p.link side).Sound) (start : Inv (p.link side) k) :
    ((p.run calls).link side).Sound ∧ Inv ((p.run calls).link side) (p.watch o side k calls) := by
  refine @watch_induction κ o side (fun l k ↦ l.Sound ∧ Inv l k) calls ?_ ?_ p k ⟨sound, start⟩
  · intro l k c hc h
    have moves := Moves.perform h.1 c
    exact ⟨moves.sound h.1, own l k c hc h.1 moves h.2⟩
  · intro l k c hc h
    have moves := Moves.perform h.1.swap c
    exact ⟨(moves.sound h.1.swap).swap, peer l.swap k c hc h.1.swap moves h.2⟩

theorem run_keep {Inv : Link → Prop} (own : ∀ {l d l'}, Move l d l' → l.Sound → Inv l → Inv l')
    (peer : ∀ {l d l'}, Move l d l' → l.Sound → Inv l.swap → Inv l'.swap)
    (sound : (p.link side).Sound) (start : Inv (p.link side)) :
    ((p.run calls).link side).Sound ∧ Inv ((p.run calls).link side) := by
  refine @watch_keep side calls p Unit unnoted (fun l _ ↦ Inv l) ?_ ?_ () sound start
  · intro l _ c _ sound moves kept
    exact moves.keep sound (fun _ ↦ own) kept
  · intro l _ c _ sound moves kept
    exact moves.keep sound (fun _ ↦ peer) kept

end Pair

end Conduit.Pipe
