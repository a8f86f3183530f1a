import Conduit.Proofs.InboundSteps

namespace Conduit.Bridge

open Wire Pipe

/-- An end that falls behind its peer has commands to hear, unless it waits for the delimiter. -/
theorem Link.Shaking.due_ne_nil {l : Link} (h : l.Shaking)
    (begun : l.self.state ≠ .active ∨ l.peer.state ≠ .active)
    (waiting : l.self.state ≠ .waitingForDelimiter)
    (behind : l.self.state.progress < min 3 (l.peer.state.progress + 1)) :
    l.self.inbox.contents ≠ [] := by
  intro heard
  have due : l.self.due = [] := by
    rw [Endpoint.due, heard]
    rfl
  rw [Link.Shaking, due] at h
  exact absurd (h.progress begun waiting) behind.ne

namespace Engine

variable {f : Framing} {s : Settings} {p : Pair} {parse : Parse} {later later' : Bytes}
  {e e' : Engine f.dialect} {i : Ledger}

section

variable (made : Pair.create s = .ok p)

include made

/-- A user that has something to read takes it, or it finds the end. -/
theorem Runs.read_progress (h : Runs p parse later e i) (reads : e.link.peer.state.reads = true)
    (some : e.undelivered ≠ 0 ∨ Ends p parse e i) :
    (e.act (.user .read)).rank later < e.rank later ∨
      (e.act (.user .read)).undelivered < e.undelivered := by
  obtain ⟨runs, closer, link⟩ := h.user made (c := .read) trivial
  have serves := h.led.serves made
  have sound := h.led.sound made
  have same : e.link.swap.inbound.readable = e.link.self.lane.stock.readable :=
    congrArg Channel.readable (Lane.reading_eq_writing serves.still)
  by_cases left : e.undelivered = 0
  · have ends := some.resolve_left (absurd left)
    have given := serves.left ends.asked
    have none_left : ordinary [] = [] := rfl
    rw [same, List.length_eq_zero_iff.mp left, none_left, List.append_nil] at given
    obtain ⟨-, stopped⟩ := Link.Serves.ends (l := e.link.swap) serves ends.asked reads given.symm
    left
    have state : (e.act (.user .read)).link.peer.state = e.link.swap.read.2.self.state := by
      rw [link]
      rfl
    have changed : (e.act (.user .read)).link.peer.state.remaining ≠
        e.link.peer.state.remaining := by
      intro equal
      rw [← state, State.remaining_inj equal, reads] at stopped
      cases stopped
    have toRead := closer.toRead
    have self := closer.self
    have peer := closer.peer
    simp only [rank]
    omega
  · right
    have before := h.undelivered_eq made
    have after := runs.undelivered_eq made
    have some_left := List.length_pos_iff.mp (Nat.pos_of_ne_zero left)
    obtain ⟨m, rest, front⟩ := List.exists_cons_of_ne_nil some_left
    rw [← same] at front
    obtain ⟨others, items⟩ := sound.swap.exists_front front
    have took : Deed.taken (e.user.deeds .read) =
        m :: Deed.taken (if m.isCredential then Deed.ofRead e.link.peer.state others else []) := by
      have deeds : e.user.deeds .read = Deed.ofRead e.link.peer.state (.frame m :: others) := by
        rw [← items]
        exact if_pos reads
      rw [deeds]
      rfl
    have drawn : (bookkeeping.peer e.user .read i).consumed =
        i.consumed ++ Deed.taken (e.user.deeds .read) := rfl
    have published : (bookkeeping.peer e.user .read i).published = i.published := rfl
    rw [drawn, published, took, List.length_append, List.length_cons] at after
    omega

theorem Runs.shaking (h : Runs p parse later e i) : e.link.Shaking := by
  obtain ⟨o, reached⟩ := h.led
  exact reached.shaking made

/-- A user that is behind in the handshake catches up as it hears its commands. -/
theorem Runs.hear_progress (h : Runs p parse later e i) (asked : e.link.self.state ≠ .active)
    (waiting : e.link.peer.state ≠ .waitingForDelimiter)
    (behind : e.link.peer.state.progress < min 3 (e.link.self.state.progress + 1)) :
    (e.act (.user .process)).rank later < e.rank later := by
  obtain ⟨runs, closer, link⟩ := h.user made (c := .process) trivial
  have heard := (h.led.sound made).swap.process.2.2
  have shaking := runs.shaking made
  have self : (e.act (.user .process)).link.self.state = e.link.self.state := by
    rw [link]
    exact (Moves.perform (h.led.sound made).swap .process).peer_state
  have changed : (e.act (.user .process)).link.peer.state.remaining ≠
      e.link.peer.state.remaining := by
    intro equal
    have same := State.remaining_inj equal
    refine Link.Shaking.due_ne_nil (l := (e.act (.user .process)).link.swap) shaking.symm
      ?_ ?_ ?_ ?_
    · exact .inr (self ▸ asked)
    · exact same ▸ waiting
    · rw [Link.swap_self, Link.swap_peer, same, self]
      exact behind
    · rw [link]
      exact heard
  have toRead := closer.toRead
  have self := closer.self
  have peer := closer.peer
  simp only [rank]
  omega

variable (plain : ∀ m ∈ parse.messages, m.isCredential = false) (modest : parse.Modest)

include plain modest

omit made plain modest in
theorem Unhindered.turn_of_rung (h : e.Unhindered) {w : Interest} (waiting : e.phase = .waiting w)
    (rung : e.link.self.inbox.rung = true) :
    e.turn = some (e.setLink e.link.poll.2).again ∧
      (e.setLink e.link.poll.2).again.phase = .top := by
  have same : (e.setLink e.link.poll.2).phase = .waiting w := waiting
  refine ⟨?_, ?_⟩
  · rw [Engine.turn, waiting]
    exact (await_eq h w).trans (if_pos rung)
  · rw [again, same]

theorem Runs.turns_lt (h : Runs p parse later e i) (next : e.turn = some e')
    (less : e'.rank later < e.rank later) (n : Nat) :
    (Engine.turns (n + 1) e).rank later < e.rank later := by
  obtain ⟨k, -, runs, -⟩ := h.turn made plain modest next
  obtain ⟨-, -, -, closer⟩ := runs.turns made plain modest n
  rw [Engine.turns, next]
  exact closer.rank_le.trans_lt less

omit plain modest in
theorem Runs.begin_progress (h : Runs p parse later e i) (asked : e.link.self.state = .terminating)
    (agreed : e.link.peer.state = .termAckSent) (begins : e.Begins e') :
    e'.link.self.state.remaining < e.link.self.state.remaining := by
  have sound := h.led.sound made
  obtain ⟨o, reached⟩ := h.led
  have shaking := (reached.engine (c := .process) trivial).shaking made
  have moves := Moves.perform sound .process
  have peer : e.link.process.2.peer.state = .termAckSent := moves.peer_state.trans agreed
  have changed : e.link.process.2.self.state ≠ .terminating := by
    intro same
    refine Link.Shaking.due_ne_nil (l := e.link.process.2) shaking (.inl ?_) ?_ ?_ sound.process.2.2
    · rw [same]
      nofun
    · rw [same]
      nofun
    · rw [same, peer]
      decide
  have less : e.link.process.2.self.state.remaining < e.link.self.state.remaining := by
    refine lt_of_le_of_ne moves.remaining_le fun equal ↦ changed ?_
    exact (State.remaining_inj equal).trans asked
  exact ((Works.begin begins).link.states (sound.perform .process)).2.2.trans_lt less

/-- An engine whose user has agreed to end the pipe hears of it, or comes to the top of its loop,
where it will. -/
theorem Runs.turns_agreed (h : Runs p parse later e i) (asked : e.link.self.state = .terminating)
    (agreed : e.link.peer.state = .termAckSent) (n : Nat) :
    (Engine.turns (n + 1) e).rank later < e.rank later ∨
      e.phase ≠ .top ∧ (Engine.turns (n + 1) e).phase = .top := by
  have begins {e : Engine f.dialect} {i : Ledger} (h : Runs p parse later e i)
      (asked : e.link.self.state = .terminating) (agreed : e.link.peer.state = .termAckSent)
      (top : e.phase = .top) (n : Nat) : (Engine.turns (n + 1) e).rank later < e.rank later := by
    have next : e.turn = some e.begin := by rw [Engine.turn, top]
    obtain ⟨-, -, -, closer⟩ := h.turn made plain modest next
    have less := h.begin_progress made asked agreed (begin_begins top)
    have toRead := closer.toRead
    have peer := closer.peer
    exact h.turns_lt made plain modest next (by simp only [rank]; omega) n
  rcases h.poised with top | ⟨w, phase, waits⟩ | ⟨-, shut⟩
  · exact .inl (begins h asked agreed top n)
  · have letters : e.link.self.inbox.contents ≠ [] := by
      refine Link.Shaking.due_ne_nil (h.shaking made) (.inl ?_) ?_ ?_
      · rw [asked]
        exact State.noConfusion
      · rw [asked]
        exact State.noConfusion
      · rw [asked, agreed]
        decide
    have rung := waits.alert.rung (h.led.sound made).self.inbox letters
    obtain ⟨next, top⟩ := h.unhindered.turn_of_rung phase rung
    cases n with
    | zero =>
      right
      rw [Engine.turns, next, phase]
      exact ⟨Phase.noConfusion, top⟩
    | succ n =>
      left
      obtain ⟨k, -, runs, closer⟩ := h.turn made plain modest next
      have link : (e.setLink e.link.poll.2).again.link = e.link.poll.2 := by
        have same : (e.setLink e.link.poll.2).phase = .waiting w := phase
        rw [again, same]
        rfl
      have less := begins runs (by rw [link]; exact asked) (by rw [link]; exact agreed) top n
      rw [Engine.turns, next]
      exact less.trans_le closer.rank_le
  · rw [asked] at shut
    cases shut

omit plain modest in
theorem Flows.readable_eq_nil (h : Flows p parse later e i) (read : e.undelivered = 0) :
    e.link.self.lane.stock.readable = [] := by
  have same := congrArg Channel.readable (Lane.reading_eq_writing (h.fed.serves made).still)
  have unended : .delimiter ∉ e.link.self.lane.stock.readable := fun ahead ↦
    (h.fed.sound made).swap.ended (same ▸ ahead) h.active
  match readable : e.link.self.lane.stock.readable with
  | [] => rfl
  | .delimiter :: rest =>
    rw [readable] at unended
    exact absurd List.mem_cons_self unended
  | .frame m :: rest =>
    rw [undelivered, readable] at read
    exact absurd read (Nat.succ_ne_zero _)

omit plain modest in
/-- An engine that nobody wakes has room in the pipe, and so it looks at its stream. -/
theorem Flows.wantsInput (h : Flows p parse later e i) (read : e.undelivered = 0) {w : Interest}
    (waits : e.Waits w) (quiet : e.link.self.inbox.rung = false) :
    e.inbound.wantsInput = true := by
  by_contra busy
  have stalled : e.inbound.stalled ≠ none := fun none ↦
    waits.settled.stalled (fun empty ↦ busy (Inbound.wantsInput_iff.mpr ⟨none, empty⟩)) none
  have told := h.fed.told made h.active h.flushed (h.readable_eq_nil made read)
    (waits.settled.refused stalled)
  have rung := waits.alert.rung (h.fed.sound made).self.inbox (List.ne_nil_of_mem told)
  exact absurd (quiet.symm.trans rung) Bool.false_ne_true

def AtStream (e : Engine f.dialect) : Prop :=
  (∃ w, e.phase = .waiting w) ∧ e.link.self.inbox.rung = false

/-- An engine that reads on after all bytes have arrived, and that delivered all that it read. It
has something to read in its stream, or it will find that there is no more. -/
structure Ripe (p : Pair) (parse : Parse) (e : Engine f.dialect) (i : Ledger) : Prop where
  runs : Runs p parse [] e i
  flows : Flows p parse [] e i
  read : e.undelivered = 0
  shut : e.stream.ended = true ∨ parse.error ≠ none

omit made plain modest in
theorem Flows.rank_lt {k : Ledger} (h : Flows p parse later e i) (ends : Ends p parse e' k)
    (closer : Closer later e later' e') : e'.rank later' < e.rank later := by
  have asked := State.remaining_lt_active ends.asked
  rw [← h.active] at asked
  have toRead := closer.toRead
  have peer := closer.peer
  simp only [rank]
  omega

theorem Ripe.next (h : Ripe p parse e i) (next : e.turn = some e') :
    e'.rank [] < e.rank [] ∨ ∃ k, Ripe p parse e' k := by
  obtain ⟨k, -, runs, closer⟩ := h.runs.turn made plain modest next
  rcases runs.way with flows | ends
  · rcases closer.rank_le.lt_or_eq with less | equal
    · exact .inl less
    · have read := Nat.le_zero.mp ((closer.undelivered equal).trans_eq h.read)
      have ended : e'.stream.ended = e.stream.ended := congrArg (·.2.2.1) (Works.turn next).outer
      exact .inr ⟨k, runs, flows, read, ended ▸ h.shut⟩
  · exact .inl (h.flows.rank_lt ends closer)

/-- To look at its stream takes it further. -/
theorem Ripe.looks (h : Ripe p parse e i) (there : e.AtStream) :
    ∃ e', e.turn = some e' ∧ e'.rank [] < e.rank [] := by
  obtain ⟨⟨w, waiting⟩, quiet⟩ := there
  have waits := h.runs.poised.waits waiting
  have wants := h.flows.wantsInput made h.read waits quiet
  have some_left : e.stream.unread ≠ [] ∨ e.stream.ended = true := by
    refine or_iff_not_imp_left.mpr fun none ↦ h.shut.resolve_right fun malformed ↦ malformed ?_
    have carries := h.flows.carries
    rw [not_not.mp none] at carries
    exact (carries.messages_eq wants).2
  have turns : e.turn = e.await w := by rw [Engine.turn, waiting]
  cases next : e.await w with
  | none =>
    have wanted : w.read = true := by rw [waits.read, h.flows.reading, wants, Bool.and_self]
    obtain ⟨none, going⟩ := (h.runs.unhindered.await_eq_none next).2 wanted
    rcases some_left with some | ended
    · exact absurd none some
    · exact absurd (going.symm.trans ended) Bool.false_ne_true
  | some e' =>
    rw [next] at turns
    refine ⟨e', turns, ?_⟩
    obtain ⟨-, -, less⟩ :=
      h.flows.await made modest h.runs.unhindered waits waiting (await_wakes next)
    obtain ⟨k, -, runs, closer⟩ := h.runs.turn made plain modest turns
    rcases runs.way with flows | ends
    · have less := less wants quiet some_left flows.reading
      rw [← flows.toRead_eq, ← h.flows.toRead_eq] at less
      have self := closer.self
      have peer := closer.peer
      simp only [rank]
      omega
    · exact h.flows.rank_lt ends closer

theorem Ripe.turns_progress (h : Ripe p parse e i) {j n : Nat} (less : j < n)
    (there : (Engine.turns j e).AtStream) : (Engine.turns n e).rank [] < e.rank [] := by
  obtain ⟨n, rfl⟩ := Nat.exists_eq_succ_of_ne_zero (Nat.ne_of_gt (Nat.zero_lt_of_lt less))
  induction j generalizing e i n with
  | zero =>
    obtain ⟨e', next, further⟩ := h.looks made plain modest there
    exact h.runs.turns_lt made plain modest next further n
  | succ j ih =>
    cases next : e.turn with
    | none =>
      rw [Engine.turns, next] at there
      obtain ⟨e', some, -⟩ := h.looks made plain modest there
      cases next.symm.trans some
    | some e' =>
      rcases h.next made plain modest next with further | ⟨k, ripe⟩
      · exact h.runs.turns_lt made plain modest next further n
      · rw [Engine.turns, next] at there
        have before := Nat.lt_of_succ_lt_succ less
        obtain ⟨n, rfl⟩ := Nat.exists_eq_succ_of_ne_zero (Nat.ne_of_gt (Nat.zero_lt_of_lt before))
        obtain ⟨-, -, -, behind⟩ := h.runs.turn made plain modest next
        have ahead := ih ripe there n before
        rw [Engine.turns, next]
        exact ahead.trans_le behind.rank_le

def toStream (e : Engine f.dialect) : Nat :=
  (if e.link.self.inbox.rung then 2 else 0) + match e.phase with
    | .top => 2
    | _ => 1

omit made plain modest in
theorem toStream_le (e : Engine f.dialect) : e.toStream ≤ 4 := by
  rw [toStream]
  split <;> split <;> decide

/-- Each turn takes an engine closer to its stream, unless it ends the pipe. -/
theorem Runs.nears_stream (h : Runs p parse later e i) (active : e.link.self.state = .active)
    (away : ¬e.AtStream) : ∃ e', e.turn = some e' ∧
      (e'.link.self.state = .active → e'.toStream < e.toStream) := by
  have flows := h.way.resolve_right fun ends ↦ ends.asked active
  have sound := h.led.sound made
  rcases h.poised with top | ⟨w, waiting, waits⟩ | ⟨-, shut⟩
  · have begins := begin_begins top
    refine ⟨e.begin, by rw [Engine.turn, top], fun _ ↦ ?_⟩
    obtain ⟨-, w, waiting, -⟩ := flows.begin made plain modest top begins
    have rung : e.begin.link.self.inbox.rung = e.link.self.inbox.rung :=
      (congrArg Mailbox.rung (Works.begin begins).link.inbox).trans sound.listens_process.1.rung
    rw [toStream, toStream, rung, waiting, top]
    exact Nat.add_lt_add_left (Nat.lt_succ_self 1) _
  · cases rung : e.link.self.inbox.rung with
    | true =>
      obtain ⟨next, -⟩ := h.unhindered.turn_of_rung waiting rung
      refine ⟨_, next, fun _ ↦ ?_⟩
      have same : (e.setLink e.link.poll.2).phase = .waiting w := waiting
      have top : (e.setLink e.link.poll.2).again.toStream = 2 := by
        rw [again, same]
        rfl
      rw [top, toStream, rung, waiting]
      exact Nat.lt_succ_self 2
    | false => exact absurd ⟨⟨w, waiting⟩, rung⟩ away
  · rw [active] at shut
    cases shut

/-- An engine that is let run for long enough gets to its stream, unless it ends the pipe. -/
theorem Runs.gets_to_stream (h : Runs p parse later e i) (active : e.link.self.state = .active)
    {n : Nat} (enough : e.toStream ≤ n) :
    (∃ j < n, (Engine.turns j e).AtStream) ∨ (Engine.turns n e).link.self.state ≠ .active := by
  induction n generalizing e i with
  | zero =>
    have some_left : 0 < e.toStream := by
      rw [toStream]
      split <;> split <;> decide
    omega
  | succ n ih =>
    by_cases there : e.AtStream
    · exact .inl ⟨0, Nat.succ_pos n, there⟩
    · obtain ⟨e', next, nearer⟩ := h.nears_stream made plain modest active there
      obtain ⟨k, -, runs, -⟩ := h.turn made plain modest next
      rw [Engine.turns, next]
      by_cases active' : e'.link.self.state = .active
      · have less := nearer active'
        refine (ih runs active' (by omega)).imp_left fun found ↦ ?_
        obtain ⟨j, before, there⟩ := found
        refine ⟨j + 1, Nat.succ_lt_succ before, ?_⟩
        rwa [Engine.turns, next]
      · right
        obtain ⟨-, -, -, closer⟩ := runs.turns made plain modest n
        have further := closer.self
        have begun := State.remaining_lt_active active'
        intro same
        rw [same] at further
        omega

end

end Engine

end Conduit.Bridge
