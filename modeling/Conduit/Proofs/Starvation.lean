import Conduit.Proofs.InboundDelivery

namespace Conduit

namespace Pipe

/-- A reader returns nothing from a queue in which there are only credentials. -/
theorem Pair.read_eq_none {s : Settings} {p : Pair} (made : create s = .ok p) (side : Side)
    (calls : List (Side × Call))
    (credentials : ∀ m ∈ (p.watch bookkeeping side {} calls).log, m.isCredential = true) :
    ((p.run calls).link side).swap.read.1 = none := by
  obtain ⟨sound, books⟩ := ledger_matches made side calls
  have taken := ((Moves.perform sound.swap .read).matches_draw sound.swap books).consumed_subset
  have answer := sound.swap.ordinary_taken .read
  have nothing : ordinary (Deed.taken (((p.run calls).link side).swap.deeds .read)) = [] := by
    rw [ordinary, List.filter_eq_nil_iff]
    intro m hm
    rw [credentials m (taken (List.mem_append_right _ hm))]
    exact Bool.false_ne_true
  rw [nothing] at answer
  exact Option.toList_eq_nil_iff.mp answer.symm

end Pipe

namespace Bridge

open Wire Pipe

theorem State.eq_active_of_remaining_le {state : State}
    (le : State.active.remaining ≤ state.remaining) : state = .active := by
  by_contra ended
  exact absurd le (State.remaining_lt_active ended).not_ge

def pesters : Call → Prop
  | .write m => m.isCredential = true
  | .flush | .read | .process => True
  | _ => False

def nudge (m : Message) : List Call := [.read, .process, .write m, .flush]

def attends : Call → Prop
  | .read | .process | .poll => True
  | _ => False

theorem pesters.talks {c : Call} (h : pesters c) : talks c := by
  cases c with
  | write | flush | read | process => trivial
  | _ => exact absurd h id

theorem attends.ofEngine {c : Call} (h : attends c) : ofEngine c ∧ c.Plain := by
  cases c with
  | read | process | poll => exact ⟨trivial, trivial⟩
  | _ => exact absurd h id

def Pestered (p : Pair) (l : Link) : Prop := ∃ i o, Reached p pesters attends l i o

theorem Reached.logs {p : Pair} {l : Link} {i o : Ledger} (h : Reached p pesters attends l i o) :
    i.log = [] ∧ ∀ m ∈ o.log, m.isCredential = true := by
  induction h with
  | start => exact ⟨rfl, nofun⟩
  | @engine l i o c _ allowed ih =>
    refine ⟨List.eq_nil_iff_forall_not_mem.mpr fun m hm ↦ ?_, ih.2⟩
    rcases Ledger.mem_log_of_supply hm with before | pushed
    · rw [ih.1] at before
      exact absurd before List.not_mem_nil
    · obtain ⟨rfl, -⟩ := Link.of_push_mem_deeds pushed
      exact allowed
  | @user l i o c _ allowed ih =>
    refine ⟨ih.1, fun m hm ↦ ?_⟩
    rcases Ledger.mem_log_of_supply hm with before | pushed
    · exact ih.2 m before
    · obtain ⟨rfl, -⟩ := Link.of_push_mem_deeds pushed
      exact allowed

theorem Reached.books {s : Settings} {p : Pair} (made : Pair.create s = .ok p) {l : Link}
    {i o : Ledger} (h : Reached p pesters attends l i o) :
    o.Matches l.peer.lane.stock ∧ l.peer.lane.fresh = [] := by
  obtain ⟨calls, rfl, -, rfl, -, engines⟩ := h.calls
  refine ⟨(Pair.ledger_matches made .first calls).2, Pair.still made .first fun c hc ↦ ?_⟩
  rintro rfl
  exact engines _ hc

namespace Pestered

variable {s : Settings} {p : Pair} {l : Link}

theorem start (p : Pair) : Pestered p (p.link .second) := ⟨{}, {}, .start⟩

theorem engine (h : Pestered p l) {c : Call} (allowed : attends c) : Pestered p (l.perform c) := by
  obtain ⟨i, o, h⟩ := h
  exact ⟨_, _, h.engine allowed⟩

theorem user (h : Pestered p l) {c : Call} (allowed : pesters c) :
    Pestered p (l.swap.perform c).swap := by
  obtain ⟨i, o, h⟩ := h
  exact ⟨_, _, h.user allowed⟩

variable (made : Pair.create s = .ok p)

include made

theorem sound (h : Pestered p l) : l.Sound := by
  obtain ⟨i, o, h⟩ := h
  exact h.sound made

theorem read_eq_none (h : Pestered p l) : l.read.1 = none ∧ l.swap.read.1 = none := by
  obtain ⟨i, o, h⟩ := h
  obtain ⟨nothing, credentials⟩ := h.logs
  obtain ⟨calls, rfl, rfl, rfl, -⟩ := h.calls
  refine ⟨Pair.read_eq_none made .first calls credentials,
    Pair.read_eq_none made .second calls fun m hm ↦ ?_⟩
  rw [nothing] at hm
  exact absurd hm List.not_mem_nil

/-- The engine is never asked to end, and hears of all that it could read. -/
theorem keeps (h : Pestered p l) :
    l.self.state = .active ∧ l.self.inbox.closed = false ∧ l.Wakeful := by
  obtain ⟨i, o, h⟩ := h
  induction h with
  | start =>
    obtain ⟨rfl, -⟩ := Pair.create_eq_ok made
    exact ⟨rfl, rfl, nofun⟩
  | @engine l i o c h allowed ih =>
    obtain ⟨active, opened, wakeful⟩ := ih
    have sound := h.sound made
    have fed : Fed p l i := ⟨o, h.mono (fun _ ↦ pesters.talks) fun _ ↦ attends.ofEngine⟩
    have worked : Worked ofEngine l (l.perform c) := .one allowed.ofEngine.1
    refine ⟨?_, (worked.closed sound).trans opened, sound.wakeful_perform c wakeful⟩
    cases c with
    | read => exact (fed.read made active).2.1
    | process => exact (fed.process made active).2
    | poll => exact active
    | _ => exact absurd allowed id
  | @user l i o c h allowed ih =>
    obtain ⟨active, opened, wakeful⟩ := ih
    have sound := (h.sound made).swap
    have kept : c ≠ .abandon := by
      rintro rfl
      exact allowed
    have spares := Link.Spares.perform l.swap c
    exact ⟨spares.state.trans active, (sound.posted_perform kept).closed.trans opened,
      spares.wakeful wakeful⟩

theorem running (h : Pestered p l) : l.Running := by
  have active := (keeps made h).1
  obtain ⟨i, o, h⟩ := h
  have fed : Fed p l i := ⟨o, h.mono (fun _ ↦ pesters.talks) fun _ ↦ attends.ofEngine⟩
  exact fed.running made active

/-- Having looked for commands and frames, the engine sleeps. -/
theorem asleep (h : Pestered p l) : ((l.perform .process).perform .read).self.inActive = false ∧
    ((l.perform .process).perform .read).self.inbox.Alert := by
  have heard := h.engine (c := .process) trivial
  have active := ((heard.engine (c := .read) trivial).keeps made).1
  constructor
  · refine (heard.sound made).reads_read.idle (heard.read_eq_none made).1 ?_
    have reads : ((l.perform .process).perform .read).self.state.reads = true := by
      rw [active]
      rfl
    exact reads
  · rw [(Link.Posts.perform (l.perform .process) (c := .read) (by simp)).self]
    exact .inl (h.sound made).listens_process.2

theorem highMark (h : Pestered p l) (unlimited : s.highMarks.1 = 0) : l.peer.highMark = 0 := by
  obtain ⟨i, o, h⟩ := h
  obtain ⟨calls, rfl, -, -, users, engines⟩ := h.calls
  have steady := Pair.steady made (undisturbed (fun c hc ↦ (users c hc).talks)
    fun c hc ↦ (engines c hc).ofEngine)
  have same := congrArg Prod.fst steady.peer
  obtain ⟨rfl, -⟩ := Pair.create_eq_ok made
  exact same.trans unlimited

theorem readable_flush (h : Pestered p l) (unlimited : s.highMarks.1 = 0) {m : Message}
    (credential : m.isCredential = true) (last : m.more = false) :
    ((l.swap.perform (.write m)).perform .flush).swap.inbound.readable ≠ [] := by
  have accepted : l.swap.checkWrite.1 = true := (write_accepts l.swap m).symm.trans
    ((h.sound made).swap.write_accepts (h.running made).peer (h.highMark made unlimited) m)
  have wrote := h.user (c := .write m) credential
  have active : (l.swap.perform (.write m)).self.state = .active := (wrote.running made).peer
  have opened : (l.swap.perform (.write m)).self.outOpen = true := by
    rw [(h.sound made).swap.perform (.write m) |>.self.outOpen, active]
    rfl
  obtain ⟨i, o, h⟩ := h
  obtain ⟨before, -⟩ := h.books made
  obtain ⟨after, still⟩ :=
    ((h.user (c := .write m) credential).user (c := .flush) trivial).books made
  have written : bookkeeping.own l.swap (.write m) o = { o with log := o.log ++ [m] } := by
    simp only [bookkeeping, Link.deeds, if_pos accepted]
    rfl
  have flushed (k : Ledger) : bookkeeping.own (l.swap.perform (.write m)) .flush k = k.flush := by
    simp [bookkeeping, Link.deeds, active, opened, Ledger.supply]
  rw [Link.swap_swap, written, flushed] at after
  intro nothing
  have same : ((l.swap.perform (.write m)).perform .flush).self.lane.stock.readable = [] := by
    rw [← nothing]
    exact congrArg Channel.readable (Lane.reading_eq_writing still).symm
  have published := after.published
  rw [Link.swap_peer, same, Item.frames_nil, List.append_nil] at published
  have log : wholeMessages (o.log ++ [m]) = o.consumed := published
  rw [wholeMessages_concat last] at log
  have fewer : o.consumed.length ≤ o.log.length := by
    rw [before.log, before.published]
    simp only [List.length_append]
    omega
  have more := congrArg List.length log
  rw [List.length_append, List.length_singleton] at more
  omega

/-- What its user does leaves an engine idle. -/
theorem users (h : Pestered p l) (idle : l.self.inActive = false) (alert : l.self.inbox.Alert)
    (cs : List Call) (allowed : ∀ c ∈ cs, pesters c) :
    Pestered p (cs.foldl Link.perform l.swap).swap ∧
      (cs.foldl Link.perform l.swap).peer.inActive = false ∧
      (cs.foldl Link.perform l.swap).peer.inbox.Alert := by
  induction cs generalizing l with
  | nil => exact ⟨h, idle, alert⟩
  | cons c cs ih =>
    have next := allowed c List.mem_cons_self
    have kept : c ≠ .abandon := by
      rintro rfl
      exact next
    have posted := (h.sound made).swap.posted_perform kept
    have idle' := (Link.Spares.perform l.swap c).inActive.trans idle
    have alert' := posted.alert (h.sound made).self.inbox alert
    exact ih (h.user next) idle' alert' fun c hc ↦ allowed c (List.mem_cons_of_mem _ hc)

/-- The next credential wakes the engine. -/
theorem rung (h : Pestered p l) (unlimited : s.highMarks.1 = 0) {m : Message}
    (credential : m.isCredential = true) (last : m.more = false)
    (idle : l.self.inActive = false) (alert : l.self.inbox.Alert) :
    ([.write m, .flush].foldl Link.perform l.swap).peer.inbox.rung = true := by
  have readable := h.readable_flush made unlimited credential last
  obtain ⟨pestered, idle', alert'⟩ := h.users made idle alert [.write m, .flush]
    (by simp [pesters, credential])
  rw [List.foldl_cons, List.foldl_cons, List.foldl_nil] at *
  generalize (l.swap.perform (.write m)).perform .flush = k at *
  have sound := pestered.sound made
  obtain ⟨active, -, wakeful⟩ := pestered.keeps made
  have reads : k.swap.self.state.reads = true := by
    rw [active]
    rfl
  exact alert'.rung sound.self.inbox (List.ne_nil_of_mem (sound.told wakeful idle' reads readable))

theorem nudged (h : Pestered p l) (unlimited : s.highMarks.1 = 0) {m : Message}
    (credential : m.isCredential = true) (last : m.more = false)
    (idle : l.self.inActive = false) (alert : l.self.inbox.Alert) :
    Pestered p ((nudge m).foldl Link.perform l.swap).swap ∧
      ((nudge m).foldl Link.perform l.swap).peer.inbox.rung = true := by
  have parts : nudge m = [.read, .process] ++ [.write m, .flush] := rfl
  obtain ⟨heard, idle, alert⟩ := h.users made idle alert [.read, .process] (by simp [pesters])
  have rung := heard.rung made unlimited credential last idle alert
  obtain ⟨flushed, -, -⟩ := heard.users made idle alert [.write m, .flush]
    (by simp [pesters, credential])
  rw [Link.swap_swap, ← List.foldl_append, ← parts] at rung flushed
  exact ⟨flushed, rung⟩

end Pestered

theorem Outbound.refill_idle {d : Dialect} {σ : Type} {pull : Source σ} {o : Outbound d} {s s' : σ}
    (pending : o.pending = []) (idle : o.encoder.part = .idle) (room : 0 < o.bufferSize)
    (nothing : pull s = (none, s')) : o.refill pull s = (0, s', o) := by
  obtain ⟨encoder, bufferSize, bytes⟩ := o
  obtain ⟨part, pos, size⟩ := encoder
  obtain ⟨n, rfl⟩ := Nat.exists_eq_succ_of_ne_zero room.ne'
  subst pending idle
  simp [refill, Encoder.takeBody, Encoder.encodeInto, Encoder.fill, Encoder.refill, Encoder.isIdle,
    counted, nothing]

namespace Engine

/-- An engine looks at its pipe, is nudged, and hears of it. -/
def pestering (m : Message) : List Act :=
  .turns 1 :: ((nudge m).map .user ++ [.turns 1])

theorem aside_pestering (m : Message) : ∀ a ∈ pestering m, a.Aside := by
  simp only [pestering, nudge, List.map_cons, List.map_nil, List.cons_append, List.nil_append,
    List.forall_mem_cons]
  exact ⟨Act.aside_turns 1, Act.aside_user trivial, Act.aside_user trivial, Act.aside_user trivial,
    Act.aside_user trivial, Act.aside_turns 1, nofun⟩

theorem act_turns_one {d : Dialect} {e e' : Engine d} (next : e.turn = some e') :
    e.act (.turns 1) = e' := by
  rw [act, turns, next]
  rfl

theorem run_users {d : Dialect} (e : Engine d) (there : e.pair.firstDropped = false)
    (cs : List Call) : e.run (cs.map .user) =
      { e with pair := e.pair.setLink .first (cs.foldl Link.perform e.user) } := by
  induction cs generalizing e with
  | nil => rfl
  | cons c cs ih =>
    have acted : e.act (.user c) = { e with pair := e.pair.setLink .first (e.user.perform c) } := by
      rw [act, there]
      rfl
    rw [List.map_cons, run, List.foldl_cons, acted]
    exact ih { e with pair := e.pair.setLink .first (e.user.perform c) } there

def supplied (f : Framing) (bufferSize : ℕ) (limits : Limits) (bytes : Bytes) (pair : Pair) :
    Engine f.dialect := create f.dialect pair { unread := bytes, ended := true } bufferSize limits

section

variable {f : Framing} {s : Settings} {p q : Pair}

theorem refill_idle {e : Engine f.dialect} (writing : e.writing = true)
    (pending : e.outbound.pending = []) (idle : e.outbound.encoder.part = .idle)
    (room : 0 < e.outbound.bufferSize) (nothing : e.link.read.1 = none) :
    e.refill = e.setLink e.link.read.2 := by
  unfold refill
  rw [if_pos writing, Outbound.refill_idle pending idle room (Prod.ext nothing rfl)]
  rfl

variable (bufferSize : ℕ) (limits : Limits) (bytes : Bytes) (made : Pair.create s = .ok p)
  (there : q.firstDropped = false) (h : Pestered p (q.link .second))

include made h

theorem turn_supplied : ∃ w, (supplied f bufferSize limits bytes q).turn =
    some { supplied f bufferSize limits bytes
      (q.setLink .second (((q.link .second).perform .process).perform .read))
      with phase := .waiting w } := by
  let e := supplied f bufferSize limits bytes q
  have heard : Pestered p e.link.process.2 := h.engine (c := .process) trivial
  have active := (heard.keeps made).1
  have delivered : (e.setLink e.link.process.2).deliver = e.setLink e.link.process.2 :=
    deliver_spent ⟨rfl, rfl⟩
  have begins : e.Begins e.begin := begin_begins rfl
  have next : e.turn = some e.begin := rfl
  rw [next]
  generalize e.begin = e' at begins ⊢
  cases begins with
  | ended shut =>
    rw [active] at shut
    cases shut
  | broken _ broken =>
    rw [delivered] at broken
    cases broken
  | waits =>
    rw [delivered, refill_idle (e := e.setLink e.link.process.2) rfl rfl rfl
      (Nat.le_max_right bufferSize 1) (heard.read_eq_none made).1]
    exact ⟨_, rfl⟩

include there

theorem turn_waiting (rung : (q.link .second).self.inbox.rung = true) (w : Interest) :
    turn { supplied f bufferSize limits bytes q with phase := .waiting w } =
      some (supplied f bufferSize limits bytes
        (q.setLink .second ((q.link .second).perform .poll))) := by
  let e : Engine f.dialect := { supplied f bufferSize limits bytes q with phase := .waiting w }
  have unhindered : e.Unhindered := ⟨there, (h.keeps made).2.1, rfl, rfl, rfl, nofun⟩
  exact (unhindered.turn_of_rung rfl rung).1

/-- A round leaves the engine where it was. -/
theorem run_pestering (unlimited : s.highMarks.1 = 0) {m : Message}
    (credential : m.isCredential = true) (last : m.more = false) :
    ∃ q', (supplied f bufferSize limits bytes q).run (pestering m) =
        supplied f bufferSize limits bytes q' ∧
      q'.firstDropped = false ∧ Pestered p (q'.link .second) := by
  obtain ⟨w, first⟩ := turn_supplied (f := f) bufferSize limits bytes made h
  obtain ⟨idle, alert⟩ := h.asleep made
  have looked := (h.engine (c := .process) trivial).engine (c := .read) trivial
  generalize ((q.link .second).perform .process).perform .read = l at first idle alert looked
  obtain ⟨nudged, rung⟩ := looked.nudged made unlimited credential last idle alert
  let asleep : Engine f.dialect :=
    { supplied f bufferSize limits bytes (q.setLink .second l) with phase := .waiting w }
  have talked := asleep.run_users there (nudge m)
  have user : asleep.user = l.swap := Pair.link_setLink_other q .second l
  rw [pestering, run, List.foldl_cons, act_turns_one first, ← run, run_concat, talked, user]
  generalize (nudge m).foldl Link.perform l.swap = k at rung nudged
  have woken := turn_waiting (f := f) (q := (q.setLink .second l).setLink .first k) bufferSize
    limits bytes made there nudged rung w
  exact ⟨_, act_turns_one woken, there, nudged.engine (c := .poll) trivial⟩

end

section

variable {f : Framing} {s : Settings} {p : Pair} (made : Pair.create s = .ok p)
  (unlimited : s.highMarks.1 = 0) (bufferSize : ℕ) (limits : Limits) (bytes : Bytes) {m : Message}
  (credential : m.isCredential = true) (last : m.more = false)

include made unlimited credential last

theorem after_pestering (n : ℕ) :
    ∃ q, (create f.dialect p {} bufferSize limits).after
        (feeding [bytes] (repeating (pestering m))) (2 + 6 * n) =
          supplied f bufferSize limits bytes q ∧
      q.firstDropped = false ∧ Pestered p (q.link .second) := by
  induction n with
  | zero =>
    have there : p.firstDropped = false := by
      obtain ⟨rfl, -⟩ := Pair.create_eq_ok made
      rfl
    exact ⟨p, rfl, there, .start p⟩
  | succ n ih =>
    obtain ⟨q, same, there, pestered⟩ := ih
    have round : ((List.range 6).map fun i ↦
        feeding [bytes] (repeating (pestering m)) (2 + 6 * n + i)) = pestering m :=
      feeding_round [bytes] (pestering m) n
    rw [Nat.mul_succ, ← Nat.add_assoc, after_add, round, same]
    exact run_pestering bufferSize limits bytes made there pestered unlimited credential last

omit unlimited credential last in
/-- All bytes lie in the stream, so that none of their frames is in the pipe. -/
theorem returned_supplied {q : Pair} {i : Ledger} (h : Pestered p (q.link .second))
    (runs : Runs p (f.parse limits bytes) [] (supplied f bufferSize limits bytes q) i) :
    i.returned = [] := by
  have flows := runs.way.resolve_right fun ends ↦ ends.asked (h.running made).self
  have unlogged : i.log = [] := by
    let decoder : Decoder f.dialect := { limits, allocator := .heap }
    have messages : (f.parse limits bytes).messages =
        (i.log ++ []) ++ (decoder.ahead (bytes ++ [])).messages := flows.carries.leads.messages
    rw [Decoder.ahead_start rfl, List.append_nil, List.append_nil] at messages
    exact List.self_eq_append_left.mp messages
  have returned := (flows.fed.serves made).returned_le
  rw [flows.flushed, unlogged] at returned
  exact List.prefix_nil.mp returned

/-- The user is given nothing, and nothing ends. -/
theorem starves (modest : (f.parse limits bytes).Modest) (n : ℕ) :
    let acts := feeding [bytes] (repeating (pestering m))
    let e := create f.dialect p {} bufferSize limits
    e.given acts n = [] ∧ (e.after acts n).link.self.state = .active ∧
      (e.after acts n).user.self.state = .active := by
  intro acts e
  have plain := f.parse_plain limits bytes
  have feeds : Feeds bytes acts := by
    have fed := feeding_feeds [bytes] (repeating_aside (aside_pestering m))
    rwa [List.flatten_singleton] at fed
  have start : Runs p (f.parse limits bytes) bytes e {} := runs_create made bufferSize limits bytes
  obtain ⟨q, same, -, pestered⟩ := after_pestering (f := f) made unlimited bufferSize limits bytes
    credential last n
  obtain ⟨i, given, runs⟩ := start.after made plain modest feeds (2 + 6 * n)
  have closer := start.closer made plain modest feeds (m := n) (n := 2 + 6 * n) (by omega)
  have whole : later bytes acts (2 + 6 * n) = [] :=
    feeds.later_of_le (m := 1) (by omega) (later_eq_nil (feeds.ends 1 rfl))
  have running := pestered.running made
  rw [same, whole] at runs
  have none_given : e.given acts (2 + 6 * n) = [] := by
    rw [← given]
    exact returned_supplied made bufferSize limits bytes pestered runs
  have given_le := e.given_le acts (m := n) (n := 2 + 6 * n) (by omega)
  rw [none_given, List.prefix_nil] at given_le
  have self : State.active.remaining ≤ (e.after acts n).link.self.state.remaining := by
    have further := closer.self
    rw [same] at further
    exact running.self ▸ further
  have peer : State.active.remaining ≤ (e.after acts n).link.peer.state.remaining := by
    have further := closer.peer
    rw [same] at further
    exact running.peer ▸ further
  exact ⟨given_le, State.eq_active_of_remaining_le self, State.eq_active_of_remaining_le peer⟩

end

/-- All that arrives is there, nobody stays idle, and the engine does not get to its stream. -/
theorem inbound_starved :
    let s : Settings := { highMarks := (0, 0) }
    let p := Pair.ofSettings s
    let bytes : Bytes := [0, 1, 0x78]
    let parse := Framing.flagsFirst.parse {} bytes
    let e := create flagsFirst p {} 8 {}
    let acts := feeding [bytes] (repeating (pestering { flags := Flag.credential }))
    Pair.create s = .ok p ∧ Feeds bytes acts ∧ parse.Modest ∧ Fair e parse bytes acts ∧
      wholeMessages parse.messages = [{ data := [0x78] }] ∧ ∀ n,
        e.given acts n = [] ∧ (e.after acts n).link.self.state = .active ∧
        (e.after acts n).user.self.state = .active := by
  intro s p bytes parse e acts
  have made : Pair.create s = .ok p := rfl
  have aside := aside_pestering { flags := Flag.credential }
  have modest : parse.Modest := by
    have small : ∀ size ∈ parse.sizes, size < Storage.limit := by decide +kernel
    exact small
  have fair : Fair e parse bytes acts :=
    feeding_fair (f := .flagsFirst) e parse [bytes] aside le_rfl List.mem_cons_self
      (by simp [pestering, nudge]) (by simp [pestering, nudge])
  exact ⟨made, feeding_feeds [bytes] (repeating_aside aside), modest, fair, by decide +kernel,
    starves (f := .flagsFirst) made rfl 8 {} bytes rfl rfl modest⟩

end Engine

end Bridge

end Conduit
