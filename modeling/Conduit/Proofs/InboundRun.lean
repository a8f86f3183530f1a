import Conduit.Proofs.InboundPath

namespace Conduit.Bridge

open Wire Pipe

variable {f : Framing} {s : Settings} {p : Pair} {parse : Parse} {later : Bytes}
  {n : Nat}

/-- What an engine pulls from its user changes nothing in the books of what it writes. -/
theorem Fed.pulled (made : Pair.create s = .ok p) {l l' : Link} {i : Ledger} {ms : List Message}
    {dry : Bool} (h : Fed p l i) (active : l.self.state = .active)
    (pulled : Source.Pulled Link.read l ms l' dry) :
    Fed p l' i ∧ l'.self.state = .active ∧ l'.self.outActive = l.self.outActive := by
  induction pulled with
  | done => exact ⟨h, active, rfl⟩
  | @dry l _ nothing =>
    have read := h.read made active
    rwa [nothing] at read
  | @more l _ _ _ _ _ next _ ih =>
    have read := h.read made active
    rw [next] at read
    obtain ⟨fed, active', same⟩ := read
    obtain ⟨fed, active', same'⟩ := ih fed active'
    exact ⟨fed, active', same'.trans same⟩

def drawn (k : Ledger) : List Message × List Message := (k.consumed, k.returned)

theorem Stream.write_kept (s : Stream) (bytes : Bytes) :
    ((s.write bytes).2.unread, (s.write bytes).2.ended) = (s.unread, s.ended) := by
  have takes := s.write_takes bytes
  generalize s.write bytes = out at takes ⊢
  cases takes <;> rfl

theorem Stream.write_ne_failed {s : Stream} (sound : s.writeFails = false) (bytes : Bytes) :
    (s.write bytes).1 ≠ .failed := by
  have takes := s.write_takes bytes
  generalize s.write bytes = out at takes ⊢
  cases takes with
  | failed fails => cases sound.symm.trans fails
  | waiting | accepted => nofun

namespace Engine

variable {e e' : Engine f.dialect} {i : Ledger}

structure Unhindered (e : Engine f.dialect) : Prop where
  there : e.pair.firstDropped = false
  opened : e.link.self.inbox.closed = false
  unstopped : e.stopRequested = false
  reads : e.stream.readFails = false
  writes : e.stream.writeFails = false
  pieces : e.stream.maxRead ≠ some 0

structure Flows (p : Pair) (parse : Parse) (later : Bytes) (e : Engine f.dialect) (i : Ledger) :
    Prop where
  fed : Fed p e.link i
  active : e.link.self.state = .active
  reading : e.reading = true
  shut : e.stream.ended = true → later = []
  flushed : i.published = wholeMessages i.log
  carries : e.inbound.Carries parse i.log (e.stream.unread ++ later)

structure Ends (p : Pair) (parse : Parse) (e : Engine f.dialect) (i : Ledger) : Prop where
  led : Led p e.link i
  asked : e.link.self.state ≠ .active
  reading : e.reading = false
  spent : e.inbound.stalled = none ∧ e.inbound.buffered = []
  log : i.log = wholeMessages parse.messages

/-- What it waits for is what it could not do. It sleeps, or a command for it has rung the bell. -/
structure Waits (e : Engine f.dialect) (w : Interest) : Prop where
  read : w.read = (e.reading && e.inbound.wantsInput)
  room : w.room = e.inbound.room
  direct : w.direct = e.inbound.direct
  alert : e.link.self.inbox.Alert
  settled : e.inbound.Settled e.link

def Poised (e : Engine f.dialect) : Prop :=
  e.phase = .top ∨ (∃ w, e.phase = .waiting w ∧ e.Waits w) ∨
    ¬Loops e.phase ∧ e.link.self.state = .terminated

def effort (later : Bytes) (e : Engine f.dialect) : Nat :=
  e.inbound.weight + 3 * (e.stream.unread.length + later.length)

theorem Poised.waits (h : e.Poised) {w : Interest} (waiting : e.phase = .waiting w) :
    e.Waits w := by
  rcases h with top | ⟨w', waiting', waits⟩ | ⟨out, -⟩
  · cases top.symm.trans waiting
  · cases waiting'.symm.trans waiting
    exact waits
  · exact absurd (.of_waiting waiting) out

theorem Poised.terminated (h : e.Poised) (out : ¬Loops e.phase) :
    e.link.self.state = .terminated := by
  rcases h with top | ⟨w, waiting, -⟩ | ⟨-, shut⟩
  · exact absurd (.of_top top) out
  · exact absurd (.of_waiting waiting) out
  · exact shut

theorem Unhindered.answer (h : e.Unhindered) :
    e.link.poll.1 = if e.link.self.inbox.rung then .ready else .pending := by
  rw [Link.poll, Mailbox.poll, h.opened]
  rfl

theorem await_eq (h : e.Unhindered) (w : Interest) :
    e.await w = if e.link.self.inbox.rung then some (e.setLink e.link.poll.2).again
      else ((e.setLink e.link.poll.2).tryStream w).map again := by
  unfold await
  rw [if_neg (by simp [h.unstopped])]
  dsimp only
  rw [h.answer]
  cases e.link.self.inbox.rung <;> rfl

theorem Unhindered.works (h : Unhindered e) (sound : e.link.Sound) (works : Works ofEngine e e') :
    Unhindered e' := by
  obtain ⟨there, rest⟩ := Prod.mk.inj works.outer
  obtain ⟨unstopped, rest⟩ := Prod.mk.inj rest
  obtain ⟨-, rest⟩ := Prod.mk.inj rest
  obtain ⟨reads, rest⟩ := Prod.mk.inj rest
  obtain ⟨writes, pieces⟩ := Prod.mk.inj rest
  exact ⟨there.trans h.there, (works.link.closed sound).trans h.opened, unstopped.trans h.unstopped,
    reads.trans h.reads, writes.trans h.writes, pieces ▸ h.pieces⟩

/-- What some turns come to of an engine that reads on and has so much left to do. What the user
took stays as it is. -/
inductive Goes (p : Pair) (parse : Parse) (later : Bytes) (n : Nat) (i : Ledger)
    (e : Engine f.dialect) : Prop where
  | on {k : Ledger} (same : drawn k = drawn i) (flows : Flows p parse later e k)
    (less : e.effort later < n)
  | stays (flows : Flows p parse later e i) (equal : e.effort later = n)
  | ends {k : Ledger} (same : drawn k = drawn i) (ends : Ends p parse e k)

theorem Ends.settled (h : Ends p parse e i) : e.inbound.Settled e.link :=
  ⟨fun left ↦ absurd h.spent.2 left, fun left ↦ absurd h.spent.1 left⟩

theorem refill_frame (e : Engine f.dialect) :
    (e.refill.inbound, e.refill.stream, e.refill.reading, e.refill.phase) =
      (e.inbound, e.stream, e.reading, e.phase) := by
  unfold refill
  split <;> rfl

theorem Writes.frame (h : e.Unhindered) (writes : e.Writes e') :
    e'.link = e.link ∧ e'.reading = e.reading ∧ e'.inbound = e.inbound ∧ e'.phase = e.phase ∧
      e'.stream.unread = e.stream.unread ∧ e'.stream.ended = e.stream.ended := by
  obtain ⟨unread, ended⟩ := Prod.mk.inj (e.stream.write_kept e.outbound.pending)
  cases writes with
  | failed answer => exact absurd answer (Stream.write_ne_failed h.writes e.outbound.pending)
  | accepted => exact ⟨rfl, rfl, rfl, rfl, unread, ended⟩

theorem leave_frame (e : Engine f.dialect) :
    e.leave.reading = e.reading ∧ e.leave.inbound = e.inbound ∧ ¬Loops e.leave.phase := by
  unfold leave concludeFlushed conclude
  split
  · exact ⟨rfl, rfl, id⟩
  · split
    · split <;> exact ⟨rfl, rfl, id⟩
    · exact ⟨rfl, rfl, id⟩

theorem Drains.frame {rest : Bytes} (drains : e.Drains rest e') :
    e'.reading = e.reading ∧ e'.inbound = e.inbound ∧ ¬Loops e'.phase := by
  cases drains with
  | done => exact leave_frame _
  | failed | accepted => exact ⟨rfl, rfl, id⟩

theorem deliver_spent (spent : e.inbound.stalled = none ∧ e.inbound.buffered = []) :
    e.deliver = e := by
  obtain ⟨none, empty⟩ := spent
  have nothing : e.inbound.deliver e.link = ⟨0, Option.none, e.inbound, e.link⟩ := by
    rw [Inbound.deliver, Inbound.deliverN_none none, Inbound.decodeOn, empty]
    rfl
  unfold deliver
  rw [nothing]
  rfl

theorem effort_refill (e : Engine f.dialect) : e.refill.effort later = e.effort later :=
  congrArg (fun x ↦ x.1.weight + 3 * (x.2.1.unread.length + later.length)) e.refill_frame

theorem Goes.setPhase (h : Goes p parse later n i e) (phase : Phase) :
    Goes p parse later n i { e with phase } := by
  cases h with
  | on same flows less =>
    exact .on same ⟨flows.fed, flows.active, flows.reading, flows.shut, flows.flushed,
      flows.carries⟩ less
  | stays flows equal =>
    exact .stays ⟨flows.fed, flows.active, flows.reading, flows.shut, flows.flushed,
      flows.carries⟩ equal
  | ends same ends => exact .ends same ⟨ends.led, ends.asked, ends.reading, ends.spent, ends.log⟩

section

variable (made : Pair.create s = .ok p) (plain : ∀ m ∈ parse.messages, m.isCredential = false)

include made

/-- An engine that asks to end the pipe once all frames are written publishes the whole messages. -/
theorem Ends.of_terminate (fed : Fed p e.link i) (active : e.link.self.state = .active)
    (messages : parse.messages = i.log) (link : e'.link = e.link.terminate false)
    (reading : e'.reading = false)
    (spent : e'.inbound.stalled = none ∧ e'.inbound.buffered = []) :
    Ends p parse e' i.rollback.flush := by
  obtain ⟨fed, asked⟩ := fed.terminate made active
  rw [← link] at fed asked
  refine ⟨fed.led, asked, reading, spent, ?_⟩
  rw [messages]
  rfl

theorem Ends.works (h : Ends p parse e i) (works : Works ofEngine e e')
    (reading : e'.reading = e.reading) (inbound : e'.inbound = e.inbound) :
    Ends p parse e' i := by
  obtain ⟨led, asked⟩ := h.led.worked made h.asked works.link
  exact ⟨led, asked, reading.trans h.reading, inbound ▸ h.spent, h.log⟩

theorem Flows.refill (h : Flows p parse later e i) :
    Flows p parse later e.refill i ∧
      (e.inbound.Settled e.link → e.refill.inbound.Settled e.refill.link) := by
  obtain ⟨ms, dry, pulled, -⟩ := e.outbound.refill_pulls Link.read e.link
  obtain ⟨fed, active, same⟩ := h.fed.pulled made h.active pulled
  unfold Engine.refill
  split
  · exact ⟨⟨fed, active, h.reading, h.shut, h.flushed, h.carries⟩,
      fun settled ↦ ⟨settled.stalled, fun left ↦ same.trans (settled.refused left)⟩⟩
  · exact ⟨h, id⟩

/-- What is pulled and encoded has nothing to do with the way in. -/
theorem Goes.refill (h : Goes p parse later n i e)
    (settled : e.reading = true → e.inbound.Settled e.link) :
    Goes p parse later n i e.refill ∧ e.refill.inbound.Settled e.refill.link := by
  have effort : e.refill.effort later = e.effort later := effort_refill e
  cases h with
  | on same flows less =>
    obtain ⟨flows', settled'⟩ := flows.refill made
    exact ⟨.on same flows' (effort.trans_lt less), settled' (settled flows.reading)⟩
  | stays flows equal =>
    obtain ⟨flows', settled'⟩ := flows.refill made
    exact ⟨.stays flows' (effort.trans equal), settled' (settled flows.reading)⟩
  | ends same ends =>
    have frame := refill_frame e
    have ends' := ends.works made (Works.refill .refl).of_silent (congrArg (·.2.2.1) frame)
      (congrArg (·.1) frame)
    exact ⟨.ends same ends', ends'.settled⟩

include plain

theorem Flows.deliver (modest : parse.Modest) (h : Flows p parse later e i) :
    Goes p parse later (e.effort later) i e.deliver ∧ e.deliver.phase = e.phase ∧
      (e.deliver.reading = true → e.deliver.inbound.Settled e.deliver.link) := by
  obtain ⟨log, published, fed, active, whole, fails⟩ :=
    h.carries.delivers made plain modest h.fed h.active h.flushed
  have lighter := e.inbound.weight_deliver e.link
  unfold Engine.deliver
  dsimp only
  generalize e.inbound.deliver e.link = out at fed active whole fails lighter ⊢
  match failure : out.failure with
  | none =>
    obtain ⟨flushed, carries, settled, same⟩ := whole failure
    refine ⟨?_, rfl, fun _ ↦ settled⟩
    rcases lighter.lt_or_eq with less | equal
    · exact .on (by rfl) ⟨fed, active, h.reading, h.shut, flushed, carries⟩
        (Nat.add_lt_add_right less _)
    · obtain rfl := same equal
      obtain rfl := flushed.trans h.flushed.symm
      exact .stays ⟨fed, active, h.reading, h.shut, flushed, carries⟩ (congrArg (· + _) equal)
  | some x =>
    obtain ⟨messages, error⟩ := fails x failure
    obtain ⟨err, -, rfl⟩ := Option.map_eq_some_iff.mp error
    refine ⟨.ends (by rfl) (Ends.of_terminate (e := e.setLink out.link) made fed active messages rfl
      rfl ⟨rfl, rfl⟩), rfl, nofun⟩

theorem Flows.begin (modest : parse.Modest) (h : Flows p parse later e i) (top : e.phase = .top)
    (begins : e.Begins e') : Goes p parse later (e.effort later) i e' ∧
      ∃ w, e'.phase = .waiting w ∧ e'.Waits w := by
  obtain ⟨heard, active⟩ := h.fed.process made h.active
  have flows : Flows p parse later (e.setLink e.link.process.2) i :=
    ⟨heard, active, h.reading, h.shut, h.flushed, h.carries⟩
  obtain ⟨goes, phase, settled⟩ := flows.deliver made plain modest
  have alert := begins.alert (h.fed.sound made)
  cases begins with
  | ended shut =>
    rw [active] at shut
    cases shut
  | broken _ broken => cases (broken.symm.trans phase).trans top
  | waits =>
    obtain ⟨goes', settled'⟩ := goes.refill made settled
    exact ⟨goes'.setPhase _, _, rfl, rfl, rfl, rfl, alert, settled'⟩

omit plain in
/-- Bytes from the stream take the engine further, or they are no frames. -/
theorem received_goes (modest : parse.Modest) {bytes : Bytes} {direct : Bool} (fed : Fed p e.link i)
    (active : e.link.self.state = .active) (reading : e.reading = true)
    (shut : e.stream.ended = true → later = []) (flushed : i.published = wholeMessages i.log)
    (carries : e.inbound.Carries parse i.log (bytes ++ (e.stream.unread ++ later)))
    (wants : e.inbound.wantsInput = true)
    (fits : direct = true → bytes.length ≤ e.inbound.decoder.room) (some : bytes ≠ []) :
    (e.received bytes direct).phase = e.phase ∧
      Goes p parse later (e.effort later + 3 * bytes.length) i (e.received bytes direct) ∧
      ((e.received bytes direct).reading = true →
        (e.received bytes direct).effort later < e.effort later + 3 * bytes.length) := by
  have accepted := carries.accept modest wants fits
  unfold received
  dsimp only
  match found : e.inbound.accept bytes direct with
  | .ok inbound =>
    rw [found] at accepted
    obtain ⟨carries, less⟩ := accepted
    have less : @effort f later { e with inbound } < e.effort later + 3 * bytes.length := by
      have := less some
      simp only [effort]
      omega
    exact ⟨rfl, .on (by rfl) ⟨fed, active, reading, shut, flushed, carries⟩ less, fun _ ↦ less⟩
  | .error x =>
    rw [found] at accepted
    obtain ⟨messages, error⟩ := accepted
    obtain ⟨err, -, rfl⟩ := Option.map_eq_some_iff.mp error
    exact ⟨rfl, .ends (by rfl) (Ends.of_terminate made fed active messages rfl rfl ⟨rfl, rfl⟩),
      nofun⟩

omit plain in
theorem Flows.reads (modest : parse.Modest) (h : Flows p parse later e i)
    (unhindered : e.Unhindered) (wants : e.inbound.wantsInput = true) {w : Interest}
    (room : w.room = e.inbound.room) (direct : w.direct = e.inbound.direct)
    (reads : e.Reads w e') : e'.phase = e.phase ∧ Goes p parse later (e.effort later) i e' ∧
      (e'.reading = true → e'.effort later < e.effort later) := by
  have carries := h.carries
  have gives := e.stream.read_gives w.room
  have pos : 0 < Stream.atMost w.room e.stream.maxRead :=
    Stream.atMost_pos (room ▸ carries.room_pos) unhindered.pieces
  have le := Stream.atMost_le w.room e.stream.maxRead
  cases reads with
  | ended answer =>
    generalize e.stream.read w.room = out at gives answer ⊢
    cases gives with
    | ended empty _ ended =>
      rw [empty, h.shut ended] at carries
      have whole := (carries.messages_eq wants).1
      exact ⟨rfl, .ends (by rfl) (Ends.of_terminate made h.fed h.active whole rfl rfl
        (Inbound.wantsInput_iff.mp wants)), nofun⟩
    | nothing _ none => exact absurd none pos.ne'
    | failed | waiting | bytes => cases answer
  | failed answer =>
    generalize e.stream.read w.room = out at gives answer ⊢
    cases gives with
    | failed _ fails => cases unhindered.reads.symm.trans fails
    | ended | waiting | nothing | bytes => cases answer
  | received answer =>
    generalize e.stream.read w.room = out at gives answer ⊢
    cases gives with
    | bytes some =>
      cases answer
      generalize Stream.atMost w.room e.stream.maxRead = n at pos le ⊢
      have some_left := List.length_pos_iff.mpr some
      have length := List.length_take (i := n) (l := e.stream.unread)
      have left := List.length_drop (i := n) (l := e.stream.unread)
      rw [← List.take_append_drop n e.stream.unread, List.append_assoc] at carries
      have fits : w.direct = true → (e.stream.unread.take n).length ≤ e.inbound.decoder.room := by
        intro straight
        rw [room, Inbound.room_of_direct (direct.symm.trans straight)] at le
        omega
      have goes := received_goes (e := { e with
          stream := { e.stream with unread := e.stream.unread.drop n } })
        made modest h.fed h.active h.reading h.shut h.flushed carries wants fits
        (List.length_pos_iff.mp (by omega))
      have effort : @effort f later { e with
          stream := { e.stream with unread := e.stream.unread.drop n } } +
            3 * (e.stream.unread.take n).length = e.effort later := by
        simp only [Engine.effort]
        omega
      rwa [effort] at goes
    | failed | ended | waiting | nothing => cases answer

omit made plain in
/-- Bytes that go out have nothing to do with the way in. -/
theorem Flows.writes (h : Flows p parse later e i) (unhindered : e.Unhindered)
    (writes : e.Writes e') : Flows p parse later e' i ∧
      e'.phase = e.phase ∧ e'.effort later = e.effort later := by
  obtain ⟨link, reading, inbound, phase, unread, ended⟩ := writes.frame unhindered
  refine ⟨⟨link ▸ h.fed, link ▸ h.active, reading.trans h.reading,
    fun shut ↦ h.shut (ended.symm.trans shut), h.flushed, ?_⟩, phase, ?_⟩
  · rw [inbound, unread]
    exact h.carries
  · rw [effort, inbound, unread]
    rfl

omit plain in
/-- A read that was wanted takes an engine further where the stream has something to tell. -/
theorem Flows.tries (modest : parse.Modest) (h : Flows p parse later e i)
    (unhindered : e.Unhindered) {w : Interest} (read : w.read = e.inbound.wantsInput)
    (room : w.room = e.inbound.room) (direct : w.direct = e.inbound.direct)
    (tries : e.Tries w e') : e'.phase = e.phase ∧ Goes p parse later (e.effort later) i e' ∧
      (e.inbound.wantsInput = true → (e.stream.unread ≠ [] ∨ e.stream.ended = true) →
        e'.reading = true → e'.effort later < e.effort later) := by
  cases tries with
  | read wanted _ reads =>
    obtain ⟨phase, goes, less⟩ :=
      h.reads made modest unhindered (read.symm.trans wanted) room direct reads
    exact ⟨phase, goes, fun _ _ ↦ less⟩
  | write passed _ _ writes =>
    obtain ⟨flows, phase, equal⟩ := h.writes unhindered writes
    refine ⟨phase, .stays flows equal, fun wants some ↦ ?_⟩
    rw [read, wants, Bool.true_and, Option.isSome_eq_false_iff, Option.isNone_iff_eq_none] at passed
    obtain ⟨none, going⟩ := tryRead_eq_none passed
    rcases some with some | ended
    · exact absurd none some
    · exact absurd (going.symm.trans ended) Bool.false_ne_true

omit plain in
theorem Flows.await (modest : parse.Modest) (h : Flows p parse later e i)
    (unhindered : e.Unhindered) {w : Interest} (waits : e.Waits w) (phase : e.phase = .waiting w)
    (wakes : e.Wakes w e') : e'.phase = .top ∧ Goes p parse later (e.effort later) i e' ∧
      (e.inbound.wantsInput = true → e.link.self.inbox.rung = false →
        (e.stream.unread ≠ [] ∨ e.stream.ended = true) →
        e'.reading = true → e'.effort later < e.effort later) := by
  have polled : Flows p parse later (e.setLink e.link.poll.2) i :=
    ⟨h.fed.poll, h.active, h.reading, h.shut, h.flushed, h.carries⟩
  have top {k : Engine f.dialect} (same : k.phase = e.phase) :
      k.again = { k with phase := .top } := by
    rw [again, same, phase]
  cases wakes with
  | stopped asked => simp [unhindered.unstopped] at asked
  | closed _ answer =>
    rw [unhindered.answer] at answer
    split at answer <;> cases answer
  | ready _ answer =>
    have rung : e.link.self.inbox.rung = true := by
      rw [unhindered.answer] at answer
      split at answer
      · assumption
      · cases answer
    rw [top (k := e.setLink e.link.poll.2) rfl]
    exact ⟨rfl, (Goes.stays polled rfl).setPhase .top,
      fun _ quiet ↦ absurd (quiet.symm.trans rung) Bool.false_ne_true⟩
  | stream _ _ tries =>
    have read : w.read = e.inbound.wantsInput := by rw [waits.read, h.reading, Bool.true_and]
    obtain ⟨same, goes, less⟩ := polled.tries made modest { unhindered with } read waits.room
      waits.direct tries
    rw [top same]
    exact ⟨rfl, goes.setPhase .top, fun wants _ ↦ less wants⟩

omit made plain in
/-- It waits on where its bell is silent and the stream has nothing to tell. -/
theorem Unhindered.await_eq_none (h : e.Unhindered) {w : Interest} (next : e.await w = none) :
    e.link.self.inbox.rung = false ∧
      (w.read = true → e.stream.unread = [] ∧ e.stream.ended = false) := by
  rw [await_eq h] at next
  cases rung : e.link.self.inbox.rung with
  | true =>
    rw [rung, if_pos rfl] at next
    cases next
  | false =>
    rw [rung, if_neg Bool.false_ne_true, Option.map_eq_none_iff, tryStream, Option.or_eq_none_iff]
      at next
    refine ⟨rfl, fun wanted ↦ ?_⟩
    rw [if_pos wanted] at next
    exact tryRead_eq_none (e := e.setLink e.link.poll.2) next.1

omit plain in
theorem Ends.begin (h : Ends p parse e i) (top : e.phase = .top) (begins : e.Begins e') :
    Ends p parse e' i ∧ e'.Poised := by
  have heard : Works ofEngine e (e.setLink e.link.process.2) := ⟨.process e.link, rfl, id⟩
  have works := heard.trans (Works.begin begins).of_silent
  have spent := deliver_spent (h.works made heard rfl rfl).spent
  have alert := begins.alert (h.led.sound made)
  cases begins with
  | ended shut =>
    obtain ⟨reading, inbound, loops⟩ := (e.setLink e.link.process.2).leave_frame
    refine ⟨h.works made works reading inbound, .inr (.inr ⟨loops, ?_⟩)⟩
    exact (Works.leave .refl).link.terminated (h.led.sound made |>.perform .process) shut
  | broken _ broken =>
    rw [spent] at broken
    cases broken.symm.trans top
  | waits =>
    have frame := (e.setLink e.link.process.2).deliver.refill_frame
    have ends := h.works made works
      ((congrArg (·.2.2.1) frame).trans (congrArg (·.reading) spent))
      ((congrArg (·.1) frame).trans (congrArg (·.inbound) spent))
    exact ⟨ends, .inr (.inl ⟨_, rfl, rfl, rfl, rfl, alert, ends.settled⟩)⟩

omit plain in
theorem Ends.await (h : Ends p parse e i) (unhindered : e.Unhindered) {w : Interest}
    (waiting : e.phase = .waiting w) (unread : w.read = false) (wakes : e.Wakes w e') :
    Ends p parse e' i ∧ e'.phase = .top := by
  have works := Works.await wakes
  cases wakes with
  | stopped asked => simp [unhindered.unstopped] at asked
  | closed _ answer =>
    rw [unhindered.answer] at answer
    split at answer <;> cases answer
  | ready =>
    have polled : (e.setLink e.link.poll.2).phase = .waiting w := waiting
    have back : (e.setLink e.link.poll.2).again =
        { e.setLink e.link.poll.2 with phase := .top } := by
      rw [again, polled]
    rw [back] at works ⊢
    exact ⟨h.works made works rfl rfl, rfl⟩
  | @stream e₁ _ _ tries =>
    cases tries with
    | read wanted => cases unread.symm.trans wanted
    | write _ _ _ writes =>
      have unhindered' : (e.setLink e.link.poll.2).Unhindered := { unhindered with }
      obtain ⟨-, reading, inbound, same, -⟩ := writes.frame unhindered'
      have back : e₁.again = { e₁ with phase := .top } := by
        rw [again, same.trans waiting]
      rw [back] at works ⊢
      exact ⟨h.works made works reading inbound, rfl⟩

omit plain in
theorem Ends.turn (h : Ends p parse e i) (unhindered : e.Unhindered) (poised : e.Poised)
    (next : e.turn = some e') : Ends p parse e' i ∧ e'.Poised := by
  have works := Works.turn next
  cases turn_steps next with
  | begin top begins => exact h.begin made top begins
  | await waiting wakes =>
    have unread := (poised.waits waiting).read
    rw [h.reading, Bool.false_and] at unread
    obtain ⟨ends, top⟩ := h.await made unhindered waiting unread wakes
    exact ⟨ends, .inl top⟩
  | drain draining drains =>
    have shut := poised.terminated (draining ▸ id)
    obtain ⟨reading, inbound, out⟩ := drains.frame
    refine ⟨h.works made works reading inbound, .inr (.inr ⟨out, ?_⟩)⟩
    exact works.link.terminated (h.led.sound made) shut

theorem Flows.turn (modest : parse.Modest) (h : Flows p parse later e i) (unhindered : e.Unhindered)
    (poised : e.Poised) (next : e.turn = some e') :
    Goes p parse later (e.effort later) i e' ∧ e'.Poised := by
  cases turn_steps next with
  | begin top begins =>
    obtain ⟨goes, waits⟩ := h.begin made plain modest top begins
    exact ⟨goes, .inr (.inl waits)⟩
  | await waiting wakes =>
    obtain ⟨top, goes, -⟩ :=
      h.await made modest unhindered (poised.waits waiting) waiting wakes
    exact ⟨goes, .inl top⟩
  | drain draining =>
    have shut := poised.terminated (draining ▸ id)
    rw [h.active] at shut
    cases shut

end

end Engine

end Conduit.Bridge
