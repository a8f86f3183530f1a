import Conduit.Proofs.EngineRun
import Conduit.Proofs.GracefulEnd

namespace Conduit.Bridge

open Wire Pipe

def written (k : Ledger) : List Message × List Message := (k.log, k.published)

theorem written_supply {k k' : Ledger} (same : written k = written k') (d : Deed) :
    written (k.supply d) = written (k'.supply d) := by
  obtain ⟨log, published⟩ := Prod.mk.inj same
  cases d with
  | obey c => cases c <;> first | rfl | exact same
  | _ => simp only [written, Ledger.supply, Ledger.rollback, Ledger.flush, log, published]

theorem written_own {k k' : Ledger} (same : written k = written k') (l : Link) (c : Call) :
    written (bookkeeping.own l c k) = written (bookkeeping.own l c k') := by
  change written ((l.deeds c).foldl Ledger.supply k) = written ((l.deeds c).foldl Ledger.supply k')
  induction l.deeds c generalizing k k' with
  | nil => exact same
  | cons d ds ih => exact ih (written_supply same d)

/-- What an engine asks of its end. As long as it reads, it leaves it to its user to end it. -/
def asks (reading : Bool) (c : Call) : Prop := ofEngine c ∧ (reading = true → c.isPatient = true)

/-- A pipe that an engine pulls from, with the books of what its user writes. An engine that was
built to wait and reads on finds the end of the pipe as it pulls, and then it is `done`. -/
structure Tapped (p : Pair) (reading : Bool) (l : Link) (o : Ledger) (done : Prop) : Prop where
  reached : ∃ i, Reached p (fun _ ↦ True) (asks reading) l i o
  ended : p.second.delay = true → reading = true → l.self.state.reads = false → done

theorem mute {c : Call} (asked : ofEngine c) (unread : c ≠ .read) (l : Link) (o : Ledger) :
    bookkeeping.peer l c o = o := by
  have taken : Deed.taken (l.deeds c) = [] := by
    refine Link.taken_deeds fun m ↦ ?_
    cases c with
    | read => contradiction
    | checkRead => exact absurd asked id
    | _ => rfl
  cases c with
  | read => contradiction
  | _ =>
    simp only [bookkeeping, taken]
    exact o.draw_nil

namespace Tapped

variable {s : Settings} {p : Pair} {reading : Bool} {l l' : Link} {o : Ledger} {done : Prop}

theorem start (made : Pair.create s = .ok p) : Tapped p true (p.link .second) {} done := by
  have reads : p.second.state.reads = true := by
    obtain ⟨rfl, -⟩ := Pair.create_eq_ok made
    rfl
  exact ⟨⟨{}, .start⟩, fun _ _ stopped ↦ absurd (reads.symm.trans stopped) nofun⟩

theorem close (h : Tapped p reading l o done) : Tapped p false l o done := by
  obtain ⟨i, reached⟩ := h.reached
  exact ⟨⟨i, reached.mono (fun _ ↦ id) fun c asked ↦ ⟨asked.1, nofun⟩⟩, fun _ ↦ nofun⟩

section

variable (made : Pair.create s = .ok p)

include made

theorem sound (h : Tapped p reading l o done) : l.Sound := by
  obtain ⟨i, reached⟩ := h.reached
  exact reached.sound made

theorem shaking (h : Tapped p reading l o done) : l.Shaking := by
  obtain ⟨i, reached⟩ := h.reached
  exact reached.shaking made

omit made in
theorem waits (h : Tapped p true l o done) (delay : p.second.delay = true) :
    l.self.delay = true := by
  obtain ⟨i, reached⟩ := h.reached
  obtain ⟨calls, rfl, -, -, -, engines⟩ := reached.calls
  exact @Pair.delayed p .first calls delay fun c hc ↦ (engines c hc).2 rfl

/-- The user of an engine that reads on sees one that waits for it. -/
theorem serves (h : Tapped p true l o done) : l.swap.Serves o := by
  obtain ⟨i, reached⟩ := h.reached
  obtain ⟨calls, rfl, -, rfl, -, engines⟩ := reached.calls
  exact @Pair.serves s p .first calls made fun c hc ↦ (engines c hc).2 rfl

/-- An engine that found the end was given all that its user wrote. -/
theorem given (h : Tapped p true l o done) (delay : p.second.delay = true)
    (stopped : l.self.state.reads = false) : o.returned = ordinary o.log := by
  obtain ⟨i, reached⟩ := h.reached
  obtain ⟨calls, rfl, -, rfl, -, engines⟩ := reached.calls
  exact (@Pair.given s p .first calls made delay (fun c hc ↦ (engines c hc).2 rfl) stopped).2

theorem call (h : Tapped p reading l o done) {c : Call} (asked : asks reading c)
    (unread : c ≠ .read) : Tapped p reading (l.perform c) o done := by
  obtain ⟨i, reached⟩ := h.reached
  have next := reached.engine asked
  rw [mute asked.1 unread] at next
  refine ⟨⟨_, next⟩, fun delay reads stopped ↦ ?_⟩
  subst reads
  by_contra more
  have left : l.self.state.reads = true := by
    by_contra stopped
    exact more (h.ended delay rfl (Bool.eq_false_of_not_eq_true stopped))
  obtain ⟨meets, -⟩ := (h.sound made).meets_of_left (h.shaking made) (h.waits delay)
    (asked.2 rfl) left stopped
  rcases meets with rfl | rfl
  · exact unread rfl
  · exact asked.1

theorem process (h : Tapped p reading l o done) : Tapped p reading l.process.2 o done :=
  h.call made (c := .process) ⟨trivial, fun _ ↦ rfl⟩ nofun

theorem poll (h : Tapped p reading l o done) : Tapped p reading l.poll.2 o done :=
  h.call made (c := .poll) ⟨trivial, fun _ ↦ rfl⟩ nofun

theorem terminate (h : Tapped p reading l o done) :
    Tapped p false (l.terminate false) o done :=
  h.close.call made (c := .terminate false) ⟨trivial, nofun⟩ nofun

theorem handsOn (h : Tapped p reading l o done) (worked : Worked handsOn l l') :
    Tapped p reading l' o done := by
  refine worked.keep (Tapped p reading · o done) (fun l c handed kept ↦ ?_) h
  cases c with
  | write | flush => exact kept.call made ⟨trivial, fun _ ↦ rfl⟩ nofun
  | _ => exact absurd handed id

theorem user (h : Tapped p reading l o done) (c : Call) :
    Tapped p reading (l.swap.perform c).swap (bookkeeping.own l.swap c o) done := by
  obtain ⟨i, reached⟩ := h.reached
  have same : (l.swap.perform c).swap.self.state = l.self.state :=
    (Moves.perform (h.sound made).swap c).peer_state
  exact ⟨⟨_, reached.user trivial⟩, fun delay reads stopped ↦
    h.ended delay reads (same ▸ stopped)⟩

omit made in
theorem read (h : Tapped p reading l o done) : ∃ o', Tapped p reading l.read.2 o' True ∧
    o'.returned = o.returned ++ l.read.1.toList ∧ written o' = written o := by
  obtain ⟨i, reached⟩ := h.reached
  exact ⟨_, ⟨⟨_, reached.engine (c := .read) ⟨trivial, fun _ ↦ rfl⟩⟩, fun _ _ _ ↦ trivial⟩,
    rfl, rfl⟩

theorem reads_on (h : Tapped p true l o done) (delay : p.second.delay = true) {m : Message}
    (found : l.read.1 = some m) : l.read.2.self.state.reads = true := by
  by_contra stopped
  have reads : l.self.state.reads = true := by
    by_contra stopped
    rw [Link.read_of_not_reads (Bool.eq_false_of_not_eq_true stopped)] at found
    cases found
  have meets := (h.sound made).meets_of_left (h.shaking made) (h.waits delay) (c := .read) rfl
    reads (Bool.eq_false_of_not_eq_true stopped)
  have serves := h.serves made
  obtain ⟨asked, given⟩ := serves.given_of_meets meets
  have left := serves.left asked
  rw [given, List.self_eq_append_right] at left
  rw [Link.Serves.read_eq serves reads] at found
  rw [Link.swap_swap] at left
  rw [left] at found
  cases found

theorem dry_of_stopped {ms : List Message} {dry : Bool} (h : Tapped p true l o done)
    (delay : p.second.delay = true) (pulled : Source.Pulled Link.read l ms l' dry)
    (stopped : l'.self.state.reads = false) :
    dry = true ∨ ms = [] ∧ l.self.state.reads = false := by
  induction pulled generalizing o done with
  | done => exact .inr ⟨rfl, stopped⟩
  | dry => exact .inl rfl
  | @more l _ _ m _ _ next _ ih =>
    obtain ⟨o', tapped, -⟩ := h.read
    have found : l.read.1 = some m := congrArg Prod.fst next
    have reads := h.reads_on made delay found
    rw [next] at tapped reads
    refine .inl ((ih tapped stopped).resolve_right fun ⟨_, shut⟩ ↦ ?_)
    exact Bool.false_ne_true (shut.symm.trans reads)

omit made in
theorem returned_of_pulled {ms : List Message} {dry : Bool} (h : Tapped p reading l o done)
    (pulled : Source.Pulled Link.read l ms l' dry) : ∃ o', Tapped p reading l' o' True ∧
      o'.returned = o.returned ++ ms ∧ written o' = written o := by
  induction pulled generalizing o done with
  | done =>
    exact ⟨o, ⟨h.reached, fun _ _ _ ↦ trivial⟩, (List.append_nil _).symm, rfl⟩
  | dry nothing =>
    have read := h.read
    rwa [nothing] at read
  | more next _ ih =>
    have read := h.read
    rw [next] at read
    obtain ⟨o₁, tapped, returned, same⟩ := read
    obtain ⟨o₂, tapped', returned', same'⟩ := ih tapped
    refine ⟨o₂, tapped', ?_, same'.trans same⟩
    rw [returned', returned, List.append_assoc]
    rfl

/-- What is pulled was returned. -/
theorem pulled {ms : List Message} {dry : Bool} {done' : Prop} (h : Tapped p reading l o done)
    (pulled : Source.Pulled Link.read l ms l' dry) (ends : dry = true → done')
    (idle : ms = [] → done → done') : ∃ o', Tapped p reading l' o' done' ∧
      o'.returned = o.returned ++ ms ∧ written o' = written o := by
  obtain ⟨o', tapped, returned, same⟩ := h.returned_of_pulled pulled
  refine ⟨o', ⟨tapped.reached, fun delay reads stopped ↦ ?_⟩, returned, same⟩
  subst reads
  rcases h.dry_of_stopped made delay pulled stopped with dry | ⟨nothing, shut⟩
  · exact ends dry
  · exact idle nothing (h.ended delay rfl shut)

theorem books (h : Tapped p reading l o done) :
    o.Matches l.peer.lane.stock ∧ l.peer.lane.fresh = [] := by
  obtain ⟨i, reached⟩ := h.reached
  obtain ⟨calls, rfl, -, rfl, -, engines⟩ := reached.calls
  have kept : ∀ c, (Side.second, c) ∈ calls → c ≠ .hiccup := by
    rintro c hc rfl
    exact (engines _ hc).1
  exact ⟨(Pair.ledger_matches made .first calls).2, Pair.still made .first kept⟩

theorem returned_own (h : Tapped p reading l o done) (c : Call) :
    (bookkeeping.own l.swap c o).returned = o.returned := by
  have unheard : .hiccup ∉ l.swap.self.inbox.contents := fun told ↦
    (h.sound made).swap.moved_iff.mpr told (h.books made).2
  refine List.foldlRecOn (motive := fun k : Ledger ↦ k.returned = o.returned) _ _ rfl ?_
  rintro k same d hd
  cases d with
  | obey x =>
    cases x with
    | hiccup => exact absurd (Link.of_obey_mem_deeds hd) unheard
    | _ => exact same
  | _ => exact same

theorem returned_le (h : Tapped p reading l o done) :
    o.returned <+: ordinary (wholeMessages o.log) := by
  obtain ⟨books, still⟩ := h.books made
  have delivers := books.delivers (h.sound made) still
  obtain ⟨published, whole⟩ := delivers.whole
  refine delivers.published.trans (List.IsPrefix.filter _ ?_)
  obtain ⟨rest, log⟩ := published
  rw [← whole, ← log]
  exact wholeMessages_le_append _ rest

end

end Tapped

theorem Stream.output_write (s : Stream) (bytes : Bytes) :
    (s.write bytes).2.output = s.output ++ match (s.write bytes).1 with
      | .accepted n => bytes.take n
      | _ => [] := by
  have takes := s.write_takes bytes
  generalize s.write bytes = out at takes ⊢
  cases takes with
  | failed | waiting => exact (List.append_nil _).symm
  | accepted _ first =>
    dsimp only
    rw [← List.prefix_iff_eq_take.mp first]
    simp [output]

theorem Stream.output_append_drop {s : Stream} {bytes : Bytes} {n : Nat}
    (answer : (s.write bytes).1 = .accepted n) (rest : Bytes) :
    (s.write bytes).2.output ++ (bytes.drop n ++ rest) = s.output ++ (bytes ++ rest) := by
  have output := s.output_write bytes
  rw [answer] at output
  rw [output, List.append_assoc, ← List.append_assoc (bytes.take n), List.take_append_drop]

theorem Stream.output_read (s : Stream) (room : Nat) : (s.read room).2.output = s.output := by
  have gives := s.read_gives room
  generalize s.read room = out at gives ⊢
  cases gives <;> rfl

namespace Engine

variable {f : Framing} {s : Settings} {p : Pair} {e e' : Engine f.dialect} {o : Ledger}

def noteWritten {d : Dialect} (e : Engine d) (a : Act) (k : Ledger) : Ledger :=
  match a with
  | .user c => if e.pair.firstDropped then k else bookkeeping.own e.user c k
  | _ => k

def logbook {d : Dialect} (e : Engine d) (acts : List Act) : Ledger :=
  e.observe noteWritten {} acts

def Accounts (e : Engine f.dialect) (bytes : Bytes) : Prop :=
  match e.phase with
  | .top | .waiting _ => e.stream.output ++ e.outbound.due = bytes
  | .draining rest =>
    e.writing = true ∧ e.stream.output ++ (rest ++ e.outbound.encoder.due) = bytes
  | .finished outcome =>
    e.stream.output <+: bytes ∧
      (outcome = .done → e.stream.output ++ e.outbound.encoder.due = bytes)

structure Pours (p : Pair) (e : Engine f.dialect) (o : Ledger) : Prop where
  tapped : Tapped p e.reading e.link o (e.outbound.encoder.due = [])
  sound : e.outbound.encoder.Sound
  buffered : 0 < e.outbound.bufferSize
  fault : e.writing = false → e.fault ≠ none
  accounts : e.Accounts (f.frames o.returned)

theorem Accounts.output_le {bytes : Bytes} (h : e.Accounts bytes) : e.stream.output <+: bytes := by
  unfold Accounts at h
  split at h
  · exact ⟨_, h⟩
  · exact ⟨_, h⟩
  · exact ⟨_, h.2⟩
  · exact h.1

theorem Accounts.of_loops {bytes : Bytes} (loops : Loops e.phase) :
    e.Accounts bytes ↔ e.stream.output ++ e.outbound.due = bytes := by
  unfold Accounts
  split <;> rename_i phase
  · exact Iff.rfl
  · exact Iff.rfl
  · rw [phase] at loops
    exact absurd loops id
  · rw [phase] at loops
    exact absurd loops id

theorem fault_fail (e : Engine f.dialect) (x : Fault) : (e.fail x).fault ≠ none := by
  have faults : (e.fail x).fault = e.fault.or (some x) := rfl
  rw [faults]
  cases e.fault <;> nofun

namespace Pours

/-- What has nothing to do with the way out. -/
theorem same (h : Pours p e o)
    (tapped : Tapped p e'.reading e'.link o (e.outbound.encoder.due = []))
    (out : e'.outbound = e.outbound) (stream : e'.stream.output = e.stream.output)
    (phase : e'.phase = e.phase) (writing : e'.writing = e.writing)
    (fault : e.fault ≠ none → e'.fault ≠ none) : Pours p e' o := by
  refine ⟨out ▸ tapped, out ▸ h.sound, out ▸ h.buffered,
    fun shut ↦ fault (h.fault (writing ▸ shut)), ?_⟩
  have accounts := h.accounts
  rw [Accounts, phase, out, stream, writing]
  exact accounts

theorem setLink (h : Pours p e o) {l : Link}
    (tapped : Tapped p e.reading l o (e.outbound.encoder.due = [])) : Pours p (e.setLink l) o :=
  h.same tapped rfl rfl rfl rfl id

theorem setPhase (h : Pours p e o) (loops : Loops e.phase) {phase : Phase} (loops' : Loops phase) :
    Pours p { e with phase } o :=
  ⟨h.tapped, h.sound, h.buffered, h.fault,
    (Accounts.of_loops (by exact loops')).mpr ((Accounts.of_loops loops).mp h.accounts)⟩

theorem again (h : Pours p e o) {w : Interest} {e₀ : Engine f.dialect}
    (waiting : e₀.phase = .waiting w) (proceeds : e₀.Proceeds e) : Pours p e.again o := by
  rcases again_cases waiting proceeds with ⟨waits, back⟩ | ⟨-, same⟩
  · rw [back]
    exact h.setPhase (.of_waiting waits) trivial
  · rwa [same]

section

variable (made : Pair.create s = .ok p)

include made

theorem closeInput (h : Pours p e o) : Pours p e.closeInput o :=
  h.same (h.tapped.terminate made) rfl rfl rfl rfl id

theorem fail (h : Pours p e o) (x : Fault) : Pours p (e.fail x) o :=
  h.same (h.tapped.terminate made) rfl rfl rfl rfl fun _ ↦ e.fault_fail x

theorem finish (h : Pours p e o) {outcome : Outcome}
    (done : outcome = .done → e.stream.output ++ e.outbound.encoder.due = f.frames o.returned) :
    Pours p (e.finish outcome) o := by
  refine ⟨?_, h.sound, h.buffered, h.fault, h.accounts.output_le, done⟩
  have dropped : (e.finish outcome).link = (e.pair.drop .second).link .second := rfl
  rw [dropped, Pair.drop]
  split
  · exact h.tapped
  · exact h.tapped.call made (c := .abandon) ⟨trivial, fun _ ↦ rfl⟩ (by simp)

theorem failWith (h : Pours p e o) (x : Failure) : Pours p (e.failWith x) o := by
  cases x with
  | malformed => exact h.fail made _
  | allocation => exact h.finish made nofun

/-- An engine leaves its loop with what is pending, or with no more than a part of a frame. -/
theorem leave (h : Pours p e o) (loops : Loops e.phase) : Pours p e.leave o := by
  have accounts := (Accounts.of_loops loops).mp h.accounts
  unfold Engine.leave
  by_cases shut : e.writing = false
  · rw [if_pos (by simp [shut]), conclude]
    refine h.finish made fun done ↦ ?_
    split at done
    · cases done
    · rename_i sound
      exact absurd sound (h.fault shut)
  · rw [if_neg (by simpa using shut)]
    by_cases empty : e.outbound.pending = []
    · rw [if_pos (List.isEmpty_iff.mpr empty), concludeFlushed]
      have done : e.stream.output ++ e.outbound.encoder.due = f.frames o.returned := by
        rw [← accounts, Outbound.due, empty, List.nil_append]
      split
      · exact h.finish made fun _ ↦ done
      · exact h.finish made fun _ ↦ done
    · rw [if_neg (fun none ↦ empty (List.isEmpty_iff.mp none))]
      exact ⟨h.tapped, h.sound, h.buffered, h.fault, by simpa using shut, accounts⟩

theorem deliver (h : Pours p e o) : Pours p e.deliver o := by
  have handed := h.tapped.handsOn made (e.inbound.worked_deliver e.link)
  unfold Engine.deliver
  dsimp only
  split
  · exact h.same handed rfl rfl rfl rfl id
  · exact failWith made (by exact h.same handed rfl rfl rfl rfl id) _

theorem received (h : Pours p e o) (bytes : Bytes) (direct : Bool) :
    Pours p (e.received bytes direct) o := by
  unfold Engine.received
  dsimp only
  split
  · exact failWith made (by exact h.same h.tapped rfl rfl rfl rfl id) _
  · exact h.same h.tapped rfl rfl rfl rfl id

theorem read (h : Pours p e o) {w : Interest} (reads : e.Reads w e') : Pours p e' o := by
  have read : Pours p { e with stream := (e.stream.read w.room).2 } o :=
    h.same h.tapped rfl (e.stream.output_read _) rfl rfl id
  cases reads with
  | ended => exact read.closeInput made
  | failed => exact read.fail made _
  | received => exact read.received made _ _

theorem write (h : Pours p e o) (loops : Loops e.phase) (writes : e.Writes e') :
    Pours p e' o := by
  have accounts := (Accounts.of_loops loops).mp h.accounts
  cases writes with
  | failed answer =>
    have output := e.stream.output_write e.outbound.pending
    rw [answer] at output
    refine ⟨h.tapped.terminate made, h.sound, h.buffered, fun _ ↦ fault_fail _ _,
      (Accounts.of_loops (by exact loops)).mpr ?_⟩
    rw [← accounts, ← List.append_nil e.stream.output, ← output]
    rfl
  | accepted answer =>
    refine ⟨h.tapped, h.sound, h.buffered, h.fault, (Accounts.of_loops (by exact loops)).mpr ?_⟩
    exact (Stream.output_append_drop answer e.outbound.encoder.due).trans accounts

theorem refill (h : Pours p e o) (loops : Loops e.phase) :
    ∃ o', Pours p e.refill o' ∧ written o' = written o := by
  obtain ⟨ms, dry, pulled, ends, size, refilled⟩ := e.outbound.refill_pulls Link.read e.link
  obtain ⟨sound, bytes, -⟩ := refilled h.sound
  have accounts := (Accounts.of_loops loops).mp h.accounts
  have idle : ms = [] → e.outbound.encoder.due = [] →
      (e.outbound.refill Link.read e.link).2.2.encoder.due = [] := by
    rintro rfl idle
    by_cases busy : e.outbound.pending = []
    · rw [Outbound.due, busy, idle] at bytes
      exact (List.append_eq_nil_iff.mp bytes.symm).2
    · rwa [Outbound.refill_busy busy]
  obtain ⟨o', tapped, returned, same⟩ := h.tapped.pulled made pulled ends idle
  unfold Engine.refill
  split
  · refine ⟨o', ⟨tapped, sound, size ▸ h.buffered, h.fault,
      (Accounts.of_loops (by exact loops)).mpr ?_⟩, same⟩
    rw [returned, f.frames_append, ← accounts, List.append_assoc, bytes]
    rfl
  · exact ⟨o, h, rfl⟩

theorem begin (h : Pours p e o) (top : e.phase = .top) (begins : e.Begins e') :
    ∃ o', Pours p e' o' ∧ written o' = written o := by
  have heard : Pours p (e.setLink e.link.process.2) o := h.setLink (h.tapped.process made)
  cases begins with
  | ended => exact ⟨o, heard.leave made (.of_top top), rfl⟩
  | broken => exact ⟨o, heard.deliver made, rfl⟩
  | waits _ goes =>
    have loops : Loops (e.setLink e.link.process.2).deliver.phase := .of_top goes
    obtain ⟨o', refilled, same⟩ := (heard.deliver made).refill made loops
    refine ⟨o', refilled.setPhase ?_ trivial, same⟩
    unfold Engine.refill
    split <;> exact loops

theorem await (h : Pours p e o) {w : Interest} (waiting : e.phase = .waiting w)
    (wakes : e.Wakes w e') : Pours p e' o := by
  have loops := Loops.of_waiting waiting
  have polled : Pours p (e.setLink e.link.poll.2) o := h.setLink (h.tapped.poll made)
  cases wakes with
  | stopped =>
    have stopped : Pours p { e with stopping := true } o := h.same h.tapped rfl rfl rfl rfl id
    exact (stopped.closeInput made).again waiting (.inl rfl)
  | closed => exact polled.leave made loops
  | ready => exact polled.again waiting (.inl rfl)
  | stream _ _ tries =>
    refine again ?_ (by exact waiting) tries.proceeds
    cases tries with
    | read _ _ reads => exact polled.read made reads
    | write _ _ _ writes => exact polled.write made loops writes

theorem drain (h : Pours p e o) {rest : Bytes} (draining : e.phase = .draining rest)
    (drains : e.Drains rest e') : Pours p e' o := by
  have accounts := h.accounts
  rw [Accounts, draining] at accounts
  obtain ⟨writing, accounts⟩ := accounts
  cases drains with
  | done empty =>
    let emptied := e.outbound.sent e.outbound.pending.length
    obtain ⟨ms, dry, pulled, -, size, refilled⟩ := emptied.refill_pulls Source.dry ()
    obtain ⟨sound, bytes, -⟩ := refilled h.sound
    obtain rfl := pulled.eq_nil_of_dry
    have none_pulled : emptied.due ++ f.frames [] = e.outbound.encoder.due := by
      have none_pending : emptied.pending = [] := List.drop_length
      rw [Outbound.due, none_pending]
      exact List.append_nil _
    rw [none_pulled] at bytes
    -- where it leaves from does not matter
    have drained : Pours p { e with
        phase := .top
        stats := { e.stats with bytesOut := e.stats.bytesOut + e.outbound.pending.length }
        outbound := (emptied.refill Source.dry ()).2.2 } o := by
      refine ⟨⟨h.tapped.reached, fun delay reads stopped ↦ ?_⟩, sound, size ▸ h.buffered, h.fault,
        ?_⟩
      · rw [h.tapped.ended delay reads stopped] at bytes
        exact (List.append_eq_nil_iff.mp bytes.symm).2
      · rw [Accounts.of_loops (by trivial), ← accounts, List.isEmpty_iff.mp empty,
          List.nil_append, bytes]
    have left := drained.leave made trivial
    exact left
  | failed _ answer =>
    have output := e.stream.output_write rest
    rw [answer] at output
    have failed : Pours p { e with stream := (e.stream.write rest).2 } o :=
      h.same h.tapped rfl (output.trans (List.append_nil _)) rfl rfl id
    exact failed.finish made (by simp)
  | accepted _ answer =>
    refine ⟨h.tapped, h.sound, h.buffered, h.fault, writing, ?_⟩
    exact (Stream.output_append_drop answer e.outbound.encoder.due).trans accounts

theorem turn (h : Pours p e o) (next : e.turn = some e') :
    ∃ o', Pours p e' o' ∧ written o' = written o := by
  cases turn_steps next with
  | begin top begins => exact h.begin made top begins
  | await waiting wakes => exact ⟨o, h.await made waiting wakes, rfl⟩
  | drain draining drains => exact ⟨o, h.drain made draining drains, rfl⟩

theorem act (h : Pours p e o) {k : Ledger} (same : written o = written k) (a : Act) :
    ∃ o', Pours p (e.act a) o' ∧ written o' = written (e.noteWritten a k) := by
  cases a with
  | turns n =>
    have keep (e e' : Engine f.dialect) (kept : ∃ o, Pours p e o ∧ written o = written k)
        (next : e.turn = some e') : ∃ o, Pours p e' o ∧ written o = written k := by
      obtain ⟨o, pours, same⟩ := kept
      obtain ⟨o', pours', same'⟩ := pours.turn made next
      exact ⟨o', pours', same'.trans same⟩
    exact turns_keep keep ⟨o, h, same⟩ n
  | user c =>
    rw [Engine.act, noteWritten]
    split
    · exact ⟨o, h, same⟩
    · have accounts := h.accounts
      rw [← h.tapped.returned_own made c] at accounts
      exact ⟨_, ⟨h.tapped.user made c, h.sound, h.buffered, h.fault, accounts⟩,
        written_own same e.user c⟩
  | dropUser =>
    refine ⟨o, h.same ?_ rfl rfl rfl rfl id, same⟩
    have dropped : (e.act .dropUser).link = (e.pair.drop .first).link .second := rfl
    rw [dropped, Pair.drop]
    split
    · exact h.tapped
    · exact h.tapped.user made .abandon
  | _ => exact ⟨o, h.same h.tapped rfl rfl rfl rfl id, same⟩

/-- An engine that was just started. -/
theorem start (bufferSize : Nat) (limits : Limits) :
    Pours p (create f.dialect p {} bufferSize limits) {} := by
  have idle : (create f.dialect p {} bufferSize limits).outbound.encoder.isIdle = true := rfl
  refine ⟨.start made, Encoder.sound_of_isIdle idle, ?_, nofun, ?_⟩
  · exact Nat.lt_of_lt_of_le Nat.zero_lt_one (Nat.le_max_right bufferSize 1)
  · rw [Accounts.of_loops (by trivial), Outbound.due, Encoder.due_of_isIdle idle]
    rfl

theorem run (h : Pours p e o) (acts : List Act) :
    ∃ o', Pours p (e.run acts) o' ∧ written o' = written (e.observe noteWritten o acts) := by
  have keep (e : Engine f.dialect) (k : Ledger) (a : Act) (_ : a ∈ acts)
      (kept : ∃ o, Pours p e o ∧ written o = written k) :
      ∃ o, Pours p (e.act a) o ∧ written o = written (e.noteWritten a k) := by
    obtain ⟨o, pours, same⟩ := kept
    exact pours.act made same a
  exact run_keep keep ⟨o, h, rfl⟩

theorem output_le (h : Pours p e o) :
    e.stream.output <+: f.frames (ordinary (wholeMessages o.log)) := by
  obtain ⟨rest, more⟩ := h.tapped.returned_le made
  refine h.accounts.output_le.trans ⟨f.frames rest, ?_⟩
  rw [← more, f.frames_append]

end

end Pours

end Engine

end Conduit.Bridge
