import Conduit.Proofs.OutboundPath

namespace Conduit

namespace Pipe

theorem Deed.eq_terminated_of_turn {d : Deed} {delay : Bool} {s : State}
    (h : d.turn delay s = .terminated) : s = .terminated ∨ d = .obey .termAck := by
  cases d with
  | obey c =>
    cases c with
    | termAck => exact .inr rfl
    | term =>
      left
      cases s with
      | active =>
        dsimp only [Deed.turn] at h
        split at h <;> cases h
      | delimiterReceived | terminating => cases h
      | _ => exact h
    | _ => exact .inl h
  | meet | finish | request | giveUp => cases h
  | _ => exact .inl h

theorem Moves.running {l l' : Link} {ds : List Deed} (h : Moves l ds l')
    (unagreed : .obey .termAck ∉ ds) (running : l.self.state ≠ .terminated) :
    l'.self.state ≠ .terminated := by
  induction h with
  | nil => exact running
  | quiet first _ ih => exact ih unagreed (first.state ▸ running)
  | deed first _ ih =>
    refine ih (fun later ↦ unagreed (List.mem_cons_of_mem _ later)) fun shut ↦ ?_
    rw [first.state] at shut
    refine (Deed.eq_terminated_of_turn shut).elim running ?_
    rintro rfl
    exact unagreed List.mem_cons_self

end Pipe

namespace Bridge

open Wire Pipe

/-- What happens to an engine that is not stopped, and whose input does not end. -/
def Act.LeavesOpen : Act → Prop
  | .stop | .endInput => False
  | .limitReads most => most ≠ some 0
  | _ => True

theorem Worked.running {l l' : Link} (h : Worked silent l l') (sound : l.Sound)
    (running : l.self.state ≠ .terminated) : l'.self.state ≠ .terminated := by
  refine (h.keep (fun l ↦ l.Sound ∧ l.self.state ≠ .terminated) ?_ ⟨sound, running⟩).2
  rintro l c ⟨-, unheard, -⟩ ⟨sound, running⟩
  refine ⟨sound.perform c, (Moves.perform sound c).running (fun told ↦ ?_) running⟩
  have heard := Link.allows_of_mem_deeds told
  cases c with
  | process => exact unheard rfl
  | _ => cases heard

namespace Inbound

variable {d : Dialect}

theorem bufferSize_deliverN (turns count : Nat) (i : Inbound d) (l : Link) :
    (deliverN turns count i l).inbound.bufferSize = i.bufferSize := by
  induction turns generalizing count i l with
  | zero => rfl
  | succ turns ih =>
    have decoded (count : Nat) (i : Inbound d) (l : Link) :
        (decodeOn turns count i l).inbound.bufferSize = i.bufferSize := by
      unfold decodeOn
      split
      · rfl
      · split
        · rfl
        · exact ih _ _ _
    match stalled : i.stalled with
    | none =>
      rw [deliverN_none stalled]
      exact decoded _ _ _
    | some m =>
      rw [deliverN_some stalled]
      split
      · exact decoded _ _ _
      · rfl

theorem bufferSize_deliver (i : Inbound d) (l : Link) :
    (i.deliver l).inbound.bufferSize = i.bufferSize := by
  have size := bufferSize_deliverN (i.buffered.length + 1) 0 i l
  unfold deliver
  dsimp only
  split <;> exact size

theorem bufferSize_accept {i i' : Inbound d} {bytes : Bytes} {direct : Bool}
    (accepted : i.accept bytes direct = .ok i') : i'.bufferSize = i.bufferSize := by
  unfold accept at accepted
  split at accepted
  · split at accepted <;> cases accepted
    rfl
  · cases accepted
    rfl

theorem room_pos {i : Inbound d} (buffered : 0 < i.bufferSize) : 0 < i.room := by
  unfold room
  split
  · rename_i straight
    exact buffered.trans_le (of_decide_eq_true straight)
  · exact buffered

end Inbound

namespace Engine

variable {f : Framing} {s : Settings} {p : Pair} {e e' : Engine f.dialect} {o : Ledger}

theorem phase_of_outcome {d : Dialect} {e : Engine d} {outcome : Outcome}
    (shut : e.outcome? = some outcome) : e.phase = .finished outcome := by
  unfold outcome? at shut
  split at shut <;> cases shut
  assumption

/-- Whether an engine at the top of its loop has written all pending bytes, but not all of a frame.
-/
def torn {d : Dialect} (e : Engine d) : Bool :=
  match e.phase with
  | .top => e.outbound.pending.isEmpty && !e.outbound.encoder.due.isEmpty
  | _ => false

def severed {d : Dialect} (e : Engine d) : Bool :=
  e.torn && decide (.termAck ∈ e.link.self.inbox.contents)

def Even (e : Engine f.dialect) : Prop :=
  e.writing = true → e.outbound.pending = [] → e.outbound.encoder.due = []

def Undecided (e : Engine f.dialect) : Prop :=
  .termAck ∉ e.link.self.inbox.contents ∧ e.link.self.state ≠ .terminated

def Tidy (e : Engine f.dialect) : Prop :=
  match e.phase with
  | .top => e.Even ∨ e.Undecided
  | .waiting _ => e.Even ∧ e.link.self.inbox.Alert ∧ e.link.self.state ≠ .terminated
  | .draining _ => True
  | .finished outcome => outcome = .done → e.outbound.encoder.due = []

theorem tidy_leave (fault : e.writing = false → e.fault ≠ none) (even : e.Even) :
    e.leave.Tidy := by
  unfold leave
  by_cases shut : e.writing = false
  · rw [if_pos (by simp [shut]), conclude]
    intro done
    split at done
    · cases done
    · rename_i sound
      exact absurd sound (fault shut)
  · rw [if_neg (by simpa using shut)]
    by_cases empty : e.outbound.pending = []
    · rw [if_pos (List.isEmpty_iff.mpr empty), concludeFlushed]
      have whole := even (by simpa using shut) empty
      split <;> exact fun _ ↦ whole
    · rw [if_neg (fun none ↦ empty (List.isEmpty_iff.mp none))]
      trivial

/-- Having looked for more frames, an engine has something pending or is between two of them. -/
theorem even_refill {σ : Type} (out : Outbound f.dialect) (sound : out.encoder.Sound)
    (buffered : 0 < out.bufferSize) (pull : Source σ) (x : σ) :
    (out.refill pull x).2.2.pending = [] → (out.refill pull x).2.2.encoder.due = [] := by
  obtain ⟨ms, dry, -, ends, -, refilled⟩ := out.refill_pulls pull x
  obtain ⟨-, -, last⟩ := refilled sound
  exact fun empty ↦ ends (last buffered empty)

theorem Reads.out {w : Interest} (reads : e.Reads w e') :
    e'.outbound = e.outbound ∧ e'.writing = e.writing := by
  cases reads with
  | ended | failed => exact ⟨rfl, rfl⟩
  | received =>
    unfold Engine.received
    dsimp only
    split
    · unfold failWith
      split <;> exact ⟨rfl, rfl⟩
    · exact ⟨rfl, rfl⟩

theorem tidy_again {e₀ : Engine f.dialect} {w : Interest} (waiting : e₀.phase = .waiting w)
    (proceeds : e₀.Proceeds e) (tidy : e.Even ∨ e.Undecided) : e.again.Tidy := by
  rcases again_cases waiting proceeds with ⟨-, back⟩ | ⟨broken, same⟩
  · rw [back]
    exact tidy
  · rw [same, Tidy, broken]
    exact nofun

/-- What its user does may wake an engine that waits, and does not end one that is torn. -/
theorem Tidy.setPair (tidy : e.Tidy) {pair : Pair}
    (unheard : e.phase = .top → e.Even ∨ (.termAck ∉ e.link.self.inbox.contents →
      .termAck ∉ (pair.link .second).self.inbox.contents))
    (alert : e.link.self.inbox.Alert → (pair.link .second).self.inbox.Alert)
    (state : (pair.link .second).self.state = e.link.self.state) : { e with pair }.Tidy := by
  have link : { e with pair }.link = pair.link .second := rfl
  rw [Tidy] at tidy ⊢
  dsimp only
  rw [Undecided, link, state]
  split at tidy <;> rename_i phase
  · rcases unheard phase with even | unagreed
    · exact .inl even
    · exact tidy.imp id fun undecided ↦ ⟨unagreed undecided.1, undecided.2⟩
  · exact ⟨tidy.1, alert tidy.2.1, tidy.2.2⟩
  · trivial
  · exact tidy

section

variable (made : Pair.create s = .ok p)

include made

theorem Tidy.begin (h : Pours p e o) (tidy : e.Tidy) (top : e.phase = .top)
    (begins : e.Begins e') : e'.Tidy := by
  have sound := h.tapped.sound made
  rw [Tidy, top] at tidy
  have alert := begins.alert sound
  cases begins with
  | ended shut =>
    refine tidy_leave h.fault (tidy.resolve_right fun ⟨unagreed, running⟩ ↦ ?_)
    refine sound.process.1.running (fun told ↦ ?_) running shut
    obtain ⟨c, posted, same⟩ := List.mem_map.mp told
    cases same
    exact unagreed posted
  | broken _ broken =>
    rw [Tidy, broken]
    exact nofun
  | waits running goes =>
    have works := Works.begin (.waits running goes)
    refine ⟨?_, alert, works.link.running (sound.perform .process) running⟩
    have delivered : Pours p (e.setLink e.link.process.2).deliver o :=
      (h.setLink (h.tapped.process made)).deliver made
    unfold Engine.refill
    split
    · exact fun _ ↦ even_refill _ delivered.sound delivered.buffered Link.read _
    · rename_i shut
      exact fun writing ↦ absurd writing shut

theorem Tidy.await (h : Pours p e o) (tidy : e.Tidy) {w : Interest} (waiting : e.phase = .waiting w)
    (wakes : e.Wakes w e') : e'.Tidy := by
  rw [Tidy, waiting] at tidy
  obtain ⟨even, alert, running⟩ := tidy
  cases wakes with
  | stopped => exact tidy_again waiting (.inl rfl) (.inl even)
  | closed => exact tidy_leave h.fault even
  | ready => exact tidy_again waiting (.inl rfl) (.inl even)
  | stream _ answer tries =>
    refine tidy_again (by exact waiting) tries.proceeds ?_
    cases tries with
    | read _ _ reads =>
      obtain ⟨out, writing⟩ := reads.out
      left
      rw [Even, out, writing]
      exact even
    | write _ _ _ writes =>
      have unheard : e.link.self.inbox.contents = [] := by
        by_contra letters
        have rung := alert.rung (h.tapped.sound made).self.inbox letters
        change (if e.link.self.inbox.closed then .closed
          else if e.link.self.inbox.rung then .ready else .pending) = Wait.pending at answer
        rw [rung, if_pos rfl] at answer
        split at answer <;> cases answer
      cases writes with
      | failed => exact .inl fun writing ↦ absurd writing Bool.false_ne_true
      | accepted => exact .inr ⟨fun agreed ↦ List.not_mem_nil (unheard ▸ agreed), running⟩

omit made in
theorem Tidy.drain (h : Pours p e o) {rest : Bytes} (drains : e.Drains rest e') : e'.Tidy := by
  cases drains with
  | done =>
    refine tidy_leave h.fault fun _ ↦ ?_
    exact even_refill (e.outbound.sent _) h.sound h.buffered Source.dry ()
  | failed => exact nofun
  | accepted => trivial

theorem Tidy.turn (h : Pours p e o) (tidy : e.Tidy) (next : e.turn = some e') : e'.Tidy := by
  cases turn_steps next with
  | begin top begins => exact tidy.begin made h top begins
  | await waiting wakes => exact tidy.await made h waiting wakes
  | drain _ drains => exact Tidy.drain h drains

theorem Tidy.act (h : Pours p e o) (tidy : e.Tidy) (a : Act)
    (apart : (e.act a).severed = false) : (e.act a).Tidy := by
  cases a with
  | turns n =>
    have keep (e e' : Engine f.dialect) (kept : (∃ o, Pours p e o) ∧ e.Tidy)
        (next : e.turn = some e') : (∃ o, Pours p e' o) ∧ e'.Tidy := by
      obtain ⟨⟨o, pours⟩, tidy⟩ := kept
      obtain ⟨o', pours', -⟩ := pours.turn made next
      exact ⟨⟨o', pours'⟩, tidy.turn made pours next⟩
    exact (turns_keep keep ⟨⟨o, h⟩, tidy⟩ n).2
  | user c =>
    by_cases gone : e.pair.firstDropped = true
    · rw [Engine.act, if_pos gone]
      exact tidy
    · rw [Engine.act, if_neg gone] at apart ⊢
      have sound := h.tapped.sound made
      have state : (e.link.swap.perform c).swap.self.state = e.link.self.state :=
        (Moves.perform sound.swap c).peer_state
      refine tidy.setPair (fun top ↦ ?_) (fun alert ↦ ?_) state
      · refine or_iff_not_imp_left.mpr fun odd _ agreed ↦ ?_
        obtain ⟨-, empty, part⟩ : e.writing = true ∧ e.outbound.pending = [] ∧
            e.outbound.encoder.due ≠ [] := by simpa [Even] using odd
        have torn : e.torn = true := by simp [torn, top, empty, part]
        exact of_decide_eq_false ((Bool.and_eq_false_imp.mp apart) torn) agreed
      · by_cases left : c = .abandon
        · rw [left]
          exact alert
        · exact (sound.swap.posted_perform left).alert sound.self.inbox alert
  | dropUser =>
    rw [Engine.act, Pair.drop]
    split
    · exact tidy
    · exact tidy.setPair (fun _ ↦ .inr id) id rfl
  | _ => exact tidy

end

/-- A run in which the user does not agree to end the pipe while the engine is torn. -/
def Apart {d : Dialect} : Engine d → List Act → Prop
  | _, [] => True
  | e, a :: acts => (e.act a).severed = false ∧ (e.act a).Apart acts

instance Apart.decidable {d : Dialect} :
    (e : Engine d) → (acts : List Act) → Decidable (e.Apart acts)
  | _, [] => inferInstanceAs (Decidable True)
  | e, a :: acts =>
    have := decidable (e.act a) acts
    inferInstanceAs (Decidable ((e.act a).severed = false ∧ (e.act a).Apart acts))

theorem Tidy.run (made : Pair.create s = .ok p) (h : Pours p e o) (tidy : e.Tidy) {acts : List Act}
    (apart : e.Apart acts) : (e.run acts).Tidy := by
  induction acts generalizing e o with
  | nil => exact tidy
  | cons a acts ih =>
    obtain ⟨first, apart⟩ := apart
    obtain ⟨o', pours, -⟩ := h.act made rfl a
    exact ih pours (tidy.act made h a first) apart

structure Keen (e : Engine f.dialect) : Prop where
  buffered : 0 < e.inbound.bufferSize
  reads : e.reading = false → e.fault ≠ none

def Sane (e : Engine f.dialect) : Prop :=
  match e.phase with
  | .waiting w => 0 < w.room
  | .finished .done => e.fault = none
  | _ => True

structure Open (e : Engine f.dialect) : Prop where
  unstopped : e.stopRequested = false
  unended : e.stream.ended = false
  pieces : e.stream.maxRead ≠ some 0

theorem Keen.fail (h : e.Keen) (x : Fault) : (e.fail x).Keen := ⟨h.buffered, fun _ ↦ e.fault_fail x⟩

theorem Keen.failWith (h : e.Keen) (x : Failure) : (e.failWith x).Keen := by
  cases x with
  | malformed => exact h.fail _
  | allocation => exact ⟨h.buffered, h.reads⟩

theorem Keen.deliver (h : e.Keen) : e.deliver.Keen := by
  have size := e.inbound.bufferSize_deliver e.link
  unfold Engine.deliver
  dsimp only
  split
  · exact ⟨size ▸ h.buffered, h.reads⟩
  · exact failWith (by exact ⟨size ▸ h.buffered, h.reads⟩) _

theorem Keen.leave (h : e.Keen) : e.leave.Keen ∧ e.leave.Sane := by
  have concluded : e.conclude.Keen ∧ e.conclude.Sane := by
    refine ⟨⟨h.buffered, h.reads⟩, ?_⟩
    unfold conclude
    split <;> rename_i fault
    · trivial
    · exact fault
  unfold Engine.leave
  split
  · exact concluded
  · split
    · unfold concludeFlushed
      split
      · exact ⟨⟨h.buffered, h.reads⟩, trivial⟩
      · exact concluded
    · exact ⟨⟨h.buffered, h.reads⟩, trivial⟩

theorem Keen.begin (h : e.Keen) (begins : e.Begins e') : e'.Keen ∧ e'.Sane := by
  have heard : (e.setLink e.link.process.2).Keen := ⟨h.buffered, h.reads⟩
  cases begins with
  | ended => exact heard.leave
  | broken _ broken =>
    rw [Sane, broken]
    exact ⟨heard.deliver, trivial⟩
  | waits =>
    have refilled : (e.setLink e.link.process.2).deliver.refill.Keen := by
      have delivered := heard.deliver
      unfold Engine.refill
      split
      · exact ⟨delivered.buffered, delivered.reads⟩
      · exact delivered
    exact ⟨⟨refilled.buffered, refilled.reads⟩, Inbound.room_pos refilled.buffered⟩

theorem Keen.received (h : e.Keen) (bytes : Bytes) (direct : Bool) :
    (e.received bytes direct).Keen := by
  unfold Engine.received
  dsimp only
  split
  · exact failWith (by exact ⟨h.buffered, h.reads⟩) _
  · rename_i i accepted
    have size := Inbound.bufferSize_accept accepted
    exact ⟨size ▸ h.buffered, h.reads⟩

theorem Keen.read (h : e.Keen) (opened : e.Open) {w : Interest} (room : 0 < w.room)
    (reads : e.Reads w e') : e'.Keen := by
  cases reads with
  | ended ended =>
    rcases Stream.ended_of_read room ended with ⟨-, shut⟩ | nothing
    · rw [opened.unended] at shut
      cases shut
    · exact absurd nothing opened.pieces
  | failed => exact fail (by exact ⟨h.buffered, h.reads⟩) _
  | received => exact received (by exact ⟨h.buffered, h.reads⟩) _ _

theorem Keen.write (h : e.Keen) (writes : e.Writes e') : e'.Keen := by
  cases writes with
  | failed => exact fail (by exact ⟨h.buffered, h.reads⟩) _
  | accepted => exact ⟨h.buffered, h.reads⟩

theorem Keen.again {e₀ : Engine f.dialect} {w : Interest} (h : e.Keen)
    (waiting : e₀.phase = .waiting w) (proceeds : e₀.Proceeds e) : e.again.Keen ∧ e.again.Sane := by
  rcases again_cases waiting proceeds with ⟨-, back⟩ | ⟨broken, same⟩
  · rw [back]
    exact ⟨⟨h.buffered, h.reads⟩, trivial⟩
  · rw [same, Sane, broken]
    exact ⟨h, trivial⟩

theorem Keen.await (h : e.Keen) (sane : e.Sane) (opened : e.Open) {w : Interest}
    (waiting : e.phase = .waiting w) (wakes : e.Wakes w e') : e'.Keen ∧ e'.Sane := by
  have polled : (e.setLink e.link.poll.2).Keen := ⟨h.buffered, h.reads⟩
  rw [Sane, waiting] at sane
  cases wakes with
  | stopped asked => simp [opened.unstopped] at asked
  | closed => exact polled.leave
  | ready => exact polled.again waiting (.inl rfl)
  | stream _ _ tries =>
    refine Keen.again ?_ (by exact waiting) tries.proceeds
    cases tries with
    | read _ _ reads =>
      exact polled.read ⟨opened.unstopped, opened.unended, opened.pieces⟩ sane reads
    | write _ _ _ writes => exact polled.write writes

theorem Keen.drain (h : e.Keen) {rest : Bytes} (drains : e.Drains rest e') :
    e'.Keen ∧ e'.Sane := by
  cases drains with
  | done => exact leave (by exact ⟨h.buffered, h.reads⟩)
  | failed | accepted => exact ⟨⟨h.buffered, h.reads⟩, trivial⟩

theorem Keen.turn (h : e.Keen) (sane : e.Sane) (opened : e.Open) (next : e.turn = some e') :
    e'.Keen ∧ e'.Sane := by
  cases turn_steps next with
  | begin _ begins => exact h.begin begins
  | await waiting wakes => exact h.await sane opened waiting wakes
  | drain _ drains => exact h.drain drains

theorem Open.act (h : e.Open) {a : Act} (leaves : a.LeavesOpen) : (e.act a).Open := by
  cases a with
  | turns n =>
    have keep (e e' : Engine f.dialect) (opened : e.Open) (next : e.turn = some e') : e'.Open := by
      have outer := (Works.turn next).outer
      have unstopped : e'.stopRequested = e.stopRequested := congrArg (·.2.1) outer
      have unended : e'.stream.ended = e.stream.ended := congrArg (·.2.2.1) outer
      have pieces : e'.stream.maxRead = e.stream.maxRead := congrArg (·.2.2.2.2.2) outer
      exact ⟨unstopped.trans opened.unstopped, unended.trans opened.unended,
        pieces ▸ opened.pieces⟩
    exact turns_keep keep h n
  | user c =>
    rw [Engine.act]
    split
    · exact h
    · exact ⟨h.unstopped, h.unended, h.pieces⟩
  | limitReads most => exact ⟨h.unstopped, h.unended, leaves⟩
  | stop | endInput => exact absurd leaves id
  | _ => exact ⟨h.unstopped, h.unended, h.pieces⟩

theorem Keen.act (h : e.Keen) (sane : e.Sane) (opened : e.Open) (a : Act) :
    (e.act a).Keen ∧ (e.act a).Sane := by
  cases a with
  | turns n =>
    have keep (e e' : Engine f.dialect) (kept : (e.Keen ∧ e.Sane) ∧ e.Open)
        (next : e.turn = some e') : (e'.Keen ∧ e'.Sane) ∧ e'.Open := by
      obtain ⟨⟨keen, sane⟩, opened⟩ := kept
      refine ⟨keen.turn sane opened next, ?_⟩
      have turned : e.act (.turns 1) = e' := by
        rw [Engine.act, turns, next]
        rfl
      exact turned ▸ opened.act (a := .turns 1) trivial
    exact (turns_keep keep ⟨⟨h, sane⟩, opened⟩ n).1
  | user c =>
    rw [Engine.act]
    split
    · exact ⟨h, sane⟩
    · exact ⟨⟨h.buffered, h.reads⟩, sane⟩
  | _ => exact ⟨⟨h.buffered, h.reads⟩, sane⟩

/-- An engine that is done read on, if it was not stopped and its input did not end. -/
theorem Keen.reading_of_done (h : e.Keen) (sane : e.Sane) (opened : e.Open) {acts : List Act}
    (leaves : ∀ a ∈ acts, a.LeavesOpen) (done : (e.run acts).phase = .finished .done) :
    (e.run acts).reading = true := by
  induction acts generalizing e with
  | nil =>
    have done : e.phase = .finished .done := done
    rw [Sane, done] at sane
    by_contra shut
    exact h.reads (Bool.eq_false_of_not_eq_true shut) sane
  | cons a acts ih =>
    obtain ⟨keen, sane⟩ := h.act sane opened a
    obtain ⟨first, others⟩ := List.forall_mem_cons.mp leaves
    exact ih keen sane (opened.act first) others done

theorem reading_of_act (a : Act) (reads : (e.act a).reading = true) : e.reading = true := by
  cases a with
  | turns n =>
    have keep (e' e'' : Engine f.dialect) (kept : e'.reading = true → e.reading = true)
        (next : e'.turn = some e'') : e''.reading = true → e.reading = true :=
      fun reads ↦ kept ((Works.turn next).reading reads)
    exact turns_keep keep id n reads
  | user c =>
    rw [Engine.act] at reads
    split at reads <;> exact reads
  | _ => exact reads

theorem reading_of_run (acts : List Act) (reads : (e.run acts).reading = true) :
    e.reading = true := by
  induction acts generalizing e with
  | nil => exact reads
  | cons a acts ih => exact reading_of_act a (ih reads)

/-- A user that has asked to end the pipe, or is gone, with the frames that it wrote until then. -/
structure Ceased (e : Engine f.dialect) (k : Ledger) (log : List Message) : Prop where
  log : k.log = log
  asked : e.pair.firstDropped = true ∨ e.user.self.state ≠ .active

section

variable (made : Pair.create s = .ok p) {k : Ledger} {log : List Message}

include made

theorem Ceased.act (h : Pours p e o) (same : written o = written k) (reads : e.reading = true)
    (ceased : Ceased e k log) (a : Act) : Ceased (e.act a) (e.noteWritten a k) log := by
  have sound := h.tapped.sound made
  cases a with
  | turns n =>
    have keep (e e' : Engine f.dialect) (kept : (∃ o, Pours p e o) ∧ Ceased e k log)
        (next : e.turn = some e') : (∃ o, Pours p e' o) ∧ Ceased e' k log := by
      obtain ⟨⟨o, pours⟩, ceased⟩ := kept
      obtain ⟨o', pours', -⟩ := pours.turn made next
      have works := Works.turn next
      have state : e'.user.self.state = e.user.self.state :=
        (works.link.states (pours.tapped.sound made)).2.1
      have dropped : e'.pair.firstDropped = e.pair.firstDropped := congrArg (·.1) works.outer
      refine ⟨⟨o', pours'⟩, ceased.log, ?_⟩
      rw [state, dropped]
      exact ceased.asked
    exact (turns_keep keep ⟨⟨o, h⟩, ceased⟩ n).2
  | user c =>
    rw [Engine.act, noteWritten]
    split
    · exact ceased
    · rename_i there
      have asked := ceased.asked.resolve_left there
      have tapped := h.tapped
      rw [reads] at tapped
      have own := (tapped.serves made).own_eq asked c
      refine ⟨?_, .inr ((Moves.perform sound.swap c).ended asked)⟩
      have log : written (bookkeeping.own e.user c k) = written k := by
        rw [← written_own same e.user c, ← same]
        exact congrArg written own
      exact (congrArg Prod.fst log).trans ceased.log
  | dropUser =>
    refine ⟨ceased.log, .inl ?_⟩
    have dropped : (e.act .dropUser).pair = e.pair.drop .first := rfl
    rw [dropped, Pair.drop]
    split
    · rename_i gone
      exact gone
    · rfl
  | _ => exact ⟨ceased.log, ceased.asked⟩

theorem Ceased.run (h : Pours p e o) (same : written o = written k) {acts : List Act}
    (reads : (e.run acts).reading = true) (ceased : Ceased e k log) :
    Ceased (e.run acts) (e.observe noteWritten k acts) log := by
  induction acts generalizing e k o with
  | nil => exact ceased
  | cons a acts ih =>
    obtain ⟨o', pours, same'⟩ := h.act made same a
    exact ih pours same' reads (ceased.act made h same (reading_of_run (a :: acts) reads) a)

/-- A user that asks to end the pipe has written what was whole by then. -/
theorem Ceased.terminate (h : Pours p e o) (same : written o = written k)
    (reads : e.reading = true) (there : e.pair.firstDropped = false) (delay : Bool) :
    Ceased (e.act (.user (.terminate delay))) (e.noteWritten (.user (.terminate delay)) k)
      (wholeMessages k.log) := by
  have sound := h.tapped.sound made
  have tapped := h.tapped
  rw [reads] at tapped
  have serves := tapped.serves made
  obtain ⟨log, published⟩ := Prod.mk.inj same
  rw [Engine.act, noteWritten, there]
  refine ⟨?_, .inr (sound.swap.terminate_begun delay)⟩
  have same' := written_own same e.user (.terminate delay)
  refine (congrArg Prod.fst same').symm.trans ?_
  rw [← log]
  by_cases active : e.user.self.state = .active
  · have deeds : e.user.deeds (.terminate delay) = [.request] := by
      rw [Link.deeds, active]
    change ((e.user.deeds (.terminate delay)).foldl Ledger.supply o).log = _
    rw [deeds]
    rfl
  · have own : bookkeeping.own e.user (.terminate delay) o = o := serves.own_eq active _
    rw [own]
    exact (serves.settled active).1.symm

/-- An engine that is done, with a user that came to the end of the pipe, pulled and wrote all. -/
theorem Pours.output_eq (h : Pours p e o) (delay : p.second.delay = true)
    (reads : e.reading = true) (shut : e.user.self.state = .terminated)
    (done : e.phase = .finished .done) : e.stream.output = f.frames (ordinary o.log) := by
  have tapped := h.tapped
  rw [reads] at tapped
  have stopped : e.link.self.state.reads = false := by
    by_contra reading
    have shaking := (tapped.shaking made).peer_of_reads (by simpa using reading)
    have shut : e.link.peer.state = .terminated := shut
    rw [shut] at shaking
    exact absurd shaking (by decide)
  have accounts := h.accounts
  rw [Accounts, done] at accounts
  have whole := accounts.2 rfl
  rw [tapped.ended delay rfl stopped, List.append_nil] at whole
  rw [whole, tapped.given made delay stopped]

theorem Pours.log_eq (h : Pours p e o) {before after : List Act} {delay : Bool}
    (reads : (e.run (before ++ .user (.terminate delay) :: after)).reading = true)
    (shut : (e.run (before ++ .user (.terminate delay) :: after)).user.self.state ≠ .active) :
    (e.observe noteWritten o (before ++ .user (.terminate delay) :: after)).log =
      wholeMessages (e.observe noteWritten o before).log := by
  obtain ⟨o₁, pours₁, same₁⟩ := h.run made before
  obtain ⟨o', pours', same'⟩ := h.run made (before ++ .user (.terminate delay) :: after)
  rw [run_append] at reads shut pours'
  rw [observe_append] at same' ⊢
  by_cases there : (e.run before).pair.firstDropped = false
  · obtain ⟨o₂, pours₂, same₂⟩ := pours₁.act made same₁ (.user (.terminate delay))
    have ceased := Ceased.terminate made pours₁ same₁ (reading_of_run _ reads) there delay
    exact (ceased.run made pours₂ same₂ reads).log
  · have gone : (e.run before).pair.firstDropped = true := by simpa using there
    have ceased : Ceased (e.run before) (e.observe noteWritten o before)
      (e.observe noteWritten o before).log := ⟨rfl, .inl gone⟩
    have log := (ceased.run made pours₁ same₁ reads).log
    have tapped := pours'.tapped
    rw [reads] at tapped
    have whole := ((tapped.serves made).settled shut).1
    obtain ⟨same, -⟩ := Prod.mk.inj same'
    rw [same] at whole
    rw [← log]
    exact whole.symm

end

/-- The way out. What the stream takes are the first bytes of the frames of the user's whole
messages, in order. If the engine ends well they are whole frames, provided that the user did not
agree to end the pipe while the engine had written all that it had encoded, but not all of a frame.
And if the engine was built to wait for its user and reads until it ends well, and the user asked to
end the pipe and came to its end, they are all the messages that were whole when it asked. An engine
that is not stopped, and whose input does not end, reads until it ends well. -/
theorem outbound_delivered (f : Framing) {s : Settings} {p : Pair} (made : Pair.create s = .ok p)
    (bufferSize : Nat) (limits : Limits) (acts : List Act) :
    let e := create f.dialect p {} bufferSize limits
    let output := (e.run acts).stream.output
    output <+: f.frames (ordinary (wholeMessages (e.logbook acts).log)) ∧
      ((e.run acts).outcome? = some .done → e.Apart acts →
        ∃ ms, ms <+: ordinary (wholeMessages (e.logbook acts).log) ∧ output = f.frames ms) ∧
      (s.delays.2 = true → (e.run acts).outcome? = some .done → (e.run acts).reading = true →
        (e.run acts).user.self.state = .terminated →
        ∀ before after, acts = before ++ .user (.terminate true) :: after →
          output = f.frames (ordinary (wholeMessages (e.logbook before).log))) ∧
      ((e.run acts).outcome? = some .done → (∀ a ∈ acts, a.LeavesOpen) →
        (e.run acts).reading = true) := by
  intro e output
  have pours : Pours p e {} := .start made bufferSize limits
  obtain ⟨o, pours', same⟩ := pours.run made acts
  obtain ⟨log, -⟩ := Prod.mk.inj same
  have ended (done : (e.run acts).outcome? = some .done) : (e.run acts).phase = .finished .done :=
    phase_of_outcome done
  refine ⟨?_, fun done apart ↦ ?_, fun delay done reads shut before after order ↦ ?_,
    fun done leaves ↦ ?_⟩
  · rw [logbook, ← log]
    exact pours'.output_le made
  · have tidy : e.Tidy := .inl fun _ _ ↦ Encoder.due_of_isIdle rfl
    have tidy' := tidy.run made pours apart
    have accounts := pours'.accounts
    rw [Tidy, ended done] at tidy'
    rw [Accounts, ended done] at accounts
    have whole := accounts.2 rfl
    rw [tidy' rfl, List.append_nil] at whole
    refine ⟨o.returned, ?_, whole⟩
    rw [logbook, ← log]
    exact pours'.tapped.returned_le made
  · have delays : p.second.delay = true := by
      obtain ⟨rfl, -⟩ := Pair.create_eq_ok made
      exact delay
    have whole := pours'.output_eq made delays reads shut (ended done)
    subst order
    rw [log, pours.log_eq made reads (shut ▸ State.noConfusion)] at whole
    exact whole
  · have buffered : 0 < max bufferSize 1 := Nat.lt_of_lt_of_le Nat.zero_lt_one (by simp)
    have keen : e.Keen := ⟨buffered, fun shut ↦ absurd shut.symm Bool.false_ne_true⟩
    exact keen.reading_of_done trivial ⟨rfl, rfl, by rintro ⟨⟩⟩ leaves (ended done)

theorem outbound_delivered_in_single_bytes :
    let before : List Act := [.limitWrites (some 1), .user (.write { data := [1], flags := 1 }),
      .user (.write { data := [2, 3] }), .user .flush, .user (.write { data := [4], flags := 1 })]
    let after : List Act := [.turns 16, .user .process, .turns 16]
    let acts := before ++ .user (.terminate true) :: after
    let e := create Framing.sizeFirst.dialect (Pair.ofSettings {}) {} 2 {}
    let e' := e.run acts
    Pair.create {} = .ok (Pair.ofSettings {}) ∧ e'.outcome? = some .done ∧ e.Apart acts ∧
      e'.user.self.state = .terminated ∧ (∀ a ∈ acts, a.LeavesOpen) ∧ e'.reading = true ∧
      e'.stream.output = [2, 1, 1, 3, 0, 2, 3] := by
  intro before after acts e e'
  have made : Pair.create {} = .ok (Pair.ofSettings {}) := rfl
  have delivered := outbound_delivered .sizeFirst made 2 {} acts
  -- spares the comparison of the run with itself, which would evaluate it
  have fold : (create Framing.sizeFirst.dialect (Pair.ofSettings {}) {} 2 {}).run acts = e' := rfl
  dsimp only at delivered
  rw [fold] at delivered
  obtain ⟨-, -, all, reads⟩ := delivered
  have done : e'.outcome? = some .done := by decide +kernel
  have apart : e.Apart acts := by decide +kernel
  have shut : e'.user.self.state = .terminated := by decide +kernel
  have leaves : ∀ a ∈ acts, a.LeavesOpen := by
    simp [acts, before, after, Act.LeavesOpen]
  have reads := reads done leaves
  have output := all rfl done reads shut before after rfl
  have bytes : Framing.sizeFirst.frames (ordinary (wholeMessages (e.logbook before).log)) =
      [2, 1, 1, 3, 0, 2, 3] := by
    decide +kernel
  exact ⟨made, done, apart, shut, leaves, reads, output.trans bytes⟩

/-- An engine that meets malformed input gives up what it has not pulled, though it was built to
wait for its user. And one that has written a part of a frame leaves out the rest, if its user ends
the pipe right then. -/
theorem outbound_cut_short :
    (let before : List Act := [.turns 16, .user (.write { data := [1] }),
        .user (.write { data := [2] }), .user .flush]
      let after : List Act := [.arrive [0], .turns 16, .user .process, .turns 16]
      let e := create sizeFirst (Pair.ofSettings {}) {} 1 {}
      let e' := e.run (before ++ .user (.terminate true) :: after)
      e.pair.second.delay = true ∧ e'.outcome?.isSome = true ∧ e'.user.self.state = .terminated ∧
        e'.stopRequested = false ∧ e'.stream.ended = false ∧ e'.stream.readFails = false ∧
        e'.stream.writeFails = false ∧ e'.stream.flushFails = false ∧
        e'.stream.output ≠
          Framing.sizeFirst.frames (ordinary (wholeMessages (e.logbook before).log))) ∧
      let acts : List Act := [.user (.write { data := [1] }), .user .flush, .endInput, .turns 4,
        .user .process, .turns 16]
      let e' := (create sizeFirst (Pair.ofSettings { delays := (false, true) }) {} 1 {}).run acts
      e'.outcome? = some .done ∧ ∀ ms, e'.stream.output ≠ Framing.sizeFirst.frames ms := by
  refine ⟨by decide +kernel, by decide +kernel, fun ms ↦ ?_⟩
  have output : ((create sizeFirst (Pair.ofSettings { delays := (false, true) }) {} 1 {}).run
      [.user (.write { data := [1] }), .user .flush, .endInput, .turns 4, .user .process,
        .turns 16]).stream.output = [2] := by
    decide +kernel
  rw [output]
  cases ms with
  | nil => nofun
  | cons m ms =>
    have long : 2 ≤ (Framing.sizeFirst.frames (m :: ms)).length := by
      simp only [Framing.frames, Framing.frame, List.map_cons, List.flatten_cons]
      split
      · simp [Framing.bigEndian_one]
      · simp
        omega
    exact fun same ↦ absurd (same ▸ long) (by decide)

end Engine

end Bridge

end Conduit
