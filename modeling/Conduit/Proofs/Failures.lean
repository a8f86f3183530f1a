import Conduit.Proofs.OutboundEnd

namespace Conduit.Bridge

open Wire Pipe

structure Mishaps where
  /-- The failures in the loop, the first one first. -/
  loop : List Fault := []
  /-- The failure to write or to flush what was left behind the loop. Nothing comes after it. -/
  closing : Option Fault := none
  /-- Whether there was no room for a body, which breaks an engine down. -/
  broken : Bool := false

def Outcome.ofFirst : List Fault → Outcome
  | [] => .done
  | f :: _ => .failed f

namespace Mishaps

variable {d : Dialect}

def failures (t : Mishaps) : List Fault := t.loop ++ t.closing.toList

def fail (t : Mishaps) (f : Fault) : Mishaps := { t with loop := t.loop ++ [f] }

def failWith (t : Mishaps) : Failure → Mishaps
  | .malformed e => t.fail (.protocol e)
  | .allocation _ => { t with broken := true }

def leave (t : Mishaps) (e : Engine d) : Mishaps :=
  if e.writing && e.outbound.pending.isEmpty && e.stream.flushFails then
    { t with closing := some (.stream .flush) }
  else t

def deliver (t : Mishaps) (e : Engine d) : Mishaps :=
  match (e.inbound.deliver e.link).failure with
  | none => t
  | some f => t.failWith f

def begin (t : Mishaps) (e : Engine d) : Mishaps :=
  let e := e.setLink e.link.process.2
  if e.link.self.isTerminated then t.leave e else t.deliver e

def tryRead (t : Mishaps) (e : Engine d) (i : Interest) : Mishaps :=
  match (e.stream.read i.room).1 with
  | .failed => t.fail (.stream .read)
  | .bytes bs =>
    match e.inbound.accept bs i.direct with
    | .error f => t.failWith f
    | .ok _ => t
  | .ended | .waiting => t

def tryWrite (t : Mishaps) (e : Engine d) : Mishaps :=
  match (e.stream.write e.outbound.pending).1 with
  | .failed => t.fail (.stream .write)
  | .accepted _ | .waiting => t

def tryStream (t : Mishaps) (e : Engine d) (i : Interest) : Mishaps :=
  if i.read && (e.tryRead i).isSome then t.tryRead e i
  else if i.write then t.tryWrite e
  else t

def await (t : Mishaps) (e : Engine d) (i : Interest) : Mishaps :=
  if e.stopRequested && !e.stopping then t
  else
    let e' := e.setLink e.link.poll.2
    match e.link.poll.1 with
    | .closed => t.leave e'
    | .ready => t
    | .pending => t.tryStream e' i

def drain (t : Mishaps) (e : Engine d) (rest : Bytes) : Mishaps :=
  if rest.isEmpty then
    t.leave { e with
      outbound := ((e.outbound.sent e.outbound.pending.length).refill Source.dry ()).2.2 }
  else
    match (e.stream.write rest).1 with
    | .failed => { t with closing := some (.stream .write) }
    | .accepted _ | .waiting => t

def turn (t : Mishaps) (e : Engine d) : Mishaps :=
  match e.phase with
  | .top => t.begin e
  | .waiting i => t.await e i
  | .draining rest => t.drain e rest
  | .finished _ => t

def turns : Nat → Engine d → Mishaps → Mishaps
  | 0, _, t => t
  | n + 1, e, t =>
    match e.turn with
    | none => t
    | some e' => turns n e' (t.turn e)

def act (e : Engine d) (a : Act) (t : Mishaps) : Mishaps :=
  match a with
  | .turns n => turns n e t
  | _ => t

/-- What is reported of these: a breakdown, the failure behind the loop, or the first one in it. -/
def outcome (t : Mishaps) : Outcome :=
  if t.broken then .broken else .ofFirst (t.closing.toList ++ t.loop)

theorem outcome_broken (t : Mishaps) : t.outcome = .broken ↔ t.broken = true := by
  unfold outcome
  cases t.broken with
  | true => exact ⟨fun _ ↦ rfl, fun _ ↦ rfl⟩
  | false =>
    rw [if_neg Bool.false_ne_true]
    cases t.closing.toList ++ t.loop <;> exact ⟨nofun, nofun⟩

section

variable {t : Mishaps} (whole : t.broken = false)

include whole

theorem outcome_whole : t.outcome = .ofFirst (t.closing.toList ++ t.loop) := by
  rw [outcome, whole, if_neg Bool.false_ne_true]

theorem outcome_done : t.outcome = .done ↔ t.failures = [] := by
  have none_left : t.closing.toList ++ t.loop = [] ↔ t.failures = [] := by
    rw [failures, List.append_eq_nil_iff, List.append_eq_nil_iff, and_comm]
  rw [outcome_whole whole, ← none_left]
  cases t.closing.toList ++ t.loop with
  | nil => exact ⟨fun _ ↦ rfl, fun _ ↦ rfl⟩
  | cons => exact ⟨nofun, nofun⟩

theorem outcome_closing {f : Fault} (closing : t.closing = some f) : t.outcome = .failed f := by
  rw [outcome_whole whole, closing]
  rfl

theorem outcome_first (alone : t.closing = none ∨ t.loop = []) :
    t.outcome = .ofFirst t.failures := by
  rw [outcome_whole whole, failures]
  rcases alone with none | none
  · rw [none, Option.toList_none, List.append_nil, List.nil_append]
  · rw [none, List.append_nil, List.nil_append]

end

end Mishaps

/-- What goes wrong in a run of an engine. -/
def Engine.mishaps {d : Dialect} (e : Engine d) (acts : List Act) : Mishaps :=
  e.observe Mishaps.act {} acts

structure Remembers {d : Dialect} (t : Mishaps) (e : Engine d) : Prop where
  first : e.fault = t.loop.head?
  unclosed : t.closing = none
  whole : t.broken = false

def Recorded {d : Dialect} (t : Mishaps) (e : Engine d) : Prop :=
  match e.phase with
  | .finished o => o = t.outcome
  | .top | .waiting _ | .draining _ => Remembers t e

namespace Remembers

variable {d : Dialect} {t : Mishaps} {e e' : Engine d}

theorem of_eq (h : Remembers t e) (fault : e'.fault = e.fault) : Remembers t e' :=
  ⟨fault.trans h.first, h.unclosed, h.whole⟩

theorem fail (h : Remembers t e) (x : Fault) : Remembers (t.fail x) (e.fail x) := by
  refine ⟨?_, h.unclosed, h.whole⟩
  have faults : (e.fail x).fault = e.fault.or (some x) := rfl
  rw [faults, h.first, Mishaps.fail, List.head?_append]
  rfl

theorem recorded (h : Remembers t e) (loops : Engine.Loops e'.phase) (fault : e'.fault = e.fault) :
    Recorded t e' := by
  unfold Recorded
  cases phase : e'.phase with
  | top | waiting => exact h.of_eq fault
  | draining | finished =>
    rw [phase] at loops
    exact absurd loops id

theorem conclude (h : Remembers t e) : Recorded t e.conclude := by
  have remembered : t.outcome = .ofFirst t.loop := by
    rw [Mishaps.outcome_whole h.whole, h.unclosed]
    rfl
  rw [Recorded, Engine.conclude, remembered, h.first]
  cases t.loop <;> rfl

theorem leave (h : Remembers t e) : Recorded (t.leave e) e.leave := by
  unfold Mishaps.leave Engine.leave Engine.concludeFlushed
  cases e.writing with
  | false => exact h.conclude
  | true =>
    cases e.outbound.pending.isEmpty with
    | false => exact h.of_eq rfl
    | true =>
      cases e.stream.flushFails with
      | false => exact h.conclude
      | true =>
        exact (Mishaps.outcome_closing (by exact h.whole) rfl).symm

theorem failWith {x : Failure} (h : Remembers t e) (loops : Engine.Loops e'.phase)
    (fault : e'.fault = e.fault) : Recorded (t.failWith x) (e'.failWith x) := by
  cases x with
  | malformed x => exact (fail (h.of_eq fault) _).recorded loops rfl
  | allocation x => rfl

theorem deliver (h : Remembers t e) (loops : Engine.Loops e.phase) :
    Recorded (t.deliver e) e.deliver := by
  unfold Mishaps.deliver Engine.deliver
  dsimp only
  cases (e.inbound.deliver e.link).failure with
  | none => exact h.recorded loops rfl
  | some x =>
    dsimp only
    exact h.failWith loops rfl

theorem begin (h : Remembers t e) (top : e.phase = .top) (begins : e.Begins e') :
    Recorded (t.begin e) e' := by
  have heard : Remembers t (e.setLink e.link.process.2) := h.of_eq rfl
  have recorded := heard.deliver (.of_top top)
  unfold Mishaps.begin
  dsimp only
  cases begins with
  | ended shut =>
    rw [Engine.link_setLink, if_pos (Endpoint.isTerminated_iff.mpr shut)]
    exact heard.leave
  | broken running =>
    rw [Engine.link_setLink, if_neg fun ends ↦ running (Endpoint.isTerminated_iff.mp ends)]
    exact recorded
  | waits running goes =>
    rw [Engine.link_setLink, if_neg fun ends ↦ running (Endpoint.isTerminated_iff.mp ends)]
    rw [Recorded, goes] at recorded
    refine recorded.recorded trivial ?_
    dsimp only
    unfold Engine.refill
    split <;> rfl

theorem reads (h : Remembers t e) (loops : Engine.Loops e.phase) {w : Interest}
    (reads : e.Reads w e') : Recorded (t.tryRead e w) e' := by
  unfold Mishaps.tryRead
  cases reads with
  | ended answer =>
    rw [answer]
    exact h.recorded loops rfl
  | failed answer =>
    rw [answer]
    exact recorded (fail (by exact h.of_eq rfl) _) loops rfl
  | @received bytes answer =>
    rw [answer]
    unfold Engine.received
    dsimp only
    cases e.inbound.accept bytes w.direct with
    | error x =>
      dsimp only
      exact h.failWith loops rfl
    | ok => exact h.recorded loops rfl

theorem writes (h : Remembers t e) (loops : Engine.Loops e.phase) (writes : e.Writes e') :
    Recorded (t.tryWrite e) e' := by
  unfold Mishaps.tryWrite
  cases writes with
  | failed answer =>
    rw [answer]
    exact recorded (fail (by exact h.of_eq rfl) _) loops rfl
  | accepted answer =>
    rw [answer]
    exact h.recorded loops rfl

theorem tries (h : Remembers t e) (loops : Engine.Loops e.phase) {w : Interest}
    (tries : e.Tries w e') : Recorded (t.tryStream e w) e' := by
  unfold Mishaps.tryStream
  cases tries with
  | read wanted next reads =>
    rw [wanted, next]
    exact h.reads loops reads
  | write passed wanted _ writes =>
    rw [passed, if_neg Bool.false_ne_true, if_pos wanted]
    exact h.writes loops writes

end Remembers

namespace Recorded

variable {d : Dialect} {t : Mishaps} {e e' : Engine d}

theorem again {w : Interest} {e₀ : Engine d} (h : Recorded t e) (waiting : e₀.phase = .waiting w)
    (proceeds : e₀.Proceeds e) : Recorded t e.again := by
  rcases Engine.again_cases waiting proceeds with ⟨waits, back⟩ | ⟨-, same⟩
  · rw [Recorded, waits] at h
    rw [back]
    exact h.recorded trivial rfl
  · rwa [same]

theorem await (h : Remembers t e) {w : Interest} (waiting : e.phase = .waiting w)
    (wakes : e.Wakes w e') : Recorded (t.await e w) e' := by
  have loops := Engine.Loops.of_waiting waiting
  have polled : Remembers t (e.setLink e.link.poll.2) := h.of_eq rfl
  unfold Mishaps.await
  cases wakes with
  | stopped asked =>
    rw [if_pos asked]
    have closed : Remembers t { e with stopping := true }.closeInput := h.of_eq rfl
    exact (closed.recorded (by exact loops) rfl).again waiting (.inl rfl)
  | closed unasked answer =>
    rw [if_neg (ne_true_of_eq_false unasked), answer]
    exact polled.leave
  | ready unasked answer =>
    rw [if_neg (ne_true_of_eq_false unasked), answer]
    exact (polled.recorded (by exact loops) rfl).again waiting (.inl rfl)
  | stream unasked answer tries =>
    rw [if_neg (ne_true_of_eq_false unasked), answer]
    exact (polled.tries loops tries).again (by exact waiting) tries.proceeds

theorem drain (h : Remembers t e) {rest : Bytes} (drains : e.Drains rest e') :
    Recorded (t.drain e rest) e' := by
  unfold Mishaps.drain
  cases drains with
  | done empty =>
    rw [if_pos empty]
    exact Remembers.leave (by exact h.of_eq rfl)
  | failed more answer =>
    rw [if_neg more, answer]
    exact (Mishaps.outcome_closing (by exact h.whole) rfl).symm
  | accepted more answer =>
    rw [if_neg more, answer]
    exact h.of_eq rfl

theorem turn (h : Recorded t e) (next : e.turn = some e') : Recorded (t.turn e) e' := by
  unfold Mishaps.turn
  cases Engine.turn_steps next with
  | begin top begins =>
    rw [Recorded, top] at h
    rw [top]
    exact h.begin top begins
  | await waiting wakes =>
    rw [Recorded, waiting] at h
    rw [waiting]
    exact await h waiting wakes
  | drain draining drains =>
    rw [Recorded, draining] at h
    rw [draining]
    exact drain h drains

theorem turns (h : Recorded t e) (n : Nat) : Recorded (Mishaps.turns n e t) (Engine.turns n e) := by
  induction n generalizing t e with
  | zero => exact h
  | succ n ih =>
    rw [Mishaps.turns, Engine.turns]
    cases next : e.turn with
    | none => exact h
    | some e' => exact ih (h.turn next)

/-- What leaves the phase and the fault of an engine alone. -/
theorem of_eq (h : Recorded t e) (phase : e'.phase = e.phase) (fault : e'.fault = e.fault) :
    Recorded t e' := by
  unfold Recorded at h ⊢
  rw [phase]
  cases same : e.phase with
  | top | waiting | draining =>
    rw [same] at h
    exact h.of_eq fault
  | finished o =>
    rw [same] at h
    exact h

theorem act (h : Recorded t e) (a : Act) : Recorded (Mishaps.act e a t) (e.act a) := by
  cases a with
  | turns n => exact h.turns n
  | user c =>
    rw [Engine.act]
    split <;> exact h.of_eq rfl rfl
  | _ => exact h.of_eq rfl rfl

theorem run (h : Recorded t e) (acts : List Act) :
    Recorded (e.observe Mishaps.act t acts) (e.run acts) := by
  have keep (e : Engine d) (t : Mishaps) (a : Act) (_ : a ∈ acts) (h : Recorded t e) :
      Recorded (Mishaps.act e a t) (e.act a) := h.act a
  exact Engine.run_keep keep h

end Recorded

namespace Engine

/-- What a finished engine reports. It is done if and only if nothing failed. Otherwise it reports
the first failure, as long as what was left to write behind the loop did not fail after another one:
that failure is reported in the place of the first. -/
theorem reports_of_failures (d : Dialect) (p : Pair) (s : Stream) (bufferSize : Nat)
    (limits : Limits) (acts : List Act) {o : Outcome}
    (shut : ((create d p s bufferSize limits).run acts).outcome? = some o) :
    let t := (create d p s bufferSize limits).mishaps acts
    (o = .broken ↔ t.broken = true) ∧
      (t.broken = false →
        (o = .done ↔ t.failures = []) ∧ (∀ f, t.closing = some f → o = .failed f) ∧
          (t.closing = none ∨ t.loop = [] → o = .ofFirst t.failures)) := by
  intro t
  have start : Recorded {} (create d p s bufferSize limits) := ⟨rfl, rfl, rfl⟩
  have recorded : Recorded t _ := start.run acts
  rw [Recorded, phase_of_outcome shut] at recorded
  subst recorded
  exact ⟨t.outcome_broken, fun whole ↦ ⟨Mishaps.outcome_done whole,
    fun _ ↦ Mishaps.outcome_closing whole, Mishaps.outcome_first whole⟩⟩

/-- The stream gives a byte that does not decode. Until the user has ended the pipe, the loop goes
on, in which then a write fails. The first of the two is reported. -/
theorem reports_malformed_before_unwritable :
    let acts : List Act := [.grant 0, .user (.write { data := [1] }), .user .flush, .turns 16,
      .arrive [0], .turns 16, .failWrites, .turns 16, .user .process, .user .read, .turns 16]
    let e := create sizeFirst (Pair.ofSettings {}) {} 16 {}
    (e.run acts).outcome? = some (.failed (.protocol .missingFlags)) ∧
      (e.mishaps acts).failures = [.protocol .missingFlags, .stream .write] ∧
      Outcome.failed (.protocol .missingFlags) = .ofFirst (e.mishaps acts).failures := by
  intro acts e
  have shut : (e.run acts).outcome? = some (.failed (.protocol .missingFlags)) := by decide +kernel
  have whole : (e.mishaps acts).broken = false := by decide +kernel
  have unclosed : (e.mishaps acts).closing = none := by decide +kernel
  have reports := reports_of_failures sizeFirst (Pair.ofSettings {}) {} 16 {} acts shut
  exact ⟨shut, by decide +kernel, (reports.2 whole).2.2 (.inl unclosed)⟩

/-- A byte that does not decode, before the last flush or the last write behind the loop fails, is
not reported. -/
theorem first_failure_lost_in_closing :
    (let acts : List Act := [.arrive [0], .turns 16, .dropUser, .failFlush, .turns 16]
      let e := create sizeFirst (Pair.ofSettings {}) {} 16 {}
      (e.mishaps acts).failures = [.protocol .missingFlags, .stream .flush] ∧
        (e.run acts).outcome? = some (.failed (.stream .flush))) ∧
      let acts : List Act := [.grant 0, .user (.write { data := [1] }), .user .flush, .turns 16,
        .arrive [0], .turns 16, .dropUser, .turns 16, .failWrites, .turns 16]
      let e := create sizeFirst (Pair.ofSettings {}) {} 16 {}
      (e.mishaps acts).failures = [.protocol .missingFlags, .stream .write] ∧
        (e.run acts).outcome? = some (.failed (.stream .write)) := by
  exact ⟨by decide +kernel, by decide +kernel⟩

end Engine

end Conduit.Bridge
