import Conduit.Proofs.InboundDelivery
import Conduit.Proofs.OutboundEnd

namespace Conduit

namespace Wire

variable {σ τ : Type}

def Source.noted (pull : Source σ) : Source (List Message × σ) := fun (ms, s) ↦
  match pull s with
  | (none, s) => (none, (ms, s))
  | (some m, s) => (some m, (ms ++ [m], s))

def Source.Agree (pull : Source σ) (pull' : Source τ) (R : σ → τ → Prop) : Prop :=
  ∀ s t, R s t → (pull s).1 = (pull' t).1 ∧ R (pull s).2 (pull' t).2

namespace Encoder

variable {d : Dialect} {pull : Source σ} {pull' : Source τ} {R : σ → τ → Prop} {s : σ} {t : τ}

theorem refill_agree (h : pull.Agree pull' R) (related : R s t) (e : Encoder d) :
    (e.refill pull s).2 = (e.refill pull' t).2 ∧ R (e.refill pull s).1 (e.refill pull' t).1 := by
  obtain ⟨same, next⟩ := h s t related
  unfold refill
  split
  · cases found : pull s with
    | mk m s' =>
      cases found' : pull' t with
      | mk m' t' =>
        rw [found, found'] at same next
        dsimp only at same
        subst same
        cases m <;> exact ⟨rfl, next⟩
  · exact ⟨rfl, related⟩

theorem fill_agree (h : pull.Agree pull' R) (related : R s t) (e : Encoder d) (turns room : Nat) :
    (fill pull turns s e room).1 = (fill pull' turns t e room).1 ∧
      (fill pull turns s e room).2.2 = (fill pull' turns t e room).2.2 ∧
      R (fill pull turns s e room).2.1 (fill pull' turns t e room).2.1 := by
  induction turns generalizing s t e room with
  | zero => exact ⟨rfl, rfl, related⟩
  | succ turns ih =>
    obtain ⟨same, next⟩ := refill_agree h related e
    rw [fill, fill]
    split
    · exact ⟨rfl, rfl, related⟩
    · dsimp only
      rw [same]
      split
      · exact ⟨rfl, rfl, next⟩
      · obtain ⟨bytes, rest, next⟩ := ih next ((e.refill pull' t).2.emit room).2
          (room - ((e.refill pull' t).2.emit room).1.length)
        exact ⟨congrArg _ bytes, rest, next⟩

end Encoder

end Wire

inductive Pipe.Link.Accepts : Pipe.Link → List Message → Pipe.Link → Prop where
  | nil {l : Pipe.Link} : Accepts l [] l
  | cons {l l' : Pipe.Link} {m : Message} {ms : List Message} (accepted : (l.write m).1 = true)
    (others : Accepts (l.write m).2 ms l') : Accepts l (m :: ms) l'

namespace Bridge

open Wire Pipe

namespace Outbound

variable {d : Dialect} {σ : Type}

/-- The number that a refill tells is that of the messages which it pulls. -/
theorem refill_noted (o : Outbound d) (pull : Source σ) (s : σ) :
    let noted := o.refill pull.noted ([], s)
    o.refill pull s = (noted.1, noted.2.1.2, noted.2.2) ∧ noted.1 = noted.2.1.1.length := by
  have agree : (counted pull).Agree (counted pull.noted)
      fun s t ↦ s = (t.1, t.2.2) ∧ t.1 = t.2.1.length := by
    rintro ⟨n, s⟩ ⟨n', ms, s'⟩ ⟨same, length⟩
    obtain ⟨rfl, rfl⟩ := Prod.mk.inj same
    dsimp only at length
    unfold counted Source.noted
    dsimp only
    cases pull s with
    | mk m s' =>
      cases m with
      | none => exact ⟨rfl, rfl, length⟩
      | some m => exact ⟨rfl, rfl, by simp [length]⟩
  unfold refill
  split
  · exact ⟨rfl, rfl⟩
  · cases taken : o.encoder.takeBody o.bufferSize with
    | mk body e =>
      cases body with
      | some body => exact ⟨rfl, rfl⟩
      | none =>
        obtain ⟨bytes, rest, same, length⟩ := Encoder.fill_agree agree
          (s := (0, s)) (t := (0, ([], s))) ⟨rfl, rfl⟩ e o.bufferSize o.bufferSize
        dsimp only [Encoder.encodeInto]
        rw [bytes, rest]
        have count := congrArg Prod.fst same
        have left := congrArg Prod.snd same
        exact ⟨Prod.ext count (Prod.ext left rfl), length⟩

end Outbound

namespace Inbound

variable {d : Dialect}

def acceptedN : Nat → Inbound d → Link → List Message
  | 0, _, _ => []
  | turns + 1, i, l =>
    let decodeOn (i : Inbound d) (l : Link) : List Message :=
      if i.buffered.isEmpty then []
      else
        match i.decoder.decode i.buffered with
        | .error _ => []
        | .ok out =>
          acceptedN turns
            { i with
              decoder := out.decoder
              buffered := out.rest
              stalled := out.delivery.map Delivery.message } l
    match i.stalled with
    | none => decodeOn i l
    | some m =>
      if (l.write m).1 then m :: decodeOn { i with stalled := none } (l.write m).2 else []

def accepted (i : Inbound d) (l : Link) : List Message := acceptedN (i.buffered.length + 1) i l

def acceptedOn (turns : Nat) (i : Inbound d) (l : Link) : List Message :=
  if i.buffered.isEmpty then []
  else
    match i.decoder.decode i.buffered with
    | .error _ => []
    | .ok out =>
      acceptedN turns
        { i with
          decoder := out.decoder
          buffered := out.rest
          stalled := out.delivery.map Delivery.message } l

theorem acceptedN_none {i : Inbound d} (none : i.stalled = none) (turns : Nat) (l : Link) :
    acceptedN (turns + 1) i l = acceptedOn turns i l := by
  simp only [acceptedN, none]
  rfl

theorem acceptedN_some {i : Inbound d} {m : Message} (some : i.stalled = some m) (turns : Nat)
    (l : Link) : acceptedN (turns + 1) i l =
      if (l.write m).1 then m :: acceptedOn turns { i with stalled := none } (l.write m).2
      else [] := by
  simp only [acceptedN, some]
  rfl

/-- These frames were accepted from some link on, besides those counted before. They are counted
unless a failure ends the delivery, and one more at most was refused. -/
structure Delivered.Reports (out : Delivered d) (before : Nat) (l : Link) (ms : List Message) :
    Prop where
  counted : out.failure = none → out.count = before + ms.length
  lost : out.failure ≠ none → out.count = 0
  link : ∃ l', l.Accepts ms l' ∧
    (out.link = l' ∨ ∃ m, (l'.write m).1 = false ∧ out.link = (l'.write m).2)

theorem reports_deliverN (turns count : Nat) (i : Inbound d) (l : Link) :
    (deliverN turns count i l).Reports count l (acceptedN turns i l) := by
  induction turns generalizing count i l with
  | zero => exact ⟨fun _ ↦ rfl, fun failed ↦ absurd rfl failed, l, .nil, .inl rfl⟩
  | succ turns ih =>
    have decoded (count : Nat) (i : Inbound d) (l : Link) :
        (decodeOn turns count i l).Reports count l (acceptedOn turns i l) := by
      unfold decodeOn acceptedOn
      split
      · exact ⟨fun _ ↦ rfl, fun failed ↦ absurd rfl failed, l, .nil, .inl rfl⟩
      · cases i.decoder.decode i.buffered with
        -- the failure forgets the count, not what was accepted before it
        | error e => exact ⟨fun going ↦ (by cases going), fun _ ↦ rfl, l, .nil, .inl rfl⟩
        | ok out => exact ih _ _ _
    cases stalled : i.stalled with
    | none =>
      rw [deliverN_none stalled, acceptedN_none stalled]
      exact decoded _ _ _
    | some m =>
      rw [deliverN_some stalled, acceptedN_some stalled]
      split
      · rename_i accepted
        obtain ⟨counted, lost, l', others, link⟩ :=
          decoded (count + 1) { i with stalled := none } (l.write m).2
        refine ⟨fun going ↦ ?_, lost, l', .cons accepted others, link⟩
        rw [counted going, List.length_cons, Nat.add_right_comm, Nat.add_assoc]
      · rename_i refused
        exact ⟨fun _ ↦ rfl, fun failed ↦ absurd rfl failed, l, .nil,
          .inr ⟨m, Bool.eq_false_of_not_eq_true refused, rfl⟩⟩

theorem count_deliver (i : Inbound d) (l : Link) : (i.deliver l).count +
    (if (i.deliver l).failure.isSome then (i.accepted l).length else 0) =
      (i.accepted l).length := by
  obtain ⟨counted, lost, -⟩ := i.reports_deliverN (i.buffered.length + 1) 0 l
  have same : (i.deliver l).count = (deliverN (i.buffered.length + 1) 0 i l).count ∧
      (i.deliver l).failure = (deliverN (i.buffered.length + 1) 0 i l).failure := by
    unfold deliver
    dsimp only
    split <;> exact ⟨rfl, rfl⟩
  rw [same.1, same.2]
  cases failure : (deliverN (i.buffered.length + 1) 0 i l).failure with
  | none => rw [counted failure, accepted, Nat.zero_add]; rfl
  | some x =>
    rw [lost (by rw [failure]; exact Option.some_ne_none x), Nat.zero_add]
    rfl

end Inbound

def Read.given : Read → Bytes
  | .bytes bs => bs
  | _ => []

def Write.taken : Write → Nat
  | .accepted n => n
  | _ => 0

namespace Stream

theorem unread_read (s : Stream) (room : Nat) :
    (s.read room).1.given.length + (s.read room).2.unread.length = s.unread.length := by
  have gives := s.read_gives room
  generalize s.read room = out at gives ⊢
  cases gives with
  | failed | ended | waiting | nothing => exact Nat.zero_add _
  | bytes => rw [Read.given, ← List.length_append, List.take_append_drop]

theorem unread_write (s : Stream) (bytes : Bytes) : (s.write bytes).2.unread = s.unread := by
  have takes := s.write_takes bytes
  generalize s.write bytes = out at takes ⊢
  cases takes <;> rfl

theorem taken_write (s : Stream) (bytes : Bytes) :
    (s.write bytes).2.output.length = s.output.length + (s.write bytes).1.taken ∧
      (s.write bytes).1.taken ≤ bytes.length := by
  have takes := s.write_takes bytes
  generalize s.write bytes = out at takes ⊢
  cases takes with
  | failed | waiting => exact ⟨rfl, Nat.zero_le _⟩
  | accepted _ first => exact ⟨by simp [output, Write.taken], first.length_le⟩

end Stream

structure Tally where
  /-- The frames that its end of the pipe accepted. -/
  accepted : List Message := []
  /-- The frames that it read from the pipe. -/
  read : List Message := []
  /-- How many frames were accepted in deliveries that then failed. -/
  unreported : Nat := 0
  /-- How many bytes the stream took of a piece that it then failed to take. -/
  torn : Nat := 0

namespace Tally

variable {d : Dialect}

def deliver (t : Tally) (e : Engine d) : Tally :=
  let ms := e.inbound.accepted e.link
  { t with
    accepted := t.accepted ++ ms
    unreported := t.unreported +
      if (e.inbound.deliver e.link).failure.isSome then ms.length else 0 }

def refill (t : Tally) (e : Engine d) : Tally :=
  if e.writing then
    { t with read := t.read ++ (e.outbound.refill (Source.noted Link.read) ([], e.link)).2.1.1 }
  else t

def begin (t : Tally) (e : Engine d) : Tally :=
  let e := e.setLink e.link.process.2
  if e.link.self.isTerminated then t
  else
    let t := t.deliver e
    let e := e.deliver
    match e.phase with
    | .finished _ => t
    | _ => t.refill e

def drain (t : Tally) (e : Engine d) (rest : Bytes) : Tally :=
  if rest.isEmpty then t
  else
    match (e.stream.write rest).1 with
    | .failed => { t with torn := t.torn + (e.outbound.pending.length - rest.length) }
    | _ => t

def turn (t : Tally) (e : Engine d) : Tally :=
  match e.phase with
  | .top => t.begin e
  | .draining rest => t.drain e rest
  | _ => t

def turns : Nat → Engine d → Tally → Tally
  | 0, _, t => t
  | n + 1, e, t =>
    match e.turn with
    | none => t
    | some e' => turns n e' (t.turn e)

def act (e : Engine d) (a : Act) (t : Tally) : Tally :=
  match a with
  | .turns n => turns n e t
  | _ => t

end Tally

def Engine.tally {d : Dialect} (e : Engine d) (acts : List Act) : Tally :=
  e.observe Tally.act {} acts

/-- The counts of an engine are those of a tally, but for the frames that were not reported and some
bytes that are not counted. So many bytes arrived. -/
structure Tallies {d : Dialect} (t : Tally) (e : Engine d) (arrived uncounted : Nat) : Prop where
  bytesIn : e.stats.bytesIn + e.stream.unread.length = arrived
  bytesOut : e.stats.bytesOut + uncounted = e.stream.output.length
  messagesIn : e.stats.messagesIn + t.unreported = t.accepted.length
  messagesOut : e.stats.messagesOut = t.read.length

/-- Frames are not reported only after a failure, and a torn piece is the last one. -/
structure Running {d : Dialect} (t : Tally) (e : Engine d) (arrived uncounted : Nat) : Prop extends
    Tallies t e arrived uncounted where
  torn : t.torn = 0
  reported : e.fault = none → t.unreported = 0

/-- An engine that is finished. One that is done has reported all its frames, and no piece is torn
but by a stream that fails to take it. -/
structure Ended {d : Dialect} (t : Tally) (e : Engine d) (o : Outcome) (arrived : Nat) : Prop extends
    Tallies t e arrived t.torn where
  reported : o = .done → t.unreported = 0
  whole : o ≠ .failed (.stream .write) → t.torn = 0

/-- What the tally of an engine keeps. A piece that it drains is counted at the end of the piece. -/
def Kept {d : Dialect} (t : Tally) (e : Engine d) (arrived : Nat) : Prop :=
  match e.phase with
  | .top | .waiting _ => Running t e arrived 0
  | .draining rest => rest.length ≤ e.outbound.pending.length ∧
      Running t e arrived (e.outbound.pending.length - rest.length)
  | .finished o => Ended t e o arrived

/-- What arrives is not counted before it is read. -/
theorem Tallies.arrive {d : Dialect} {t : Tally} {e e' : Engine d} {arrived uncounted more : Nat}
    (h : Tallies t e arrived uncounted) (stats : e'.stats = e.stats)
    (unread : e'.stream.unread.length = e.stream.unread.length + more)
    (output : e'.stream.output = e.stream.output) : Tallies t e' (arrived + more) uncounted := by
  refine ⟨?_, ?_, stats ▸ h.messagesIn, stats ▸ h.messagesOut⟩
  · rw [stats, unread, ← Nat.add_assoc, h.bytesIn]
  · rw [stats, output]
    exact h.bytesOut

namespace Running

variable {d : Dialect} {t : Tally} {e e' : Engine d} {arrived uncounted : Nat}

theorem of_eq (h : Running t e arrived uncounted) (stats : e'.stats = e.stats)
    (stream : e'.stream = e.stream) (fault : e'.fault = none → e.fault = none) :
    Running t e' arrived uncounted := by
  have counted : Tallies t e' (arrived + 0) uncounted :=
    h.arrive stats (congrArg (·.unread.length) stream) (congrArg Stream.output stream)
  exact ⟨counted, h.torn, fun none ↦ h.reported (fault none)⟩

theorem finish (h : Running t e arrived 0) {o : Outcome} (done : o = .done → e.fault = none) :
    Kept t (e.finish o) arrived := by
  refine ⟨⟨h.bytesIn, ?_, h.messagesIn, h.messagesOut⟩, fun ends ↦ h.reported (done ends),
    fun _ ↦ h.torn⟩
  rw [h.torn]
  exact h.bytesOut

theorem conclude (h : Running t e arrived 0) : Kept t e.conclude arrived := by
  unfold Engine.conclude
  refine h.finish ?_
  cases e.fault with
  | none => exact fun _ ↦ rfl
  | some x => exact fun ends ↦ by cases ends

theorem leave (h : Running t e arrived 0) : Kept t e.leave arrived := by
  unfold Engine.leave Engine.concludeFlushed
  split
  · exact h.conclude
  · split
    · split
      · exact h.finish fun ends ↦ by cases ends
      · exact h.conclude
    · refine ⟨Nat.le_refl _, ?_⟩
      rw [Nat.sub_self]
      exact h.of_eq rfl rfl id

theorem closeInput (h : Running t e arrived uncounted) : Running t e.closeInput arrived uncounted :=
  h.of_eq rfl rfl id

theorem fail (h : Running t e arrived uncounted) (x : Fault) :
    Running t (e.fail x) arrived uncounted :=
  h.of_eq rfl rfl fun none ↦ (Option.or_eq_none_iff.mp none).1

end Running

namespace Kept

variable {d : Dialect} {t : Tally} {e e' : Engine d} {arrived : Nat}

theorem of_loops (loops : Engine.Loops e.phase) : Kept t e arrived ↔ Running t e arrived 0 := by
  unfold Kept
  cases phase : e.phase with
  | top | waiting => exact Iff.rfl
  | draining | finished =>
    rw [phase] at loops
    exact absurd loops id

theorem failWith (h : Running t e arrived 0) (loops : Engine.Loops e.phase) (x : Failure) :
    Kept t (e.failWith x) arrived := by
  cases x with
  | malformed x => exact (of_loops (e := e.fail (.protocol x)) loops).mpr (h.fail _)
  | allocation x => exact h.finish fun ends ↦ (by cases ends)

theorem again {w : Interest} {e₀ : Engine d} (h : Kept t e arrived) (waiting : e₀.phase = .waiting w)
    (proceeds : e₀.Proceeds e) : Kept t e.again arrived := by
  rcases Engine.again_cases waiting proceeds with ⟨waits, back⟩ | ⟨-, same⟩
  · rw [Kept, waits] at h
    rw [back]
    exact h.of_eq rfl rfl id
  · rwa [same]

theorem deliver (h : Running t e arrived 0) (loops : Engine.Loops e.phase) :
    Kept (t.deliver e) e.deliver arrived := by
  have reported : e.stats.messagesIn + (e.inbound.deliver e.link).count +
      (t.deliver e).unreported = (t.deliver e).accepted.length := by
    have counted := e.inbound.count_deliver e.link
    have before := h.messagesIn
    unfold Tally.deliver
    dsimp only
    rw [List.length_append]
    omega
  unfold Engine.deliver
  dsimp only
  cases failure : (e.inbound.deliver e.link).failure with
  | none =>
    have unreported : (t.deliver e).unreported = t.unreported := by
      unfold Tally.deliver
      rw [failure]
      rfl
    exact (of_loops (by exact loops)).mpr ⟨⟨h.bytesIn, h.bytesOut, reported, h.messagesOut⟩, h.torn,
      fun sound ↦ unreported.trans (h.reported sound)⟩
  | some x =>
    cases x with
    | malformed x =>
      refine (of_loops (by exact loops)).mpr ⟨⟨h.bytesIn, h.bytesOut, reported, h.messagesOut⟩,
        h.torn, fun sound ↦ ?_⟩
      cases (Option.or_eq_none_iff.mp sound).2
    | allocation x =>
      refine ⟨⟨h.bytesIn, ?_, reported, h.messagesOut⟩, fun ends ↦ (by cases ends), fun _ ↦ h.torn⟩
      change _ + t.torn = _
      rw [h.torn]
      exact h.bytesOut

theorem refill (h : Running t e arrived 0) : Running (t.refill e) e.refill arrived 0 := by
  unfold Tally.refill Engine.refill
  split
  · obtain ⟨same, length⟩ := e.outbound.refill_noted Link.read e.link
    rw [same]
    refine ⟨⟨h.bytesIn, h.bytesOut, h.messagesIn, ?_⟩, h.torn, h.reported⟩
    dsimp only [Engine.setLink]
    rw [List.length_append, ← length, h.messagesOut]
  · exact h

theorem begin (h : Running t e arrived 0) (top : e.phase = .top) (begins : e.Begins e') :
    Kept (t.begin e) e' arrived := by
  have heard : Running t (e.setLink e.link.process.2) arrived 0 := h.of_eq rfl rfl id
  have kept := deliver heard (.of_top top)
  unfold Tally.begin
  dsimp only
  cases begins with
  | ended shut =>
    rw [Engine.link_setLink, if_pos (Endpoint.isTerminated_iff.mpr shut)]
    exact heard.leave
  | broken running broken =>
    rw [Engine.link_setLink, if_neg fun ends ↦ running (Endpoint.isTerminated_iff.mp ends),
      broken]
    exact kept
  | waits running goes =>
    rw [Engine.link_setLink, if_neg fun ends ↦ running (Endpoint.isTerminated_iff.mp ends), goes]
    rw [Kept, goes] at kept
    exact (refill kept).of_eq rfl rfl id

theorem received (h : Running t e arrived 0) (loops : Engine.Loops e.phase) (bytes : Bytes)
    (direct : Bool) : Kept t (e.received bytes direct) (arrived + bytes.length) := by
  have running : Running t { e with
      stats := { e.stats with bytesIn := e.stats.bytesIn + bytes.length } } (arrived + bytes.length)
        0 := by
    refine ⟨⟨?_, h.bytesOut, h.messagesIn, h.messagesOut⟩, h.torn, h.reported⟩
    rw [← h.bytesIn, Nat.add_right_comm]
  unfold Engine.received
  dsimp only
  split
  · exact failWith running loops _
  · exact (of_loops (by exact loops)).mpr (running.of_eq rfl rfl id)

theorem reads (h : Running t e arrived 0) (loops : Engine.Loops e.phase) {w : Interest}
    (reads : e.Reads w e') : Kept t e' arrived := by
  have unread := e.stream.unread_read w.room
  have output := e.stream.output_read w.room
  -- as if what was read had not arrived, until it is counted
  have read {r : Read} (given : (e.stream.read w.room).1 = r) :
      Running t { e with stream := (e.stream.read w.room).2 } (arrived - r.given.length) 0 := by
    rw [given] at unread
    refine ⟨⟨?_, ?_, h.messagesIn, h.messagesOut⟩, h.torn, h.reported⟩
    · have := h.bytesIn
      dsimp only
      omega
    · dsimp only
      rw [output]
      exact h.bytesOut
  cases reads with
  | ended answer => exact (of_loops (by exact loops)).mpr (read answer).closeInput
  | failed answer => exact (of_loops (by exact loops)).mpr ((read answer).fail _)
  | @received bytes answer =>
    have kept := received (read answer) loops bytes w.direct
    rw [answer] at unread
    have le : bytes.length ≤ arrived := by
      have := h.bytesIn
      change bytes.length + _ = _ at unread
      omega
    rwa [Read.given, Nat.sub_add_cancel le] at kept

theorem writes (h : Running t e arrived 0) (loops : Engine.Loops e.phase) (writes : e.Writes e') :
    Kept t e' arrived := by
  obtain ⟨output, -⟩ := e.stream.taken_write e.outbound.pending
  have unread := e.stream.unread_write e.outbound.pending
  have before := h.bytesIn
  have written := h.bytesOut
  rw [← unread] at before
  cases writes with
  | failed answer =>
    rw [answer] at output
    have failed : Running t { e with
        stream := (e.stream.write e.outbound.pending).2, writing := false } arrived 0 :=
      ⟨⟨before, written.trans output.symm, h.messagesIn, h.messagesOut⟩, h.torn, h.reported⟩
    exact (of_loops (by exact loops)).mpr (failed.fail _)
  | accepted answer =>
    rw [answer] at output
    refine (of_loops (by exact loops)).mpr ⟨⟨before, ?_, h.messagesIn, h.messagesOut⟩, h.torn,
      h.reported⟩
    dsimp only
    rw [output, ← written]
    rfl

theorem await (h : Running t e arrived 0) {w : Interest} (waiting : e.phase = .waiting w)
    (wakes : e.Wakes w e') : Kept t e' arrived := by
  have loops := Engine.Loops.of_waiting waiting
  have polled : Running t (e.setLink e.link.poll.2) arrived 0 := h.of_eq rfl rfl id
  cases wakes with
  | stopped =>
    have closed : Running t { e with stopping := true }.closeInput arrived 0 := h.of_eq rfl rfl id
    exact again ((of_loops (by exact loops)).mpr closed) waiting (.inl rfl)
  | closed => exact polled.leave
  | ready => exact again ((of_loops (by exact loops)).mpr polled) waiting (.inl rfl)
  | stream _ _ tries =>
    refine again ?_ (by exact waiting) tries.proceeds
    cases tries with
    | read _ _ reads => exact Kept.reads polled loops reads
    | write _ _ _ writes => exact Kept.writes polled loops writes

theorem drain {rest : Bytes} (le : rest.length ≤ e.outbound.pending.length)
    (h : Running t e arrived (e.outbound.pending.length - rest.length))
    (drains : e.Drains rest e') : Kept (t.drain e rest) e' arrived := by
  obtain ⟨output, most⟩ := e.stream.taken_write rest
  have unread := e.stream.unread_write rest
  have written := h.bytesOut
  have before := h.bytesIn
  rw [← unread] at before
  unfold Tally.drain
  cases drains with
  | done empty =>
    rw [if_pos empty]
    have none_left : rest.length = 0 := by rw [List.isEmpty_iff.mp empty, List.length_nil]
    rw [none_left, Nat.sub_zero] at written
    have counted : Running t { e with
        stats := { e.stats with
          bytesOut := e.stats.bytesOut + e.outbound.pending.length } } arrived 0 :=
      ⟨⟨h.bytesIn, written, h.messagesIn, h.messagesOut⟩, h.torn, h.reported⟩
    refine Running.leave ?_
    exact counted.of_eq rfl rfl id
  | failed more answer =>
    rw [answer] at output
    rw [if_neg more, answer]
    refine ⟨⟨before, ?_, h.messagesIn, h.messagesOut⟩, fun ends ↦ (by cases ends),
      fun other ↦ absurd rfl other⟩
    dsimp only
    rw [h.torn, Nat.zero_add]
    exact written.trans output.symm
  | @accepted n more answer =>
    rw [answer] at output most
    rw [if_neg more, answer]
    change n ≤ _ at most
    refine ⟨?_, ⟨before, ?_, h.messagesIn, h.messagesOut⟩, h.torn, h.reported⟩
    · dsimp only
      rw [List.length_drop]
      omega
    · dsimp only
      rw [output, ← written, List.length_drop]
      change _ = _ + n
      omega

theorem turn (h : Kept t e arrived) (next : e.turn = some e') : Kept (t.turn e) e' arrived := by
  unfold Tally.turn
  cases Engine.turn_steps next with
  | begin top begins =>
    rw [Kept, top] at h
    rw [top]
    exact begin h top begins
  | await waiting wakes =>
    rw [Kept, waiting] at h
    rw [waiting]
    exact await h waiting wakes
  | drain draining drains =>
    rw [Kept, draining] at h
    rw [draining]
    exact drain h.1 h.2 drains

theorem turns (h : Kept t e arrived) (n : Nat) :
    Kept (Tally.turns n e t) (Engine.turns n e) arrived := by
  induction n generalizing t e with
  | zero => exact h
  | succ n ih =>
    rw [Tally.turns, Engine.turns]
    cases next : e.turn with
    | none => exact h
    | some e' => exact ih (h.turn next)

theorem arrive (h : Kept t e arrived) {more : Nat} (stats : e'.stats = e.stats)
    (unread : e'.stream.unread.length = e.stream.unread.length + more)
    (output : e'.stream.output = e.stream.output) (outbound : e'.outbound = e.outbound)
    (fault : e'.fault = e.fault) (phase : e'.phase = e.phase) : Kept t e' (arrived + more) := by
  have running {uncounted : Nat} (h : Running t e arrived uncounted) :
      Running t e' (arrived + more) uncounted :=
    ⟨h.arrive stats unread output, h.torn, fun none ↦ h.reported (fault ▸ none)⟩
  unfold Kept at h ⊢
  rw [phase, outbound]
  cases same : e.phase with
  | top | waiting =>
    rw [same] at h
    exact running h
  | draining =>
    rw [same] at h
    exact ⟨h.1, running h.2⟩
  | finished =>
    rw [same] at h
    exact ⟨h.arrive stats unread output, h.reported, h.whole⟩

theorem act (h : Kept t e arrived) (a : Act) :
    Kept (Tally.act e a t) (e.act a) (arrived + a.bytes.length) := by
  cases a with
  | turns n => exact h.turns n
  | arrive bytes => exact h.arrive rfl List.length_append rfl rfl rfl rfl
  | user c =>
    rw [Engine.act]
    split <;> exact h.arrive rfl rfl rfl rfl rfl rfl
  | _ => exact h.arrive rfl rfl rfl rfl rfl rfl

theorem run (h : Kept t e arrived) (acts : List Act) :
    Kept (e.observe Tally.act t acts) (e.run acts) (arrived + (Bridge.arrived acts).length) := by
  induction acts generalizing t e arrived with
  | nil => exact h
  | cons a acts ih =>
    have whole : (Bridge.arrived (a :: acts)).length =
        a.bytes.length + (Bridge.arrived acts).length :=
      List.length_append
    rw [whole, ← Nat.add_assoc]
    exact ih (h.act a)

end Kept

namespace Engine

/-- What a finished engine counted. All that its stream gave and took is counted, and all frames
that it accepted and read, but for the frames of a delivery that failed behind them and for what
went out of a piece that its stream then failed to take. -/
theorem counts_but_for_failures (d : Dialect) (p : Pair) (bufferSize : Nat) (limits : Limits)
    (acts : List Act) {o : Outcome}
    (shut : ((create d p {} bufferSize limits).run acts).outcome? = some o) :
    let e := (create d p {} bufferSize limits).run acts
    let t := (create d p {} bufferSize limits).tally acts
    e.stats.bytesIn + e.stream.unread.length = (arrived acts).length ∧
      e.stats.bytesOut + t.torn = e.stream.output.length ∧
      e.stats.messagesIn + t.unreported = t.accepted.length ∧
      e.stats.messagesOut = t.read.length ∧ (o = .done → t.unreported = 0) ∧
      (o ≠ .failed (.stream .write) → t.torn = 0) := by
  have start : Kept {} (create d p {} bufferSize limits) 0 :=
    ⟨⟨rfl, rfl, rfl, rfl⟩, rfl, fun _ ↦ rfl⟩
  have kept := start.run acts
  rw [Kept, phase_of_outcome shut, Nat.zero_add] at kept
  exact ⟨kept.bytesIn, kept.bytesOut, kept.messagesIn, kept.messagesOut, kept.reported, kept.whole⟩

theorem counts_of_a_frame_each_way :
    let acts : List Act := [.user (.write { data := [1, 2] }), .user .flush, .arrive [2, 0, 120],
      .turns 16, .user (.terminate true), .turns 16, .user .process, .turns 16]
    let e := create sizeFirst (Pair.ofSettings {}) {} 16 {}
    let e' := e.run acts
    let t := e.tally acts
    e'.outcome? = some .done ∧ e'.stats.bytesIn = 3 ∧ e'.stats.bytesOut = e'.stream.output.length ∧
      e'.stats.messagesIn = t.accepted.length ∧ e'.stats.messagesOut = t.read.length ∧
      t.accepted = [{ data := [120] }] ∧ t.read = [{ data := [1, 2] }] := by
  intro acts e e' t
  have shut : e'.outcome? = some .done := by decide +kernel
  have counts := counts_but_for_failures sizeFirst (Pair.ofSettings {}) 16 {} acts shut
  -- spares the comparison of the run with itself, which would evaluate it
  have run : (create sizeFirst (Pair.ofSettings {}) {} 16 {}).run acts = e' := rfl
  have tally : (create sizeFirst (Pair.ofSettings {}) {} 16 {}).tally acts = t := rfl
  dsimp only at counts
  rw [run, tally] at counts
  obtain ⟨bytesIn, bytesOut, messagesIn, messagesOut, reported, whole⟩ := counts
  have unread : e'.stream.unread = [] := by decide +kernel
  have accepted : t.accepted = [{ data := [120] }] := by decide +kernel
  have read : t.read = [{ data := [1, 2] }] := by decide +kernel
  have arrives : (arrived acts).length = 3 := rfl
  rw [unread, List.length_nil, Nat.add_zero, arrives] at bytesIn
  rw [whole (fun same ↦ (by cases same)), Nat.add_zero] at bytesOut
  rw [reported rfl, Nat.add_zero] at messagesIn
  exact ⟨shut, bytesIn, bytesOut, messagesIn, messagesOut, accepted, read⟩

/-- A frame that the pipe accepts is not counted if what follows it in the buffer does not decode,
and bytes that the stream takes are not if it fails before the end of the piece. -/
theorem counts_lost_in_failures :
    (let acts : List Act := [.arrive [2, 0, 120, 0], .turns 16, .dropUser, .turns 16]
      let e := create sizeFirst (Pair.ofSettings {}) {} 16 {}
      (e.run acts).outcome?.isSome = true ∧
        (e.run acts).stats.messagesIn ≠ (e.tally acts).accepted.length) ∧
      let acts : List Act := [.grant 0, .user (.write { data := [1, 2, 3] }), .user .flush,
        .turns 16, .dropUser, .turns 16, .grant 1, .turns 16, .failWrites, .turns 16]
      let e := create sizeFirst (Pair.ofSettings {}) {} 16 {}
      (e.run acts).outcome?.isSome = true ∧
        (e.run acts).stats.bytesOut ≠ (e.run acts).stream.output.length := by
  exact ⟨by decide +kernel, by decide +kernel⟩

end Engine

end Bridge

end Conduit
