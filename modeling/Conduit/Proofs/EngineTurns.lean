import Conduit.Bridge.Engine

namespace Conduit

theorem Pipe.Endpoint.isTerminated_iff {e : Endpoint} :
    e.isTerminated = true ↔ e.state = .terminated := beq_iff_eq

namespace Bridge

namespace Stream

inductive Gives (s : Stream) (room : Nat) : Read × Stream → Prop where
  | failed (empty : s.unread = []) (fails : s.readFails = true) : Gives s room (.failed, s)
  | ended (empty : s.unread = []) (sound : s.readFails = false) (ended : s.ended = true) :
    Gives s room (.ended, s)
  | waiting (empty : s.unread = []) (sound : s.readFails = false) (goes_on : s.ended = false) :
    Gives s room (.waiting, s)
  /-- There are bytes, but it gives none of them. -/
  | nothing (some : s.unread ≠ []) (none : atMost room s.maxRead = 0) : Gives s room (.ended, s)
  | bytes (some : s.unread ≠ []) (positive : 0 < atMost room s.maxRead) :
    Gives s room (.bytes (s.unread.take (atMost room s.maxRead)),
      { s with unread := s.unread.drop (atMost room s.maxRead) })

theorem read_gives (s : Stream) (room : Nat) : s.Gives room (s.read room) := by
  unfold read
  split <;> rename_i empty
  · have empty := List.isEmpty_iff.mp empty
    split <;> rename_i fails
    · exact .failed empty fails
    · have sound := eq_false_of_ne_true fails
      split <;> rename_i ended
      · exact .ended empty sound ended
      · exact .waiting empty sound (eq_false_of_ne_true ended)
  · have some : s.unread ≠ [] := fun none ↦ empty (List.isEmpty_iff.mpr none)
    dsimp only
    split <;> rename_i none
    · exact .nothing some none
    · exact .bytes some (Nat.pos_of_ne_zero none)

/-- What a stream takes of the bytes that it is offered, and what it comes to. -/
inductive Takes (s : Stream) (bytes : Bytes) : Write × Stream → Prop where
  | failed (fails : s.writeFails = true) : Takes s bytes (.failed, s)
  | waiting (sound : s.writeFails = false) : Takes s bytes (.waiting, s)
  | accepted {piece : Bytes} (sound : s.writeFails = false) (first : piece <+: bytes) :
    Takes s bytes (.accepted piece.length,
      { s with
        credit := s.credit.map (· - piece.length)
        written := piece :: s.written })

theorem firstOf_prefix_self (bytes : Bytes) (most : Option Nat) : firstOf bytes most <+: bytes := by
  cases most with
  | none => exact List.prefix_rfl
  | some limit => exact List.take_prefix limit bytes

theorem write_takes (s : Stream) (bytes : Bytes) : s.Takes bytes (s.write bytes) := by
  unfold write
  split <;> rename_i fails
  · exact .failed fails
  · have sound := eq_false_of_ne_true fails
    dsimp only
    split
    · exact .waiting sound
    · refine .accepted sound ?_
      exact (firstOf_prefix_self _ s.credit).trans (firstOf_prefix_self bytes s.maxWrite)

end Stream

namespace Engine

open Wire Pipe

variable {d : Dialect} {e e₀ e' : Engine d} {w : Interest} {rest : Bytes}

@[simp] theorem link_setLink (e : Engine d) (l : Link) : (e.setLink l).link = l := rfl

def Loops : Phase → Prop
  | .top | .waiting _ => True
  | .draining _ | .finished _ => False

theorem Loops.of_top {phase : Phase} (top : phase = .top) : Loops phase := by
  rw [top]
  trivial

theorem Loops.of_waiting {phase : Phase} (waiting : phase = .waiting w) : Loops phase := by
  rw [waiting]
  trivial

def Proceeds (e e' : Engine d) : Prop :=
  e'.phase = e.phase ∨ e'.phase = .finished .broken

theorem failWith_proceeds (e : Engine d) (x : Failure) : e.Proceeds (e.failWith x) := by
  cases x with
  | malformed => exact .inl rfl
  | allocation => exact .inr rfl

theorem deliver_proceeds (e : Engine d) : e.Proceeds e.deliver := by
  unfold deliver
  dsimp only
  split
  · exact .inl rfl
  · exact failWith_proceeds _ _

theorem received_proceeds (e : Engine d) (bytes : Bytes) (direct : Bool) :
    e.Proceeds (e.received bytes direct) := by
  unfold received
  dsimp only
  split
  · exact failWith_proceeds _ _
  · exact .inl rfl

/-- Back from a wait, an engine is at the top of its loop, unless it broke down. -/
theorem again_cases (waiting : e₀.phase = .waiting w) (proceeds : e₀.Proceeds e) :
    e.phase = .waiting w ∧ e.again = { e with phase := .top } ∨
      e.phase = .finished .broken ∧ e.again = e := by
  rcases proceeds with same | broken
  · rw [waiting] at same
    exact .inl ⟨same, by rw [again, same]⟩
  · exact .inr ⟨broken, by rw [again, broken]⟩

inductive Reads (e : Engine d) (w : Interest) : Engine d → Prop where
  | ended (answer : (e.stream.read w.room).1 = .ended) :
    Reads e w { e with stream := (e.stream.read w.room).2 }.closeInput
  | failed (answer : (e.stream.read w.room).1 = .failed) :
    Reads e w ({ e with stream := (e.stream.read w.room).2 }.fail (.stream .read))
  | received {bytes : Bytes} (answer : (e.stream.read w.room).1 = .bytes bytes) :
    Reads e w ({ e with stream := (e.stream.read w.room).2 }.received bytes w.direct)

theorem tryRead_reads (next : e.tryRead w = some e') : e.Reads w e' := by
  unfold tryRead at next
  dsimp only at next
  split at next <;> rename_i answer <;> cases next
  · exact .ended answer
  · exact .failed answer
  · exact .received answer

theorem tryRead_eq_none (waits : e.tryRead w = none) :
    e.stream.unread = [] ∧ e.stream.ended = false := by
  have gives := e.stream.read_gives w.room
  unfold tryRead at waits
  generalize e.stream.read w.room = out at gives waits
  cases gives with
  | waiting empty _ goes_on => exact ⟨empty, goes_on⟩
  | failed | ended | nothing | bytes => cases waits

inductive Writes (e : Engine d) : Engine d → Prop where
  | failed (answer : (e.stream.write e.outbound.pending).1 = .failed) :
    Writes e ({ e with
      stream := (e.stream.write e.outbound.pending).2
      writing := false }.fail (.stream .write))
  | accepted {n : Nat} (answer : (e.stream.write e.outbound.pending).1 = .accepted n) :
    Writes e { e with
      stream := (e.stream.write e.outbound.pending).2
      outbound := e.outbound.sent n
      stats := { e.stats with bytesOut := e.stats.bytesOut + n } }

theorem tryWrite_writes (next : e.tryWrite = some e') : e.Writes e' := by
  unfold tryWrite at next
  dsimp only at next
  split at next <;> rename_i answer <;> cases next
  · exact .failed answer
  · exact .accepted answer

inductive Tries (e : Engine d) (w : Interest) (e' : Engine d) : Prop where
  | read (wanted : w.read = true) (next : e.tryRead w = some e') (reads : e.Reads w e')
  | write (passed : (w.read && (e.tryRead w).isSome) = false) (wanted : w.write = true)
    (next : e.tryWrite = some e') (writes : e.Writes e')

theorem tryStream_tries (next : e.tryStream w = some e') : e.Tries w e' := by
  rw [tryStream, Option.or_eq_some_iff] at next
  rcases next with reads | ⟨unread, writes⟩
  · obtain ⟨wanted, reads⟩ := Option.ite_none_right_eq_some.mp reads
    exact .read wanted reads (tryRead_reads reads)
  · obtain ⟨wanted, writes⟩ := Option.ite_none_right_eq_some.mp writes
    refine .write ?_ wanted writes (tryWrite_writes writes)
    cases reads : w.read with
    | false => rfl
    | true =>
      rw [reads, if_pos rfl] at unread
      rw [unread]
      rfl

theorem Tries.proceeds (h : e.Tries w e') : e.Proceeds e' := by
  cases h with
  | read _ _ reads =>
    cases reads with
    | ended | failed => exact .inl rfl
    | received => exact received_proceeds _ _ _
  | write _ _ _ writes => cases writes <;> exact .inl rfl

inductive Begins (e : Engine d) : Engine d → Prop where
  | ended (shut : e.link.process.2.self.state = .terminated) :
    Begins e (e.setLink e.link.process.2).leave
  | broken (running : e.link.process.2.self.state ≠ .terminated)
    (broken : (e.setLink e.link.process.2).deliver.phase = .finished .broken) :
    Begins e (e.setLink e.link.process.2).deliver
  | waits (running : e.link.process.2.self.state ≠ .terminated)
    (top : (e.setLink e.link.process.2).deliver.phase = .top) :
    Begins e { (e.setLink e.link.process.2).deliver.refill with
      phase := .waiting (e.setLink e.link.process.2).deliver.refill.interest }

theorem begin_begins (top : e.phase = .top) : e.Begins e.begin := by
  unfold begin
  dsimp only
  split <;> rename_i ends
  · exact .ended (Endpoint.isTerminated_iff.mp ends)
  · have running : e.link.process.2.self.state ≠ .terminated := fun shut ↦
      ends (Endpoint.isTerminated_iff.mpr shut)
    rcases deliver_proceeds (e.setLink e.link.process.2) with same | broken
    · rw [same.trans top]
      exact .waits running (same.trans top)
    · rw [broken]
      exact .broken running broken

/-- What an engine comes to from a wait. A stop comes first, then a command, then the stream. -/
inductive Wakes (e : Engine d) (w : Interest) : Engine d → Prop where
  | stopped (asked : (e.stopRequested && !e.stopping) = true) :
    Wakes e w { e with stopping := true }.closeInput.again
  | closed (unasked : (e.stopRequested && !e.stopping) = false)
    (answer : e.link.poll.1 = .closed) : Wakes e w (e.setLink e.link.poll.2).leave
  | ready (unasked : (e.stopRequested && !e.stopping) = false)
    (answer : e.link.poll.1 = .ready) : Wakes e w (e.setLink e.link.poll.2).again
  | stream {e' : Engine d} (unasked : (e.stopRequested && !e.stopping) = false)
    (answer : e.link.poll.1 = .pending) (tries : (e.setLink e.link.poll.2).Tries w e') :
    Wakes e w e'.again

theorem await_wakes (next : e.await w = some e') : e.Wakes w e' := by
  unfold await at next
  split at next <;> rename_i asked
  · cases next
    exact .stopped asked
  · have unasked : (e.stopRequested && !e.stopping) = false := eq_false_of_ne_true asked
    dsimp only at next
    split at next <;> rename_i answer
    · cases next
      exact .closed unasked answer
    · cases next
      exact .ready unasked answer
    · obtain ⟨e₁, tried, rfl⟩ := Option.map_eq_some_iff.mp next
      exact .stream unasked answer (tryStream_tries tried)

inductive Drains (e : Engine d) (rest : Bytes) : Engine d → Prop where
  | done (empty : rest.isEmpty = true) :
    Drains e rest { e with
      stats := { e.stats with bytesOut := e.stats.bytesOut + e.outbound.pending.length }
      outbound := ((e.outbound.sent e.outbound.pending.length).refill Source.dry ()).2.2 }.leave
  | failed (more : ¬rest.isEmpty = true) (answer : (e.stream.write rest).1 = .failed) :
    Drains e rest
      ({ e with stream := (e.stream.write rest).2 }.finish (.failed (.stream .write)))
  | accepted {n : Nat} (more : ¬rest.isEmpty = true)
    (answer : (e.stream.write rest).1 = .accepted n) :
    Drains e rest { e with
      stream := (e.stream.write rest).2
      phase := .draining (rest.drop n) }

theorem drain_drains (next : e.drain rest = some e') : e.Drains rest e' := by
  unfold drain at next
  split at next <;> rename_i left
  · cases next
    exact .done left
  · dsimp only at next
    split at next <;> rename_i answer <;> cases next
    · exact .failed left answer
    · exact .accepted left answer

inductive Steps (e e' : Engine d) : Prop where
  | begin (top : e.phase = .top) (begins : e.Begins e')
  | await {w : Interest} (waiting : e.phase = .waiting w) (wakes : e.Wakes w e')
  | drain {rest : Bytes} (draining : e.phase = .draining rest) (drains : e.Drains rest e')

theorem turn_steps (next : e.turn = some e') : e.Steps e' := by
  unfold turn at next
  split at next <;> rename_i phase
  · cases next
    exact .begin phase (begin_begins phase)
  · exact .await phase (await_wakes next)
  · exact .drain phase (drain_drains next)
  · cases next

end Engine

end Bridge

end Conduit
