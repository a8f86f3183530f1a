import Conduit.Proofs.BlockLoops
import Conduit.Proofs.InboundRun
import Conduit.Proofs.OutboundEnd

namespace Conduit

namespace Wire.Decoder

def partLength {d : Dialect} {A : Type} (c : Decoder d A) : Nat :=
  match c.stage with
  | .header step _ => d.headerLength step
  | .body body _ => body.size

theorem rest_of_want {d : Dialect} {A : Type} [Provider A] {c : Decoder d A} {bytes : Bytes}
    {out : Decoded d A} (decoded : c.decode bytes = .ok out) (want : out.delivery = none) :
    out.rest = [] := by
  induction bytes generalizing c with
  | nil =>
    cases decoded
    rfl
  | cons b rest ih =>
    rw [decode] at decoded
    split at decoded
    · cases decoded
    · cases decoded
      cases want
    · exact ih decoded

variable {A : Type} {f : Framing} {c c' : Decoder f.dialect A}

theorem Laid.filled_add_room (h : c.Laid) : c.filled + c.room = c.partLength := by
  unfold Decoder.filled Decoder.room partLength
  match stage : c.stage with
  | .header step filled => exact Nat.add_sub_of_le (h.filled step filled stage)
  | .body body flags => rfl

variable [Provider A] [LawfulProvider A]

/-- A decoder after some calls that did not fail. In between, its allocator may come to have more or
less to give. -/
inductive Reached {f : Framing} (limits : Limits) : Decoder f.dialect A → Prop where
  | fresh (allocator : A) : Reached limits { limits, allocator }
  | decode {c : Decoder f.dialect A} {slice : Bytes} {out : Decoded f.dialect A}
    (h : Reached limits c) (decoded : c.decode slice = .ok out) : Reached limits out.decoder
  | commit {c c' : Decoder f.dialect A} {bytes : Bytes} {m : Option Delivery} (h : Reached limits c)
    (fits : bytes.length ≤ c.room) (committed : c.commit bytes = .ok (m, c')) : Reached limits c'
  | supply {c : Decoder f.dialect A} (h : Reached limits c) (a : A) :
    Reached limits { c with allocator := a }

theorem Reached.waits {limits : Limits} (h : Reached limits c) : c.Waits := by
  induction h with
  | fresh => exact waits_start
  | @decode c slice out _ decoded waits =>
    have takes := c.decode_takes slice
    rw [decoded] at takes
    obtain ⟨taken, -, takes⟩ := takes
    exact (takes.keeps waits).waits
  | @commit c c' bytes m _ fits committed waits =>
    have takes := commit_takes waits fits
    rw [committed] at takes
    exact (takes.keeps waits).waits
  | supply _ a waits => exact ⟨⟨waits.scratch, waits.filled⟩, waits.room⟩

/-- On the way to the next part a message without a body is delivered, unless there is no storage
for it or more of its header is still to come. -/
theorem Laid.advance_bodiless (h : c.Laid) {rest behind : Bytes} {flags : UInt8}
    (head : c.headAhead rest = .whole 0 flags behind) :
    (∃ x, c.advance = .error (.allocation x)) ∨
      (∃ m c', c.advance = .ok (some m, c') ∧ m.message = { data := [], flags } ∧ rest = behind) ∨
        ∃ c', c.advance = .ok (none, c') ∧ c'.headAhead rest = .whole 0 flags behind := by
  by_cases room : c.room = 0
  case neg => exact .inr (.inr ⟨c, advance_of_room room, head⟩)
  cases stage : c.stage with
  | body body flags' =>
    rw [headAhead, stage] at head
    cases head
  | header step filled =>
    rw [h.head_complete stage room] at head
    rw [Decoder.advance, if_neg (not_not_intro room), stage]
    dsimp only
    cases next : f.dialect.next step (c.scratch.take (f.dialect.headerLength step)) c.limits with
    | error e =>
      rw [next] at head
      cases head
    | ok transition =>
      rw [next] at head
      cases transition with
      | header step' => exact .inr (.inr ⟨_, rfl, head⟩)
      | body size flags' =>
        obtain ⟨rfl, rfl, rfl⟩ := Head.whole.inj head
        dsimp only
        cases allocated : Provider.allocate 0 c.allocator with
        | error x => exact .inl ⟨x, rfl⟩
        | ok allocation =>
          obtain ⟨body, allocator⟩ := allocation
          have blank := Provider.rewind_of_allocate allocated
          dsimp only
          rw [blank]
          exact .inr (.inl ⟨_, _, rfl, rfl, rfl⟩)

/-- The call that completes the header of a message without a body delivers it and leaves what is
behind the header, unless there is no storage for it. -/
theorem Waits.decode_bodiless (h : c.Waits) {slice behind : Bytes} {flags : UInt8}
    (head : c.headAhead slice = .whole 0 flags behind) :
    (∃ x, c.decode slice = .error (.allocation x)) ∨
      ∃ m c', c.decode slice = .ok ⟨some m, behind, c'⟩ ∧ m.message = { data := [], flags } := by
  induction slice generalizing c with
  | nil =>
    rw [h.head_nil] at head
    cases head
  | cons b slice ih =>
    cases stage : c.stage with
    | body =>
      rw [headAhead, stage] at head
      cases head
    | header step filled =>
      obtain ⟨laid, -, -⟩ := h.write b
      obtain ⟨-, heads⟩ := h.write_header stage b
      have passes := laid.advance slice
      rw [← heads] at head
      rw [decode_cons, Decoder.feed]
      rcases laid.advance_bodiless head with
        ⟨x, passed⟩ | ⟨m, c', passed, message, rfl⟩ | ⟨c', passed, head'⟩
      · rw [passed]
        exact .inl ⟨x, rfl⟩
      · rw [passed]
        exact .inr ⟨m, c', rfl, message⟩
      · rw [passed] at passes ⊢
        cases passes with
        | goes waits => exact ih waits head'

theorem Waits.commit_bodiless (h : c.Waits) {bytes behind : Bytes} {flags : UInt8}
    (head : c.headAhead bytes = .whole 0 flags behind) :
    (∃ x, c.commit bytes = .error (.allocation x)) ∨
      ∃ m c', c.commit bytes = .ok (some m, c') ∧ m.message = { data := [], flags } := by
  rw [commit_eq]
  rcases h.decode_bodiless head with ⟨x, decoded⟩ | ⟨m, c', decoded, message⟩
  · rw [decoded]
    exact .inl ⟨x, rfl⟩
  · rw [decoded]
    exact .inr ⟨m, c', rfl, message⟩

/-- What keeps a decoder from stalling. -/
structure Unstalled (c : Decoder f.dialect A) : Prop where
  /-- There are bytes to wait for. -/
  room : 0 < c.room
  filled : c.filled < c.partLength
  whole : c.filled + c.room = c.partLength
  /-- The loops end, whatever they come to. -/
  decodes : ∀ slice turns, 2 * slice.length < turns →
    decodeWithin turns c slice = some (c.decode slice)
  commits : ∀ bytes turns, bytes.length ≤ c.room → 2 ≤ turns →
    commitWithin turns c bytes = some (c.commit bytes)
  /-- All bytes are used up unless there is a message. If there are any, some are. -/
  uses : ∀ slice out, c.decode slice = .ok out → (out.delivery = none → out.rest = []) ∧
    ∃ taken, slice = taken ++ out.rest ∧ (taken = [] → slice = [])
  /-- A message without a body does not wait for the next call. -/
  decode_bodiless : ∀ slice flags behind, c.headAhead slice = .whole 0 flags behind →
    (∃ x, c.decode slice = .error (.allocation x)) ∨
      ∃ m c', c.decode slice = .ok ⟨some m, behind, c'⟩ ∧ m.message = { data := [], flags }
  commit_bodiless : ∀ bytes flags behind, c.headAhead bytes = .whole 0 flags behind →
    (∃ x, c.commit bytes = .error (.allocation x)) ∨
      ∃ m c', c.commit bytes = .ok (some m, c') ∧ m.message = { data := [], flags }

theorem Waits.unstalled (h : c.Waits) : c.Unstalled where
  room := h.room
  filled := by
    have room := h.room
    have whole := h.filled_add_room
    omega
  whole := h.filled_add_room
  decodes _ _ enough := h.decodeWithin_eq enough
  commits _ _ fits enough := h.commitWithin_eq fits enough
  uses slice out decoded := by
    have takes := c.decode_takes slice
    rw [decoded] at takes
    obtain ⟨taken, split, -⟩ := takes
    refine ⟨rest_of_want decoded, taken, split, ?_⟩
    rintro rfl
    have shorter := length_rest_decode decoded
    rw [split, List.nil_append] at shorter ⊢
    exact List.length_eq_zero_iff.mp (by omega)
  decode_bodiless _ _ _ head := h.decode_bodiless head
  commit_bodiless _ _ _ head := h.commit_bodiless head

end Wire.Decoder

namespace Bridge

open Wire Pipe

variable {f : Framing} {limits : Limits}

namespace Inbound

variable {i i' : Inbound f.dialect}

structure Draws (limits : Limits) (i : Inbound f.dialect) : Prop where
  buffered : 0 < i.bufferSize
  reached : i.decoder.Reached limits

theorem reached_deliverN (h : i.decoder.Reached limits) (turns count : Nat) (l : Link) :
    (deliverN turns count i l).inbound.decoder.Reached limits := by
  induction turns generalizing count i l with
  | zero => exact h
  | succ turns ih =>
    have decoded (count : Nat) {i : Inbound f.dialect} (l : Link) (h : i.decoder.Reached limits) :
        (decodeOn turns count i l).inbound.decoder.Reached limits := by
      unfold decodeOn
      split
      · exact h
      · split
        · exact h
        · rename_i found
          exact ih (h.decode found) _ _
    match stalled : i.stalled with
    | none =>
      rw [deliverN_none stalled]
      exact decoded _ _ h
    | some m =>
      rw [deliverN_some stalled]
      split
      · exact decoded _ _ h
      · exact h

theorem Draws.deliver (h : i.Draws limits) (l : Link) : (i.deliver l).inbound.Draws limits := by
  refine ⟨i.bufferSize_deliver l ▸ h.buffered, ?_⟩
  have reached := reached_deliverN h.reached (i.buffered.length + 1) 0 l
  unfold Inbound.deliver
  dsimp only
  split <;> exact reached

theorem Draws.accept (h : i.Draws limits) {bytes : Bytes} {direct : Bool}
    (fits : direct = true → bytes.length ≤ i.decoder.room)
    (accepted : i.accept bytes direct = .ok i') : i'.Draws limits := by
  refine ⟨bufferSize_accept accepted ▸ h.buffered, ?_⟩
  unfold Inbound.accept at accepted
  split at accepted
  · rename_i straight
    split at accepted
    · cases accepted
    · rename_i committed
      cases accepted
      exact h.reached.commit (fits straight) committed
  · cases accepted
    exact h.reached

end Inbound

namespace Engine

variable {e e' : Engine f.dialect}

/-- An engine that waits offers the place that its next bytes go to. -/
structure Offers (limits : Limits) (e : Engine f.dialect) : Prop where
  draws : e.inbound.Draws limits
  target : ∀ w, e.phase = .waiting w → w.room = e.inbound.room ∧ w.direct = e.inbound.direct

theorem Offers.of_eq (h : e.Offers limits) (inbound : e'.inbound = e.inbound)
    (phase : e'.phase = e.phase) : e'.Offers limits := by
  refine ⟨inbound ▸ h.draws, ?_⟩
  rw [inbound, phase]
  exact h.target

theorem Offers.of_draws (draws : e.inbound.Draws limits) (awake : ∀ w, e.phase ≠ .waiting w) :
    e.Offers limits :=
  ⟨draws, fun w waiting ↦ absurd waiting (awake w)⟩

theorem again_awake {d : Dialect} (e : Engine d) (w : Interest) : e.again.phase ≠ .waiting w := by
  unfold again
  split
  · rename_i finished
    rw [finished]
    nofun
  · nofun

theorem inbound_again {d : Dialect} (e : Engine d) : e.again.inbound = e.inbound := by
  unfold again
  split <;> rfl

section

variable (h : e.inbound.Draws limits)

include h

theorem draws_fail (x : Fault) : (e.fail x).inbound.Draws limits := ⟨h.buffered, h.reached⟩

theorem draws_failWith (x : Failure) : (e.failWith x).inbound.Draws limits := by
  cases x with
  | malformed x => exact draws_fail h _
  | allocation => exact h

theorem draws_deliver : e.deliver.inbound.Draws limits := by
  have delivered := h.deliver e.link
  unfold deliver
  dsimp only
  split
  · exact delivered
  · exact draws_failWith delivered _

theorem draws_received {bytes : Bytes} {direct : Bool}
    (fits : direct = true → bytes.length ≤ e.inbound.decoder.room) :
    (e.received bytes direct).inbound.Draws limits := by
  unfold received
  dsimp only
  split
  · exact draws_failWith (by exact h) _
  · rename_i accepted
    exact h.accept fits accepted

theorem offers_leave : e.leave.Offers limits := by
  obtain ⟨-, inbound, out⟩ := e.leave_frame
  exact .of_draws (inbound ▸ h) fun _ waiting ↦ out (.of_waiting waiting)

theorem offers_again : e.again.Offers limits :=
  .of_draws (e.inbound_again ▸ h) e.again_awake

theorem offers_begin (begins : e.Begins e') : e'.Offers limits := by
  have heard : (e.setLink e.link.process.2).inbound.Draws limits := h
  cases begins with
  | ended => exact offers_leave heard
  | broken _ broken => exact .of_draws (draws_deliver heard) fun w ↦ broken ▸ nofun
  | waits =>
    have inbound := congrArg Prod.fst (e.setLink e.link.process.2).deliver.refill_frame
    dsimp only at inbound
    refine ⟨inbound ▸ draws_deliver heard, ?_⟩
    rintro w ⟨⟩
    exact ⟨rfl, rfl⟩

end

theorem Offers.tries (h : e.Offers limits) {w : Interest} (waiting : e.phase = .waiting w)
    (tries : e.Tries w e') : e'.inbound.Draws limits := by
  cases tries with
  | read _ _ reads =>
    obtain ⟨room, direct⟩ := h.target w waiting
    cases reads with
    | ended => exact h.draws
    | failed => exact draws_fail (by exact h.draws) _
    | received answer =>
      refine draws_received (by exact h.draws) fun straight ↦ ?_
      have given := Stream.length_of_read answer
      rwa [room, Inbound.room_of_direct (direct.symm.trans straight)] at given
  | write _ _ _ writes =>
    cases writes with
    | failed => exact draws_fail (by exact h.draws) _
    | accepted => exact h.draws

theorem Offers.await (h : e.Offers limits) {w : Interest} (waiting : e.phase = .waiting w)
    (wakes : e.Wakes w e') : e'.Offers limits := by
  have polled : (e.setLink e.link.poll.2).Offers limits := h.of_eq rfl rfl
  cases wakes with
  | stopped => exact offers_again (by exact h.draws)
  | closed => exact offers_leave polled.draws
  | ready => exact offers_again polled.draws
  | stream _ _ tries => exact offers_again (polled.tries waiting tries)

theorem Offers.turn (h : e.Offers limits) (next : e.turn = some e') : e'.Offers limits := by
  cases turn_steps next with
  | begin _ begins => exact offers_begin h.draws begins
  | await waiting wakes => exact h.await waiting wakes
  | drain _ drains =>
    obtain ⟨-, inbound, out⟩ := drains.frame
    exact .of_draws (inbound ▸ h.draws) fun _ waiting ↦ out (.of_waiting waiting)

theorem Offers.act (h : e.Offers limits) (a : Act) : (e.act a).Offers limits := by
  cases a with
  | turns n => exact turns_keep (fun _ _ ↦ Offers.turn) h n
  | user c =>
    rw [Engine.act]
    split <;> exact h.of_eq rfl rfl
  | _ => exact h.of_eq rfl rfl

theorem Offers.run (h : e.Offers limits) (acts : List Act) : (e.run acts).Offers limits := by
  induction acts generalizing e with
  | nil => exact h
  | cons a acts ih => exact ih (h.act a)

theorem offers_create (p : Pair) (s : Stream) (bufferSize : Nat) (limits : Limits) :
    (create f.dialect p s bufferSize limits).Offers limits :=
  .of_draws ⟨Nat.lt_of_lt_of_le Nat.one_pos (Nat.le_max_right _ _), .fresh Allocator.heap⟩ nofun

end Engine

/-- A decoder does not stall, whatever calls that did not fail come before. An engine that waits to
read has called its decoder so, and waits for a byte at least. If it reads straight into the
decoder, it waits for all that the decoder has room for. It takes no read for the end of the input
unless the input has ended, or the stream gives nothing at all. -/
theorem decoding_never_stalls {A : Type} [Provider A] [LawfulProvider A] (f : Framing)
    (limits : Limits) :
    (∀ c : Decoder f.dialect A, c.Reached limits → c.Unstalled) ∧
      ∀ (p : Pair) (s : Stream) (bufferSize : Nat) (acts : List Act) (w : Interest),
        let e := (Engine.create f.dialect p s bufferSize limits).run acts
        e.phase = .waiting w → w.read = true →
          e.inbound.decoder.Reached limits ∧ 0 < w.room ∧
            (w.direct = true → w.room = e.inbound.decoder.room) ∧
            ((e.stream.read w.room).1 = .ended →
              e.stream.unread = [] ∧ e.stream.ended = true ∨ e.stream.maxRead = some 0) := by
  refine ⟨fun c reached ↦ reached.waits.unstalled, ?_⟩
  rintro p s bufferSize acts w e waiting -
  have offers : e.Offers limits := (Engine.offers_create p s bufferSize limits).run acts
  obtain ⟨room, direct⟩ := offers.target w waiting
  have positive : 0 < w.room := room ▸ Inbound.room_pos offers.draws.buffered
  refine ⟨offers.draws.reached, positive, fun straight ↦ ?_, Stream.ended_of_read positive⟩
  exact room.trans (Inbound.room_of_direct (direct.symm.trans straight))

theorem decoding_never_stalls_at_empty_body :
    let c : Decoder flagsFirst :=
      ⟨.header (.shortSize Flag.more) 0, 1 :: List.replicate 9 0, {}, .heap⟩
    let e := (Engine.create flagsFirst (Pair.ofSettings {}) {} 2 {}).run [.arrive [0, 4], .turns 16]
    Decoder.decode (d := flagsFirst) { allocator := Allocator.heap } [1] = .ok ⟨none, [], c⟩ ∧
      (∃ m c', c.decode [0, 7] = .ok ⟨some m, [7], c'⟩ ∧
        m.message = { data := [], flags := Flag.more }) ∧
      Decoder.decodeWithin 5 c [0, 7] = some (c.decode [0, 7]) ∧
      ∃ w, e.phase = .waiting w ∧ w.room = 4 ∧ w.room = e.inbound.decoder.room := by
  intro c e
  obtain ⟨calls, reads⟩ := decoding_never_stalls (A := Allocator) .flagsFirst {}
  have decoded : Decoder.decode { allocator := Allocator.heap } [1] = .ok ⟨none, [], c⟩ := rfl
  have fresh : Decoder.Reached (f := .flagsFirst) {} { allocator := Allocator.heap } := .fresh _
  have unstalled := calls c (fresh.decode decoded)
  have waiting : e.phase = .waiting ⟨true, false, 4, true⟩ := rfl
  obtain ⟨-, -, straight, -⟩ := reads _ _ _ _ _ waiting rfl
  have delivered := (unstalled.decode_bodiless [0, 7] Flag.more [7] rfl).resolve_left nofun
  exact ⟨decoded, delivered, unstalled.decodes [0, 7] 5 (by decide), _, waiting, rfl, straight rfl⟩

end Bridge

end Conduit
