import Conduit.Proofs.InboundRun

namespace Conduit.Bridge

open Wire Pipe

/-- What happens to an engine that is not stopped, whose stream works, and whose user leaves it to
it to end the pipe. -/
def Act.Peaceful : Act → Prop
  | .user c => talks c
  | .dropUser | .stop | .failReads | .failWrites => False
  | .limitReads most => most ≠ some 0
  | _ => True

def Act.bytes : Act → Bytes
  | .arrive bytes => bytes
  | _ => []

namespace Engine

variable {f : Framing} {s : Settings} {p : Pair} {parse : Parse} {later later' : Bytes}
  {e e' : Engine f.dialect} {i : Ledger}

structure Runs (p : Pair) (parse : Parse) (later : Bytes) (e : Engine f.dialect) (i : Ledger) :
    Prop where
  way : Flows p parse later e i ∨ Ends p parse e i
  unhindered : e.Unhindered
  poised : e.Poised

def toRead (later : Bytes) (e : Engine f.dialect) : Nat := if e.reading then e.effort later else 0

def rank (later : Bytes) (e : Engine f.dialect) : Nat :=
  e.toRead later + (e.link.self.state.remaining + e.link.peer.state.remaining)

def undelivered (e : Engine f.dialect) : Nat :=
  (Item.frames e.link.self.lane.stock.readable).length

/-- Nothing went back. As long as nothing else went on, the user has no more to read than before. -/
structure Closer (later : Bytes) (e : Engine f.dialect) (later' : Bytes) (e' : Engine f.dialect) :
    Prop where
  toRead : e'.toRead later' ≤ e.toRead later
  self : e'.link.self.state.remaining ≤ e.link.self.state.remaining
  peer : e'.link.peer.state.remaining ≤ e.link.peer.state.remaining
  undelivered : e'.rank later' = e.rank later → e'.undelivered ≤ e.undelivered

theorem Closer.refl : Closer later e later e := ⟨le_rfl, le_rfl, le_rfl, fun _ ↦ le_rfl⟩

theorem Closer.trans {e₁ e₂ : Engine f.dialect} {later₁ later₂ : Bytes}
    (h : Closer later e later₁ e₁) (h' : Closer later₁ e₁ later₂ e₂) :
    Closer later e later₂ e₂ := by
  refine ⟨h'.toRead.trans h.toRead, h'.self.trans h.self, h'.peer.trans h.peer, fun equal ↦ ?_⟩
  have toRead := h.toRead
  have self := h.self
  have peer := h.peer
  have toRead' := h'.toRead
  have self' := h'.self
  have peer' := h'.peer
  exact (h'.undelivered (by simp only [rank] at *; omega)).trans
    (h.undelivered (by simp only [rank] at *; omega))

theorem Closer.rank_le (h : Closer later e later' e') : e'.rank later' ≤ e.rank later :=
  Nat.add_le_add h.toRead (Nat.add_le_add h.self h.peer)

theorem Runs.led (h : Runs p parse later e i) : Led p e.link i :=
  h.way.elim (fun flows ↦ flows.fed.led) Ends.led

theorem Flows.toRead_eq (h : Flows p parse later e i) : e.toRead later = e.effort later := by
  rw [toRead, h.reading, if_pos rfl]

theorem Ends.toRead_eq (h : Ends p parse e i) (later : Bytes) : e.toRead later = 0 := by
  rw [toRead, h.reading, if_neg Bool.false_ne_true]

section

variable (made : Pair.create s = .ok p) (plain : ∀ m ∈ parse.messages, m.isCredential = false)
  (modest : parse.Modest)

include made

theorem Runs.undelivered_eq (h : Runs p parse later e i) :
    i.consumed.length + e.undelivered = i.published.length := by
  rw [(h.led.serves made).books.published, List.length_append]
  rfl

/-- What the user does is noted in the books, and leaves the engine where it is. -/
theorem Runs.user (h : Runs p parse later e i) {c : Call} (allowed : talks c) :
    Runs p parse later (e.act (.user c)) (bookkeeping.peer e.user c i) ∧
      Closer later e later (e.act (.user c)) ∧
      (e.act (.user c)).link = (e.link.swap.perform c).swap := by
  have sound := h.led.sound made
  have link := e.link_user c h.unhindered.there
  have kept : c ≠ .abandon := by
    rintro rfl
    exact allowed
  have posted := sound.swap.posted_perform kept
  have moves := Moves.perform sound.swap c
  have same : (e.link.swap.perform c).swap.self.state = e.link.self.state := moves.peer_state
  have further : (e.link.swap.perform c).swap.peer.state.remaining ≤ e.link.peer.state.remaining :=
    moves.remaining_le
  have active : (e.link.swap.perform c).swap.self.outActive = e.link.self.outActive := by
    obtain ⟨lane, inbox, reached⟩ := Link.Reaches.perform e.link.swap c
    rw [Link.swap_self, reached]
    rfl
  have acted : e.act (.user c) = { e with pair := e.pair.setLink .first (e.user.perform c) } := by
    rw [act, h.unhindered.there]
    rfl
  rw [acted] at link ⊢
  have runs : Runs p parse later { e with pair := e.pair.setLink .first (e.user.perform c) }
      (bookkeeping.peer e.user c i) := by
    refine ⟨?way, { h.unhindered with opened := ?opened }, ?poised⟩
    case way =>
      refine h.way.imp (fun flows ↦ ?_) fun ends ↦ ?_
      · exact ⟨link ▸ flows.fed.user allowed,
          (congrArg (·.self.state) link).trans (same.trans flows.active), flows.reading, flows.shut,
          flows.flushed, flows.carries⟩
      · exact ⟨link ▸ ends.led.user allowed, fun active ↦ ends.asked (same.symm.trans
          ((congrArg (·.self.state) link).symm.trans active)), ends.reading, ends.spent, ends.log⟩
    case opened =>
      rw [link]
      exact posted.closed.trans h.unhindered.opened
    case poised =>
      rcases h.poised with top | ⟨w, phase, waits⟩ | ⟨out, shut⟩
      · exact .inl top
      · refine .inr (.inl ⟨w, phase, waits.read, waits.room, waits.direct, ?_,
          waits.settled.stalled, ?_⟩)
        · rw [link]
          exact posted.alert sound.self.inbox waits.alert
        · rw [link]
          exact fun left ↦ active.trans (waits.settled.refused left)
      · exact .inr (.inr ⟨out, (congrArg (·.self.state) link).trans (same.trans shut)⟩)
  have drawn : (bookkeeping.peer e.user c i).consumed = i.consumed ++ Deed.taken (e.user.deeds c) :=
    rfl
  have published : (bookkeeping.peer e.user c i).published = i.published := rfl
  have before := h.undelivered_eq made
  have after := runs.undelivered_eq made
  rw [drawn, published, List.length_append] at after
  refine ⟨runs, ⟨le_rfl, ?_, ?_, fun _ ↦ by omega⟩, link⟩
  · rw [link, same]
  · rw [link]
    exact further

omit made in
/-- What happens to the stream is not noted. Bytes that arrive were still to come. -/
theorem Runs.setStream (h : Runs p parse later e i) {g : Stream → Stream}
    (unread : (g e.stream).unread ++ later' = e.stream.unread ++ later)
    (shut : (e.stream.ended = true → later = []) → (g e.stream).ended = true → later' = [])
    (reads : (g e.stream).readFails = e.stream.readFails)
    (writes : (g e.stream).writeFails = e.stream.writeFails)
    (pieces : (g e.stream).maxRead ≠ some 0) :
    Runs p parse later' (e.setStream g) i ∧ Closer later e later' (e.setStream g) := by
  have length := congrArg List.length unread
  rw [List.length_append, List.length_append] at length
  refine ⟨⟨?way, ?unhindered, ?poised⟩, ?closer⟩
  case way =>
    refine h.way.imp (fun flows ↦ ?_) fun ends ↦
      ⟨ends.led, ends.asked, ends.reading, ends.spent, ends.log⟩
    exact ⟨flows.fed, flows.active, flows.reading, shut flows.shut, flows.flushed,
      unread ▸ flows.carries⟩
  case unhindered => exact { h.unhindered with
    reads := reads.trans h.unhindered.reads
    writes := writes.trans h.unhindered.writes
    pieces := pieces }
  case poised =>
    exact h.poised.imp_right (Or.imp_left fun ⟨w, phase, waits⟩ ↦
      ⟨w, phase, waits.read, waits.room, waits.direct, waits.alert, waits.settled⟩)
  case closer =>
    have effort : (e.setStream g).effort later' = e.effort later :=
      congrArg (fun n ↦ e.inbound.weight + 3 * n) length
    refine ⟨?_, le_rfl, le_rfl, fun _ ↦ le_rfl⟩
    rw [toRead, effort]
    exact le_rfl

include plain modest

/-- A turn brings an engine closer to its end, or leaves the books as they are. -/
theorem Runs.turn (h : Runs p parse later e i) (next : e.turn = some e') :
    ∃ k, drawn k = drawn i ∧ Runs p parse later e' k ∧ Closer later e later e' := by
  have works := Works.turn next
  obtain ⟨-, peer, further⟩ := works.link.states (h.led.sound made)
  have unhindered := h.unhindered.works (h.led.sound made) works
  have before := h.undelivered_eq made
  -- with the same books the user has as much to read
  have same (runs : Runs p parse later e' i) : e'.undelivered ≤ e.undelivered :=
    Nat.le_of_add_le_add_left ((runs.undelivered_eq made).trans before.symm).le
  rcases h.way with flows | ends
  · obtain ⟨goes, poised⟩ := flows.turn made plain modest h.unhindered h.poised next
    have toRead := flows.toRead_eq
    cases goes with
    | @on k books flows' less =>
      have toRead' := flows'.toRead_eq
      refine ⟨k, books, ⟨.inl flows', unhindered, poised⟩, ?_, further, peer ▸ le_rfl, ?_⟩
      · omega
      · simp only [rank, peer]
        omega
    | stays flows' equal =>
      have runs : Runs p parse later e' i := ⟨.inl flows', unhindered, poised⟩
      have toRead' := flows'.toRead_eq
      exact ⟨i, rfl, runs, by omega, further, peer ▸ le_rfl, fun _ ↦ same runs⟩
    | @ends k books ends =>
      have toRead' := ends.toRead_eq later
      have asked := State.remaining_lt_active ends.asked
      rw [← flows.active] at asked
      refine ⟨k, books, ⟨.inr ends, unhindered, poised⟩, ?_, further, peer ▸ le_rfl, ?_⟩
      · omega
      · simp only [rank, peer]
        omega
  · obtain ⟨ends', poised⟩ := ends.turn made h.unhindered h.poised next
    have runs : Runs p parse later e' i := ⟨.inr ends', unhindered, poised⟩
    have toRead := ends'.toRead_eq later
    exact ⟨i, rfl, runs, by omega, further, peer ▸ le_rfl, fun _ ↦ same runs⟩

theorem Runs.turns (h : Runs p parse later e i) (n : Nat) :
    ∃ k, drawn k = drawn i ∧ Runs p parse later (Engine.turns n e) k ∧
      Closer later e later (Engine.turns n e) := by
  induction n generalizing e i with
  | zero => exact ⟨i, rfl, h, .refl⟩
  | succ n ih =>
    rw [Engine.turns]
    cases next : e.turn with
    | none => exact ⟨i, rfl, h, .refl⟩
    | some e' =>
      obtain ⟨k, same, runs, closer⟩ := h.turn made plain modest next
      obtain ⟨k', same', runs', closer'⟩ := ih runs
      exact ⟨k', same'.trans same, runs', closer.trans closer'⟩

/-- Each step brings an engine and its user closer to their end. -/
theorem Runs.act (h : Runs p parse later e i) {a : Act} (peaceful : a.Peaceful)
    (arrives : later = a.bytes ++ later') (shut : a = .endInput → later' = []) :
    ∃ k, k.returned = e.noteRead a i.returned ∧ Runs p parse later' (e.act a) k ∧
      Closer later e later' (e.act a) := by
  -- what only the stream notices changes neither the books nor the pipe
  have still (g : Stream → Stream) (moved : Runs p parse later' (e.setStream g) i ∧
      Closer later e later' (e.setStream g)) :
      ∃ k, k.returned = i.returned ∧ Runs p parse later' (e.setStream g) k ∧
        Closer later e later' (e.setStream g) := ⟨i, rfl, moved⟩
  cases a with
  | turns n =>
    obtain rfl : later = later' := arrives
    obtain ⟨k, same, runs, closer⟩ := h.turns made plain modest n
    exact ⟨k, congrArg Prod.snd same, runs, closer⟩
  | user c =>
    obtain rfl : later = later' := arrives
    obtain ⟨runs, closer, -⟩ := h.user made peaceful
    refine ⟨_, ?_, runs, closer⟩
    cases c with
    | read =>
      rw [noteRead, h.unhindered.there]
      rfl
    | write | flush | process => exact List.append_nil _
    | _ => exact absurd peaceful id
  | arrive bytes =>
    refine still (fun s ↦ { s with unread := s.unread ++ bytes })
      (h.setStream ?_ ?_ rfl rfl h.unhindered.pieces)
    · rw [arrives]
      exact List.append_assoc _ _ _
    · intro whole ended
      have none_left := arrives.symm.trans (whole ended)
      exact (List.append_eq_nil_iff.mp none_left).2
  | endInput =>
    obtain rfl : later = later' := arrives
    exact still ({ · with ended := true })
      (h.setStream rfl (fun _ _ ↦ shut rfl) rfl rfl h.unhindered.pieces)
  | failFlush =>
    obtain rfl : later = later' := arrives
    exact still ({ · with flushFails := true }) (h.setStream rfl id rfl rfl h.unhindered.pieces)
  | grant n =>
    obtain rfl : later = later' := arrives
    exact still (·.grant n) (h.setStream rfl id rfl rfl h.unhindered.pieces)
  | limitWrites most =>
    obtain rfl : later = later' := arrives
    exact still ({ · with maxWrite := most }) (h.setStream rfl id rfl rfl h.unhindered.pieces)
  | limitReads most =>
    obtain rfl : later = later' := arrives
    exact still ({ · with maxRead := most }) (h.setStream rfl id rfl rfl peaceful)
  | dropUser | stop | failReads | failWrites => exact absurd peaceful id

end

end Engine

end Conduit.Bridge
