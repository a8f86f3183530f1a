import Conduit.Proofs.EndOfStream
import Conduit.Proofs.Handshake

namespace Conduit.Pipe

def Pair.turn (p : Pair) (side : Side) : List (Side × Call) :=
  let heard := (p.perform side .process).link side
  (side, .process) :: List.replicate (heard.readAll.1.length + 1) (side, .read)

def Pair.turns (p : Pair) : List Side → List (Side × Call)
  | [] => []
  | side :: sides => p.turn side ++ (p.run (p.turn side)).turns sides

/-- As many reads as there are frames leave a read that returns nothing. -/
theorem Pair.read_of_reads {p : Pair} {side : Side} {turns : Nat} (h : (p.link side).Sound)
    (enough : (p.link side).inbound.readable.length < turns) :
    ((p.run (List.replicate (Link.readAllN turns (p.link side)).1.length (side, .read))).link
      side).read = (none, (Link.readAllN turns (p.link side)).2) := by
  induction turns generalizing p with
  | zero => omega
  | succ turns ih =>
    match hread : (p.link side).read with
    | (none, l) =>
      simp only [Link.readAllN, hread]
      exact hread
    | (some m, l) =>
      have next : (p.perform side .read).link side = l := by
        rw [perform_own, Link.perform, hread]
      have reads : (p.link side).self.state.reads = true := by
        by_contra shut
        rw [Link.read_of_not_reads (by simpa using shut)] at hread
        cases hread
      obtain ⟨answer, took⟩ := h.read reads
      rw [hread] at answer took
      have fewer : l.inbound.readable.length < (p.link side).inbound.readable.length :=
        ((took.read rfl).2 (answer ▸ Option.some_ne_none m)).2
      have sound : ((p.perform side .read).link side).Sound := next ▸ took.sound h
      have rest := ih sound (by rw [next]; omega)
      rw [next] at rest
      simp only [Link.readAllN, hread, List.length_cons, List.replicate_succ]
      exact rest

def State.progress : State → Nat
  | .active | .delimiterReceived | .waitingForDelimiter => 0
  | .terminating => 1
  | .termAckSent | .doubleTerminated => 2
  | .terminated => 3

/-- An end to which no command is on its way, and that does not wait, is one step ahead. -/
theorem Shaking.progress {s p : State} {q : List Command} (h : Shaking s [] p q)
    (begun : s ≠ .active ∨ p ≠ .active) (waiting : s ≠ .waitingForDelimiter) :
    s.progress = min 3 (p.progress + 1) := by
  rcases h with h | h
  · cases h with
    | opened => exact absurd begun (by decide)
    | waiting => contradiction
    | agreed | crossedOnce | closed => rfl
  · cases h with
    | opened => exact absurd begun (by decide)
    | asked h => rcases h with rfl | rfl <;> rfl
    | waiting | confirmed | crossedOver | closed => rfl

theorem Shaking.asked_of_waiting {s p : State} {d q : List Command} (h : Shaking s d p q)
    (waiting : s = .waitingForDelimiter) : p = .terminating := by
  rcases h with h | h
  · cases h with
    | waiting => rfl
    | asked h => simp [waiting] at h
    | _ => simp at waiting
  · cases h <;> simp at waiting

structure Link.Closing (l : Link) : Prop where
  shaking : l.Shaking
  coming : l.swap.Coming false
  begun : l.self.state ≠ .active ∨ l.peer.state ≠ .active

/-- An end that obeyed all commands and read all it could is ahead of its peer. -/
theorem Link.Closing.progress {l : Link} (h : l.Closing) (obeyed : l.self.inbox.contents = [])
    (reached : l.self.state.reads = true → l.inbound.readable = []) :
    l.self.state.progress = min 3 (l.peer.state.progress + 1) := by
  have due : l.self.due = [] := by
    rw [Endpoint.due, obeyed]
    rfl
  have shaking := h.shaking
  rw [Link.Shaking, due] at shaking
  apply shaking.progress h.begun
  intro waiting
  have reads : l.self.state.reads = true := by
    rw [waiting]
    rfl
  have ahead := h.coming.delimiter_mem (shaking.asked_of_waiting waiting) reads
  rw [reached reads] at ahead
  exact List.not_mem_nil ahead

theorem Link.Sound.terminate_begun {l : Link} (h : l.Sound) (delay : Bool) :
    (l.perform (.terminate delay)).self.state ≠ .active := by
  have moves := Moves.perform h (.terminate delay)
  by_cases active : l.self.state = .active
  · have asks : l.deeds (.terminate delay) = [.request] := by simp [deeds, active]
    rw [asks] at moves
    obtain ⟨l₁, l₂, -, deed, behind⟩ := moves.split
    rw [behind.quiet_inbound.2, deed.state]
    exact State.noConfusion
  · exact moves.ended active

namespace Pair

variable {s : Settings} {p : Pair}

theorem begun (made : create s = .ok p) {side : Side} {delay : Bool} {calls : List (Side × Call)}
    (asked : (side, .terminate delay) ∈ calls) :
    ((p.run calls).link side).self.state ≠ .active := by
  obtain ⟨before, after, rfl⟩ := List.append_of_mem asked
  have sound := (shaking made side before).1
  have next : ((p.run before).perform side (.terminate delay)).link side =
      ((p.run before).link side).perform (.terminate delay) := perform_own _ _ _
  have kept := @run_keep side after ((p.run before).perform side (.terminate delay))
    (fun l ↦ l.self.state ≠ .active) ?_ ?_ ?_ ?_
  · rw [run_append]
    exact kept.2
  · intro l d l' deed _ begun
    rw [deed.state]
    exact Deed.turn_ne_active begun
  · intro l d l' deed _ begun
    rw [Link.swap_self, deed.peer_state]
    exact begun
  · rw [next]
    exact (Moves.perform sound _).sound sound
  · rw [next]
    exact sound.terminate_begun delay

structure Asking (calls : List (Side × Call)) : Prop where
  still : ∀ c ∈ calls, c.2 ≠ .hiccup
  asked : ∃ t delay, (t, .terminate delay) ∈ calls

theorem Asking.turn {calls : List (Side × Call)} (h : Asking calls) (q : Pair) (side : Side) :
    Asking (calls ++ q.turn side) := by
  constructor
  · intro c hc
    rcases List.mem_append.mp hc with hc | hc
    · exact h.still c hc
    · rcases List.mem_cons.mp hc with rfl | hc
      · nofun
      · rw [List.eq_of_mem_replicate hc]
        nofun
  · obtain ⟨t, delay, asked⟩ := h.asked
    exact ⟨t, delay, List.mem_append_left _ asked⟩

theorem closing (made : create s = .ok p) {calls : List (Side × Call)} (h : Asking calls)
    (side : Side) : ((p.run calls).link side).Closing := by
  obtain ⟨-, shaking⟩ := shaking made side calls
  refine ⟨shaking, ?_, ?_⟩
  · have coming := coming made side.other calls
    rw [link_other, watch_crossing_of_still made side.other fun c hc ↦ h.still _ hc] at coming
    exact coming
  · obtain ⟨t, delay, asked⟩ := h.asked
    have begun := begun made asked
    by_cases ht : t = side
    · subst ht
      exact .inl begun
    · rw [Side.eq_other_of_ne ht, link_other] at begun
      exact .inr begun

theorem run_turn (made : create s = .ok p) (calls : List (Side × Call)) (side : Side) :
    let l := ((p.run calls).run ((p.run calls).turn side)).link side
    l.self.inbox.contents = [] ∧ (l.self.state.reads = true → l.inbound.readable = []) ∧
      l.peer.state = ((p.run calls).link side).peer.state := by
  have sound := (shaking made side calls).1
  have heard : ((p.run calls).perform side .process).link side =
      ((p.run calls).link side).process.2 := perform_own _ _ _
  obtain ⟨obeys, -, obeyed⟩ := sound.process
  have sound' := obeys.sound sound
  obtain ⟨⟨ds, reads, isRead⟩, reached⟩ := sound'.readAll
  have last : ((p.run calls).run ((p.run calls).turn side)).link side =
      ((p.run calls).link side).process.2.readAll.2 := by
    have reads_out := @read_of_reads ((p.run calls).perform side .process) side
      (((p.run calls).link side).process.2.inbound.queue.length + 1) (heard ▸ sound')
      (heard ▸ sound'.length_readable_lt)
    rw [heard] at reads_out
    rw [turn, heard, List.replicate_succ', ← List.cons_append, run_append]
    exact (perform_own _ side .read).trans (congrArg Prod.snd reads_out)
  simp only [last]
  refine ⟨(reads.contents isRead).trans obeyed, reached, reads.peer_state.trans obeys.peer_state⟩

/-- A turn brings its end one step ahead of the other, which stays where it is. -/
theorem progress_turn (made : create s = .ok p) {calls : List (Side × Call)} (h : Asking calls)
    (side : Side) :
    let l := (p.run (calls ++ (p.run calls).turn side)).link side
    l.self.state.progress = min 3 (((p.run calls).link side).peer.state.progress + 1) ∧
      l.peer.state = ((p.run calls).link side).peer.state := by
  have closing := closing made (h.turn (p.run calls) side) side
  rw [run_append] at closing ⊢
  obtain ⟨obeyed, reached, peer⟩ := run_turn made calls side
  exact ⟨peer ▸ closing.progress obeyed reached, peer⟩

theorem append_turns_cons (p : Pair) (calls : List (Side × Call)) (side : Side)
    (sides : List Side) : calls ++ (p.run calls).turns (side :: sides) =
      calls ++ (p.run calls).turn side ++
        (p.run (calls ++ (p.run calls).turn side)).turns sides := by
  rw [turns, run_append, List.append_assoc]

end Pair

variable {s : Settings} {p : Pair}

theorem State.eq_terminated_of_progress {s : State} (h : s.progress = 3) : s = .terminated := by
  cases s <;> simp [progress] at h
  rfl

namespace Pair

theorem terminated_of_turns (made : create s = .ok p) {calls : List (Side × Call)}
    (h : Asking calls) (lead : Side) :
    let l := (p.run (calls ++ (p.run calls).turns [lead, lead.other, lead, lead.other])).link lead
    l.self.state = .terminated ∧ l.peer.state = .terminated := by
  have other (calls : List (Side × Call)) :
      (p.run calls).link lead.other = ((p.run calls).link lead).swap := link_other _ _
  simp only
  rw [append_turns_cons, append_turns_cons, append_turns_cons, append_turns_cons, turns,
    List.append_nil]
  -- each turn is made after all calls so far, which stay one list
  have h₁ := h.turn (p.run calls) lead
  have ⟨own₁, peer₁⟩ := progress_turn made h lead
  generalize calls ++ (p.run calls).turn lead = calls₁ at *
  have h₂ := h₁.turn (p.run calls₁) lead.other
  have ⟨own₂, peer₂⟩ := progress_turn made h₁ lead.other
  generalize calls₁ ++ (p.run calls₁).turn lead.other = calls₂ at *
  have h₃ := h₂.turn (p.run calls₂) lead
  have ⟨own₃, peer₃⟩ := progress_turn made h₂ lead
  generalize calls₂ ++ (p.run calls₂).turn lead = calls₃ at *
  have ⟨own₄, peer₄⟩ := progress_turn made h₃ lead.other
  generalize calls₃ ++ (p.run calls₃).turn lead.other = calls₄ at *
  simp only [other, Link.swap_self, Link.swap_peer] at own₂ peer₂ own₄ peer₄
  constructor
  · rw [peer₄]
    exact State.eq_terminated_of_progress (by omega)
  · exact State.eq_terminated_of_progress (by omega)

end Pair

/-- Whichever end goes first, two rounds bring both ends to their last state, and each has reported
that once. -/
theorem terminated_after_two_rounds {s : Settings} {p : Pair} (made : Pair.create s = .ok p)
    {calls : List (Side × Call)} (still : ∀ c ∈ calls, c.2 ≠ .hiccup)
    (asked : ∃ t delay, (t, .terminate delay) ∈ calls) (lead side : Side) :
    let whole := calls ++ (p.run calls).turns [lead, lead.other, lead, lead.other]
    ((p.run whole).link side).self.state = .terminated ∧ p.watch reporting side 0 whole = 1 := by
  obtain ⟨own, peer⟩ := Pair.terminated_of_turns made ⟨still, asked⟩ lead
  simp only
  rw [Pair.reports made]
  have state : ((p.run (calls ++ (p.run calls).turns [lead, lead.other, lead, lead.other])).link
      side).self.state = .terminated := by
    by_cases hs : side = lead
    · rw [hs]
      exact own
    · rw [Side.eq_other_of_ne hs, Pair.link_other]
      exact peer
  rw [state]
  exact ⟨rfl, rfl⟩

theorem terminated_after_crossed_requests :
    let p := Pair.ofSettings {}
    let calls : List (Side × Call) := [(.first, .write {}), (.first, .terminate true),
      (.second, .terminate false)]
    let whole := calls ++ (p.run calls).turns [.second, .first, .second, .first]
    ((p.run whole).link .first).self.state = .terminated ∧ p.watch reporting .first 0 whole = 1 :=
  terminated_after_two_rounds (s := {}) rfl (by decide) ⟨.first, true, by decide⟩ .second .first

end Conduit.Pipe
