import Conduit.Proofs.Bell
import Conduit.Proofs.Convergence
import Conduit.Proofs.HandshakeSafety
import Conduit.Proofs.Resemblance

namespace Conduit

/-- A queue that was ended has nothing to take back, and wakes nobody any more. -/
theorem Channel.Sound.settled_end {α : Type} {c : Channel α} (h : c.Sound) (x : α) :
    (c.rollback.write x false).flush.2.Settled := by
  have held := h.holds.rollback.write_whole x
  have behind := held.lengths.2.1
  rw [List.length_append, List.length_singleton] at behind
  unfold Channel.flush
  rw [if_neg (by omega)]
  exact ⟨rfl, rfl⟩

namespace Pipe

structure Endpoint.Timely (e : Endpoint) : Prop where
  order : e.inbox.contents.Pairwise fun x y ↦ x = .term → y ≠ .hiccup
  waiting : e.state = .waitingForDelimiter → .hiccup ∉ e.inbox.contents

namespace Shaking

variable {p : State} {d q : List Command}

theorem peer_of_active (h : Shaking .active d p q) : q = [] ∧ p ≠ .waitingForDelimiter := by
  rcases h with h | h
  · cases h with
    | opened => exact ⟨rfl, by simp⟩
    | asked => exact ⟨rfl, by simp⟩
  · cases h with
    | opened => exact ⟨rfl, by simp⟩

end Shaking

theorem Deed.of_turn_eq_waiting {d : Deed} {delay : Bool} {s : State}
    (h : d.turn delay s = .waitingForDelimiter) :
    d = .obey .term ∧ s = .active ∨ s = .waitingForDelimiter := by
  unfold turn at h
  split at h
  case h_5 => exact .inl ⟨rfl, rfl⟩
  case h_9 => exact .inr h
  all_goals contradiction

/-- An end takes commands from its inbox one by one, to obey them. -/
theorem Move.inbox {l l' : Link} {d : Deed} (h : Move l d l') :
    (∀ c, d ≠ .obey c) ∧ l'.self.inbox.contents = l.self.inbox.contents ∨
      ∃ c, d = .obey c ∧ l.self.inbox.contents = c :: l'.self.inbox.contents := by
  cases h with
  | adjust self peer => exact .inl ⟨by simp, self.contents⟩
  | listen sound same => exact .inl ⟨by simp, same⟩
  | push active =>
    rw [Link.countWritten]
    split <;> exact .inl ⟨by simp, rfl⟩
  | takeBack opened =>
    rw [Link.rollback_self]
    exact .inl ⟨by simp, rfl⟩
  | finish | giveUp =>
    have posts (k : Link) := Link.Posts.perform k (c := .rollback) (by simp)
    exact .inl ⟨by simp, congrArg Mailbox.contents (posts _).self⟩
  | request | delimit =>
    rw [Link.endStream_self]
    exact .inl ⟨by simp, rfl⟩
  | @obey c rest b letters sound left =>
    refine .inr ⟨c, rfl, ?_⟩
    rw [(Link.obey_self _ c).1, letters]
    exact congrArg (c :: ·) left.symm
  | signal | look | publish | take | meet | renew => exact .inl ⟨by simp, rfl⟩

theorem Move.timely {l l' : Link} {d : Deed} (h : Move l d l') (timely : l.self.Timely) :
    l'.self.Timely := by
  have turned (waiting : l'.self.state = .waitingForDelimiter) :=
    Deed.of_turn_eq_waiting (h.state.symm.trans waiting)
  rcases h.inbox with ⟨other, same⟩ | ⟨c, rfl, letters⟩
  · refine ⟨same ▸ timely.order, fun waiting ↦ same ▸ timely.waiting ?_⟩
    exact (turned waiting).resolve_left fun heard ↦ other _ heard.1
  · have order := timely.order
    rw [letters, List.pairwise_cons] at order
    refine ⟨order.2, fun waiting told ↦ ?_⟩
    rcases turned waiting with ⟨term, -⟩ | waited
    · exact order.1 _ told (Deed.obey.inj term) rfl
    · exact timely.waiting waited (letters ▸ List.mem_cons_of_mem _ told)

theorem Lane.Drawn.length_fresh {l l' : Lane} {d : Deed} (h : l.Drawn d l') (hd : d ≠ .renew) :
    l'.fresh.length = l.fresh.length := by
  cases h with
  | same => rfl
  | taken => exact length_fresh_setReading _ _
  | renewed renews => exact absurd renews hd

/-- Only an end that is active moves on to a fresh queue, and has not asked to terminate then. -/
theorem Move.peer_timely {l l' : Link} {d : Deed} (h : Move l d l') (sound : l.Sound)
    (shaking : l.Shaking) (timely : l.peer.Timely) : l'.peer.Timely := by
  by_cases renews : d = .renew
  · subst renews
    cases h with
    | renew active =>
      rw [Link.Shaking, active] at shaking
      obtain ⟨due, running⟩ := shaking.peer_of_active
      refine ⟨?_, fun waiting ↦ absurd waiting running⟩
      change (l.peer.inbox.send .hiccup).contents.Pairwise _
      rw [Mailbox.contents_send, List.pairwise_append]
      refine ⟨timely.order, List.pairwise_singleton _ _, ?_⟩
      rintro _ asked _ - rfl
      exact absurd rfl (List.filter_eq_nil_iff.mp due _ asked)
  · obtain ⟨sent, told⟩ := h.tells sound shaking
    have contents := told.contents
    have counted := (h.sound sound).peer.hiccups
    rw [h.drawn.length_fresh renews, ← sound.peer.hiccups, contents, List.count_append,
      Nat.add_eq_left, List.count_eq_zero] at counted
    have none_sent : ∀ x ∈ sent, x ≠ .hiccup := fun x hx hiccup ↦ counted (hiccup ▸ hx)
    refine ⟨?_, fun waiting ↦ ?_⟩
    · rw [contents, List.pairwise_append]
      exact ⟨timely.order, List.pairwise_of_forall_mem_list fun _ _ y hy _ ↦ none_sent y hy,
        fun _ _ y hy _ ↦ none_sent y hy⟩
    · rw [h.peer_state] at waiting
      rw [contents, List.mem_append, not_or]
      exact ⟨timely.waiting waiting, counted⟩

theorem Pair.timely {s : Settings} {p : Pair} (made : create s = .ok p) (side : Side)
    (calls : List (Side × Call)) : ((p.run calls).link side).self.Timely := by
  obtain ⟨sound, shaking⟩ := shaking made side []
  have kept := @run_keep side calls p (fun l ↦ l.Shaking ∧ l.self.Timely) ?_ ?_ sound
    ⟨shaking, ?_⟩
  · exact kept.2.2
  · intro l d l' deed sound h
    exact ⟨deed.shaking sound h.1, deed.timely h.2⟩
  · intro l d l' deed sound h
    exact ⟨(deed.shaking sound h.1.symm).symm, deed.peer_timely sound h.1.symm h.2⟩
  · obtain ⟨rfl, -⟩ := create_eq_ok made
    have empty : ((ofSettings s).link side).self.inbox.contents = [] := by
      cases side <;> exact Mailbox.create_sound.2
    exact ⟨empty ▸ .nil, fun _ ↦ empty ▸ List.not_mem_nil⟩

def State.handshakes : State → Bool
  | .terminating | .doubleTerminated | .termAckSent | .terminated => true
  | .active | .delimiterReceived | .waitingForDelimiter => false

theorem Moves.state_of_one {l l' : Link} {d : Deed} (h : Moves l [d] l') :
    ∃ delay s, l'.self.state = d.turn delay s := by
  obtain ⟨l₁, l₂, -, deed, behind⟩ := h.split
  exact ⟨_, _, behind.quiet_inbound.2.trans deed.state⟩

namespace Link

variable {l : Link}

theorem like_of_delay (ended : l.self.state ≠ .active) (delay : Bool) :
    l.Like (l.modifySelf ({ · with delay })) :=
  ⟨⟨delay, l.self.lane, rfl, fun active ↦ absurd active ended⟩, .refl, .inl rfl, .inl rfl⟩

theorem terminate_of_handshakes (h : l.self.state.handshakes = true) (delay : Bool) :
    l.terminate delay = l.modifySelf ({ · with delay }) := by
  unfold terminate
  cases state : l.self.state with
  | terminating | doubleTerminated | termAckSent | terminated => simp only [modifySelf, state]
  | active | delimiterReceived | waitingForDelimiter =>
    rw [state] at h
    exact absurd h Bool.false_ne_true

theorem like_terminate_of_handshakes (h : l.self.state.handshakes = true) (delay : Bool) :
    l.Like (l.terminate delay) := by
  rw [terminate_of_handshakes h]
  apply like_of_delay
  intro active
  rw [active] at h
  exact absurd h Bool.false_ne_true

/-- An end that waits for the delimiter and reads on ends its messages. -/
theorem terminate_of_waiting (waiting : l.self.state = .waitingForDelimiter)
    (opened : l.self.outOpen = true) :
    let written := (l.outbound.rollback.write .delimiter false).flush
    let done := (l.setOutbound written.2).modifySelf ({ · with delay := true, outActive := false })
    l.terminate true = if written.1 then done else done.send .activateRead := by
  let asked : Link := l.modifySelf ({ · with delay := true })
  have state : asked.self.state = .waitingForDelimiter := waiting
  have asks : l.terminate true = asked.writeDelimiter := by
    unfold terminate
    dsimp only
    rw [state]
    rfl
  have ended : asked.endStream =
      asked.setOutbound (l.outbound.rollback.write .delimiter false).flush.2 := if_pos opened
  rw [asks, writeDelimiter_of_open (l := asked) opened (by simp [state]), ended]
  rfl

/-- A request shakes hands, unless the end waits for the delimiter and reads on. -/
theorem handshakes_terminate (delay : Bool)
    (reading : ¬(l.self.state = .waitingForDelimiter ∧ delay = true)) :
    (l.terminate delay).self.state.handshakes = true := by
  have moves := l.terminate_moves delay
  have turned {d : Deed} (deeds : l.deeds (.terminate delay) = [d])
      (ends : ∀ delay s, (d.turn delay s).handshakes = true) :
      (l.terminate delay).self.state.handshakes = true := by
    rw [deeds] at moves
    obtain ⟨_, _, state⟩ := moves.state_of_one
    rw [state]
    exact ends _ _
  cases state : l.self.state with
  | active | delimiterReceived =>
    exact turned (d := .request) (by simp only [deeds, state]) fun _ _ ↦ rfl
  | waitingForDelimiter =>
    have drops : delay = false := Bool.eq_false_iff.mpr fun reads ↦ reading ⟨state, reads⟩
    exact turned (d := .giveUp) (by simp [deeds, state, drops]) fun _ _ ↦ rfl
  | terminating | doubleTerminated | termAckSent | terminated =>
    have h : l.self.state.handshakes = true := by rw [state]; rfl
    rw [terminate_of_handshakes h]
    exact h

/-- Another delimiter behind one that nobody reads makes no difference. -/
theorem like_terminate_of_settled (waiting : l.self.state = .waitingForDelimiter)
    (opened : l.self.outOpen = true) (settled : l.outbound.Settled)
    (idle : l.self.outActive = false) (followed : .hiccup ∉ l.self.inbox.contents)
    (left : l.peer.state.reads = false) : l.Like (l.terminate true) := by
  have ended : l.self.state ≠ .active := by simp [waiting]
  obtain ⟨awake, settled'⟩ := (settled.write .delimiter).flush
  rw [terminate_of_waiting waiting opened, settled.rollback, if_pos awake]
  refine ⟨⟨true, { l.self.lane with writing := (l.outbound.write .delimiter false).flush.2 }, ?_,
    fun active ↦ absurd active ended⟩, .refl, .inr ?_, .inl rfl⟩
  · simp [modifySelf, setOutbound, Endpoint.alter, idle]
  · exact ⟨settled, settled', ended, followed, left⟩

theorem like_terminate_terminate (sound : l.Sound) (delay : Bool)
    (shaking : (l.terminate delay).Shaking) (timely : (l.terminate delay).self.Timely) :
    (l.terminate delay).Like ((l.terminate delay).terminate delay) := by
  by_cases reading : l.self.state = .waitingForDelimiter ∧ delay = true
  · obtain ⟨waiting, rfl⟩ := reading
    have opened : l.self.outOpen = true := by rw [sound.self.outOpen, waiting]; rfl
    have self : (l.terminate true).self =
        ((l.setOutbound (l.outbound.rollback.write .delimiter false).flush.2).modifySelf
          ({ · with delay := true, outActive := false })).self := by
      rw [terminate_of_waiting waiting opened]
      split <;> rfl
    have state : (l.terminate true).self.state = .waitingForDelimiter := by
      rw [self]
      exact waiting
    have outbound : (l.terminate true).outbound =
        (l.outbound.rollback.write .delimiter false).flush.2 := by
      rw [Link.outbound, self]
      rfl
    have asked := Pipe.Shaking.asked_of_waiting shaking state
    apply like_terminate_of_settled state
    · rw [self]
      exact opened
    · rw [outbound]
      exact sound.outbound.settled_end _
    · rw [self]
      rfl
    · exact timely.waiting state
    · rw [asked]
      rfl
  · exact like_terminate_of_handshakes (handshakes_terminate delay reading) delay

end Link

/-- A request to terminate that is made twice in a row, with the same delay, is as good as one:
whatever calls both owners make then, they get the same answers, hear of the same events and process
the same number of commands, and both ends look the same to them after each call. An end that has
asked to terminate or agreed to may as well not be asked, with whatever delay. -/
theorem terminate_again_unobservable {s : Settings} {p : Pair} (made : Pair.create s = .ok p)
    (before : List (Side × Call)) (side : Side) (delay : Bool) :
    let q := p.run before
    let once := q.perform side (.terminate delay)
    let twice := once.perform side (.terminate delay)
    (twice.sights = once.sights ∧ ∀ calls, twice.account calls = once.account calls) ∧
      ((q.link side).self.state ∈ [.terminating, .doubleTerminated, .termAckSent, .terminated] →
        once.sights = q.sights ∧ ∀ calls, once.account calls = q.account calls) := by
  intro q once twice
  obtain ⟨sound, -⟩ := Pair.shaking made side before
  have reached : once = p.run (before ++ [(side, .terminate delay)]) := (p.run_concat _ _ _).symm
  obtain ⟨sound', shaking'⟩ := Pair.shaking made side (before ++ [(side, .terminate delay)])
  have timely' := Pair.timely made side (before ++ [(side, .terminate delay)])
  rw [← reached] at sound' shaking' timely'
  have asked : once.link side = (q.link side).terminate delay := Pair.perform_own _ _ _
  have again : twice.link side = (once.link side).terminate delay := Pair.perform_own _ _ _
  constructor
  · rw [asked] at shaking' timely'
    have like : (once.link side).Like (twice.link side) := by
      rw [again, asked]
      exact Link.like_terminate_terminate sound delay shaking' timely'
    exact ⟨Pair.sights_eq like, Pair.account_eq like sound'⟩
  · intro late
    have handshakes : (q.link side).self.state.handshakes = true := by
      revert late
      cases (q.link side).self.state <;> simp [State.handshakes]
    have like : (q.link side).Like (once.link side) := by
      rw [asked]
      exact Link.like_terminate_of_handshakes handshakes delay
    exact ⟨Pair.sights_eq like, Pair.account_eq like sound⟩

theorem terminate_again_unobservable_while_waiting :
    let q := (Pair.ofSettings {}).run
      [(.first, .write { data := [1] }), (.first, .terminate true), (.second, .process)]
    let once := q.perform .second (.terminate true)
    let twice := once.perform .second (.terminate true)
    (once.link .second).outbound.queue.toList = [.delimiter] ∧
      (twice.link .second).outbound.queue.toList = [.delimiter, .delimiter] ∧
      (∀ calls, twice.account calls = once.account calls) ∧
      ∀ calls, (q.perform .first (.terminate false)).account calls = q.account calls := by
  intro q once twice
  have asked : (q.link .first).self.state ∈
      [.terminating, .doubleTerminated, .termAckSent, .terminated] := by decide +kernel
  have second := terminate_again_unobservable (s := {}) (p := .ofSettings {}) rfl
    [(.first, .write { data := [1] }), (.first, .terminate true), (.second, .process)] .second true
  have first := terminate_again_unobservable (s := {}) (p := .ofSettings {}) rfl
    [(.first, .write { data := [1] }), (.first, .terminate true), (.second, .process)] .first false
  exact ⟨by decide +kernel, by decide +kernel, second.1.2, (first.2 asked).2⟩

end Pipe

end Conduit
