import Conduit.Proofs.DeedEffects
import Mathlib.Data.List.Count

namespace Conduit.Pipe

def Command.shakes : Command → Bool
  | .term | .termAck => true
  | _ => false

/-- The handshake of an end whose peer asks, or of two ends that both ask. Each end is told by its
state and by the commands on their way to it. -/
inductive Stage : State → List Command → State → List Command → Prop
  | opened : Stage .active [] .active []
  | asked {s : State} (h : s = .active ∨ s = .delimiterReceived) : Stage s [.term] .terminating []
  | waiting : Stage .waitingForDelimiter [] .terminating []
  | agreed : Stage .termAckSent [] .terminating [.termAck]
  | confirmed : Stage .termAckSent [.termAck] .terminated []
  | crossed : Stage .terminating [.term] .terminating [.term]
  | crossedOnce : Stage .doubleTerminated [] .terminating [.term, .termAck]
  | crossedTwice : Stage .doubleTerminated [.termAck] .doubleTerminated [.termAck]
  | crossedOver : Stage .doubleTerminated [.termAck] .terminated []
  | closed : Stage .terminated [] .terminated []

def Shaking (s : State) (d : List Command) (p : State) (q : List Command) : Prop :=
  Stage s d p q ∨ Stage p q s d

namespace Shaking

variable {s p : State} {d q : List Command}

theorem symm (h : Shaking s d p q) : Shaking p q s d := Or.symm h

theorem ask (h : Shaking s d p q) (unasked : s = .active ∨ s = .delimiterReceived) :
    Shaking .terminating d p (q ++ [.term]) := by
  rcases h with h | h
  · cases h with
    | opened => exact .inr (.asked (.inl rfl))
    | asked => exact .inl .crossed
    | _ => simp at unasked
  · cases h with
    | opened => exact .inr (.asked (.inl rfl))
    | _ => simp at unasked

theorem agree (h : Shaking s d p q) (waiting : s = .waitingForDelimiter) :
    Shaking .termAckSent d p (q ++ [.termAck]) := by
  rcases h with h | h
  · cases h with
    | waiting => exact .inl .agreed
    | asked h => simp [waiting] at h
    | _ => simp at waiting
  · cases h <;> simp at waiting

theorem meet (h : Shaking s d p q) (active : s = .active) (ended : p ≠ .active) :
    Shaking .delimiterReceived d p q := by
  rcases h with h | h
  · cases h with
    | opened => exact absurd rfl ended
    | asked => exact .inl (.asked (.inr rfl))
    | _ => simp at active
  · cases h with
    | opened => exact absurd rfl ended
    | _ => simp at active

theorem hear_active (h : Shaking .active (.term :: d) p q) :
    Shaking .waitingForDelimiter d p q ∧ Shaking .termAckSent d p (q ++ [.termAck]) := by
  rcases h with h | h
  · cases h with
    | asked => exact ⟨.inl .waiting, .inl .agreed⟩
  · cases h

theorem hear_delimiterReceived (h : Shaking .delimiterReceived (.term :: d) p q) :
    Shaking .termAckSent d p (q ++ [.termAck]) := by
  rcases h with h | h
  · cases h with
    | asked => exact .inl .agreed
  · cases h

theorem hear_terminating (h : Shaking .terminating (.term :: d) p q) :
    Shaking .doubleTerminated d p (q ++ [.termAck]) := by
  rcases h with h | h
  · cases h with
    | asked h => simp at h
    | crossed => exact .inl .crossedOnce
  · cases h with
    | crossed => exact .inl .crossedOnce
    | crossedOnce => exact .inl .crossedTwice

theorem hear_term (h : Shaking s (.term :: d) p q) :
    s = .active ∨ s = .delimiterReceived ∨ s = .terminating := by
  rcases h with h | h
  · cases h with
    | asked h => exact h.imp_right .inl
    | crossed => exact .inr (.inr rfl)
  · cases h with
    | crossed | crossedOnce => exact .inr (.inr rfl)

theorem hear_termAck (h : Shaking s (.termAck :: d) p q) :
    s ≠ .terminated ∧
      Shaking .terminated d p (q ++ if s = .terminating then [.termAck] else []) := by
  rcases h with h | h
  · cases h with
    | confirmed => exact ⟨nofun, .inl .closed⟩
    | crossedTwice => exact ⟨nofun, .inr .crossedOver⟩
    | crossedOver => exact ⟨nofun, .inl .closed⟩
  · cases h with
    | agreed => exact ⟨nofun, .inr .confirmed⟩
    | crossedTwice => exact ⟨nofun, .inr .crossedOver⟩

end Shaking

def Endpoint.due (e : Endpoint) : List Command := e.inbox.contents.filter Command.shakes

theorem Endpoint.due_send {e : Endpoint} (h : e.inbox.Sound) (c : Command) :
    { e with inbox := e.inbox.send c }.due = e.due ++ if c.shakes then [c] else [] := by
  rw [due, due, (h.send c).2, List.filter_append, List.filter_cons, List.filter_nil]

theorem Endpoint.SameQueues.due {e d : Endpoint} (h : e.SameQueues d) : e.due = d.due := by
  rw [Endpoint.due, Endpoint.due, h.contents]

namespace Link

def Shaking (l : Link) : Prop :=
  Pipe.Shaking l.self.state l.self.due l.peer.state l.peer.due

end Link

/-- A delimiter is read only behind the last message of the peer. -/
theorem Link.Sound.ended {l : Link} (h : l.Sound) (ahead : .delimiter ∈ l.inbound.readable) :
    l.peer.state ≠ .active := by
  intro active
  apply h.peer.unended active
  by_cases moved : l.peer.lane.fresh = []
  · rw [Link.inbound, Lane.reading_eq_writing moved] at ahead
    rw [h.peer.lane.writing.toList_eq, List.mem_append, List.mem_append]
    exact .inl (.inl ahead)
  · rw [Link.inbound, (h.peer.lane.reading_blank moved).holds.readable] at ahead
    exact absurd ahead List.not_mem_nil

namespace Link

theorem shaking_send {l : Link} (h : l.Shaking) (sound : l.peer.inbox.Sound) {c : Command}
    (hc : c.shakes = false) : (l.send c).Shaking := by
  have due : (l.send c).peer.due = l.peer.due := by
    rw [Link.send, Endpoint.due_send sound, hc, if_neg Bool.false_ne_true, List.append_nil]
  rw [Link.Shaking, due]
  exact h

theorem shaking_agree {l : Link} (h : l.Shaking) (sound : l.peer.inbox.Sound)
    (waiting : l.self.state = .waitingForDelimiter) :
    (l.rollback.acknowledge .termAckSent).Shaking := by
  have agreed := Pipe.Shaking.agree h waiting
  have acknowledged :
      (l.rollback.acknowledge .termAckSent).peer.due = l.peer.due ++ [.termAck] := by
    rw [← l.rollback_peer] at sound ⊢
    exact Endpoint.due_send sound .termAck
  have due : l.rollback.self.due = l.self.due := by
    rw [l.rollback_self]
    rfl
  have state : (l.rollback.acknowledge .termAckSent).peer.state = l.peer.state := by
    rw [← l.rollback_peer]
    rfl
  rw [← acknowledged, ← due, ← state] at agreed
  exact agreed

theorem shaking_meetTerm {l : Link} {d : List Command} (sound : l.peer.inbox.Sound)
    (h : Pipe.Shaking l.self.state (.term :: d) l.peer.state l.peer.due) (left : l.self.due = d) :
    l.meetTerm.Shaking := by
  subst left
  have acknowledged (s : State) : (l.acknowledge s).peer.due = l.peer.due ++ [.termAck] :=
    Endpoint.due_send sound .termAck
  rcases h.hear_term with state | state | state
  · rw [state] at h
    obtain ⟨waiting, agreed⟩ := h.hear_active
    simp only [meetTerm, state]
    split
    · exact waiting
    · rw [Link.Shaking, acknowledged]
      exact agreed
  · rw [state] at h
    simp only [meetTerm, state]
    rw [Link.Shaking, acknowledged]
    exact h.hear_delimiterReceived
  · rw [state] at h
    simp only [meetTerm, state]
    rw [Link.Shaking, acknowledged]
    exact h.hear_terminating

theorem shaking_meetTermAck {l : Link} {d : List Command} (sound : l.peer.inbox.Sound)
    (h : Pipe.Shaking l.self.state (.termAck :: d) l.peer.state l.peer.due)
    (left : l.self.due = d) : l.meetTermAck.Shaking := by
  subst left
  have heard := h.hear_termAck.2
  unfold meetTermAck
  split
  · rename_i state
    rw [if_pos state] at heard
    have acknowledged : (l.closeOut.send .termAck).peer.due = l.peer.due ++ [.termAck] :=
      Endpoint.due_send sound .termAck
    rw [← acknowledged] at heard
    exact heard
  · rename_i state
    rw [if_neg state, List.append_nil] at heard
    exact heard

theorem shaking_obey {l : Link} (sound : l.peer.inbox.Sound) {c : Command}
    (h : Pipe.Shaking l.self.state (if c.shakes then c :: l.self.due else l.self.due) l.peer.state
      l.peer.due) : (l.obey c).2.Shaking := by
  cases c with
  | activateRead | activateWrite =>
    simp only [obey]
    split <;> exact h
  | hiccup =>
    simp only [obey, followHiccup]
    split <;> exact h
  | term => exact shaking_meetTerm sound h rfl
  | termAck => exact shaking_meetTermAck sound h rfl
  | watermarks inbound outbound => exact h

end Link

theorem Move.shaking {l l' : Link} {d : Deed} (h : Move l d l') (sound : l.Sound)
    (shaking : l.Shaking) : l'.Shaking := by
  cases h with
  | adjust self peer =>
    rw [Link.Shaking, self.state, peer.state, self.due, peer.due]
    exact shaking
  | @signal c hc =>
    apply Link.shaking_send shaking sound.peer.inbox
    cases c with
    | activateRead | activateWrite | watermarks => rfl
    | hiccup | term | termAck => exact absurd hc Bool.false_ne_true
  | look | publish | take => exact shaking
  | @listen b hb same =>
    have due : { l.self with inbox := b }.due = l.self.due := by
      rw [Endpoint.due, Endpoint.due, same]
    rw [Link.Shaking, ← due] at shaking
    exact shaking
  | push active =>
    rw [Link.countWritten]
    split <;> exact shaking
  | takeBack hopen =>
    rw [Link.Shaking, Link.rollback_peer, Link.rollback_self]
    exact shaking
  | @meet rest _ active front held =>
    exact Shaking.meet shaking active (sound.ended (by rw [front]; exact List.mem_cons_self))
  | @finish rest c waiting front held =>
    have taken := sound.setInbound held (front ▸ List.suffix_cons _ _)
    refine Link.shaking_agree ?_ taken.peer.inbox waiting
    exact shaking
  | renew active => exact Link.shaking_send shaking sound.peer.inbox rfl
  | request unasked =>
    have asked : (l.send .term).peer.due = l.peer.due ++ [.term] :=
      Endpoint.due_send sound.peer.inbox .term
    rw [Link.Shaking, Link.endStream_peer, Link.endStream_self]
    have := Shaking.ask shaking unasked
    rw [← asked] at this
    exact this
  | delimit waiting =>
    rw [Link.Shaking, Link.endStream_peer, Link.endStream_self]
    exact shaking
  | giveUp waiting => exact Link.shaking_agree shaking sound.peer.inbox waiting
  | @obey c rest b letters hb left =>
    -- the command is heard by an end whose inbox it has left
    let received : Link := l.modifySelf ({ · with inbox := b })
    have due : l.self.due = if c.shakes then c :: received.self.due else received.self.due := by
      rw [Endpoint.due, Endpoint.due, letters, List.filter_cons]
      simp [received, Link.modifySelf, left]
    rw [Link.Shaking, due] at shaking
    exact Link.shaking_obey (l := received) sound.peer.inbox shaking

theorem Pair.shaking {s : Settings} {p : Pair} (made : create s = .ok p) (side : Side)
    (calls : List (Side × Call)) :
    ((p.run calls).link side).Sound ∧ ((p.run calls).link side).Shaking := by
  obtain ⟨rfl, pos⟩ := create_eq_ok made
  have start : ((ofSettings s).link side).Shaking := by
    have due (id peerId highMark peerMark chunkSize : Nat) (delay : Bool) :
        (endpoint id peerId highMark peerMark chunkSize delay).due = [] := by
      rw [endpoint, Endpoint.due, Mailbox.create_sound.2]
      rfl
    cases side <;> simp only [Link.Shaking, link, ofSettings, due] <;> exact .inl .opened
  apply run_keep Move.shaking _ (ofSettings_sound pos side) start
  intro l d l' deed sound h
  exact (deed.shaking sound h.symm).symm

/-- How often an end reported that the pipe has ended. -/
def reporting : Observer Nat where
  own l
    | .process, n => n + l.process.1.events.count .terminated
    | _, n => n
  peer _ _ n := n

def State.reports (s : State) : Nat := if s = .terminated then 1 else 0

theorem Move.reports {l l' : Link} {d : Deed} (h : Move l d l') (shaking : l.Shaking) :
    l'.self.state.reports = l.self.state.reports + if d = .obey .termAck then 1 else 0 := by
  rw [h.state]
  cases h with
  | meet state | finish state | giveUp state => simp [Deed.turn, state, State.reports]
  | request unasked => rcases unasked with h | h <;> simp [Deed.turn, h, State.reports]
  | @obey c rest b letters hb left =>
    have due : l.self.due = if c.shakes then c :: rest.filter Command.shakes
        else rest.filter Command.shakes := by
      rw [Endpoint.due, letters, List.filter_cons]
    cases c with
    | term =>
      rw [Link.Shaking, due] at shaking
      rcases shaking.hear_term with state | state | state
      · rw [state]
        cases l.self.delay <;> rfl
      · rw [state]
        rfl
      · rw [state]
        rfl
    | termAck =>
      rw [Link.Shaking, due] at shaking
      rw [State.reports, State.reports, if_neg shaking.hear_termAck.1]
      rfl
    | activateRead | activateWrite | hiccup | watermarks => rfl
  | adjust | signal | look | listen | push | takeBack | publish | take | renew | delimit => rfl

theorem Moves.reports {l l' : Link} {ds : List Deed} (h : Moves l ds l') (sound : l.Sound)
    (shaking : l.Shaking) :
    l'.self.state.reports = l.self.state.reports + ds.count (.obey .termAck) := by
  induction h with
  | nil => rfl
  | quiet first _ ih =>
    rw [ih (first.sound sound) (first.shaking sound shaking), first.reports shaking]
    rfl
  | @deed _ _ _ d _ first _ ih =>
    rw [ih (first.sound sound) (first.shaking sound shaking), first.reports shaking,
      List.count_cons]
    simp only [beq_iff_eq]
    omega

theorem Link.reports_perform {l : Link} (sound : l.Sound) (shaking : l.Shaking) (c : Call) :
    (l.perform c).self.state.reports =
      reporting.own l c l.self.state.reports := by
  have moves := Moves.perform sound c
  have told (hc : c.allows (.obey .termAck) = false) : (l.deeds c).count (.obey .termAck) = 0 :=
    List.count_eq_zero.mpr fun hd ↦ absurd ((allows_of_mem_deeds hd).symm.trans hc) nofun
  rw [moves.reports sound shaking]
  cases c with
  | process =>
    have count : (l.self.inbox.contents.map Deed.obey).count (.obey .termAck) =
        l.self.inbox.contents.count .termAck :=
      List.count_map_of_injective _ _ (fun _ _ ↦ Deed.obey.inj) _
    simp only [reporting, deeds, count, sound.process.2.1]
  | _ =>
    rw [told rfl]
    rfl

/-- Each end reports the end of the pipe once, as it comes to its last state. -/
theorem Pair.reports {s : Settings} {p : Pair} (made : create s = .ok p) (side : Side)
    (calls : List (Side × Call)) :
    p.watch reporting side 0 calls = ((p.run calls).link side).self.state.reports := by
  obtain ⟨sound, start⟩ := shaking made side []
  have kept := @watch_keep side calls p Nat reporting
    (fun l n ↦ l.Shaking ∧ n = l.self.state.reports) ?_ ?_ 0 sound ⟨start, ?_⟩
  · exact kept.2.2
  · intro l n c _ sound moves h
    obtain ⟨shaking, rfl⟩ := h
    refine ⟨moves.keep sound (fun _ ↦ Move.shaking) shaking, ?_⟩
    exact (Link.reports_perform sound shaking c).symm
  · intro l n c _ sound moves h
    obtain ⟨shaking, rfl⟩ := h
    have shaking' := moves.keep sound (fun _ ↦ Move.shaking) shaking.symm
    exact ⟨shaking'.symm, congrArg State.reports moves.peer_state.symm⟩
  · obtain ⟨rfl, pos⟩ := create_eq_ok made
    cases side <;> rfl

end Conduit.Pipe
