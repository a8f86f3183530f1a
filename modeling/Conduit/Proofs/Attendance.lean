import Conduit.Proofs.Bell

namespace Conduit.Pipe

inductive Turn where
  /-- The peer sends a command. -/
  | told (c : Command)
  /-- The owner of the peer lets go of it. -/
  | deserted
  /-- The end hears one command, or finds none. -/
  | hears
  /-- The end hears all commands. -/
  | processes
  | polls
  /-- Anything but the inbox of the end may change. -/
  | otherwise (l : Link)

/-- A record of the turns at an end. -/
structure Vigil where
  sent : List Command := []
  heard : List Command := []
  /-- The end was told to look for commands, and has not found them all heard since. -/
  roused : Bool := false
  deserted : Bool := false

namespace Link

def heardN : Nat → Link → List Command
  | 0, _ => []
  | turns + 1, l =>
    match l.receive with
    | (none, _) => []
    | (some c, l) => c :: heardN turns (l.obey c).2

def heard (l : Link) : List Command := heardN (l.self.inbox.letters.queue.length + 1) l

def turn (l : Link) : Turn → Link
  | .told c => (l.swap.send c).swap
  | .deserted => l.swap.abandon.swap
  | .hears =>
    match l.receive with
    | (none, l) => l
    | (some c, l) => (l.obey c).2
  | .processes => l.process.2
  | .polls => l.poll.2
  | .otherwise l' => l'.modifySelf ({ · with inbox := l.self.inbox })

def turns (l : Link) (ts : List Turn) : Link := ts.foldl turn l

end Link

namespace Vigil

def turn (v : Vigil) (l : Link) : Turn → Vigil
  | .told c => { v with sent := v.sent ++ [c] }
  | .deserted => { v with deserted := true }
  | .hears =>
    match l.receive.1 with
    | none => { v with roused := false }
    | some c => { v with heard := v.heard ++ [c] }
  | .processes => { v with heard := v.heard ++ l.heard, roused := false }
  | .polls => { v with roused := v.roused || l.poll.1 == .ready }
  | .otherwise _ => v

def turns (v : Vigil) (l : Link) : List Turn → Vigil
  | [] => v
  | t :: ts => (v.turn l t).turns (l.turn t) ts

/-- What was sent and not heard lies in the inbox. Until an answer told of it, the bell tells. -/
structure Sound (v : Vigil) (l : Link) : Prop where
  inbox : l.self.inbox.Sound
  sent : v.sent = v.heard ++ l.self.inbox.contents
  alert : v.deserted = false → v.roused = false → l.self.inbox.Alert
  deserted : l.self.inbox.closed = v.deserted

end Vigil

variable {l : Link} {v : Vigil}

theorem Link.heardN_eq (h : l.self.inbox.Sound) {turns : Nat}
    (enough : l.self.inbox.contents.length < turns) : heardN turns l = l.self.inbox.contents := by
  induction turns generalizing l with
  | zero => exact absurd enough (Nat.not_lt_zero _)
  | succ turns ih =>
    cases letters : l.self.inbox.contents with
    | nil =>
      obtain ⟨b, found, -⟩ := h.receive_nil letters
      simp only [heardN, receive, found]
    | cons c rest =>
      obtain ⟨b, found, sound, left⟩ := h.receive_cons letters
      have kept : ((l.modifySelf ({ · with inbox := b })).obey c).2.self.inbox = b :=
        (obey_self _ c).1
      rw [letters] at enough
      simp only [heardN, receive, found]
      rw [ih (kept.symm ▸ sound) (by rw [kept, left]; exact Nat.lt_of_succ_lt_succ enough), kept,
        left]

theorem Link.heard_eq (h : l.self.inbox.Sound) : l.heard = l.self.inbox.contents :=
  heardN_eq h (length_contents_lt h)

theorem Link.Hearing.inbox {l' : Link} {cs : List Command} {es : List Event}
    (h : l.Hearing cs es l') (sound : l.self.inbox.Sound) : l'.self.inbox.Sound := by
  induction h with
  | done => exact sound
  | listen sound' _ => exact sound'
  | obey _ sound' _ _ ih => exact ih ((Link.obey_self _ _).1.symm ▸ sound')

theorem Link.process_inbox (h : l.self.inbox.Sound) : l.process.2.self.inbox.Sound ∧
    l.process.2.self.inbox.contents = [] := by
  obtain ⟨hearing, -⟩ := hearing_process h
  exact ⟨hearing.inbox h, List.self_eq_append_right.mp hearing.letters⟩

namespace Vigil.Sound

theorem start (s : Settings) (side : Side) : ({} : Vigil).Sound ((Pair.ofSettings s).link side) := by
  have made : ((Pair.ofSettings s).link side).self.inbox = .create := by cases side <;> rfl
  obtain ⟨sound, contents⟩ : (Mailbox.create : Mailbox Command).Sound ∧
      (Mailbox.create : Mailbox Command).contents = [] := Mailbox.create_sound
  refine ⟨made ▸ sound, ?_, fun _ _ ↦ .inl (made ▸ rfl), made ▸ rfl⟩
  rw [made, contents]
  rfl

theorem told (h : v.Sound l) (c : Command) : (v.turn l (.told c)).Sound (l.turn (.told c)) := by
  obtain ⟨sound, contents⟩ := h.inbox.send c
  refine ⟨sound, ?_, fun near calm ↦ (h.alert near calm).send h.inbox c, h.deserted⟩
  change v.sent ++ [c] = v.heard ++ (l.self.inbox.send c).contents
  rw [contents, h.sent, List.append_assoc]

theorem hears (h : v.Sound l) : (v.turn l .hears).Sound (l.turn .hears) := by
  unfold Vigil.turn Link.turn
  cases letters : l.self.inbox.contents with
  | nil =>
    obtain ⟨b, found, sound, left⟩ := h.inbox.receive_nil letters
    have asleep := h.inbox.asleep_receive letters
    have kept : b.closed = l.self.inbox.closed := congrArg (·.2.closed) found.symm
    rw [found] at asleep
    simp only [Link.receive, found]
    exact ⟨sound, by rw [h.sent, letters]; exact congrArg _ left.symm, fun _ _ ↦ .inl asleep,
      kept.trans h.deserted⟩
  | cons c rest =>
    obtain ⟨b, found, sound, left⟩ := h.inbox.receive_cons letters
    have closed : b.closed = l.self.inbox.closed := congrArg (·.2.closed) found.symm
    have rung : b.rung = l.self.inbox.rung := congrArg (·.2.rung) found.symm
    have kept : ((l.modifySelf ({ · with inbox := b })).obey c).2.self.inbox = b :=
      (Link.obey_self _ c).1
    simp only [Link.receive, found]
    -- only a poll takes the ring, so it tells of the commands that are left
    refine ⟨kept.symm ▸ sound, ?_, fun near calm ↦ .inr ?_, kept.symm ▸ closed.trans h.deserted⟩
    · rw [kept, left, h.sent, letters, List.append_assoc]
      rfl
    · rw [kept, rung]
      exact (h.alert near calm).rung h.inbox (by rw [letters]; exact List.cons_ne_nil _ _)

theorem processes (h : v.Sound l) : (v.turn l .processes).Sound (l.turn .processes) := by
  obtain ⟨listens, asleep⟩ := Link.listens_process h.inbox
  obtain ⟨sound, left⟩ := Link.process_inbox h.inbox
  refine ⟨sound, ?_, fun _ _ ↦ .inl asleep, listens.closed.trans h.deserted⟩
  change v.sent = (v.heard ++ l.heard) ++ l.process.2.self.inbox.contents
  rw [left, List.append_nil, Link.heard_eq h.inbox, h.sent]

theorem poll_closed_iff (h : v.Sound l) : l.poll.1 = .closed ↔ v.deserted = true := by
  rw [← h.deserted, Link.poll, Mailbox.poll]
  cases l.self.inbox.closed with
  | true => simp
  | false => cases l.self.inbox.rung <;> simp

theorem poll_ready_iff (h : v.Sound l) (near : v.deserted = false) :
    l.poll.1 = .ready ↔ l.self.inbox.rung = true := by
  have closed : l.self.inbox.closed = false := h.deserted.trans near
  rw [Link.poll, Mailbox.poll, closed]
  cases l.self.inbox.rung <;> simp

theorem polls (h : v.Sound l) : (v.turn l .polls).Sound (l.turn .polls) := by
  refine ⟨h.inbox, h.sent, fun near calm ↦ ?_, h.deserted⟩
  obtain ⟨calm, unready⟩ := Bool.or_eq_false_iff.mp calm
  -- had there been a ring to take, the poll would have been ready
  rcases h.alert near calm with asleep | rung
  · exact .inl asleep
  · exact absurd ((h.poll_ready_iff near).mpr rung) (beq_eq_false_iff_ne.mp unready)

theorem turn (h : v.Sound l) (t : Turn) : (v.turn l t).Sound (l.turn t) := by
  cases t with
  | told c => exact h.told c
  | deserted => exact ⟨h.inbox, h.sent, nofun, rfl⟩
  | hears => exact h.hears
  | processes => exact h.processes
  | polls => exact h.polls
  | otherwise l' => exact ⟨h.inbox, h.sent, h.alert, h.deserted⟩

theorem turns (h : v.Sound l) (ts : List Turn) : (v.turns l ts).Sound (l.turns ts) := by
  induction ts generalizing v l with
  | nil => exact h
  | cons t ts ih => exact ih (h.turn t)

end Vigil.Sound

/-- However commands come and an end hears and polls, the commands that it did not hear yet are
those that it hears next, in order and once. As long as the peer is there, a poll is ready if there
are some, unless an answer told of them before. Once the peer is gone, each poll tells that. -/
theorem no_command_slept_over (s : Settings) (side : Side) (ts : List Turn) :
    let fresh := (Pair.ofSettings s).link side
    let l := fresh.turns ts
    let v := ({} : Vigil).turns fresh ts
    ∃ unheard, v.sent = v.heard ++ unheard ∧
      (l.heard = unheard ∧ l.process.1.processed = unheard.length ∧
        l.Hearing unheard l.process.1.events l.process.2 ∧ l.process.2.heard = []) ∧
      (v.deserted = false → v.roused = false →
        (unheard ≠ [] → l.poll.1 = .ready) ∧ (l.poll.1 = .pending → unheard = [])) ∧
      (l.poll.1 = .closed ↔ v.deserted = true) := by
  intro fresh l v
  have sound : v.Sound l := (Vigil.Sound.start s side).turns ts
  obtain ⟨hearing, processed⟩ := Link.hearing_process sound.inbox
  obtain ⟨rest, none_left⟩ := Link.process_inbox sound.inbox
  have ready (near : v.deserted = false) (calm : v.roused = false)
      (unheard : l.self.inbox.contents ≠ []) : l.poll.1 = .ready :=
    (sound.poll_ready_iff near).mpr ((sound.alert near calm).rung sound.inbox unheard)
  refine ⟨l.self.inbox.contents, sound.sent, ⟨Link.heard_eq sound.inbox, processed, hearing,
    (Link.heard_eq rest).trans none_left⟩, fun near calm ↦ ⟨ready near calm, fun pending ↦ ?_⟩,
    sound.poll_closed_iff⟩
  by_contra unheard
  cases pending.symm.trans (ready near calm unheard)

/-- A ring may be left over from a command that was heard before the end asked. -/
example :
    let fresh := (Pair.ofSettings {}).link .first
    let l := fresh.turns [.told .activateRead, .processes]
    l.poll.1 = .ready ∧ l.heard = [] ∧
      (fresh.turns [.told .activateRead, .processes, .polls, .told .term]).poll.1 = .ready := by
  decide

namespace Link

def ownTurn (l : Link) : Call → Turn
  | .process => .processes
  | .poll => .polls
  | c => .otherwise (l.perform c)

theorem perform_eq_turn (l : Link) (c : Call) : l.perform c = l.turn (l.ownTurn c) := by
  have unheard {c : Call} (inbox : (l.perform c).self.inbox = l.self.inbox) :
      l.perform c = l.turn (.otherwise (l.perform c)) := by
    rw [turn, ← inbox]
    rfl
  cases c with
  | process | poll => rfl
  | abandon => exact unheard rfl
  | _ => exact unheard (Posts.perform l (by simp)).self

def posted (l : Link) (c : Call) : List Command :=
  (l.perform c).peer.inbox.contents.drop l.peer.inbox.contents.length

def peerTurns (l : Link) (c : Call) : List Turn :=
  if c = .abandon then [.deserted]
  else .otherwise (l.swap.perform c).swap :: (l.swap.posted c).map .told

theorem turns_told (l : Link) (cs : List Command) : l.turns (cs.map .told) =
    l.modifySelf ({ · with inbox := cs.foldl Mailbox.send l.self.inbox }) := by
  induction cs generalizing l with
  | nil => rfl
  | cons c cs ih => exact ih _

theorem perform_eq_peerTurns (h : l.swap.Sound) (c : Call) :
    (l.swap.perform c).swap = l.turns (l.peerTurns c) := by
  by_cases abandoned : c = .abandon
  · subst abandoned
    rfl
  · have posted := (h.posted_perform abandoned).eq_foldl h.peer.inbox
    rw [peerTurns, if_neg abandoned, turns, List.foldl_cons]
    refine Eq.trans ?_ (turns_told _ _).symm
    rw [Link.posted]
    change _ = (l.swap.perform c).swap.modifySelf ({ · with inbox := _ })
    exact congrArg (fun b ↦ (l.swap.perform c).swap.modifySelf ({ · with inbox := b })) posted

end Link

namespace Pair

def turnsAt (side : Side) : Pair → List (Side × Call) → List Turn
  | _, [] => []
  | p, (s, c) :: calls =>
    (if s = side then [(p.link side).ownTurn c] else (p.link side).peerTurns c) ++
      turnsAt side (p.perform s c) calls

theorem link_run_eq_turns {p : Pair} {side : Side} (sound : (p.link side).Sound)
    (calls : List (Side × Call)) :
    (p.run calls).link side = (p.link side).turns (p.turnsAt side calls) := by
  induction calls generalizing p with
  | nil => rfl
  | cons call calls ih =>
    obtain ⟨s, c⟩ := call
    rw [turnsAt, Link.turns, List.foldl_append]
    by_cases own : s = side
    · subst own
      have moved := (Moves.perform sound c).sound sound
      rw [if_pos rfl, List.foldl_cons, List.foldl_nil, ← Link.perform_eq_turn, ← perform_own]
      exact ih (perform_own p s c ▸ moved)
    · obtain rfl := Side.eq_other_of_ne own
      have moved := ((Moves.perform sound.swap c).sound sound.swap).swap
      rw [if_neg own]
      change _ = ((p.link side).turns ((p.link side).peerTurns c)).turns _
      rw [← Link.perform_eq_peerTurns sound.swap, ← perform_other]
      exact ih (perform_other p side c ▸ moved)

end Pair

end Conduit.Pipe
