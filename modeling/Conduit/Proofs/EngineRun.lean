import Conduit.Proofs.Bell
import Conduit.Proofs.EngineTurns
import Conduit.Proofs.Handshake
import Conduit.Proofs.Ledger
import Conduit.Proofs.Pulling

namespace Conduit

namespace Pipe

def State.remaining : State → Nat
  | .active => 6
  | .waitingForDelimiter => 5
  | .delimiterReceived => 4
  | .terminating => 3
  | .termAckSent => 2
  | .doubleTerminated => 1
  | .terminated => 0

namespace State

theorem remaining_inj {s t : State} (h : s.remaining = t.remaining) : s = t := by
  cases s <;> cases t <;> first | rfl | contradiction

theorem remaining_lt_active {s : State} (h : s ≠ .active) : s.remaining < active.remaining := by
  cases s <;> first | contradiction | decide

end State

theorem Move.remaining_le {l l' : Link} {d : Deed} (h : Move l d l') :
    l'.self.state.remaining ≤ l.self.state.remaining := by
  rw [h.state]
  cases h with
  | meet active =>
    rw [active]
    exact Nat.le_of_ble_eq_true rfl
  | finish waiting | giveUp waiting =>
    rw [waiting]
    exact Nat.le_of_ble_eq_true rfl
  | request unasked =>
    rcases unasked with state | state <;> rw [state] <;> exact Nat.le_of_ble_eq_true rfl
  | @obey c =>
    cases c with
    | term =>
      generalize l.self.delay = delay
      cases l.self.state <;> cases delay <;> decide
    | termAck => exact Nat.zero_le _
    | _ => exact le_rfl
  | adjust | signal | look | listen | push | takeBack | publish | take | renew | delimit =>
    exact le_rfl

theorem Moves.remaining_le {l l' : Link} {ds : List Deed} (h : Moves l ds l') :
    l'.self.state.remaining ≤ l.self.state.remaining := by
  induction h with
  | nil => exact le_rfl
  | quiet first _ ih | deed first _ ih => exact ih.trans first.remaining_le

end Pipe

namespace Bridge

open Wire Pipe

namespace Stream

variable {s : Stream} {room : Nat}

theorem atMost_le (n : Nat) (limit : Option Nat) : atMost n limit ≤ n := by
  cases limit with
  | none => exact le_rfl
  | some limit => exact min_le_left n limit

theorem atMost_pos {n : Nat} {limit : Option Nat} (positive : 0 < n) (gives : limit ≠ some 0) :
    0 < atMost n limit := by
  cases limit with
  | none => exact positive
  | some limit => exact lt_min positive (Nat.pos_of_ne_zero fun nothing ↦ gives (nothing ▸ rfl))

theorem length_of_read {bytes : Bytes} (given : (s.read room).1 = .bytes bytes) :
    bytes.length ≤ room := by
  have gives := s.read_gives room
  generalize s.read room = out at gives given
  cases gives with
  | bytes =>
    cases given
    exact (List.length_take_le _ _).trans (atMost_le _ _)
  | failed | ended | waiting | nothing => cases given

/-- An end is found only where the input has ended, or the stream gives nothing at all. -/
theorem ended_of_read (positive : 0 < room) (ended : (s.read room).1 = .ended) :
    s.unread = [] ∧ s.ended = true ∨ s.maxRead = some 0 := by
  have gives := s.read_gives room
  generalize s.read room = out at gives ended
  cases gives with
  | ended empty _ shut => exact .inl ⟨empty, shut⟩
  | nothing _ none =>
    exact .inr (Classical.byContradiction fun gives ↦ (atMost_pos positive gives).ne' none)
  | failed | waiting | bytes => cases ended

end Stream

inductive Act where
  /-- It takes so many turns if there are, with nothing else in between. -/
  | turns (n : Nat)
  /-- The owner of the first end of the pipe makes a call. -/
  | user (c : Call)
  | dropUser
  | stop
  | arrive (bytes : Bytes)
  | endInput
  | failReads
  | failWrites
  | failFlush
  | grant (n : Nat)
  | limitReads (most : Option Nat)
  | limitWrites (most : Option Nat)

namespace Engine

variable {d : Dialect} {κ : Type}

/-- The pipe as its user sees it. -/
def user (e : Engine d) : Link := e.pair.link .first

def setStream (e : Engine d) (f : Stream → Stream) : Engine d := { e with stream := f e.stream }

def act (e : Engine d) : Act → Engine d
  | .turns n => turns n e
  | .user c =>
    if e.pair.firstDropped then e else { e with pair := e.pair.setLink .first (e.user.perform c) }
  | .dropUser => { e with pair := e.pair.drop .first }
  | .stop => { e with stopRequested := true }
  | .arrive bytes => e.setStream fun s ↦ { s with unread := s.unread ++ bytes }
  | .endInput => e.setStream ({ · with ended := true })
  | .failReads => e.setStream ({ · with readFails := true })
  | .failWrites => e.setStream ({ · with writeFails := true })
  | .failFlush => e.setStream ({ · with flushFails := true })
  | .grant n => e.setStream (·.grant n)
  | .limitReads most => e.setStream ({ · with maxRead := most })
  | .limitWrites most => e.setStream ({ · with maxWrite := most })

def run (e : Engine d) (acts : List Act) : Engine d := acts.foldl act e

def observe (note : Engine d → Act → κ → κ) : Engine d → κ → List Act → κ
  | _, k, [] => k
  | e, k, a :: acts => observe note (e.act a) (note e a k) acts

def noteRead (e : Engine d) (a : Act) (ms : List Message) : List Message :=
  match a with
  | .user .read => if e.pair.firstDropped then ms else ms ++ e.user.read.1.toList
  | _ => ms

def framesRead (e : Engine d) (acts : List Act) : List Message := e.observe noteRead [] acts

theorem run_append (e : Engine d) (before after : List Act) :
    e.run (before ++ after) = (e.run before).run after :=
  List.foldl_append

theorem observe_append (note : Engine d → Act → κ → κ) (e : Engine d) (k : κ)
    (before after : List Act) : e.observe note k (before ++ after) =
      (e.run before).observe note (e.observe note k before) after := by
  induction before generalizing e k with
  | nil => rfl
  | cons b before ih => exact ih (e.act b) (note e b k)

theorem run_concat (e : Engine d) (acts : List Act) (a : Act) :
    e.run (acts ++ [a]) = (e.run acts).act a :=
  e.run_append acts [a]

theorem observe_concat (note : Engine d → Act → κ → κ) (e : Engine d) (k : κ) (acts : List Act)
    (a : Act) : e.observe note k (acts ++ [a]) = note (e.run acts) a (e.observe note k acts) :=
  e.observe_append note k acts [a]

theorem run_keep {note : Engine d → Act → κ → κ} {Inv : Engine d → κ → Prop} {acts : List Act}
    (keep : ∀ e k a, a ∈ acts → Inv e k → Inv (e.act a) (note e a k)) {e : Engine d} {k : κ}
    (start : Inv e k) : Inv (e.run acts) (e.observe note k acts) := by
  induction acts generalizing e k with
  | nil => exact start
  | cons a acts ih =>
    exact ih (fun e k b hb ↦ keep e k b (List.mem_cons_of_mem _ hb))
      (keep e k a List.mem_cons_self start)

theorem turns_keep {Inv : Engine d → Prop} (keep : ∀ e e', Inv e → e.turn = some e' → Inv e')
    {e : Engine d} (start : Inv e) (n : Nat) : Inv (turns n e) := by
  induction n generalizing e with
  | zero => exact start
  | succ n ih =>
    rw [turns]
    match next : e.turn with
    | none => exact start
    | some e' => exact ih (keep e e' start next)

theorem link_user (e : Engine d) (c : Call) (there : e.pair.firstDropped = false) :
    (e.act (.user c)).link = (e.link.swap.perform c).swap := by
  rw [act, there]
  rfl

end Engine

def ofEngine : Call → Prop
  | .write _ | .flush | .read | .process | .poll | .terminate false | .abandon => True
  | _ => False

inductive Worked (allowed : Call → Prop) (l : Link) : Link → Prop where
  | refl : Worked allowed l l
  | call {l' : Link} {c : Call} (h : Worked allowed l l') (hc : allowed c) :
    Worked allowed l (l'.perform c)

def silent (c : Call) : Prop := ofEngine c ∧ c ≠ .process ∧ c ≠ .poll

namespace Worked

variable {allowed others : Call → Prop} {l l₁ l₂ : Link}

theorem trans (h : Worked allowed l l₁) (h' : Worked allowed l₁ l₂) : Worked allowed l l₂ := by
  induction h' with
  | refl => exact h
  | call _ hc ih => exact ih.call hc

theorem mono (h : Worked allowed l l₁) (more : ∀ c, allowed c → others c) :
    Worked others l l₁ := by
  induction h with
  | refl => exact .refl
  | call _ hc ih => exact ih.call (more _ hc)

theorem one {c : Call} (hc : allowed c) : Worked allowed l (l.perform c) := refl.call hc

/-- What each call keeps, all of them keep. -/
theorem keep (Inv : Link → Prop) (h : Worked allowed l l₁)
    (step : ∀ l c, allowed c → Inv l → Inv (l.perform c)) (start : Inv l) : Inv l₁ := by
  induction h with
  | refl => exact start
  | call _ hc ih => exact step _ _ hc ih

theorem read (l : Link) : Worked silent l l.read.2 := one (c := .read) ⟨trivial, nofun, nofun⟩

theorem terminate (l : Link) : Worked silent l (l.terminate false) :=
  one (c := .terminate false) ⟨trivial, nofun, nofun⟩

theorem process (l : Link) : Worked ofEngine l l.process.2 := one (c := .process) trivial

theorem poll (l : Link) : Worked ofEngine l l.poll.2 := one (c := .poll) trivial

theorem of_silent (h : Worked silent l l₁) : Worked ofEngine l l₁ := h.mono fun _ hc ↦ hc.1

theorem inbox (h : Worked silent l l₁) : l₁.self.inbox = l.self.inbox := by
  refine h.keep (fun l' ↦ l'.self.inbox = l.self.inbox) ?_ rfl
  rintro l' c ⟨-, unheard, unpolled⟩ same
  by_cases left : c = .abandon
  · subst left
    exact same
  · exact (Link.Posts.perform l' ⟨unheard, unpolled, left⟩).self.trans same

theorem closed (h : Worked ofEngine l l₁) (sound : l.Sound) :
    l₁.self.inbox.closed = l.self.inbox.closed := by
  refine (h.keep (fun l' ↦ l'.Sound ∧ l'.self.inbox.closed = l.self.inbox.closed) ?_
    ⟨sound, rfl⟩).2
  rintro l' c - ⟨sound, same⟩
  refine ⟨sound.perform c, Eq.trans ?_ same⟩
  by_cases quiet : c ≠ .process ∧ c ≠ .poll ∧ c ≠ .abandon
  · rw [(Link.Posts.perform l' quiet).self]
  · cases c with
    | process => exact sound.listens_process.1.closed
    | poll | abandon => rfl
    | _ => exact absurd ⟨nofun, nofun, nofun⟩ quiet

theorem states (h : Worked allowed l l₁) (sound : l.Sound) :
    l₁.Sound ∧ l₁.peer.state = l.peer.state ∧
      l₁.self.state.remaining ≤ l.self.state.remaining := by
  refine h.keep (fun l' ↦ l'.Sound ∧ l'.peer.state = l.peer.state ∧
    l'.self.state.remaining ≤ l.self.state.remaining) ?_ ⟨sound, rfl, le_rfl⟩
  rintro l' c - ⟨sound, peer, further⟩
  have moves := Moves.perform sound c
  exact ⟨sound.perform c, moves.peer_state.trans peer, moves.remaining_le.trans further⟩

theorem terminated (h : Worked allowed l l₁) (sound : l.Sound)
    (terminated : l.self.state = .terminated) : l₁.self.state = .terminated := by
  have further := (h.states sound).2.2
  rw [terminated] at further
  exact State.remaining_inj (Nat.le_zero.mp further)

end Worked

theorem Worked.of_pulled {l l' : Link} {ms : List Message} {dry : Bool}
    (h : Source.Pulled Link.read l ms l' dry) : Worked silent l l' := by
  induction h with
  | done => exact .refl
  | @dry l _ nothing =>
    have first := Worked.read l
    rwa [nothing] at first
  | @more l _ _ _ _ _ next _ ih =>
    have first := Worked.read l
    rw [next] at first
    exact first.trans ih

def handsOn : Call → Prop
  | .write _ | .flush => True
  | _ => False

theorem handsOn.silent {c : Call} (h : handsOn c) : silent c := by
  cases c with
  | write | flush => exact ⟨trivial, nofun, nofun⟩
  | _ => exact absurd h id

namespace Inbound

variable {d : Dialect}

def decodeOn (turns count : Nat) (i : Inbound d) (l : Link) : Delivered d :=
  if i.buffered.isEmpty then ⟨count, none, i, l⟩
  else
    match i.decoder.decode i.buffered with
    | .error e => ⟨0, some e, i, l⟩
    | .ok out =>
      deliverN turns count
        { i with
          decoder := out.decoder
          buffered := out.rest
          stalled := out.delivery.map Delivery.message } l

theorem deliverN_none {i : Inbound d} (none : i.stalled = none) (turns count : Nat) (l : Link) :
    deliverN (turns + 1) count i l = decodeOn turns count i l := by
  simp only [deliverN, writeStalled, none]
  rfl

theorem deliverN_some {i : Inbound d} {m : Message} (some : i.stalled = some m) (turns count : Nat)
    (l : Link) : deliverN (turns + 1) count i l =
      if (l.write m).1 then decodeOn turns (count + 1) { i with stalled := none } (l.write m).2
      else ⟨count, none, i, (l.write m).2⟩ := by
  simp only [deliverN, writeStalled, some]
  match l.write m with
  | (true, l) => rfl
  | (false, l) => rfl

theorem worked_deliverN (turns count : Nat) (i : Inbound d) (l : Link) :
    Worked handsOn l (deliverN turns count i l).link := by
  induction turns generalizing count i l with
  | zero => exact .refl
  | succ turns ih =>
    have decoded (count : Nat) (i : Inbound d) (l : Link) :
        Worked handsOn l (decodeOn turns count i l).link := by
      unfold decodeOn
      split
      · exact .refl
      · split
        · exact .refl
        · exact ih _ _ _
    match stalled : i.stalled with
    | none =>
      rw [deliverN_none stalled]
      exact decoded _ _ _
    | some m =>
      rw [deliverN_some stalled]
      split
      · exact (Worked.one (c := .write m) trivial).trans (decoded _ _ _)
      · exact .one (c := .write m) trivial

theorem worked_deliver (i : Inbound d) (l : Link) : Worked handsOn l (i.deliver l).link := by
  have written := i.worked_deliverN (i.buffered.length + 1) 0 l
  unfold deliver
  dsimp only
  split
  · exact written.call (c := .flush) trivial
  · exact written

end Inbound

def Engine.outer {d : Dialect} (e : Engine d) : Bool × Bool × Bool × Bool × Bool × Option Nat :=
  (e.pair.firstDropped, e.stopRequested, e.stream.ended, e.stream.readFails, e.stream.writeFails,
    e.stream.maxRead)

/-- What an engine may come to by calls of its end. One that stopped reading never reads again. -/
structure Works {d : Dialect} (allowed : Call → Prop) (e₀ e : Engine d) : Prop where
  link : Worked allowed e₀.link e.link
  outer : e.outer = e₀.outer
  reading : e.reading = true → e₀.reading = true

namespace Works

variable {f : Framing} {allowed others : Call → Prop} {e₀ e e' : Engine f.dialect}

theorem refl : Works allowed e e := ⟨.refl, rfl, id⟩

theorem trans (h : Works allowed e₀ e) (h' : Works allowed e e') : Works allowed e₀ e' :=
  ⟨h.link.trans h'.link, h'.outer.trans h.outer, fun reads ↦ h.reading (h'.reading reads)⟩

theorem of_silent (h : Works silent e₀ e) : Works ofEngine e₀ e :=
  ⟨h.link.of_silent, h.outer, h.reading⟩

theorem finish (h : Works silent e₀ e) (o : Outcome) : Works silent e₀ (e.finish o) := by
  refine ⟨?_, ?_, h.reading⟩
  · have dropped : (e.finish o).link = (e.pair.drop .second).link .second := rfl
    rw [dropped, Pair.drop]
    split
    · exact h.link
    · exact h.link.call (c := .abandon) ⟨trivial, nofun, nofun⟩
  · have kept : (e.pair.drop .second).firstDropped = e.pair.firstDropped := by
      rw [Pair.drop]
      split <;> rfl
    exact (congrArg (·, _) kept).trans h.outer

theorem leave (h : Works silent e₀ e) : Works silent e₀ e.leave := by
  unfold Engine.leave Engine.concludeFlushed Engine.conclude
  split
  · exact h.finish _
  · split
    · split
      · exact h.finish _
      · exact h.finish _
    · exact ⟨h.link, h.outer, h.reading⟩

theorem read (h : Works allowed e₀ e) (room : Nat) :
    Works allowed e₀ { e with stream := (e.stream.read room).2 } := by
  have gives := e.stream.read_gives room
  generalize e.stream.read room = out at gives ⊢
  cases gives with
  | bytes => exact ⟨h.link, h.outer, h.reading⟩
  | failed | ended | waiting | nothing => exact h

theorem write (h : Works allowed e₀ e) (bytes : Bytes) :
    Works allowed e₀ { e with stream := (e.stream.write bytes).2 } := by
  have takes := e.stream.write_takes bytes
  generalize e.stream.write bytes = out at takes ⊢
  cases takes with
  | accepted => exact ⟨h.link, h.outer, h.reading⟩
  | failed | waiting => exact h

theorem closeInput (h : Works silent e₀ e) : Works silent e₀ e.closeInput :=
  ⟨h.link.trans (.terminate e.link), h.outer, nofun⟩

theorem fail (h : Works silent e₀ e) (x : Fault) : Works silent e₀ (e.fail x) :=
  ⟨h.link.trans (.terminate e.link), h.outer, nofun⟩

theorem failWith (h : Works silent e₀ e) (x : Failure) : Works silent e₀ (e.failWith x) := by
  cases x with
  | malformed => exact h.fail _
  | allocation => exact h.finish _

theorem deliver (h : Works silent e₀ e) : Works silent e₀ e.deliver := by
  have delivered := h.link.trans ((e.inbound.worked_deliver e.link).mono fun _ ↦ handsOn.silent)
  unfold Engine.deliver
  dsimp only
  split
  · exact ⟨delivered, h.outer, h.reading⟩
  · exact failWith (by exact ⟨delivered, h.outer, h.reading⟩) _

theorem refill (h : Works silent e₀ e) : Works silent e₀ e.refill := by
  obtain ⟨ms, dry, pulled, -⟩ := e.outbound.refill_pulls Link.read e.link
  unfold Engine.refill
  split
  · exact ⟨h.link.trans (.of_pulled pulled), h.outer, h.reading⟩
  · exact h

/-- What an engine does at the top of its loop once it has heard its commands. -/
theorem begin (begins : e.Begins e') : Works silent (e.setLink e.link.process.2) e' := by
  cases begins with
  | ended => exact refl.leave
  | broken => exact refl.deliver
  | waits =>
    have refilled : Works silent (e.setLink e.link.process.2) _ := refl.deliver.refill
    exact ⟨refilled.link, refilled.outer, refilled.reading⟩

theorem again (h : Works allowed e₀ e) : Works allowed e₀ e.again := by
  unfold Engine.again
  split
  · exact h
  · exact ⟨h.link, h.outer, h.reading⟩

theorem received (h : Works silent e₀ e) (bytes : Bytes) (direct : Bool) :
    Works silent e₀ (e.received bytes direct) := by
  unfold Engine.received
  dsimp only
  split
  · exact failWith (by exact ⟨h.link, h.outer, h.reading⟩) _
  · exact ⟨h.link, h.outer, h.reading⟩

theorem tries (h : Works silent e₀ e) {w : Interest} (tries : e.Tries w e') :
    Works silent e₀ e' := by
  cases tries with
  | read _ _ reads =>
    cases reads with
    | ended => exact (h.read _).closeInput
    | failed => exact (h.read _).fail _
    | received => exact (h.read _).received _ _
  | write _ _ _ writes =>
    have written := h.write e.outbound.pending
    cases writes with
    | failed => exact fail (by exact ⟨written.link, written.outer, written.reading⟩) _
    | accepted => exact ⟨written.link, written.outer, written.reading⟩

theorem await {w : Interest} (wakes : e.Wakes w e') : Works ofEngine e e' := by
  have polled : Works ofEngine e (e.setLink e.link.poll.2) := ⟨.poll e.link, rfl, id⟩
  cases wakes with
  | stopped =>
    have closed : Works silent e { e with stopping := true }.closeInput :=
      ⟨.terminate e.link, rfl, nofun⟩
    exact closed.of_silent.again
  | closed => exact polled.trans refl.leave.of_silent
  | ready => exact polled.again
  | stream _ _ tries => exact (polled.trans (refl.tries tries).of_silent).again

theorem drain {rest : Bytes} (drains : e.Drains rest e') : Works silent e e' := by
  cases drains with
  | done => exact leave ⟨.refl, rfl, id⟩
  | failed => exact (refl.write rest).finish _
  | accepted =>
    have written : Works silent e _ := refl.write rest
    exact ⟨written.link, written.outer, written.reading⟩

theorem turn (next : e.turn = some e') : Works ofEngine e e' := by
  cases Engine.turn_steps next with
  | begin _ begins =>
    have heard : Works ofEngine e (e.setLink e.link.process.2) := ⟨.process e.link, rfl, id⟩
    exact heard.trans (begin begins).of_silent
  | await _ wakes => exact await wakes
  | drain _ drains => exact (drain drains).of_silent

end Works

theorem Engine.Begins.alert {f : Framing} {e e' : Engine f.dialect} (begins : e.Begins e')
    (sound : e.link.Sound) : e'.link.self.inbox.Alert := by
  rw [(Works.begin begins).link.inbox]
  exact .inl sound.listens_process.2

/-- A pipe as an engine at its second end sees it after some calls, with the books of what came in
from the stream and of what goes out to it. -/
inductive Reached (p : Pair) (users engines : Call → Prop) : Link → Ledger → Ledger → Prop where
  | start : Reached p users engines (p.link .second) {} {}
  | engine {l : Link} {i o : Ledger} {c : Call} (h : Reached p users engines l i o)
    (allowed : engines c) : Reached p users engines (l.perform c) (bookkeeping.own l c i)
      (bookkeeping.peer l c o)
  | user {l : Link} {i o : Ledger} {c : Call} (h : Reached p users engines l i o)
    (allowed : users c) : Reached p users engines (l.swap.perform c).swap
      (bookkeeping.peer l.swap c i) (bookkeeping.own l.swap c o)

namespace Reached

variable {p : Pair} {users engines : Call → Prop} {l : Link} {i o : Ledger}

theorem mono {users' engines' : Call → Prop} (h : Reached p users engines l i o)
    (ofUsers : ∀ c, users c → users' c) (ofEngines : ∀ c, engines c → engines' c) :
    Reached p users' engines' l i o := by
  induction h with
  | start => exact .start
  | engine _ allowed ih => exact ih.engine (ofEngines _ allowed)
  | user _ allowed ih => exact ih.user (ofUsers _ allowed)

/-- The calls that led there. -/
theorem calls (h : Reached p users engines l i o) : ∃ calls : List (Side × Call),
    (p.run calls).link .second = l ∧ p.watch bookkeeping .second {} calls = i ∧
      p.watch bookkeeping .first {} calls = o ∧ (∀ c, (.first, c) ∈ calls → users c) ∧
      ∀ c, (.second, c) ∈ calls → engines c := by
  induction h with
  | start => exact ⟨[], rfl, rfl, rfl, nofun, nofun⟩
  | @engine l i o c _ allowed ih =>
    obtain ⟨calls, rfl, rfl, rfl, ofUsers, ofEngines⟩ := ih
    refine ⟨calls ++ [(.second, c)], ?_, ?_, ?_, ?_, ?_⟩
    · rw [Pair.run_concat, Pair.perform_own]
    · rw [Pair.watch_concat, if_pos rfl]
    · rw [Pair.watch_concat, if_neg nofun]
    · intro c' hc'
      rcases List.mem_append.mp hc' with hc' | hc'
      · exact ofUsers c' hc'
      · exact absurd (List.mem_singleton.mp hc') nofun
    · intro c' hc'
      rcases List.mem_append.mp hc' with hc' | hc'
      · exact ofEngines c' hc'
      · obtain ⟨-, rfl⟩ := Prod.mk.inj (List.mem_singleton.mp hc')
        exact allowed
  | @user l i o c _ allowed ih =>
    obtain ⟨calls, rfl, rfl, rfl, ofUsers, ofEngines⟩ := ih
    have seen : (p.run calls).link .first = ((p.run calls).link .second).swap := rfl
    refine ⟨calls ++ [(.first, c)], ?_, ?_, ?_, ?_, ?_⟩
    · rw [Pair.run_concat]
      exact Pair.perform_other _ .second c
    · rw [Pair.watch_concat, if_neg nofun, seen]
    · rw [Pair.watch_concat, if_pos rfl, seen]
    · intro c' hc'
      rcases List.mem_append.mp hc' with hc' | hc'
      · exact ofUsers c' hc'
      · obtain ⟨-, rfl⟩ := Prod.mk.inj (List.mem_singleton.mp hc')
        exact allowed
    · intro c' hc'
      rcases List.mem_append.mp hc' with hc' | hc'
      · exact ofEngines c' hc'
      · exact absurd (List.mem_singleton.mp hc') nofun

theorem sound {s : Settings} (made : Pair.create s = .ok p) (h : Reached p users engines l i o) :
    l.Sound := by
  obtain ⟨calls, rfl, -⟩ := h.calls
  exact (Pair.shaking made .second calls).1

theorem shaking {s : Settings} (made : Pair.create s = .ok p)
    (h : Reached p users engines l i o) : l.Shaking := by
  obtain ⟨calls, rfl, -⟩ := h.calls
  exact (Pair.shaking made .second calls).2

end Reached

end Bridge

end Conduit
