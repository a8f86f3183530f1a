import Conduit.Pipe.Pair

namespace Conduit.Pipe

/-- What the owner of an end can ask of it. -/
inductive Call where
  | write (m : Message)
  | rollback
  | flush
  | checkWrite
  | read
  | checkRead
  | setWatermarks (inbound outbound : Nat)
  | setBoosts (inbound outbound : Nat)
  /-- The peer is asked to apply watermarks. -/
  | sendWatermarks (inbound outbound : Nat)
  /-- What is unread is dropped when the peer terminates. -/
  | setNoDelay
  | setRoutingId (id : Option UInt32)
  | hiccup
  | terminate (delay : Bool)
  | process
  | poll
  /-- The owner lets go of its end. -/
  | abandon
deriving DecidableEq

namespace Link

def perform (l : Link) : Call → Link
  | .write m => (l.write m).2
  | .rollback => l.rollback
  | .flush => l.flush
  | .checkWrite => l.checkWrite.2
  | .read => l.read.2
  | .checkRead => l.checkRead.2
  | .setWatermarks inbound outbound => l.modifySelf (·.setWatermarks inbound outbound)
  | .setBoosts inbound outbound => l.modifySelf (·.setBoosts inbound outbound)
  | .sendWatermarks inbound outbound => l.send (.watermarks inbound outbound)
  | .setNoDelay => l.modifySelf ({ · with delay := false })
  | .setRoutingId routingId => l.modifySelf ({ · with routingId })
  | .hiccup => l.hiccup
  | .terminate delay => l.terminate delay
  | .process => l.process.2
  | .poll => l.poll.2
  | .abandon => l.abandon

@[simp] theorem swap_swap (l : Link) : l.swap.swap = l := rfl

@[simp] theorem swap_self (l : Link) : l.swap.self = l.peer := rfl

@[simp] theorem swap_peer (l : Link) : l.swap.peer = l.self := rfl

end Link

theorem Side.eq_other_of_ne {s side : Side} (h : s ≠ side) : s = side.other := by
  cases s <;> cases side <;> simp_all [Side.other]

/-- How a record changes with each call, seen by the end that makes it, before it takes effect: with
those of one end, and with those of its peer. -/
structure Observer (κ : Type) where
  own : Link → Call → κ → κ
  peer : Link → Call → κ → κ

namespace Pair

def perform (p : Pair) (side : Side) (c : Call) : Pair := p.setLink side ((p.link side).perform c)

def run (p : Pair) (calls : List (Side × Call)) : Pair :=
  calls.foldl (fun p c ↦ p.perform c.1 c.2) p

/-- The record of a run, by an observer at one side. -/
def watch {κ : Type} (o : Observer κ) (side : Side) : Pair → κ → List (Side × Call) → κ
  | _, k, [] => k
  | p, k, (s, c) :: calls =>
    watch o side (p.perform s c) ((if s = side then o.own else o.peer) (p.link s) c k) calls

theorem link_setLink (p : Pair) (side : Side) (l : Link) : (p.setLink side l).link side = l := by
  cases side <;> rfl

theorem link_setLink_other (p : Pair) (side : Side) (l : Link) :
    (p.setLink side l).link side.other = l.swap := by
  cases side <;> rfl

theorem link_other (p : Pair) (side : Side) : p.link side.other = (p.link side).swap := by
  cases side <;> rfl

theorem perform_own (p : Pair) (side : Side) (c : Call) :
    (p.perform side c).link side = (p.link side).perform c := link_setLink p side _

theorem perform_other (p : Pair) (side : Side) (c : Call) :
    (p.perform side.other c).link side = ((p.link side).swap.perform c).swap := by
  have h := link_setLink_other p side.other ((p.link side.other).perform c)
  rw [link_other] at h
  cases side <;> exact h

theorem run_append (p : Pair) (calls more : List (Side × Call)) :
    p.run (calls ++ more) = (p.run calls).run more := List.foldl_append

theorem run_concat (p : Pair) (calls : List (Side × Call)) (side : Side) (c : Call) :
    p.run (calls ++ [(side, c)]) = (p.run calls).perform side c := run_append p calls _

theorem watch_append {κ : Type} (o : Observer κ) (side : Side) (p : Pair) (k : κ)
    (calls more : List (Side × Call)) :
    p.watch o side k (calls ++ more) =
      (p.run calls).watch o side (p.watch o side k calls) more := by
  induction calls generalizing p k with
  | nil => rfl
  | cons call calls ih => exact ih _ _

theorem watch_concat {κ : Type} (o : Observer κ) (side : Side) (p : Pair) (k : κ)
    (calls : List (Side × Call)) (t : Side) (c : Call) :
    p.watch o side k (calls ++ [(t, c)]) = (if t = side then o.own else o.peer)
      ((p.run calls).link t) c (p.watch o side k calls) := by
  rw [watch_append]
  rfl

/-- What the calls of both ends keep, as one end sees it, holds after every run. -/
theorem watch_induction {κ : Type} {o : Observer κ} {side : Side} {Inv : Link → κ → Prop}
    {calls : List (Side × Call)}
    (own : ∀ l k c, (side, c) ∈ calls → Inv l k → Inv (l.perform c) (o.own l c k))
    (peer : ∀ l k c, (side.other, c) ∈ calls → Inv l k →
      Inv (l.swap.perform c).swap (o.peer l.swap c k))
    {p : Pair} {k : κ} (start : Inv (p.link side) k) :
    Inv ((p.run calls).link side) (p.watch o side k calls) := by
  induction calls generalizing p k with
  | nil => exact start
  | cons call calls ih =>
    obtain ⟨s, c⟩ := call
    refine ih (fun l k c hc ↦ own l k c (List.mem_cons_of_mem _ hc))
      (fun l k c hc ↦ peer l k c (List.mem_cons_of_mem _ hc)) ?_
    by_cases hs : s = side
    · subst hs
      rw [if_pos rfl, perform_own]
      exact own _ k c List.mem_cons_self start
    · obtain rfl := Side.eq_other_of_ne hs
      rw [if_neg hs, perform_other, link_other]
      exact peer _ k c List.mem_cons_self start

def unnoted : Observer Unit := ⟨fun _ _ k ↦ k, fun _ _ k ↦ k⟩

theorem create_eq_ok {s : Settings} {p : Pair} (h : create s = .ok p) :
    p = ofSettings s ∧ 0 < s.chunkSize := by
  by_cases zero : s.chunkSize = 0
  · simp [create, ChunkQueue.create, zero, bind, Except.bind] at h
  · refine ⟨?_, Nat.pos_of_ne_zero zero⟩
    simp only [create, ChunkQueue.create, if_neg zero, bind, Except.bind] at h
    split at h
    · simp at h
    · simpa [pure, Except.pure] using h.symm

end Pair

end Conduit.Pipe
