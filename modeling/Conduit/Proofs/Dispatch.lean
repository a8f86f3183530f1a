import Conduit.Proofs.Consignment
import Conduit.Proofs.Floor
import Conduit.Proofs.Schedulers

namespace Conduit.Net

open Pipe

structure Dispatch extends Floor where
  balancer : LoadBalancer := {}
  /-- The ends that were put into the table, with their ids. -/
  entered : List (Nat × Place) := []
  /-- The frames that were offered, and what became of each. -/
  answers : List (Message × Sent) := []
  /-- The frames of a message that is not complete. -/
  pending : List Message := []
  /-- The messages, with the end that the last frame of each was put to. -/
  sent : List (List Message × Option (Nat × Place)) := []
  /-- The frames that reads returned, with the end that read. -/
  taken : List (Place × Message) := []

def Table.placed (t : Table) : Sent → Option (Nat × Place)
  | .placed id => (t.find? id).map (id, ·)
  | .dropped | .refused _ => none

namespace Dispatch

inductive Step where
  | floor (c : Change)
  | attach (id : Nat)
  | activated (id : Nat)
  | terminated (id : Nat)
  | hasOut
  | send (m : Message)

/-- The balancer's answer to a frame. One that was refused for want of room is offered again, others
count as offered. -/
def offer (w : Dispatch) (m : Message) (r : Sent × LoadBalancer × Pairs) : Dispatch :=
  let w := { w with balancer := r.2.1, pairs := r.2.2, answers := w.answers ++ [(m, r.1)] }
  if r.1 = .refused .wouldBlock then w
  else if m.more then { w with pending := w.pending ++ [m] }
  else { w with pending := [], sent := w.sent ++ [(w.pending ++ [m], w.table.placed r.1)] }

def change (w : Dispatch) (c : Change) : Dispatch :=
  let w' := { w with toFloor := w.toFloor.change c }
  match c with
  | .enter id p => { w' with entered := w.entered ++ [(id, p)] }
  | .call r c =>
    let given := ((w.pairs.link? r).map (·.returns c)).getD []
    { w' with taken := w.taken ++ given.map (r, ·) }
  | .build _ | .leave _ => w'

def step (w : Dispatch) : Step → Dispatch
  | .floor c => w.change c
  | .attach id => { w with balancer := w.balancer.attach id }
  | .activated id => { w with balancer := w.balancer.activated id }
  | .terminated id => { w with balancer := w.balancer.terminated id }
  | .hasOut =>
    let (_, balancer, pairs) := w.balancer.hasOut w.table w.pairs
    { w with pairs, balancer }
  | .send m => w.offer m (w.balancer.send m w.table w.pairs)

def run (w : Dispatch) (steps : List Step) : Dispatch := steps.foldl step w

/-- The messages whose last frame was put to this end. -/
def sentTo (w : Dispatch) (p : Place) : List Message :=
  (w.sent.filter (·.2.map Prod.snd = some p)).flatMap Prod.fst

def readBy (w : Dispatch) (p : Place) : List Message :=
  (w.taken.filter (·.1 = p)).map Prod.snd

def accepted (w : Dispatch) : List Message :=
  (w.answers.filter (·.2 ≠ .refused .wouldBlock)).map Prod.fst

/-- What those around the balancer may do, where `ends` are the ends meant for it. Ids and ends are
put into the table once, the ends are written by the balancer alone and their peers do not hiccup, a
pipe is reported terminated when it is or is gone from the table, and no credentials are offered. -/
def Permits (ends : Place → Bool) (w : Dispatch) : Step → Prop
  | .floor (.enter id p) =>
    ends p = true ∧ (w.pairs.link? p).isSome ∧ ∀ e ∈ w.entered, e.1 ≠ id ∧ e.2 ≠ p
  | .floor (.call p c) =>
    (ends p = true → (∀ m, c ≠ .write m) ∧ c ≠ .rollback) ∧ (ends p.other = true → c ≠ .hiccup)
  | .terminated id => ∀ p l, w.table.find? id = some p → w.pairs.link? p = some l →
    l.self.state = .terminated
  | .send m => m.isCredential = false
  | .floor (.build _) | .floor (.leave _) | .attach _ | .activated _ | .hasOut => True

def Permitted (ends : Place → Bool) : Dispatch → List Step → Prop
  | _, [] => True
  | w, s :: steps => w.Permits ends s ∧ (w.step s).Permitted ends steps

structure Noted (w : Dispatch) : Prop where
  messages : ∀ o ∈ w.sent, IsMessage o.1 ∧ (∀ m ∈ o.1, m.isCredential = false) ∧
    ∀ e, o.2 = some e → e ∈ w.entered
  pending : ∀ m ∈ w.pending, m.more = true ∧ m.isCredential = false
  accepted : w.sent.flatMap Prod.fst ++ w.pending = w.accepted
  known : ∀ id p, w.table.find? id = some p → (id, p) ∈ w.entered

variable {w w' : Dispatch} {b : LoadBalancer} {ps : Pairs} {id : Nat} {p q : Place} {l l' : Link}
variable {m : Message} {s : Sent}

theorem offer_wouldBlock (w : Dispatch) (m : Message) (b : LoadBalancer) (ps : Pairs) :
    w.offer m (.refused .wouldBlock, b, ps) =
      { w with
        balancer := b
        pairs := ps
        answers := w.answers ++ [(m, .refused .wouldBlock)] } := rfl

theorem offer_more (answered : s ≠ .refused .wouldBlock) (more : m.more = true) :
    w.offer m (s, b, ps) =
      { w with
        balancer := b
        pairs := ps
        answers := w.answers ++ [(m, s)]
        pending := w.pending ++ [m] } := by
  simp only [offer, if_neg answered, if_pos more]

theorem offer_last (answered : s ≠ .refused .wouldBlock) (last : m.more = false) :
    w.offer m (s, b, ps) =
      { w with
        balancer := b
        pairs := ps
        answers := w.answers ++ [(m, s)]
        pending := []
        sent := w.sent ++ [(w.pending ++ [m], w.table.placed s)] } := by
  simp only [offer, if_neg answered, last, Bool.false_eq_true, if_false]

theorem offer_floor (w : Dispatch) (m : Message) (r : Sent × LoadBalancer × Pairs) :
    (w.offer m r).pairs = r.2.2 ∧ (w.offer m r).balancer = r.2.1 := by
  unfold offer
  dsimp only
  split
  · exact ⟨rfl, rfl⟩
  · split <;> exact ⟨rfl, rfl⟩

theorem offer_others (w : Dispatch) (m : Message) (r : Sent × LoadBalancer × Pairs) :
    ((w.offer m r).table, (w.offer m r).entered, (w.offer m r).taken) =
      (w.table, w.entered, w.taken) := by
  unfold offer
  dsimp only
  split
  · rfl
  · split <;> rfl

theorem Noted.offer (h : w.Noted) (plain : m.isCredential = false) (s : Sent) (b : LoadBalancer)
    (ps : Pairs) : (w.offer m (s, b, ps)).Noted := by
  have grown (answered : s ≠ .refused .wouldBlock) : ∀ w' : Dispatch,
      w'.answers = w.answers ++ [(m, s)] → w'.accepted = w.accepted ++ [m] := by
    intro w' same
    simp [Dispatch.accepted, same, answered]
  by_cases answered : s = .refused .wouldBlock
  · subst answered
    refine ⟨h.messages, h.pending, ?_, h.known⟩
    simp [offer_wouldBlock, Dispatch.accepted, h.accepted]
  · cases more : m.more with
    | true =>
      rw [offer_more answered more]
      refine ⟨h.messages, ?_, ?_, h.known⟩
      · intro x hx
        rcases List.mem_append.mp hx with hx | hx
        · exact h.pending x hx
        · exact List.mem_singleton.mp hx ▸ ⟨more, plain⟩
      · rw [grown answered _ rfl, ← h.accepted, List.append_assoc]
    | false =>
      rw [offer_last answered more]
      refine ⟨?_, nofun, ?_, h.known⟩
      · intro o ho
        rcases List.mem_append.mp ho with ho | ho
        · exact h.messages o ho
        · obtain rfl := List.mem_singleton.mp ho
          refine ⟨⟨w.pending, m, rfl, fun x hx ↦ (h.pending x hx).1, more⟩, ?_, ?_⟩
          · intro x hx
            rcases List.mem_append.mp hx with hx | hx
            · exact (h.pending x hx).2
            · exact List.mem_singleton.mp hx ▸ plain
          · intro e placed
            cases s with
            | placed id =>
              obtain ⟨p, found, rfl⟩ := Option.map_eq_some_iff.mp placed
              exact h.known id p found
            | dropped | refused => exact absurd placed nofun
      · rw [grown answered _ rfl, ← h.accepted]
        simp

end Dispatch

end Conduit.Net
