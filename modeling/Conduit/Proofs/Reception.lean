import Conduit.Proofs.Floor
import Conduit.Proofs.Schedulers

namespace Conduit.Net

open Pipe

namespace FairQueue

variable {q : FairQueue} {id : Nat}

def heed (id : Nat) (q : FairQueue) : Event → FairQueue
  | .readActivated => q.activated id
  | .writeActivated | .hiccuped | .terminated => q

theorem mem_of_current? (current : q.current? = some id) : id ∈ q.pipes.items.toList :=
  List.mem_of_mem_take (ActiveSet.mem_active_of_current? current)

theorem heed_foldl (sound : q.pipes.Sound) (id : Nat) (events : List Event) :
    (events.foldl (heed id) q).pipes.Sound ∧
      (events.foldl (heed id) q).pipes.items.toList.Perm q.pipes.items.toList ∧
      ∀ y, y ∈ (events.foldl (heed id) q).pipes.active ↔ y ∈ q.pipes.active ∨
        y = id ∧ .readActivated ∈ events ∧ id ∈ q.pipes.items.toList := by
  induction events generalizing q with
  | nil => exact ⟨sound, .refl _, fun y ↦ by simp⟩
  | cons e events ih =>
    cases e with
    | readActivated =>
      obtain ⟨sound', perm, active, -⟩ := sound.activate id
      obtain ⟨sound'', perm', active'⟩ := ih (q := q.activated id) sound'
      refine ⟨sound'', perm'.trans perm, fun y ↦ ?_⟩
      rw [List.foldl_cons, heed, active', pipes_activated, active, perm.mem_iff]
      simp only [List.mem_cons, true_or, true_and]
      tauto
    | writeActivated | hiccuped | terminated =>
      obtain ⟨sound', perm', active'⟩ := ih sound
      refine ⟨sound', perm', fun y ↦ ?_⟩
      rw [List.foldl_cons, heed, active']
      simp only [List.mem_cons, reduceCtorEq, false_or]

end FairQueue

structure Reception extends Floor where
  queue : FairQueue := {}

namespace Reception

inductive Step where
  | floor (c : Change)
  | attach (id : Nat)
  | activated (id : Nat)
  | terminated (id : Nat) (credential : Bytes)
  | receive
  | hasIn
  /-- A pipe of the table hears the commands of its peer, and its events are heeded. -/
  | hear (id : Nat)

def step (w : Reception) : Step → Reception
  | .floor c => { w with toFloor := w.toFloor.change c }
  | .attach id => { w with queue := w.queue.attach id }
  | .activated id => { w with queue := w.queue.activated id }
  | .terminated id credential => { w with queue := w.queue.terminated id credential }
  | .receive =>
    let (_, queue, pairs) := w.queue.receive w.table w.pairs
    { w with pairs, queue }
  | .hasIn =>
    let (_, queue, pairs) := w.queue.hasIn w.table w.pairs
    { w with pairs, queue }
  | .hear id =>
    let (report, pairs) := w.table.act id Link.process w.pairs
    { w with pairs, queue := ((report.map (·.events)).getD []).foldl (FairQueue.heed id) w.queue }

def run (w : Reception) (steps : List Step) : Reception := steps.foldl step w

end Reception

end Conduit.Net
