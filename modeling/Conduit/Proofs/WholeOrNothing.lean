import Conduit.Proofs.MessageInParts
import Mathlib.Data.List.Flatten
import Mathlib.Data.List.Perm.Subperm

namespace Conduit.Net

open Pipe

namespace Dispatch

variable {ends : Place → Bool} {w w' : Dispatch} {b : LoadBalancer} {ps : Pairs} {id : Nat}
variable {p q : Place} {l l' : Link} {m : Message} {s : Sent}

def unmarked (l : Link) : Link :=
  ⟨{ l.self with outActive := true }, { l.peer with outActive := true }⟩

theorem unmarked_write (refused : (l.write m).1 = false) :
    unmarked (l.write m).2 = unmarked l := by
  have looked : unmarked l.checkWrite.2 = unmarked l := by
    unfold Link.checkWrite
    split
    · rfl
    · split <;> rfl
  unfold Link.write at refused ⊢
  split at refused <;> rename_i found
  · rw [found] at looked
    exact looked
  · exact absurd refused nofun

theorem unmarked_put (there : ps.link? p = some l) (same : unmarked l' = unmarked l) (q : Place) :
    ((ps.put p l').link? q).map unmarked = (ps.link? q).map unmarked := by
  by_cases own : q = p
  · rw [own, Pairs.link?_put (there ▸ rfl), there, Option.map_some, Option.map_some, same]
  · by_cases peer : q = p.other
    · have swapped : unmarked l'.swap = unmarked l.swap := congrArg Link.swap same
      rw [peer, Pairs.link?_put_other (there ▸ rfl), Pairs.link?_other, there, Option.map_some,
        Option.map_some, Option.map_some, swapped]
    · rw [Pairs.link?_put_of_ne own peer]

theorem unmarked_act {t : Table} (refused : (t.act id (·.write m) ps).1 ≠ some true) (q : Place) :
    ((t.act id (·.write m) ps).2.link? q).map unmarked = (ps.link? q).map unmarked := by
  match found : t.find? id with
  | none => rw [Table.act_of_none found]
  | some p =>
    match there : ps.link? p with
    | none => rw [Table.act_of_some found, Pairs.act_of_none there]
    | some l =>
      rw [Table.act_of_some found, Pairs.act_of_some there] at refused ⊢
      have closed : (l.write m).1 = false := by simpa using refused
      exact unmarked_put there (unmarked_write closed) q

/-- Nothing is written of it, and the balancer is ready to take it again. -/
theorem puts_wouldBlock {t : Table} {r : Sent × LoadBalancer × Pairs} (puts : b.Puts t m ps r)
    (refused : r.1 = .refused .wouldBlock) :
    (r.2.1.more = b.more ∧ r.2.1.dropping = b.dropping) ∧
      ∀ q, (r.2.2.link? q).map unmarked = (ps.link? q).map unmarked := by
  induction puts with
  | rests => exact ⟨⟨rfl, rfl⟩, fun _ ↦ rfl⟩
  | begins | ends | aborts | loses => exact absurd refused nofun
  | @skips b ps id r current full first _ ih =>
    obtain ⟨flags, rest⟩ := ih refused
    exact ⟨flags, fun q ↦ (rest q).trans (unmarked_act full q)⟩

/-- The messages that were offered, and what became of them. -/
structure Whole (ends : Place → Bool) (w : Dispatch) : Prop where
  /-- The frames that were offered fall into messages, of which the last may not be complete. -/
  offered : w.sent.flatMap Prod.fst ++ w.pending = w.accepted
  messages : ∀ o ∈ w.sent, IsMessage o.1
  begun : ∀ m ∈ w.pending, m.more = true
  /-- A message goes to one end of the table, or nowhere. -/
  placed : ∀ o ∈ w.sent, ∀ e, o.2 = some e → e ∈ w.entered
  distinct : ∀ e ∈ w.entered, ∀ e' ∈ w.entered, e.1 = e'.1 ∨ e.2 = e'.2 → e = e'
  /-- What a peer read, and what it may read besides, are the messages that went there. -/
  reads : ∀ p l, ends p = true → w.pairs.link? p = some l →
    w.readBy p.other ++ Item.frames l.swap.inbound.readable = w.sentTo p
  /-- No frame is read by two peers, nor twice by one. -/
  once : ∀ ps : List Place, ps.Nodup → (∀ p ∈ ps, ends p = true) →
    (ps.flatMap fun p ↦ w.readBy p.other).Subperm w.accepted

/-- What the answer to a frame says of it. -/
structure Answers (w : Dispatch) (m : Message) (r : Sent × LoadBalancer × Pairs) : Prop where
  /-- Only the first frame of a message is refused for want of room, and leaves no trace. -/
  wouldBlock : r.1 = .refused .wouldBlock → w.pending = [] ∧
    (r.2.1.more = w.balancer.more ∧ r.2.1.dropping = w.balancer.dropping) ∧
    ∀ q, (r.2.2.link? q).map unmarked = (w.pairs.link? q).map unmarked
  /-- The last frame of a message publishes all of it to the peer of the end that it is put to. -/
  placed : ∀ id, r.1 = .placed id → m.more = false →
    ∃ p l l', w.table.find? id = some p ∧ w.pairs.link? p = some l ∧ r.2.2.link? p = some l' ∧
      Item.frames l'.swap.inbound.readable =
        Item.frames l.swap.inbound.readable ++ (w.pending ++ [m])

theorem subperm_flatMap_filter {α β : Type} [DecidableEq β] (key : α → Option β) (xs : List α)
    {ks : List β} (distinct : ks.Nodup) :
    (ks.flatMap fun k ↦ xs.filter (key · = some k)).Subperm xs := by
  induction ks generalizing xs with
  | nil => exact List.nil_subperm
  | cons k ks ih =>
    obtain ⟨new, distinct⟩ := List.nodup_cons.mp distinct
    have rest : (ks.flatMap fun k' ↦ xs.filter (key · = some k')) =
        ks.flatMap fun k' ↦ (xs.filter fun x ↦ !decide (key x = some k)).filter
          (key · = some k') := by
      refine List.flatMap_congr fun k' hk' ↦ ?_
      have other : k' ≠ k := fun same ↦ new (same ▸ hk')
      rw [List.filter_filter]
      refine List.filter_congr fun x _ ↦ ?_
      by_cases here : key x = some k'
      · simp [here, other]
      · simp [here]
    rw [List.flatMap_cons, rest]
    refine ((List.Subperm.refl _).append (ih _ distinct)).trans ?_
    exact (List.filter_append_perm _ xs).subperm

theorem Keeps.reads (h : w.Keeps ends) (end' : ends p = true) (there : w.pairs.link? p = some l) :
    w.readBy p.other ++ Item.frames l.swap.inbound.readable = w.sentTo p := by
  apply ((h.holds p l there).2 end').readable
  intro m hm
  obtain ⟨o, ho, inside⟩ := List.mem_flatMap.mp hm
  exact (h.noted.messages o (List.mem_of_mem_filter ho)).2.1 m inside

theorem Keeps.readBy_sublist (h : w.Keeps ends) (end' : ends p = true) :
    (w.readBy p.other).Sublist (w.sentTo p) := by
  cases there : w.pairs.link? p with
  | none =>
    have unread : w.readBy p.other = [] := by
      simp only [readBy, List.map_eq_nil_iff, List.filter_eq_nil_iff, decide_eq_true_eq]
      rintro x hx here
      have seen := h.readers x hx
      rw [here, Pairs.link?_other, there] at seen
      exact absurd seen Bool.false_ne_true
    rw [unread]
    exact List.nil_sublist _
  | some l =>
    rw [← h.reads end' there]
    exact List.sublist_append_left _ _

theorem Keeps.whole (h : w.Keeps ends) : w.Whole ends where
  offered := h.noted.accepted
  messages := fun o ho ↦ (h.noted.messages o ho).1
  begun := fun m hm ↦ (h.noted.pending m hm).1
  placed := fun o ho ↦ (h.noted.messages o ho).2.2
  distinct := h.distinct
  reads := fun _ _ end' there ↦ h.reads end' there
  once := by
    intro ps distinct meant
    have read : (ps.flatMap fun p ↦ w.readBy p.other).Sublist (ps.flatMap w.sentTo) :=
      List.Sublist.flatMap_right _ fun p hp ↦ h.readBy_sublist (meant p hp)
    have parted : ps.flatMap w.sentTo =
        (ps.flatMap fun p ↦ w.sent.filter (·.2.map Prod.snd = some p)).flatMap Prod.fst :=
      List.flatMap_assoc.symm
    obtain ⟨some, perm, sublist⟩ := subperm_flatMap_filter (·.2.map Prod.snd) w.sent distinct
    refine read.subperm.trans ?_
    rw [parted, ← h.noted.accepted]
    refine (perm.flatMap_right _).symm.subperm.trans ?_
    exact ((sublist.flatMap _).trans (List.sublist_append_left _ _)).subperm

theorem puts_placed {t : Table} {r : Sent × LoadBalancer × Pairs} (puts : b.Puts t m ps r)
    (placed : r.1 = .placed id) : ∃ p, t.find? id = some p := by
  induction puts with
  | rests | aborts | loses => exact absurd placed nofun
  | begins _ accepted | ends _ accepted =>
    obtain ⟨p, -, found, -⟩ := Table.exists_of_act accepted
    exact ⟨p, Sent.placed.inj placed ▸ found⟩
  | skips _ _ _ _ ih => exact ih placed

theorem Keeps.answers (h : w.Keeps ends) (plain : m.isCredential = false) :
    w.Answers m (w.balancer.send m w.table w.pairs) := by
  obtain ⟨after, first⟩ := h.send plain
  have puts (written : (w.balancer.send m w.table w.pairs).1 ≠ .dropped) :
      w.balancer.Puts w.table m w.pairs (w.balancer.send m w.table w.pairs) := by
    cases dropping : w.balancer.dropping with
    | true =>
      rw [LoadBalancer.send_of_dropping w.table m w.pairs dropping] at written
      exact absurd rfl written
    | false => exact LoadBalancer.send_puts w.table m w.pairs dropping
  refine ⟨fun refused ↦ ⟨first refused, ?_⟩, ?_⟩
  · exact puts_wouldBlock (puts (refused ▸ nofun)) refused
  intro id placed last
  obtain ⟨p, found⟩ := puts_placed (puts (placed ▸ nofun)) placed
  generalize w.balancer.send m w.table w.pairs = r at after placed
  obtain ⟨s, b, ps⟩ := r
  obtain rfl : s = .placed id := placed
  have known := h.noted.known id p found
  obtain ⟨end', here⟩ := h.entries _ known
  obtain ⟨l, there⟩ := Option.isSome_iff_exists.mp here
  rw [offer_last (s := .placed id) nofun last] at after
  obtain ⟨l', there'⟩ := Option.isSome_iff_exists.mp (after.entries _ known).2
  refine ⟨p, l, l', found, there, there', ?_⟩
  have before := h.whole.reads p l end' there
  have behind := after.whole.reads p l' end' there'
  have place : w.table.placed (.placed id) = some (id, p) := by
    rw [Table.placed, found]
    rfl
  rw [sentTo_concat (w := w) rfl, place, Option.map_some, if_pos rfl, ← before,
    List.append_assoc] at behind
  exact List.append_cancel_left behind

/-- All of a message goes to one end or nothing of it to any, whatever becomes of the ends in
between. -/
theorem whole_or_nothing {steps : List Step} (permitted : ({} : Dispatch).Permitted ends steps) :
    (run {} steps).Whole ends ∧ ∀ m : Message, m.isCredential = false →
      (run {} steps).Answers m
        ((run {} steps).balancer.send m (run {} steps).table (run {} steps).pairs) := by
  have keeps := Keeps.empty.run permitted
  exact ⟨keeps.whole, fun m plain ↦ keeps.answers plain⟩

theorem whole_or_nothing_of_two_frames :
    let part : Message := { flags := Flag.more }
    let steps : List Step := [.floor (.build {}), .floor (.enter 1 ⟨0, .first⟩), .attach 1,
      .send part, .send {}, .floor (.call ⟨0, .second⟩ .read)]
    let ends (p : Place) : Bool := p = ⟨0, .first⟩
    (run {} steps).readBy ⟨0, .second⟩ = [part] ∧
      (run {} steps).sentTo ⟨0, .first⟩ = [part, {}] ∧ (run {} steps).Whole ends := by
  intro part steps ends
  have permitted : ({} : Dispatch).Permitted ends steps := by
    refine ⟨trivial, ⟨rfl, rfl, nofun⟩, trivial, ?_, ?_, ⟨?_, ?_⟩, trivial⟩
    · exact (by decide : part.isCredential = false)
    · exact (by decide : ({} : Message).isCredential = false)
    · exact fun meant ↦ absurd meant nofun
    · exact fun _ ↦ nofun
  exact ⟨by decide +kernel, by decide +kernel, (whole_or_nothing permitted).1⟩

end Dispatch

end Conduit.Net
