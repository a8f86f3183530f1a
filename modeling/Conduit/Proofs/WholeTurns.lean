import Conduit.Proofs.Delivery
import Conduit.Proofs.Reception

namespace Conduit

namespace Pipe

namespace Link

/-- No credential was written to the pipe by this end. -/
def Plain (l : Link) : Prop :=
  ∃ k : Ledger, k.Matches l.self.lane.stock ∧ ∀ m ∈ k.log, m.isCredential = false

def Front (m : Message) (l : Link) : Prop := ∃ rest, l.inbound.readable = .frame m :: rest

end Link

namespace Link

variable {l l' : Link} {c : Call} {d : Deed} {m : Message}

theorem Plain.perform (h : l.Plain) (sound : l.Sound) (plain : c.Plain) : (l.perform c).Plain := by
  obtain ⟨k, matched, logged⟩ := h
  refine ⟨_, (Moves.perform sound c).matches_supply sound matched, ?_⟩
  intro m hm
  rcases Ledger.mem_log_of_supply hm with before | pushed
  · exact logged m before
  · obtain ⟨rfl, -⟩ := of_push_mem_deeds pushed
    exact plain

theorem Plain.peer_perform (h : l.swap.Plain) (sound : l.Sound) (c : Call) :
    (l.perform c).swap.Plain := by
  obtain ⟨k, matched, logged⟩ := h
  exact ⟨_, (Moves.perform sound c).matches_draw sound matched, logged⟩

/-- What an end may read are whole messages. -/
theorem Plain.readable (h : l.swap.Plain) (still : l.peer.lane.fresh = []) :
    ∃ k : Ledger, k.published = k.consumed ++ Item.frames l.inbound.readable ∧
      wholeMessages k.published = k.published ∧ ∀ m ∈ k.published, m.isCredential = false := by
  obtain ⟨k, matched, logged⟩ := h
  refine ⟨k, matched.readable still, matched.whole_published, ?_⟩
  intro m hm
  apply logged
  have split := matched.log
  rw [List.append_assoc] at split
  exact split ▸ List.mem_append_left _ hm

theorem Plain.front (h : l.swap.Plain) (sound : l.Sound) (front : l.Front m) :
    m.isCredential = false := by
  obtain ⟨rest, items⟩ := front
  obtain ⟨k, published, -, plain⟩ := h.readable (sound.still items).1
  apply plain
  rw [published, items]
  exact List.mem_append_right _ List.mem_cons_self

/-- Behind a frame that is not the last of its message lies the next one. -/
theorem Plain.front_of_read (h : l.swap.Plain) (sound : l.Sound) (took : l.read.1 = some m)
    (more : m.more = true) : ∃ m', l.read.2.Front m' := by
  have reads : l.self.state.reads = true := by
    by_contra shut
    rw [read_of_not_reads (by simpa using shut)] at took
    contradiction
  obtain ⟨answer, moves⟩ := sound.read reads
  cases items : l.inbound.readable using Item.front_cases with
  | nothing =>
    rw [answer, items] at took
    contradiction
  | delimiter rest =>
    rw [answer, items] at took
    contradiction
  | frame x rest =>
    have plain := h.front sound ⟨rest, items⟩
    obtain rfl : x = m := by
      rw [answer, items, Item.answer, if_neg (by simp [plain])] at took
      exact Option.some.inj took
    obtain ⟨k, published, whole, -⟩ := h.readable (sound.still items).1
    rw [items, Item.frames_cons_frame] at published
    rw [items, Deed.ofRead, if_neg (by simp [plain])] at moves
    obtain ⟨l₁, l₂, before, deed, behind⟩ := moves.split
    have left : l.read.2.inbound.readable = rest := by
      have drawn := deed.drawn.readable (by simp)
      rw [← inbound, ← inbound, before.quiet_inbound.1, items] at drawn
      exact behind.quiet_inbound.1.trans drawn
    cases front : Item.frames rest with
    | nil =>
      rw [front] at published
      rw [published, wholeMessages, List.rdropWhile_eq_self_iff] at whole
      exact absurd more (by simpa using whole (by simp))
    | cons m' others => exact ⟨m', (moves.sound sound).exists_front (left ▸ front)⟩

end Link

theorem Move.front {l l' : Link} {d : Deed} {m : Message} (h : Move l d l') (front : l.Front m)
    (reading : ∀ x, d ≠ .take x) (renewing : d ≠ .renew) : l'.Front m := by
  obtain ⟨rest, items⟩ := front
  have drawn := h.drawn.readable renewing
  rw [← Link.inbound, ← Link.inbound, items] at drawn
  refine ⟨rest, drawn.trans ?_⟩
  cases h with
  | take => exact absurd rfl (reading _)
  | renew => contradiction
  | meet _ ended | finish _ ended =>
    rw [items] at ended
    exact absurd (List.cons.inj ended).1 (by simp)
  | adjust | signal | look | listen | push | takeBack | publish | request | delimit | giveUp
  | obey => rfl

theorem Move.peer_front {l l' : Link} {d : Deed} {m : Message} (h : Move l d l') (sound : l.Sound)
    (front : l.swap.Front m) : l'.swap.Front m := by
  obtain ⟨rest, items⟩ := front
  obtain ⟨still, readable⟩ := sound.swap.still items
  simp only [Link.swap_peer] at still readable
  have hiccup : d ≠ .obey .hiccup := by
    rintro rfl
    cases h with
    | obey letters => exact sound.moved_iff.mpr (letters ▸ List.mem_cons_self) still
  have still' : l'.self.lane.fresh = [] := (h.fresh hiccup).trans still
  have stock := h.supply sound
  have grown : ∃ more, l'.self.lane.stock.readable = l.self.lane.stock.readable ++ more := by
    rw [stock]
    cases d with
    | push x =>
      refine ⟨[], ?_⟩
      simp only [Deed.supply, Stock.push]
      split <;> exact (List.append_nil _).symm
    | publish => exact ⟨_, rfl⟩
    | request | delimit => exact ⟨_, List.append_assoc _ _ _⟩
    | obey c =>
      rw [Deed.supply_obey fun same ↦ hiccup (congrArg Deed.obey same)]
      exact ⟨[], (List.append_nil _).symm⟩
    | quiet | takeBack | take | meet | finish | renew | giveUp =>
      exact ⟨[], (List.append_nil _).symm⟩
  obtain ⟨more, grown⟩ := grown
  refine ⟨rest ++ more, ?_⟩
  rw [readable] at grown
  rw [Link.inbound, Link.swap_peer, Lane.reading_eq_writing still']
  exact grown

namespace Link.Front

variable {l : Link} {c : Call} {m : Message}

theorem perform (h : l.Front m) (sound : l.Sound) (reading : c ≠ .read) (hiccup : c ≠ .hiccup) :
    (l.perform c).Front m := by
  refine (Moves.perform sound c).keep sound ?_ h
  intro l₁ d l₂ told move _ front
  apply move.front front
  · rintro x rfl
    exact take_notMem_deeds reading (told.resolve_left nofun)
  · rintro rfl
    exact renew_notMem_deeds hiccup (told.resolve_left nofun)

theorem peer_perform (h : l.swap.Front m) (sound : l.Sound) (c : Call) :
    (l.perform c).swap.Front m := by
  refine @Moves.keep _ _ _ (fun l ↦ l.swap.Front m) (Moves.perform sound c) sound ?_ h
  intro l₁ d l₂ _ move sound front
  exact move.peer_front sound front

end Link.Front

end Pipe

namespace Net

open Pipe

namespace FairQueue

variable {q : FairQueue} {id : Nat}

theorem current?_heed (sound : q.pipes.Sound) (current : q.current? = some id) (id' : Nat)
    (events : List Event) : (events.foldl (heed id') q).current? = some id ∧
      (events.foldl (heed id') q).more = q.more := by
  induction events generalizing q with
  | nil => exact ⟨current, rfl⟩
  | cons e events ih =>
    cases e with
    | readActivated =>
      exact ih (q := q.activated id') (sound.activate id').1 (sound.current?_activate current id')
    | writeActivated | hiccuped | terminated => exact ih sound current

end FairQueue

namespace Reception

variable {w : Reception} {t : Table} {q : FairQueue} {ps : Pairs}
variable {id : Nat} {p : Place} {m : Message}

structure Orderly (t : Table) (q : FairQueue) (ps : Pairs) : Prop where
  links : ps.All fun _ l ↦ l.Sound ∧ l.Plain
  pipes : q.pipes.Sound

structure Midway (id : Nat) (p : Place) (m : Message) (t : Table) (q : FairQueue) (ps : Pairs) :
    Prop extends Orderly t q ps where
  found : t.find? id = some p
  front : ∃ l, ps.link? p = some l ∧ l.Front m
  more : q.more = true
  current : q.current? = some id

def Step.Plain : Step → Prop
  | .floor (.call _ c) => c.Plain
  | _ => True

/-- What leaves a pipe to the queue: its owner neither reads nor hiccups nor takes it away. -/
def Step.Leaves (id : Nat) (p : Place) : Step → Prop
  | .receive => False
  | .terminated id' _ | .floor (.enter id' _) | .floor (.leave id') => id' ≠ id
  | .floor (.call r c) => r = p → c ≠ .read ∧ c ≠ .hiccup
  | .floor (.build _) | .attach _ | .activated _ | .hasIn | .hear _ => True

namespace Orderly

theorem perform (h : Orderly t q ps) {c : Call} (plain : c.Plain) (r : Place) :
    Orderly t q (ps.perform r c) := by
  refine ⟨?_, h.pipes⟩
  apply h.links.act
  · intro l _ own
    exact ⟨own.1.perform c, own.2.perform own.1 plain⟩
  · intro l _ peer
    exact ⟨(peer.1.swap.perform c).swap, peer.2.peer_perform peer.1.swap c⟩

theorem act (h : Orderly t q ps) {ρ : Type} {f : Link → ρ × Link} {c : Call} (plain : c.Plain)
    (same : ∀ l, (f l).2 = l.perform c) (id : Nat) : Orderly t q (t.act id f ps).2 := by
  match found : t.find? id with
  | none =>
    rw [Table.act_of_none found]
    exact h
  | some r =>
    rw [Table.act_of_some found, Pairs.act_eq_perform same]
    exact h.perform plain r

theorem deactivate (h : Orderly t q ps) (current : q.current? = some id) :
    Orderly t q.deactivate ps := by
  refine ⟨h.links, ?_⟩
  rw [FairQueue.pipes_deactivate]
  exact (h.pipes.deactivateAt current).1

/-- A frame that is not the last of its message leaves the queue in the middle of it. -/
theorem serves {r : Option FairQueue.Received × FairQueue × Pairs} (h : Orderly t q ps)
    (serves : q.Serves t ps r) : Orderly t r.2.1 r.2.2 ∧
      ∀ x, r.1 = some x → x.message.more = true → ∃ p m, Midway x.pipe p m t r.2.1 r.2.2 := by
  induction serves with
  | rests => exact ⟨h, nofun⟩
  | @takes q ps id m current read =>
    have after := h.act (c := .read) (f := Link.read) trivial (fun _ ↦ rfl) id
    have orderly : Orderly t (q.took ⟨m, id⟩) (t.act id Link.read ps).2 :=
      ⟨after.links, (q.pipes_took _).symm ▸ h.pipes⟩
    refine ⟨orderly, ?_⟩
    rintro x ⟨⟩ more
    obtain ⟨p, l, found, there, took, put⟩ := Table.exists_of_act read
    have beyond : ps.link? p.other = some l.swap := by
      rw [Pairs.link?_other, there]
      rfl
    obtain ⟨m', front⟩ := (h.links _ _ beyond).2.front_of_read (h.links _ _ there).1 took more
    have seen : (t.act id Link.read ps).2.link? p = some l.read.2 := by
      rw [put]
      exact Pairs.link?_put (there ▸ rfl) _
    have midst : q.took ⟨m, id⟩ = { q with more := true } := if_pos more
    refine ⟨p, m', orderly, found, ⟨_, seen, front⟩, ?_, ?_⟩
    · exact congrArg FairQueue.more midst
    · exact (congrArg (·.current?) midst).trans current
  | @skips q ps id r current _ _ ih =>
    have after := h.act (c := .read) (f := Link.read) trivial (fun _ ↦ rfl) id
    have before : Orderly t { q with more := false } (t.act id Link.read ps).2 :=
      ⟨after.links, after.pipes⟩
    exact ih (before.deactivate current)

theorem looks {r : Bool × FairQueue × Pairs} (h : Orderly t q ps) (looks : q.Looks t ps r) :
    Orderly t r.2.1 r.2.2 := by
  induction looks with
  | rests => exact h
  | sees => exact h.act (c := .checkRead) (f := Link.checkRead) trivial (fun _ ↦ rfl) _
  | @skips q ps id r current _ _ ih =>
    have after := h.act (c := .checkRead) (f := Link.checkRead) trivial (fun _ ↦ rfl) id
    exact ih (after.deactivate current)

theorem step (h : Orderly w.table w.queue w.pairs) {s : Step} (plain : s.Plain) :
    Orderly (w.step s).table (w.step s).queue (w.step s).pairs := by
  cases s with
  | floor c =>
    cases c with
    | build s =>
      simp only [Reception.step, Floor.change]
      split
      · rename_i made
        obtain ⟨rfl, pos⟩ := Pair.create_eq_ok made
        refine ⟨h.links.push ?_, h.pipes⟩
        intro side
        refine ⟨Pair.ofSettings_sound pos side, {}, ?_, nofun⟩
        rw [Pair.stock_ofSettings pos side]
        exact ⟨rfl, rfl, rfl, rfl, rfl⟩
      · exact h
    | enter | leave => exact ⟨h.links, h.pipes⟩
    | call r c => exact ⟨(h.perform plain r).links, h.pipes⟩
  | attach id => exact ⟨h.links, h.pipes.sound_pushActive id⟩
  | activated id => exact ⟨h.links, (h.pipes.activate id).1⟩
  | terminated id credential =>
    refine ⟨h.links, ?_⟩
    rw [Reception.step, FairQueue.pipes_terminated]
    exact (h.pipes.remove_active id).1
  | receive => exact (h.serves (w.queue.receive_serves w.table w.pairs)).1
  | hasIn =>
    cases more : w.queue.more with
    | true =>
      rw [Reception.step, FairQueue.hasIn_of_more w.table w.pairs more]
      exact h
    | false => exact h.looks (FairQueue.hasIn_looks w.table w.pairs more)
  | hear id =>
    have after := h.act (c := .process) (f := Link.process) trivial (fun _ ↦ rfl) id
    exact ⟨after.links, (FairQueue.heed_foldl h.pipes id _).1⟩

theorem run (h : Orderly w.table w.queue w.pairs) {steps : List Step}
    (plain : ∀ s ∈ steps, s.Plain) :
    Orderly (w.run steps).table (w.run steps).queue (w.run steps).pairs := by
  induction steps generalizing w with
  | nil => exact h
  | cons s steps ih =>
    obtain ⟨first, others⟩ := List.forall_mem_cons.mp plain
    exact ih (h.step first) others

end Orderly

namespace Midway

theorem front_perform (h : Midway id p m t q ps) {c : Call} {r : Place}
    (leaves : r = p → c ≠ .read ∧ c ≠ .hiccup) :
    ∃ l, (ps.perform r c).link? p = some l ∧ l.Front m := by
  obtain ⟨l, there, front⟩ := h.front
  have sound := (h.links p l there).1
  obtain ⟨l', seen, changed⟩ := Pairs.exists_link?_perform there r c
  refine ⟨l', seen, ?_⟩
  rcases changed with ⟨own, rfl⟩ | ⟨-, rfl⟩ | ⟨-, -, rfl⟩
  · obtain ⟨reading, hiccup⟩ := leaves own
    exact front.perform sound reading hiccup
  · exact Link.Front.peer_perform (l := l.swap) front sound.swap c
  · exact front

theorem step (h : Midway id p m w.table w.queue w.pairs) {s : Step} (plain : s.Plain)
    (leaves : s.Leaves id p) :
    Midway id p m (w.step s).table (w.step s).queue (w.step s).pairs := by
  have orderly := h.toOrderly.step plain
  cases s with
  | floor c =>
    cases c with
    | build s =>
      obtain ⟨l, there, front⟩ := h.front
      refine ⟨orderly, ?_, ⟨l, ?_, front⟩, h.more, h.current⟩
      all_goals simp only [Reception.step, Floor.change]
      · split <;> exact h.found
      · split
        · exact Pairs.link?_push there _
        · exact there
    | enter id' r =>
      refine ⟨orderly, ?_, h.front, h.more, h.current⟩
      exact (Table.find?_insert _ _ _ _).trans ((if_neg (Ne.symm leaves)).trans h.found)
    | leave id' =>
      refine ⟨orderly, ?_, h.front, h.more, h.current⟩
      exact (Table.find?_erase _ _ _).trans ((if_neg (Ne.symm leaves)).trans h.found)
    | call r c => exact ⟨orderly, h.found, h.front_perform leaves, h.more, h.current⟩
  | attach id' =>
    exact ⟨orderly, h.found, h.front, h.more, h.pipes.current?_pushActive h.current id'⟩
  | activated id' =>
    exact ⟨orderly, h.found, h.front, h.more, h.pipes.current?_activate h.current id'⟩
  | terminated id' credential =>
    obtain ⟨current, more⟩ :=
      FairQueue.current?_terminated h.pipes h.more h.current leaves credential
    exact ⟨orderly, h.found, h.front, more, current⟩
  | receive => exact leaves.elim
  | hasIn =>
    simp only [Reception.step, FairQueue.hasIn, h.more, if_true]
    exact h
  | hear id' =>
    obtain ⟨current, more⟩ := FairQueue.current?_heed h.pipes h.current id'
      (((w.table.act id' Link.process w.pairs).1.map (·.events)).getD [])
    refine ⟨orderly, h.found, ?_, more.trans h.more, current⟩
    simp only [Reception.step]
    cases found : w.table.find? id' with
    | none =>
      rw [Table.act_of_none found]
      exact h.front
    | some r =>
      rw [Table.act_of_some found, Pairs.act_eq_perform (c := .process) fun _ ↦ rfl]
      exact h.front_perform fun _ ↦ ⟨by simp, by simp⟩

theorem run (h : Midway id p m w.table w.queue w.pairs) {steps : List Step}
    (plain : ∀ s ∈ steps, s.Plain) (leaves : ∀ s ∈ steps, s.Leaves id p) :
    Midway id p m (w.run steps).table (w.run steps).queue (w.run steps).pairs := by
  induction steps generalizing w with
  | nil => exact h
  | cons s steps ih =>
    obtain ⟨first, others⟩ := List.forall_mem_cons.mp plain
    obtain ⟨left, leaves⟩ := List.forall_mem_cons.mp leaves
    exact ih (h.step first left) others leaves

/-- The next frame comes from the same pipe, if its end still reads. -/
theorem receive (h : Midway id p m t q ps)
    (reads : ∀ l, ps.link? p = some l → l.self.state.reads = true) :
    (q.receive t ps).1 = some ⟨m, id⟩ := by
  obtain ⟨l, there, front⟩ := h.front
  obtain ⟨sound, -⟩ := h.links p l there
  have beyond : ps.link? p.other = some l.swap := by
    rw [Pairs.link?_other, there]
    rfl
  have plain := (h.links _ _ beyond).2.front sound front
  obtain ⟨rest, items⟩ := front
  have took : l.read.1 = some m := by
    apply sound.read_eq_some (reads l there) _ plain
    · exact Item.frames rest
    · rw [items, Item.frames_cons_frame]
  have acted : t.act id Link.read ps = (some (some m), ps.put p l.read.2) := by
    rw [Table.act_of_some h.found, Pairs.act_of_some there, took]
  simp only [FairQueue.receive, FairQueue.receiveN, h.current, acted]

end Midway

/-- Once a frame is received that is not the last of its message, it is settled which one is
received next: the one behind it in the same pipe, unless the owner reads or hiccups or takes away
that pipe or reports it terminated, or its end stops reading. -/
theorem message_uninterrupted {before : List Step} (plain : ∀ s ∈ before, s.Plain)
    {r : FairQueue.Received}
    (took : ((run {} before).queue.receive (run {} before).table (run {} before).pairs).1 = some r)
    (more : r.message.more = true) :
    ∃ p l m rest, (run {} before).table.find? r.pipe = some p ∧
      ((run {} before).step .receive).pairs.link? p = some l ∧
      l.inbound.readable = .frame m :: rest ∧
      ∀ between : List Step, (∀ s ∈ between, s.Plain) → (∀ s ∈ between, s.Leaves r.pipe p) →
        let w := ((run {} before).step .receive).run between
        (∀ l, w.pairs.link? p = some l → l.self.state.reads = true) →
          (w.queue.receive w.table w.pairs).1 = some ⟨m, r.pipe⟩ := by
  have start : Orderly ({} : Reception).table ({} : Reception).queue ({} : Reception).pairs :=
    ⟨fun _ _ there ↦ absurd there (by simp [Pairs.link?, Pairs.get?]), ActiveSet.sound_empty⟩
  obtain ⟨-, midway⟩ := (start.run plain).serves (FairQueue.receive_serves _ _ _)
  obtain ⟨p, m, midway⟩ := midway r took more
  obtain ⟨l, there, rest, items⟩ := midway.front
  refine ⟨p, l, m, rest, midway.found, there, items, ?_⟩
  intro between plain leaves w reads
  have later : Midway r.pipe p m w.table w.queue w.pairs :=
    Midway.run (w := (run {} before).step .receive) midway plain leaves
  exact later.receive reads

theorem message_uninterrupted_by_newcomer :
    let part : Message := { flags := Flag.more }
    let before : List Step := [.floor (.build {}), .floor (.enter 2 ⟨0, .second⟩), .attach 2,
      .floor (.call ⟨0, .first⟩ (.write part)), .floor (.call ⟨0, .first⟩ (.write {})),
      .floor (.call ⟨0, .first⟩ .flush)]
    let between : List Step := [.floor (.build {}), .floor (.enter 4 ⟨1, .second⟩), .attach 4,
      .floor (.call ⟨1, .first⟩ (.write {})), .floor (.call ⟨1, .first⟩ .flush), .terminated 4 []]
    let w := ((run {} before).step .receive).run between
    (w.queue.receive w.table w.pairs).1.any (fun r ↦ r.message = {} ∧ r.pipe = 2) = true := by
  intro part before between w
  have received : ((run {} before).queue.receive (run {} before).table (run {} before).pairs).1.any
      (fun r ↦ r.message = part ∧ r.pipe = 2) = true := by decide +kernel
  obtain ⟨⟨x, id⟩, took, is⟩ := (Option.any_eq_true _ _).mp received
  obtain ⟨rfl, rfl⟩ : x = part ∧ id = 2 := of_decide_eq_true is
  have plain : ∀ s ∈ before, s.Plain := by
    simp only [before, List.forall_mem_cons, List.not_mem_nil, false_imp_iff, implies_true,
      Step.Plain, Call.Plain]
    decide
  have plain' : ∀ s ∈ between, s.Plain := by
    simp only [between, List.forall_mem_cons, List.not_mem_nil, false_imp_iff, implies_true,
      Step.Plain, Call.Plain]
    decide
  have leaves : ∀ s ∈ between, s.Leaves 2 ⟨0, .second⟩ := by
    simp only [between, List.forall_mem_cons, List.not_mem_nil, false_imp_iff, implies_true,
      Step.Leaves]
    decide
  obtain ⟨p, l, m, rest, found, there, items, next⟩ :=
    message_uninterrupted plain took (by decide : part.more = true)
  have place : (run {} before).table.find? 2 = some ⟨0, .second⟩ := by decide +kernel
  obtain rfl : ⟨0, .second⟩ = p := Option.some.inj (place.symm.trans found)
  have behind : (((run {} before).step .receive).pairs.link? ⟨0, .second⟩).map
      (·.inbound.readable) = some [.frame {}] := by decide +kernel
  rw [there, Option.map_some, items] at behind
  obtain ⟨rfl, -⟩ : m = {} ∧ rest = [] := by simpa using behind
  have reads : (w.pairs.link? ⟨0, .second⟩).all (·.self.state.reads) = true := by decide +kernel
  have given : (w.queue.receive w.table w.pairs).1 = some ⟨{}, 2⟩ := by
    apply next between plain' leaves
    intro l there
    rw [there] at reads
    exact reads
  rw [given]
  decide

end Reception

end Net

end Conduit
