import Conduit.Proofs.Lookahead
import Conduit.Proofs.Rotation
import Conduit.Proofs.WholeTurns

namespace Conduit

namespace Pipe

theorem Move.peer_readable {l l' : Link} {d : Deed} (h : Move l d l') (sound : l.Sound)
    (reading : d = .quiet ∨ d.isRead = true) :
    l'.swap.inbound.readable = l.swap.inbound.readable := by
  have hiccup : d ≠ .obey .hiccup := by
    rintro rfl
    exact reading.elim nofun nofun
  have stock : l'.self.lane.stock.readable = l.self.lane.stock.readable := by
    rw [h.supply sound]
    cases d with
    | quiet | take | meet | finish => rfl
    | _ => exact absurd (reading.resolve_left nofun) nofun
  have fresh := h.fresh hiccup
  match moved : l.self.lane.fresh with
  | [] =>
    rw [moved] at fresh
    rw [Link.inbound, Link.inbound, Link.swap_peer, Link.swap_peer, Lane.reading_eq_writing fresh,
      Lane.reading_eq_writing moved]
    exact stock
  | next :: others =>
    rw [moved] at fresh
    rw [Link.inbound, Link.inbound, Link.swap_peer, Link.swap_peer, Lane.reading, Lane.reading,
      fresh, moved]
    rfl

namespace Link

variable {l : Link} {c : Call} {m : Message}

def Ready (l : Link) : Prop := l.self.state.reads = true ∧ ∃ m, l.Front m

theorem Sound.checkRead_iff_ready (h : l.Sound) : l.checkRead.1 = true ↔ l.Ready := h.checkRead_iff

theorem Plain.read_isSome_iff (h : l.swap.Plain) (sound : l.Sound) :
    l.read.1.isSome = true ↔ l.Ready := by
  constructor
  · intro took
    cases reads : l.self.state.reads with
    | false =>
      rw [read_of_not_reads reads] at took
      exact absurd took nofun
    | true =>
      rw [(sound.read reads).1] at took
      refine ⟨reads, ?_⟩
      match items : l.inbound.readable with
      | [] | .delimiter :: _ =>
        rw [items] at took
        exact absurd took nofun
      | .frame m :: rest => exact ⟨m, rest, items⟩
  · rintro ⟨reads, m, front⟩
    have plain := h.front sound front
    obtain ⟨rest, items⟩ := front
    rw [sound.read_eq_some reads (items ▸ Item.frames_cons_frame m rest) plain]
    rfl

theorem Sound.read_of_not_ready (h : l.Sound) (unready : ¬l.Ready) :
    l.read = (none, l.checkRead.2) := by
  cases reads : l.self.state.reads with
  | false => rw [read_of_not_reads reads, checkRead_of_not_reads reads]
  | true =>
    have opens := h.inOpen reads
    have canRead : l.self.canRead = true := by rw [l.self.canRead_eq, reads]
    have held := h.inbound.holds
    rw [Link.read, if_pos canRead, Link.readN, readItem, if_pos opens, Link.checkRead,
      if_neg (by simp [canRead, opens])]
    cases front : l.inbound.readable using Item.front_cases with
    | nothing =>
      rw [front] at held
      obtain ⟨c, looked, -⟩ := held.checkRead_nil
      simp only [Channel.read, Channel.peek, looked]
    | frame m rest => exact absurd ⟨reads, m, rest, front⟩ unready
    | delimiter rest =>
      rw [front] at held
      obtain ⟨c, found, -⟩ := held.peek_cons
      obtain ⟨d, taken, -⟩ := held.read_cons
      have again := l.inbound.read_peek
      rw [found, taken] at again
      simp only [found, taken, inbound_setInbound, setInbound_setInbound, again]

theorem Sound.ready_checkRead (h : l.Sound) (plain : l.swap.Plain) :
    l.checkRead.2.Ready ↔ l.Ready := by
  have after : l.checkRead.2.swap.Plain := plain.peer_perform h .checkRead
  rw [← after.read_isSome_iff (h.perform .checkRead), h.read_checkRead, plain.read_isSome_iff h]

/-- What an end reads and looks for leaves its peer as ready as it was. -/
theorem Sound.peer_ready (h : l.Sound) (reading : ∀ d ∈ l.deeds c, d.isRead = true) :
    (l.perform c).swap.Ready ↔ l.swap.Ready := by
  have moves := Moves.perform h c
  have readable : (l.perform c).swap.inbound.readable = l.swap.inbound.readable := by
    refine @Moves.keep _ _ _ (fun l' ↦ l'.swap.inbound.readable = l.swap.inbound.readable)
      moves h ?_ rfl
    intro l₁ d l₂ told move sound same
    exact (move.peer_readable sound (told.imp_right (reading d))).trans same
  rw [Ready, Ready, swap_self, swap_self, moves.peer_state]
  simp only [Front, readable]

theorem checkWrite_iff (l : Link) : l.checkWrite.1 = true ↔
    l.self.state = .active ∧ l.self.outOpen = true ∧ l.checkMark = true := by
  unfold checkWrite
  split
  · rename_i shut
    simp only [Bool.or_eq_true, bne_iff_ne, Bool.not_eq_true'] at shut
    simp only [Bool.false_eq_true, false_iff]
    rintro ⟨active, opened, -⟩
    exact shut.elim (fun ended ↦ ended active) (by simp [opened])
  · rename_i opened
    simp only [Bool.or_eq_true, bne_iff_ne, Bool.not_eq_true', not_or, not_not,
      Bool.not_eq_false] at opened
    split <;> rename_i room <;> simp [opened, room]

theorem checkWrite_snd (l : Link) :
    l.checkWrite.2 = l ∨ l.checkWrite.2 = l.modifySelf ({ · with outActive := false }) := by
  unfold checkWrite
  split
  · exact .inl rfl
  · split
    · exact .inl rfl
    · exact .inr rfl

/-- A frame is accepted where there is room, and a write that is refused was but a look. -/
theorem write_eq_checkWrite (l : Link) (m : Message) :
    (l.write m).1 = l.checkWrite.1 ∧ ((l.write m).1 = false → (l.write m).2 = l.checkWrite.2) := by
  unfold write
  split <;> rename_i looked <;> simp [looked]

end Link

end Pipe

namespace Net

open Pipe

namespace Pairs

variable {ps : Pairs} {p : Place} {l l' : Link} {R : Link → Prop}

theorem link?_swap (there : ps.link? p = some l) : ps.link? p.other = some l.swap := by
  rw [link?_other, there]
  rfl

theorem put_self (there : ps.link? p = some l) : ps.put p l = ps := by
  obtain ⟨pair, found, rfl⟩ := Option.map_eq_some_iff.mp there
  have same : pair.setLink p.side (pair.link p.side) = pair := by
    cases p.side <;> rfl
  rw [put, found]
  simp only [same]
  have set : ps.list.setIfInBounds p.pair pair = ps.list := by
    apply Array.ext_getElem?
    intro i
    rw [Array.getElem?_setIfInBounds]
    split
    · rename_i here
      subst here
      obtain ⟨within, -⟩ := Array.getElem?_eq_some_iff.mp found
      rw [if_pos within]
      exact found.symm
    · rfl
  rw [set]

/-- What is the same for both ends of a pipe before and after a call is so for all ends. -/
theorem exists_put_iff (there : ps.link? p = some l) (own : R l' ↔ R l)
    (peer : R l'.swap ↔ R l.swap) (q : Place) :
    (∃ k, (ps.put p l').link? q = some k ∧ R k) ↔ ∃ k, ps.link? q = some k ∧ R k := by
  have known : (ps.link? p).isSome := there ▸ rfl
  by_cases here : q = p
  · subst here
    simp [link?_put known, there, own]
  · by_cases beyond : q = p.other
    · subst beyond
      simp [link?_put_other known, link?_other, there, peer]
    · rw [link?_put_of_ne here beyond]

end Pairs

namespace Table

variable {t : Table} {ps : Pairs} {id id' : Nat} {m : Message}

/-- The pipe of this id has a frame to read. -/
def Offers (t : Table) (ps : Pairs) (id : Nat) : Prop :=
  ∃ p, t.find? id = some p ∧ ∃ l, ps.link? p = some l ∧ l.Ready

/-- The pipe of this id has room for a frame. -/
def Takes (t : Table) (ps : Pairs) (id : Nat) : Prop :=
  ∃ p, t.find? id = some p ∧ ∃ l, ps.link? p = some l ∧ l.checkWrite.1 = true

theorem act_cases (t : Table) (id : Nat) (ps : Pairs) :
    (∃ p l, t.find? id = some p ∧ ps.link? p = some l ∧
      ∀ {ρ : Type} (f : Link → ρ × Link), t.act id f ps = (some (f l).1, ps.put p (f l).2)) ∨
    (∀ p l, t.find? id = some p → ps.link? p ≠ some l) ∧
      ∀ {ρ : Type} (f : Link → ρ × Link), t.act id f ps = (none, ps) := by
  cases found : t.find? id with
  | none =>
    right
    exact ⟨fun _ _ known ↦ absurd known (Option.some_ne_none _).symm,
      fun f ↦ act_of_none found f ps⟩
  | some p =>
    cases there : ps.link? p with
    | none =>
      right
      refine ⟨?_, fun f ↦ (act_of_some found f ps).trans (Pairs.act_of_none there f)⟩
      intro p' l known
      rw [← Option.some.inj known, there]
      exact (Option.some_ne_none l).symm
    | some l =>
      left
      exact ⟨p, l, rfl, there, fun f ↦ (act_of_some found f ps).trans (Pairs.act_of_some there f)⟩

theorem not_takes (absent : ∀ p l, t.find? id = some p → ps.link? p ≠ some l) :
    ¬t.Takes ps id := by
  rintro ⟨p, found, l, there, -⟩
  exact absent p l found there

theorem not_offers (absent : ∀ p l, t.find? id = some p → ps.link? p ≠ some l) :
    ¬t.Offers ps id := by
  rintro ⟨p, found, l, there, -⟩
  exact absent p l found there

section

variable (links : ps.All fun _ l ↦ l.Sound ∧ l.Plain)
include links

theorem act_checkRead_iff : (t.act id Link.checkRead ps).1 = some true ↔ t.Offers ps id := by
  obtain ⟨p, l, found, there, acts⟩ | ⟨absent, acts⟩ := t.act_cases id ps
  · rw [acts]
    simp [Offers, found, there, (links p l there).1.checkRead_iff_ready]
  · rw [acts]
    exact iff_of_false nofun (not_offers absent)

theorem act_read_iff : (t.act id Link.read ps).1.join.isSome = true ↔ t.Offers ps id := by
  obtain ⟨p, l, found, there, acts⟩ | ⟨absent, acts⟩ := t.act_cases id ps
  · have peer := links _ _ (Pairs.link?_swap there)
    rw [acts]
    simp [Offers, found, there, peer.2.read_isSome_iff (links p l there).1]
  · rw [acts]
    exact iff_of_false nofun (not_offers absent)

theorem act_read_of_not_offers (nothing : ¬t.Offers ps id) :
    (t.act id Link.read ps).2 = (t.act id Link.checkRead ps).2 := by
  obtain ⟨p, l, found, there, acts⟩ | ⟨-, acts⟩ := t.act_cases id ps
  · have unready : ¬l.Ready := fun ready ↦ nothing ⟨p, found, l, there, ready⟩
    rw [acts, acts, (links p l there).1.read_of_not_ready unready]
  · rw [acts, acts]

theorem act_read_act_checkRead :
    t.act id Link.read (t.act id Link.checkRead ps).2 = t.act id Link.read ps := by
  obtain ⟨p, l, found, there, acts⟩ | ⟨-, acts⟩ := t.act_cases id ps
  · have known : (ps.link? p).isSome := there ▸ rfl
    have looked := Pairs.link?_put known l.checkRead.2
    rw [acts, acts, act_of_some found, Pairs.act_of_some looked, Pairs.put_put,
      (links p l there).1.read_checkRead]
  · rw [acts]

theorem offers_act_checkRead :
    t.Offers (t.act id Link.checkRead ps).2 id' ↔ t.Offers ps id' := by
  obtain ⟨p, l, found, there, acts⟩ | ⟨-, acts⟩ := t.act_cases id ps
  · obtain ⟨sound, -⟩ := links p l there
    have own := sound.ready_checkRead (links _ _ (Pairs.link?_swap there)).2
    have peer : l.checkRead.2.swap.Ready ↔ l.swap.Ready :=
      sound.peer_ready (c := .checkRead) fun d told ↦ Link.allows_of_mem_deeds told
    simp only [Offers, acts, Pairs.exists_put_iff there own peer]
  · rw [acts]

end

theorem act_checkWrite_iff : (t.act id Link.checkWrite ps).1 = some true ↔ t.Takes ps id := by
  obtain ⟨p, l, found, there, acts⟩ | ⟨absent, acts⟩ := t.act_cases id ps
  · rw [acts]
    simp [Takes, found, there]
  · rw [acts]
    exact iff_of_false nofun (not_takes absent)

theorem act_write_fst (t : Table) (id : Nat) (m : Message) (ps : Pairs) :
    (t.act id (·.write m) ps).1 = (t.act id Link.checkWrite ps).1 := by
  obtain ⟨p, l, -, -, acts⟩ | ⟨-, acts⟩ := t.act_cases id ps
  · rw [acts, acts, (l.write_eq_checkWrite m).1]
  · rw [acts, acts]

theorem act_write_iff : (t.act id (·.write m) ps).1 = some true ↔ t.Takes ps id := by
  rw [act_write_fst, act_checkWrite_iff]

theorem act_write_of_not_takes (full : ¬t.Takes ps id) :
    (t.act id (·.write m) ps).2 = (t.act id Link.checkWrite ps).2 := by
  obtain ⟨p, l, found, there, acts⟩ | ⟨-, acts⟩ := t.act_cases id ps
  · obtain ⟨same, refused⟩ := l.write_eq_checkWrite m
    have closed : (l.write m).1 = false := by
      rw [same, ← Bool.not_eq_true]
      exact fun room ↦ full ⟨p, found, l, there, room⟩
    rw [acts, acts, refused closed]
  · rw [acts, acts]

theorem act_checkWrite_of_takes (room : t.Takes ps id) : (t.act id Link.checkWrite ps).2 = ps := by
  obtain ⟨p, found, l, there, room⟩ := room
  rw [act_of_some found, Pairs.act_of_some there, (l.checkWrite_moves.2 room).1,
    Pairs.put_self there]

theorem takes_act_checkWrite :
    t.Takes (t.act id Link.checkWrite ps).2 id' ↔ t.Takes ps id' := by
  obtain ⟨p, l, found, there, acts⟩ | ⟨-, acts⟩ := t.act_cases id ps
  · have own : l.checkWrite.2.checkWrite.1 = true ↔ l.checkWrite.1 = true := by
      rw [Link.checkWrite_iff, Link.checkWrite_iff]
      rcases l.checkWrite_snd with same | marked
      · rw [same]
      · rw [marked]
        rfl
    have peer : l.checkWrite.2.swap.checkWrite.1 = true ↔ l.swap.checkWrite.1 = true := by
      rw [Link.checkWrite_iff, Link.checkWrite_iff]
      rcases l.checkWrite_snd with same | marked
      · rw [same]
      · rw [marked]
        rfl
    have same := Pairs.exists_put_iff (R := fun l ↦ l.checkWrite.1 = true) there own peer
    simp only [Takes, acts, same]
  · rw [acts]

end Table

theorem Reception.orderly_run {steps : List Reception.Step} (plain : ∀ s ∈ steps, s.Plain) :
    Orderly (run {} steps).table (run {} steps).queue (run {} steps).pairs := by
  have start : Orderly ({} : Reception).table ({} : Reception).queue ({} : Reception).pairs :=
    ⟨fun _ _ there ↦ absurd there (by simp [Pairs.link?, Pairs.get?]), ActiveSet.sound_empty⟩
  exact start.run plain

end Net

end Conduit
