import Conduit.Proofs.DeedEffects

namespace Conduit.Pipe

theorem Deed.turn_ofDelimiter (s : State) (delay : Bool) (t : State) :
    ((Deed.ofDelimiter s).turn delay t).reads = false := by
  unfold ofDelimiter
  split <;> rfl

theorem Move.contents {l l' : Link} {d : Deed} (h : Move l d l')
    (hd : d = .quiet ∨ d.isRead = true) : l'.self.inbox.contents = l.self.inbox.contents := by
  cases h with
  | adjust self peer => exact self.contents
  | listen sound same => exact same
  | finish waiting front held => exact congrArg (·.inbox.contents) (Link.rollback_self _)
  | signal | look | take | meet => rfl
  | push | takeBack | publish | renew | request | delimit | giveUp | obey =>
    exact absurd hd (by simp [Deed.isRead])

namespace Moves

variable {l l' : Link} {ds : List Deed}

theorem contents (h : Moves l ds l') (isRead : ∀ d ∈ ds, d.isRead = true) :
    l'.self.inbox.contents = l.self.inbox.contents := by
  induction h with
  | nil => rfl
  | quiet first _ ih => exact (ih isRead).trans (first.contents (.inl rfl))
  | deed first _ ih =>
    have rest := ih fun d hd ↦ isRead d (List.mem_cons_of_mem _ hd)
    exact rest.trans (first.contents (.inr (isRead _ List.mem_cons_self)))

theorem quiet_inbound (h : Moves l [] l') :
    l'.inbound.readable = l.inbound.readable ∧ l'.self.state = l.self.state := by
  generalize none_told : [] = ds at h
  induction h with
  | nil => exact ⟨rfl, rfl⟩
  | quiet first _ ih =>
    obtain ⟨items, state⟩ := ih none_told
    exact ⟨items.trans (first.drawn.readable nofun), state.trans first.state⟩
  | deed => contradiction

/-- A read that returns nothing has found nothing, or the delimiter. One that returns a frame leaves
fewer to read. -/
theorem read {items : List Item} (h : Moves l (Deed.ofRead l.self.state items) l')
    (front : l.inbound.readable = items) :
    (Item.answer items = none → l'.self.state.reads = true → l'.inbound.readable = []) ∧
    (Item.answer items ≠ none →
      l'.self.state = l.self.state ∧ l'.inbound.readable.length < items.length) := by
  induction items generalizing l with
  | nil =>
    refine ⟨?_, fun some ↦ absurd rfl some⟩
    intro _ _
    rw [(quiet_inbound h).1, front]
  | cons x rest ih =>
    cases x with
    | delimiter =>
      refine ⟨?_, fun some ↦ absurd rfl some⟩
      intro _ reads
      obtain ⟨l₁, l₂, before, deed, behind⟩ := h.split
      rw [(quiet_inbound behind).2, deed.state, Deed.turn_ofDelimiter] at reads
      contradiction
    | frame m =>
      obtain ⟨l₁, l₂, before, deed, behind⟩ := h.split
      have items : l₂.inbound.readable = rest := by
        have drawn := deed.drawn.readable (by simp)
        rw [← Link.inbound, ← Link.inbound, (quiet_inbound before).1, front] at drawn
        exact drawn
      have state : l₂.self.state = l.self.state := deed.state.trans (quiet_inbound before).2
      rw [Item.answer]
      split at behind
      · rename_i credential
        rw [if_pos credential]
        rw [← state] at behind
        obtain ⟨none, some⟩ := ih behind items
        refine ⟨none, ?_⟩
        intro h
        obtain ⟨same, fewer⟩ := some h
        exact ⟨same.trans state, Nat.lt_succ_of_lt fewer⟩
      · rename_i frame
        rw [if_neg frame]
        refine ⟨fun none ↦ absurd none (by simp), ?_⟩
        intro _
        rw [(quiet_inbound behind).1, (quiet_inbound behind).2, items]
        exact ⟨state, Nat.lt_succ_self _⟩

end Moves

namespace Link

theorem Sound.readAllN {l : Link} (h : l.Sound) {turns : Nat}
    (enough : l.inbound.readable.length < turns) :
    (∃ ds, Moves l ds (readAllN turns l).2 ∧ ∀ d ∈ ds, d.isRead = true) ∧
      ((readAllN turns l).2.self.state.reads = true →
        (readAllN turns l).2.inbound.readable = []) := by
  induction turns generalizing l with
  | zero => omega
  | succ turns ih =>
    match reads : l.self.state.reads with
    | false =>
      simp only [Link.readAllN, read_of_not_reads reads]
      exact ⟨⟨[], .nil, nofun⟩, fun h ↦ absurd (reads.symm.trans h) Bool.false_ne_true⟩
    | true =>
      obtain ⟨answer, moves⟩ := h.read reads
      obtain ⟨stops, goes⟩ := moves.read rfl
      rw [← answer] at stops goes
      have isRead := fun d ↦ @Deed.isRead_of_mem_ofRead l.self.state l.inbound.readable d
      match hread : l.read with
      | (none, l') =>
        rw [hread] at moves stops
        simp only [Link.readAllN, hread]
        exact ⟨⟨_, moves, isRead⟩, stops rfl⟩
      | (some m, l') =>
        rw [hread] at moves goes
        obtain ⟨state, fewer⟩ := goes nofun
        simp only [Link.readAllN, hread]
        obtain ⟨⟨ds, others, hds⟩, reached⟩ := ih (moves.sound h) (by omega)
        refine ⟨⟨_, moves.append others, ?_⟩, reached⟩
        intro d hd
        exact (List.mem_append.mp hd).elim (isRead d) (hds d)

theorem Sound.readAll {l : Link} (h : l.Sound) :
    (∃ ds, Moves l ds l.readAll.2 ∧ ∀ d ∈ ds, d.isRead = true) ∧
      (l.readAll.2.self.state.reads = true → l.readAll.2.inbound.readable = []) :=
  h.readAllN h.length_readable_lt

end Link

end Conduit.Pipe
