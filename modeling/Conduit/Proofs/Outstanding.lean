import Conduit.Proofs.Credit
import Mathlib.Data.List.Infix

namespace Conduit.Pipe

def Link.Covered (l : Link) : Prop :=
  l.peer.messagesRead + load l.self.lane.stock.frames ≤ l.self.messagesWritten

theorem Deed.tally_le {d : Deed} (hd : ∀ m, d ≠ .push m) (opened : Bool) (s : Stock) (n : Nat) :
    d.tally opened s n ≤ n := by
  unfold tally
  split
  · exact absurd rfl (hd _)
  · split
    · exact Nat.sub_le _ _
    · exact le_rfl
  · exact le_rfl

/-- A deed adds to the queue what it adds to the count, and takes from the count no more than it
takes from the queue. -/
theorem Lane.Sound.covered_supply {l : Lane} (h : l.Sound) (d : Deed) (opened : Bool)
    {read written : Nat} (covered : read + load l.stock.frames ≤ written) :
    read + load (d.supply l.stock).frames ≤ d.tally opened l.stock written := by
  cases d with
  | push m =>
    rw [Deed.supply, Stock.frames_push, load_append, ← Nat.add_assoc]
    exact Nat.add_le_add_right covered _
  | takeBack | finish | giveUp =>
    rw [Deed.supply, h.load_rollback]
    exact covered
  | publish =>
    rw [Deed.supply, Stock.frames_flush]
    exact covered
  | request | delimit =>
    have ended : load l.stock.endStream.frames = load l.stock.frames := by
      rw [← h.load_rollback]
      simp [Stock.endStream, Stock.rollback, Stock.frames]
    rw [Deed.supply, ended]
    exact covered
  | obey c =>
    cases c with
    | hiccup =>
      have none_left : load (Deed.supply (.obey .hiccup) l.stock).frames = 0 := rfl
      simp only [Deed.tally]
      split <;> omega
    | activateRead | activateWrite | term | termAck | watermarks => exact covered
  | quiet | take | meet | renew => exact covered

namespace Move

variable {l l' : Link} {d : Deed}

theorem covered (h : Move l d l') (sound : l.Sound) (covered : l.Covered) : l'.Covered := by
  rw [Link.Covered, h.supply sound, h.messagesWritten sound, h.peer_kept.2.1]
  exact sound.self.lane.covered_supply d _ covered

theorem peer_covered (h : Move l d l') (sound : l.Sound) (covered : l.swap.Covered) :
    l'.swap.Covered := by
  have books : l.self.messagesRead + load l.peer.lane.stock.frames ≤ l.peer.messagesWritten :=
    covered
  rw [h.frames sound, load_append, load_eq_add] at books
  rw [Link.Covered, Link.swap_self, Link.swap_peer, h.peer_kept.2.2, h.messagesRead]
  omega

end Move

namespace Moves

variable {l l' : Link} {ds : List Deed}

theorem peer_counts (h : Moves l ds l') : l'.peer.messagesRead = l.peer.messagesRead ∧
    l'.peer.messagesWritten = l.peer.messagesWritten := by
  induction h with
  | nil => exact ⟨rfl, rfl⟩
  | quiet first _ ih | deed first _ ih =>
    exact ⟨ih.1.trans first.peer_kept.2.1, ih.2.trans first.peer_kept.2.2⟩

theorem messagesRead (h : Moves l ds l') :
    l'.self.messagesRead = l.self.messagesRead + load (ordinary (Deed.taken ds)) := by
  induction h with
  | nil => rfl
  | quiet first _ ih => rw [ih, first.messagesRead]; rfl
  | @deed _ _ _ d ds first _ ih =>
    rw [ih, first.messagesRead, Deed.taken_cons d ds, ordinary_append, load_append, Nat.add_assoc]

theorem messagesRead_le (h : Moves l ds l') : l.self.messagesRead ≤ l'.self.messagesRead := by
  rw [h.messagesRead]
  exact Nat.le_add_right _ _

theorem messagesWritten_le (h : Moves l ds l') (sound : l.Sound) (hd : ∀ m, .push m ∉ ds) :
    l'.self.messagesWritten ≤ l.self.messagesWritten := by
  refine @keep l l' ds (fun k ↦ k.self.messagesWritten ≤ l.self.messagesWritten) h sound ?_ le_rfl
  intro k d k' told deed sound fewer
  rw [deed.messagesWritten sound]
  refine le_trans (Deed.tally_le ?_ _ _ _) fewer
  rintro m rfl
  exact told.elim nofun (hd m)

theorem messagesWritten_push_le {m : Message} (h : Moves l [.push m] l') (sound : l.Sound) :
    l'.self.messagesWritten ≤ l.self.messagesWritten + 1 := by
  obtain ⟨l₁, l₂, before, deed, behind⟩ := h.split
  have sound₁ := before.sound sound
  have fewer := before.messagesWritten_le sound (fun _ ↦ List.not_mem_nil)
  have fewer' := behind.messagesWritten_le (deed.sound sound₁) (fun _ ↦ List.not_mem_nil)
  have counted : l₂.self.messagesWritten = l₁.self.messagesWritten + load [m] :=
    deed.messagesWritten sound₁
  have one := load_singleton_le_one m
  omega

end Moves

namespace Link

theorem checkMark_of_checkWrite {l : Link} (accepted : l.checkWrite.1 = true) :
    l.checkMark = true := by
  unfold checkWrite at accepted
  split at accepted
  · exact absurd accepted Bool.false_ne_true
  · split at accepted
    · assumption
    · exact absurd accepted Bool.false_ne_true

theorem Sound.checkWrite_eq {l : Link} (h : l.Sound) (active : l.self.state = .active) :
    l.checkWrite = if l.checkMark then (true, l)
      else (false, l.modifySelf ({ · with outActive := false })) := by
  have opened : l.self.outOpen = true := by
    rw [h.self.outOpen, active]
    rfl
  simp [checkWrite, active, opened]

theorem Sound.write_accepts {l : Link} (h : l.Sound) (active : l.self.state = .active)
    (unlimited : l.self.highMark = 0) (m : Message) : (l.write m).1 = true := by
  have room : l.checkMark = true := by simp [checkMark, unlimited]
  rw [write, h.checkWrite_eq active, if_pos room]

/-- What an end keeps as it hears one command, it keeps however many it has heard. -/
theorem Sound.processN_keep {Inv : Link → Prop} {l : Link} (h : l.Sound)
    (step : ∀ {l d l'}, Move l d l' → l.Sound → Inv l → Inv l') (start : Inv l) (turns : Nat) :
    (Link.processN turns l).2.Sound ∧ Inv (Link.processN turns l).2 := by
  obtain ⟨cs, hearing, -⟩ := hearing_processN h.self.inbox turns
  exact ⟨hearing.moves.sound h, hearing.moves.keep h (fun _ ↦ step) start⟩

theorem Sound.perform_bounded {l : Link} (h : l.Sound) (c : Call) {high : Nat} (pos : 0 < high)
    (mark : l.self.highMark = high)
    (bounded : l.self.messagesWritten ≤ l.peer.messagesRead + high) :
    (l.perform c).self.messagesWritten ≤ (l.perform c).peer.messagesRead + high := by
  have moves := Moves.perform h c
  rw [moves.peer_counts.1]
  by_cases pushes : ∃ m, .push m ∈ l.deeds c
  · obtain ⟨m, hm⟩ := pushes
    obtain ⟨rfl, accepted⟩ := of_push_mem_deeds hm
    simp only [deeds, if_pos accepted] at moves
    have more := moves.messagesWritten_push_le h
    have room := checkMark_of_checkWrite accepted
    simp only [checkMark, mark, Bool.not_eq_true', Bool.and_eq_false_iff, decide_eq_false_iff_not]
      at room
    omega
  · have fewer := moves.messagesWritten_le h fun m hm ↦ pushes ⟨m, hm⟩
    omega

/-- What a hiccup takes back from the count lies above what the reader has read. -/
theorem Covered.drained {l m : Link} (h : l.Covered) (sound : l.Sound) {c : Option Command}
    (received : l.receive = (c, m)) : m.peer.messagesRead +
      (m.outbound.flush.2.readAll).1.countP Item.counts ≤ m.self.messagesWritten := by
  obtain rfl : l.receive.2 = m := congrArg Prod.snd received
  have unread : (l.receive.2.outbound.flush.2.readAll).1.countP Item.counts =
      load l.self.lane.stock.frames := sound.self.lane.countP_unread
  rw [unread]
  exact h

end Link

namespace Pair

variable {s : Settings} {p : Pair}

theorem covered (made : create s = .ok p) (side : Side) (calls : List (Side × Call)) :
    ((p.run calls).link side).Sound ∧ ((p.run calls).link side).Covered := by
  obtain ⟨rfl, pos⟩ := create_eq_ok made
  refine run_keep Move.covered (fun deed sound h ↦ deed.peer_covered sound h)
    (ofSettings_sound pos side) ?_
  rw [Link.Covered, stock_ofSettings pos side]
  cases side <;> exact le_rfl

/-- Under a watermark that stays, no call takes what was written further above what was read. -/
theorem bounded (made : create s = .ok p) (side : Side) {calls : List (Side × Call)} {high : Nat}
    (pos : 0 < high)
    (constant : ∀ begun, begun <+: calls → ((p.run begun).link side).self.highMark = high) :
    ((p.run calls).link side).self.messagesWritten ≤
      ((p.run calls).link side).peer.messagesRead + high := by
  induction calls using List.reverseRecOn with
  | nil =>
    obtain ⟨rfl, -⟩ := create_eq_ok made
    cases side <;> exact Nat.zero_le _
  | append_singleton calls call ih =>
    obtain ⟨t, c⟩ := call
    have before := ih fun begun hbegun ↦ constant begun (hbegun.trans (List.prefix_append _ _))
    have mark := constant calls (List.prefix_append _ _)
    have sound := (covered made side calls).1
    rw [run_concat]
    by_cases own : t = side
    · subst own
      rw [perform_own]
      exact sound.perform_bounded c pos mark before
    · obtain rfl := Side.eq_other_of_ne own
      rw [perform_other]
      have moves := Moves.perform sound.swap c
      rw [Link.swap_self, Link.swap_peer, moves.peer_counts.2]
      exact le_trans before (Nat.add_le_add_right moves.messagesRead_le _)

end Pair

/-- The books of an end never go below what its peer has read, also while it obeys one command after
the other: what a hiccup takes back from the count is all above it. Under a watermark that stays,
no more than that many messages are ever unread. Without one an active end accepts every frame. -/
theorem outstanding_bounded {s : Settings} {p : Pair} (made : Pair.create s = .ok p) (side : Side)
    (calls : List (Side × Call)) {l : Link} {k : Ledger} (reached : (p.run calls).link side = l)
    (noted : p.watch bookkeeping side {} calls = k) :
    (∀ turns, (Link.processN turns l).2.peer.messagesRead ≤
      (Link.processN turns l).2.self.messagesWritten) ∧
    (∀ turns m, (Link.processN turns l).2.receive = (some .hiccup, m) → m.peer.messagesRead +
      (m.outbound.flush.2.readAll).1.countP Item.counts ≤ m.self.messagesWritten) ∧
    (∀ high, 0 < high →
      (∀ begun, begun <+: calls → ((p.run begun).link side).self.highMark = high) →
      l.self.messagesWritten - l.peer.messagesRead ≤ high ∧ load k.unread ≤ high) ∧
    (l.self.highMark = 0 → l.self.state = .active → ∀ m, (l.write m).1 = true) := by
  subst reached noted
  obtain ⟨sound, covered⟩ := Pair.covered made side calls
  have midway := sound.processN_keep Move.covered covered
  refine ⟨?_, ?_, ?_, ?_⟩
  · exact fun turns ↦ le_trans (Nat.le_add_right _ _) (midway turns).2
  · exact fun turns m received ↦ (midway turns).2.drained (midway turns).1 received
  · intro high pos constant
    have bounded := Pair.bounded made side pos constant
    rw [(Pair.ledger_matches made side calls).2.unread]
    rw [Link.Covered] at covered
    omega
  · exact fun unlimited active ↦ sound.write_accepts active unlimited

theorem outstanding_bounded_across_hiccup :
    let s : Settings := { highMarks := (2, 2) }
    let p := Pair.ofSettings s
    let calls : List (Side × Call) := [(.first, .write { flags := Flag.routingId }),
      (.first, .write {}), (.first, .write { flags := Flag.more }), (.first, .flush),
      (.second, .read), (.second, .read), (.first, .write {}), (.second, .hiccup),
      (.first, .write {}), (.first, .write {})]
    let l := (p.run calls).link .first
    (∀ begun, begun <+: calls → ((p.run begun).link .first).self.highMark = 2) ∧
      l.self.messagesWritten = 3 ∧ l.peer.messagesRead = 1 ∧
      (Link.processN 2 l).2.self.messagesWritten = 1 ∧
      l.self.messagesWritten - l.peer.messagesRead ≤ 2 := by
  intro s p calls l
  have constant : ∀ begun, begun <+: calls → ((p.run begun).link .first).self.highMark = 2 := by
    intro begun hbegun
    rw [← List.mem_inits] at hbegun
    revert begun
    decide +kernel
  obtain ⟨-, -, bounded, -⟩ := outstanding_bounded (s := s) (p := p) rfl .first calls rfl rfl
  exact ⟨constant, by decide +kernel, by decide +kernel, by decide +kernel,
    (bounded 2 (by decide) constant).1⟩

end Conduit.Pipe
