import Conduit.Proofs.Delivery

namespace Conduit.Pipe

namespace Link

def returns (l : Link) : Call → List Message
  | .read => l.read.1.toList
  | _ => []

theorem Sound.ordinary_taken_eq {l : Link} (h : l.Sound) (c : Call) :
    ordinary (Deed.taken (l.deeds c)) = l.returns c := by
  rw [h.ordinary_taken]
  cases c <;> rfl

/-- An end that published these whole messages, of which these frames were read. While it is alive,
it holds a part of another message besides. -/
structure Consigned (l : Link) (done part given : List Message) (live : Prop) : Prop where
  still : l.self.lane.fresh = []
  books : ∃ k : Ledger, k.Matches l.self.lane.stock ∧ k.published = done ∧
    wholeMessages k.log = done ∧ k.returned = given ∧
    (live → l.self.state = .active → k.log = done ++ part)

namespace Consigned

variable {l l' : Link} {d : Deed} {c : Call} {m : Message}
variable {done part part' given : List Message} {live live' : Prop}

theorem weaken (h : l.Consigned done part given live)
    (same : live' → l.self.state = .active → live ∧ part' = part) :
    l.Consigned done part' given live' := by
  obtain ⟨k, matched, published, whole, returned, log⟩ := h.books
  refine ⟨h.still, k, matched, published, whole, returned, ?_⟩
  intro lives active
  obtain ⟨lived, rfl⟩ := same lives active
  exact log lived active

theorem ofSettings {s : Settings} (h : 0 < s.chunkSize) (side : Side) :
    ((Pair.ofSettings s).link side).Consigned [] [] [] live := by
  refine ⟨Pair.fresh_ofSettings s side, {}, ?_, rfl, rfl, rfl, fun _ _ ↦ rfl⟩
  rw [Pair.stock_ofSettings h side]
  exact ⟨rfl, rfl, rfl, rfl, rfl⟩

/-- Whatever else the end does, it leaves the part alone or stops being active. -/
theorem move (h : l.Consigned done part given live) (sound : l.Sound) (move : Move l d l')
    (writes : ∀ m, d ≠ .push m) (rolls : d ≠ .takeBack) :
    l'.Consigned done part given live := by
  obtain ⟨k, matched, published, whole, returned, log⟩ := h.books
  have hiccup : d ≠ .obey .hiccup := by
    rintro rfl
    cases move with
    | obey letters => exact sound.moved_iff.mpr (letters ▸ List.mem_cons_self) h.still
  have matched' := matched.supply d
  rw [← move.supply sound] at matched'
  have state := move.state
  have active' : l'.self.state = .active → l.self.state = .active := by
    intro active
    by_contra inactive
    exact Deed.turn_ne_active inactive (state.symm.trans active)
  refine ⟨(move.fresh hiccup).trans h.still, k.supply d, matched', ?_⟩
  have again : wholeMessages (wholeMessages k.log) = done :=
    (wholeMessages_idempotent _).trans whole
  cases d with
  | push m => exact absurd rfl (writes m)
  | takeBack => contradiction
  | publish => exact ⟨whole, whole, returned, fun lives active ↦ log lives (active' active)⟩
  | finish | giveUp =>
    refine ⟨published, again, returned, ?_⟩
    intro _ active
    exact absurd (state.symm.trans active) nofun
  | request =>
    refine ⟨again, again, returned, ?_⟩
    intro _ active
    exact absurd (state.symm.trans active) nofun
  | delimit =>
    refine ⟨again, again, returned, ?_⟩
    intro _ active
    cases move with
    | delimit waiting => exact absurd (waiting.symm.trans (active' active)) nofun
  | obey c =>
    cases c with
    | hiccup => contradiction
    | activateRead | activateWrite | term | termAck | watermarks =>
      exact ⟨published, whole, returned, fun lives active ↦ log lives (active' active)⟩
  | quiet | take | meet | renew =>
    exact ⟨published, whole, returned, fun lives active ↦ log lives (active' active)⟩

theorem moves {ds : List Deed} (h : l.Consigned done part given live) (sound : l.Sound)
    (moves : Moves l ds l') (writes : ∀ m, .push m ∉ ds) (rolls : .takeBack ∉ ds) :
    l'.Consigned done part given live := by
  refine @Moves.keep _ _ _ (fun l ↦ l.Consigned done part given live) moves sound ?_ h
  intro l₁ d l₂ told deed sound h
  apply h.move sound deed
  · rintro m rfl
    exact writes m (told.resolve_left nofun)
  · rintro rfl
    exact rolls (told.resolve_left nofun)

/-- A call of the owner that neither writes nor takes back. -/
theorem perform (h : l.Consigned done part given live) (sound : l.Sound)
    (writes : ∀ m, c ≠ .write m) (rolls : c ≠ .rollback) :
    (l.perform c).Consigned done part given live := by
  apply h.moves sound (Moves.perform sound c)
  · intro m pushed
    have allowed := allows_of_mem_deeds pushed
    cases c with
    | write m => exact writes m rfl
    | _ => exact absurd allowed Bool.false_ne_true
  · intro taken
    have allowed := allows_of_mem_deeds taken
    cases c with
    | rollback => contradiction
    | _ => exact absurd allowed Bool.false_ne_true

theorem peer_perform (h : l.swap.Consigned done part given live) (sound : l.Sound)
    (hiccup : c ≠ .hiccup) : (l.perform c).swap.Consigned done part
      (given ++ l.returns c) live := by
  obtain ⟨k, matched, published, whole, returned, log⟩ := h.books
  have moves := Moves.perform sound c
  have matched' := moves.matches_draw sound matched
  rw [sound.ordinary_taken_eq] at matched'
  refine ⟨moves.peer_still sound (renew_notMem_deeds hiccup) h.still, _, matched', published, whole,
    ?_, ?_⟩
  · exact congrArg (· ++ l.returns c) returned
  · intro lives active
    exact log lives (moves.peer_state.symm.trans active)

theorem peer_work (h : l.swap.Consigned done part given live) (sound : l.Sound)
    (hiccup : c ≠ .hiccup) (reading : c ≠ .read) :
    (l.perform c).swap.Consigned done part given live := by
  have worked := h.peer_perform sound hiccup
  have nothing : l.returns c = [] := by
    cases c with
    | read => contradiction
    | _ => rfl
  rwa [nothing, List.append_nil] at worked

theorem peer_works {cs : List Call} (h : l.swap.Consigned done part given live) (sound : l.Sound)
    (works : ∀ c ∈ cs, c ≠ .hiccup ∧ c ≠ .read) :
    (cs.foldl Link.perform l).swap.Consigned done part given live := by
  induction cs generalizing l with
  | nil => exact h
  | cons c cs ih =>
    obtain ⟨hiccup, reading⟩ := works c List.mem_cons_self
    exact ih (h.peer_work sound hiccup reading) (sound.perform c)
      fun c' hc' ↦ works c' (List.mem_cons_of_mem c hc')

theorem write_false (h : l.Consigned done part given live) (sound : l.Sound)
    (refused : (l.write m).1 = false) : (l.write m).2.Consigned done part given live := by
  have moves := l.write_moves m
  have none : l.checkWrite.1 = false := by
    unfold write at refused
    split at refused <;> rename_i looked
    · rw [looked]
    · exact absurd refused nofun
  rw [deeds, none, if_neg Bool.false_ne_true] at moves
  exact h.moves sound moves (fun _ ↦ List.not_mem_nil) List.not_mem_nil

theorem write_true (accepted : (l.write m).1 = true) : l.self.state = .active ∧
    Move l (.push m) (l.write m).2 ∧ (l.write m).2.self.state = .active := by
  have looked : l.checkWrite = (true, l) := by
    obtain ⟨-, same⟩ := l.checkWrite_moves
    unfold write at accepted
    split at accepted <;> rename_i looked
    · exact absurd accepted nofun
    · have checked : l.checkWrite.1 = true := by rw [looked]
      exact Prod.ext checked (same checked).1
  have active : l.self.state = .active :=
    (l.checkWrite_moves.2 (by rw [looked])).2
  have pushed : Move l (.push m) (l.write m).2 := by
    rw [write, looked]
    exact .push active
  exact ⟨active, pushed, pushed.state.trans active⟩

theorem write_more (h : l.Consigned done part given True) (sound : l.Sound)
    (accepted : (l.write m).1 = true) (more : m.more = true) :
    (l.write m).2.Consigned done (part ++ [m]) given live := by
  obtain ⟨k, matched, published, whole, returned, log⟩ := h.books
  obtain ⟨active, pushed, -⟩ := write_true accepted
  have matched' := matched.supply (.push m)
  rw [← pushed.supply sound] at matched'
  refine ⟨(pushed.fresh nofun).trans h.still, _, matched', published, ?_, returned, ?_⟩
  · exact (wholeMessages_append (by simpa using more)).trans whole
  · intro _ _
    rw [← List.append_assoc, ← log trivial active]
    rfl

theorem write_last (h : l.Consigned done part given True) (sound : l.Sound)
    (accepted : (l.write m).1 = true) (last : m.more = false) :
    (l.write m).2.flush.Consigned (done ++ (part ++ [m])) [] given live := by
  obtain ⟨k, matched, published, whole, returned, log⟩ := h.books
  obtain ⟨active, pushed, active'⟩ := write_true accepted
  have sound' := pushed.sound sound
  have opened : (l.write m).2.self.outOpen = true := by
    rw [sound'.self.outOpen, active']
    rfl
  have moves := Moves.perform sound' .flush
  rw [deeds, if_neg (by simp [active', opened])] at moves
  have matched' := matched.supply (.push m)
  rw [← pushed.supply sound] at matched'
  have flushed := moves.matches_supply sound' matched'
  have ended : wholeMessages (k.log ++ [m]) = done ++ (part ++ [m]) := by
    rw [wholeMessages_concat last, log trivial active, List.append_assoc]
  have still := moves.still sound' ((pushed.fresh (by simp)).trans h.still)
  refine ⟨still, _, flushed, ended, ended, returned, ?_⟩
  intro _ _
  rw [List.append_nil, ← ended, wholeMessages_concat last]
  rfl

/-- Of a message that is taken back, nothing remains. -/
theorem rollback (h : l.Consigned done part given live) (sound : l.Sound) :
    l.rollback.Consigned done [] given True := by
  obtain ⟨k, matched, published, whole, returned, log⟩ := h.books
  have moves : Moves l (l.deeds .rollback) l.rollback := Moves.perform sound .rollback
  by_cases opened : l.self.outOpen = true
  · rw [deeds, if_pos opened] at moves
    have matched' := moves.matches_supply sound matched
    refine ⟨moves.still sound h.still, _, matched', published, ?_, returned, ?_⟩
    · exact (wholeMessages_idempotent _).trans whole
    · intro _ _
      exact whole.trans (List.append_nil _).symm
  · have same : l.rollback = l := if_neg opened
    rw [same]
    refine ⟨h.still, k, matched, published, whole, returned, ?_⟩
    intro _ active
    rw [sound.self.outOpen, active] at opened
    exact absurd rfl opened

/-- What was published was read or can be read. -/
theorem readable (h : l.Consigned done part given live)
    (plain : ∀ m ∈ done, m.isCredential = false) :
    given ++ Item.frames l.swap.inbound.readable = done := by
  obtain ⟨k, matched, rfl, -, rfl, -⟩ := h.books
  have published := matched.readable (l := l.swap) h.still
  have consumed : ordinary k.consumed = k.consumed := by
    apply List.filter_eq_self.mpr
    intro m hm
    rw [plain m (published ▸ List.mem_append_left _ hm)]
    rfl
  rw [matched.returned, consumed]
  exact published.symm

end Consigned

end Link

end Conduit.Pipe
