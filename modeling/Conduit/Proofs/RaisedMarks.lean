import Conduit.Proofs.Resumption

namespace Conduit.Pipe

/-- Keeps the number of each message that the peer counted and its low watermark at that time, since
the end last processed its commands. -/
def countings : Observer (List (Nat × Nat)) where
  own _ c counted := if c = .process then [] else counted
  peer l c counted :=
    if c = .read ∧ l.read.1.any (·.counts) then
      counted ++ [(l.self.messagesRead + 1, l.self.lowMark)]
    else counted

/-- Some message was counted at a multiple of the low watermark. -/
def MarkReached (counted : List (Nat × Nat)) : Prop := ∃ n d, (n, d) ∈ counted ∧ 0 < d ∧ d ∣ n

theorem markReached_concat (counted : List (Nat × Nat)) (n d : Nat) :
    MarkReached (counted ++ [(n, d)]) ↔ MarkReached counted ∨ 0 < d ∧ d ∣ n := by
  simp only [MarkReached, List.mem_append, List.mem_singleton, Prod.mk.injEq]
  constructor
  · rintro ⟨n', d', there | ⟨rfl, rfl⟩, reached⟩
    · exact .inl ⟨n', d', there, reached⟩
    · exact .inr reached
  · rintro (⟨n', d', there, reached⟩ | reached)
    · exact ⟨n', d', .inl there, reached⟩
    · exact ⟨n, d, .inr ⟨rfl, rfl⟩, reached⟩

namespace Link

variable {l l' : Link}

theorem told_of_edits {s : List Scope} (h : Edits s l l') (uncounted : .credit ∉ s) :
    .activateWrite ∈ l'.peer.inbox.contents ↔ .activateWrite ∈ l.peer.inbox.contents := by
  have told_send (k : Link) {c : Command} (other : .activateWrite ≠ c) :
      .activateWrite ∈ (k.send c).peer.inbox.contents ↔
        .activateWrite ∈ k.peer.inbox.contents := by
    have sent : (k.send c).peer.inbox.contents = k.peer.inbox.contents ++ [c] :=
      Mailbox.contents_send _ c
    simp [sent, other]
  refine h.keep (P := fun k ↦ .activateWrite ∈ k.peer.inbox.contents ↔
    .activateWrite ∈ l.peer.inbox.contents) ?_ Iff.rfl
  intro k e within start
  cases e with
  | tell c =>
    refine (told_send k ?_).trans start
    rintro rfl
    exact uncounted (within List.mem_cons_self)
  | publish =>
    rcases k.edit_publish with same | same <;> rw [same]
    · exact start
    · exact (told_send _ (by simp)).trans start
  | _ => exact start

theorem told_countRead (l : Link) (m : Message) :
    .activateWrite ∈ (l.countRead m).peer.inbox.contents ↔
      .activateWrite ∈ l.peer.inbox.contents ∨
        m.counts = true ∧ 0 < l.self.lowMark ∧ l.self.lowMark ∣ l.self.messagesRead + 1 := by
  unfold countRead
  split
  · rename_i counts
    have sent := Mailbox.contents_send l.peer.inbox .activateWrite
    simp only [Nat.dvd_iff_mod_eq_zero, counts, true_and]
    split <;> rename_i reached
    · have reached' : 0 < l.self.lowMark ∧ (l.self.messagesRead + 1) % l.self.lowMark = 0 := reached
      simp only [reached', and_self, or_true, iff_true]
      exact sent ▸ List.mem_append_right _ List.mem_cons_self
    · have missed :
          ¬(0 < l.self.lowMark ∧ (l.self.messagesRead + 1) % l.self.lowMark = 0) := reached
      simp only [missed, or_false]
      rfl
  · rename_i uncounted
    simp [uncounted]

theorem told_readN (l : Link) (turns : Nat) :
    .activateWrite ∈ (readN turns l).2.peer.inbox.contents ↔
      .activateWrite ∈ l.peer.inbox.contents ∨ (readN turns l).1.any (·.counts) = true ∧
        0 < l.self.lowMark ∧ l.self.lowMark ∣ l.self.messagesRead + 1 := by
  induction turns generalizing l with
  | zero => simp [readN]
  | succ turns ih =>
    have took := l.readItem_self
    have told := told_of_edits (readItem_edits l) (by simp)
    rw [readN]
    split <;> rename_i k found <;> rw [found] at took told <;> dsimp only at took told
    · simp [fallIdle, modifySelf, told]
    · have met := told_of_edits (s := []) (meetDelimiter_edits k) List.not_mem_nil
      simp [met, told]
    · rename_i m
      rw [← took, ← told]
      split
      · exact ih _
      · exact told_countRead k m

theorem told_read (l : Link) : .activateWrite ∈ l.read.2.peer.inbox.contents ↔
    .activateWrite ∈ l.peer.inbox.contents ∨ l.read.1.any (·.counts) = true ∧
      0 < l.self.lowMark ∧ l.self.lowMark ∣ l.self.messagesRead + 1 := by
  unfold read
  split
  · exact told_readN l _
  · simp

theorem told_perform (l : Link) {c : Call} (unread : c ≠ .read) :
    .activateWrite ∈ (l.perform c).peer.inbox.contents ↔
      .activateWrite ∈ l.peer.inbox.contents :=
  told_of_edits (l.perform_edits c) (by cases c <;> simp_all [Call.scopes])

theorem Sound.counted_own (h : l.Sound) (c : Call) {counted : List (Nat × Nat)}
    (told : .activateWrite ∈ l.self.inbox.contents ↔ MarkReached counted) :
    .activateWrite ∈ (l.perform c).self.inbox.contents ↔
      MarkReached (countings.own l c counted) := by
  simp only [countings]
  split
  · rename_i hears
    subst hears
    have none_left : (l.perform .process).self.inbox.contents = [] := h.process.2.2
    simp [none_left, MarkReached]
  · rename_i unheard
    rw [l.contents_perform unheard]
    exact told

theorem counted_peer (l : Link) (c : Call) {counted : List (Nat × Nat)}
    (told : .activateWrite ∈ l.peer.inbox.contents ↔ MarkReached counted) :
    .activateWrite ∈ (l.perform c).peer.inbox.contents ↔
      MarkReached (countings.peer l c counted) := by
  simp only [countings]
  by_cases reads : c = .read
  · subst reads
    refine l.told_read.trans ?_
    by_cases counts : l.read.1.any (·.counts) = true
    · rw [if_pos ⟨rfl, counts⟩, markReached_concat, told, and_iff_right counts]
    · rw [if_neg fun both ↦ counts both.2, told]
      exact or_iff_left fun reached ↦ counts reached.1
  · rw [if_neg fun both ↦ reads both.1, ← told]
    exact l.told_perform reads

theorem Sound.idle_of_refused (h : l.Sound) (active : l.self.state = .active)
    (full : l.checkWrite.1 = false) : l.checkWrite.2.self.outActive = false := by
  rw [h.checkWrite_eq active] at full ⊢
  split at full
  · exact absurd full Bool.noConfusion
  · rename_i beyond
    rw [if_neg beyond]
    rfl

theorem Sound.idle_checkWrite (h : l.Sound) (active : l.self.state = .active) {refused : Bool}
    (idle : refused = true → l.self.outActive = false)
    (refuses : (refused || !l.checkWrite.1) = true) : l.checkWrite.2.self.outActive = false := by
  match answer : l.checkWrite.1 with
  | true =>
    rw [answer, Bool.not_true, Bool.or_false] at refuses
    rw [(l.checkWrite_moves.2 answer).1]
    exact idle refuses
  | false => exact h.idle_of_refused active answer

/-- A writer that was refused takes itself to be refused until it is told. -/
theorem Sound.idle_own (h : l.Sound) {c : Call}
    (active : l.self.state = .active ∧ (l.perform c).self.state = .active)
    (signals : ∀ c ∈ l.self.inbox.contents, c.isSignal = true) {refused : Bool}
    (idle : refused = true → l.self.outActive = false)
    (refuses : refusing.own l c refused = true) : (l.perform c).self.outActive = false := by
  cases c with
  | checkWrite => exact h.idle_checkWrite active.1 idle refuses
  | write m =>
    have looked := h.idle_checkWrite active.1 idle
    simp only [refusing, Link.perform] at refuses ⊢
    unfold Link.write at refuses ⊢
    split at refuses <;> rename_i k found <;> rw [found] at looked
    · exact looked refuses
    · have kept := Rests.of_edits (s := []) (place_edits k m) (List.nil_subset _)
      exact kept.outActive.trans (looked refuses)
  | process =>
    have heeds := h.hearing_process.heeds_signals active.1 signals
    simp only [refusing, Bool.and_eq_true, decide_eq_true_eq, heeds.told, not_and] at refuses
    rw [Link.perform, ← Bool.not_eq_true, heeds.active, not_or, idle refuses.1]
    exact ⟨Bool.false_ne_true, refuses.2 (idle refuses.1)⟩
  | terminate delay => exact absurd active.2 (h.terminate_begun delay)
  | setWatermarks | sendWatermarks | setNoDelay => exact idle refuses
  | rollback | flush | read | checkRead | hiccup | setBoosts | setRoutingId | poll | abandon =>
    exact (Rests.perform l rfl).outActive.trans (idle refuses)

end Link

namespace Pair

variable {s : Settings} {p : Pair} {side : Side} {calls : List (Side × Call)}

theorem told_iff (made : create s = .ok p) (side : Side) (calls : List (Side × Call)) :
    .activateWrite ∈ ((p.run calls).link side).self.inbox.contents ↔
      MarkReached (p.watch countings side [] calls) := by
  induction calls using List.reverseRecOn with
  | nil =>
    obtain ⟨rfl, -⟩ := create_eq_ok made
    have silent : (Mailbox.create : Mailbox Command).contents = [] := Mailbox.create_sound.2
    cases side <;> simp [run, link, ofSettings, endpoint, silent, watch, MarkReached]
  | append_singleton calls call ih =>
    obtain ⟨t, c⟩ := call
    have sound := (covered made side calls).1
    rw [run_concat, watch_concat]
    by_cases own : t = side
    · subst own
      rw [if_pos rfl, perform_own]
      exact sound.counted_own c ih
    · obtain rfl := Side.eq_other_of_ne own
      rw [perform_other, if_neg own, link_other]
      exact ((p.run calls).link side).swap.counted_peer c ih

/-- A writer that was refused and not told since takes itself to be refused. -/
theorem idle_of_refused (made : create s = .ok p)
    (still : ∀ c, (side.other, c) ∈ calls → c ≠ .hiccup)
    (active : ((p.run calls).link side).Running)
    (refused : p.watch refusing side false calls = true) :
    ((p.run calls).link side).self.outActive = false := by
  induction calls using List.reverseRecOn with
  | nil => exact absurd refused nofun
  | append_singleton calls call ih =>
    obtain ⟨t, c⟩ := call
    have still' : ∀ c, (side.other, c) ∈ calls → c ≠ .hiccup :=
      fun c hc ↦ still c (List.mem_append_left _ hc)
    have before := active_of_append made active
    obtain ⟨sound, shaking⟩ := shaking made side calls
    rw [run_concat] at active ⊢
    rw [watch_concat] at refused
    by_cases own : t = side
    · subst own
      rw [perform_own] at active ⊢
      rw [if_pos rfl] at refused
      have signals := before.signals sound shaking (Pair.still made t still')
      exact sound.idle_own ⟨before.self, active.self⟩ signals (ih still' before) refused
    · obtain rfl := Side.eq_other_of_ne own
      rw [if_neg own] at refused
      obtain ⟨lane, inbox, peer⟩ := Link.Reaches.perform ((p.run calls).link side).swap c
      rw [perform_other, Link.swap_self, peer]
      exact ih still' before refused

end Pair

/-- Whatever watermarks either end sets for itself or its peer, and whenever: a writer that was
refused, and has not reported since that it goes on, reports it when it next processes its commands
exactly if a message was counted, since it last did, at a multiple of the low watermark that the
peer then had. Where the peer has read all, the writer finds room either way. -/
theorem told_iff_mark_reached {s : Settings} {p : Pair} (made : Pair.create s = .ok p) (side : Side)
    {calls : List (Side × Call)} (still : ∀ c, (side.other, c) ∈ calls → c ≠ .hiccup)
    (plain : ∀ c, (side, c) ∈ calls → c.Plain) {l : Link}
    (reached : (p.run calls).link side = l) (active : l.Running)
    (refused : p.watch refusing side false calls = true) :
    (.writeActivated ∈ l.process.1.events ↔ MarkReached (p.watch countings side [] calls)) ∧
      (Drained l (p.watch bookkeeping side {} calls) → l.process.2.checkWrite.1 = true) := by
  subst reached
  obtain ⟨sound, shaking⟩ := Pair.shaking made side calls
  have unmoved := Pair.still made side still
  have signals := active.signals sound shaking unmoved
  have heeds := sound.hearing_process.heeds_signals active.self signals
  have idle := Pair.idle_of_refused made still active refused
  refine ⟨?_, fun drained ↦ ?_⟩
  · rw [heeds.told, Pair.told_iff made side calls]
    exact and_iff_right idle
  · have books := (Pair.ledger_matches made side calls).2
    have logged := (Pair.logged_of_plain made plain).1
    have none_unread := drained.load_unread sound books logged unmoved (active.peer ▸ rfl)
    have written := Pair.written_of_plain made plain active.self
    rw [none_unread, Nat.add_zero] at written
    exact sound.room_of_signals active.self signals written.le

/-- The marks are raised from two to ten. The peer hears of it, reads both messages, and tells the
writer nothing. -/
theorem stranded_by_raised_marks :
    let p := Pair.ofSettings { highMarks := (2, 1000) }
    let calls : List (Side × Call) := [(.first, .write {}), (.first, .write {}), (.first, .flush),
      (.first, .write {}), (.first, .setWatermarks 1000 10), (.first, .sendWatermarks 10 1000),
      (.second, .process), (.second, .read), (.second, .read), (.second, .read)]
    let l := (p.run calls).link .first
    p.watch refusing .first false calls = true ∧ l.Running ∧
      Drained l (p.watch bookkeeping .first {} calls) ∧
      .writeActivated ∉ l.process.1.events ∧ l.process.2.checkWrite.1 = true :=
  ⟨by decide +kernel, ⟨by decide +kernel, by decide +kernel⟩,
    ⟨by decide +kernel, by decide +kernel⟩, by decide +kernel, by decide +kernel⟩

/-- Raised from two to three, they are reached with the second message. -/
theorem told_as_mark_reached :
    let s : Settings := { highMarks := (2, 1000) }
    let p := Pair.ofSettings s
    let calls : List (Side × Call) := [(.first, .write {}), (.first, .write {}), (.first, .flush),
      (.first, .write {}), (.first, .setWatermarks 1000 3), (.first, .sendWatermarks 3 1000),
      (.second, .process), (.second, .read), (.second, .read), (.second, .read)]
    let l := (p.run calls).link .first
    p.watch countings .first [] calls = [(1, 2), (2, 2)] ∧
      .writeActivated ∈ l.process.1.events ∧ l.process.2.checkWrite.1 = true := by
  intro s p calls l
  have still : ∀ c, (Side.first.other, c) ∈ calls → c ≠ .hiccup := by simp [calls, Side.other]
  have plain : ∀ c, (.first, c) ∈ calls → c.Plain := by
    simp [calls, Call.Plain]
    decide
  have active : l.Running := ⟨by decide +kernel, by decide +kernel⟩
  have refused : p.watch refusing .first false calls = true := by decide +kernel
  have drained : Drained l (p.watch bookkeeping .first {} calls) :=
    ⟨by decide +kernel, by decide +kernel⟩
  have counted : p.watch countings .first [] calls = [(1, 2), (2, 2)] := by decide +kernel
  obtain ⟨told, room⟩ :=
    told_iff_mark_reached (s := s) (p := p) (l := l) rfl .first still plain rfl active refused
  refine ⟨counted, told.mpr ?_, room drained⟩
  rw [counted]
  exact ⟨2, 2, by decide, by decide, Nat.dvd_refl 2⟩

end Conduit.Pipe
