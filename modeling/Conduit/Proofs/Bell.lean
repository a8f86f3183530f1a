import Conduit.Proofs.Terms

namespace Conduit

namespace Mailbox

variable {α : Type} {b : Mailbox α}

def Alert (b : Mailbox α) : Prop := b.letters.asleep = true ∨ b.rung = true

theorem Alert.rung (h : b.Alert) (sound : b.Sound) (letters : b.contents ≠ []) : b.rung = true := by
  refine h.resolve_left fun asleep ↦ letters ?_
  exact Channel.Holds.asleep sound asleep

/-- A letter to one who sleeps rings the bell. -/
theorem Alert.send (h : b.Alert) (sound : b.Sound) (x : α) : (b.send x).Alert := by
  right
  obtain ⟨awake, -⟩ := (sound.write_whole x).flush_cons
  change (b.rung || !(b.letters.write x false).flush.1) = true
  rw [awake]
  rcases h with asleep | rung
  · have asleep' : (b.letters.write x false).asleep = true := asleep
    rw [asleep']
    exact Bool.or_true _
  · rw [rung]
    rfl

theorem Sound.asleep_receive (h : b.Sound) (letters : b.contents = []) :
    b.receive.2.letters.asleep = true := by
  have held := h
  rw [Sound, letters] at held
  exact held.asleep_read_nil

def Posted (b b' : Mailbox α) : Prop := ∃ xs : List α, b' = xs.foldl send b

namespace Posted

variable {b₁ b₂ : Mailbox α}

theorem refl : b.Posted b := ⟨[], rfl⟩

theorem trans (h : b.Posted b₁) (h' : b₁.Posted b₂) : b.Posted b₂ := by
  obtain ⟨xs, rfl⟩ := h
  obtain ⟨ys, rfl⟩ := h'
  exact ⟨xs ++ ys, List.foldl_append.symm⟩

theorem one (x : α) : b.Posted (b.send x) := ⟨[x], rfl⟩

/-- What each letter keeps is kept. -/
theorem keep {P : Mailbox α → Prop} (h : b.Posted b₁) (send : ∀ b x, P b → P (b.send x))
    (start : P b) : P b₁ := by
  obtain ⟨xs, rfl⟩ := h
  induction xs generalizing b with
  | nil => exact start
  | cons x xs ih => exact ih (send b x start)

theorem closed (h : b.Posted b₁) : b₁.closed = b.closed :=
  h.keep (P := fun b' ↦ b'.closed = b.closed) (fun _ _ kept ↦ kept) rfl

theorem alert (h : b.Posted b₁) (sound : b.Sound) (alert : b.Alert) : b₁.Alert :=
  (h.keep (P := fun b' ↦ b'.Sound ∧ b'.Alert)
    (fun _ x kept ↦ ⟨(kept.1.send x).1, kept.2.send kept.1 x⟩) ⟨sound, alert⟩).2

/-- What was posted are the letters that came to those that lay there. -/
theorem eq_foldl (h : b.Posted b₁) (sound : b.Sound) :
    b₁ = (b₁.contents.drop b.contents.length).foldl send b := by
  obtain ⟨xs, rfl⟩ := h
  have contents : (xs.foldl send b).contents = b.contents ++ xs := by
    induction xs generalizing b with
    | nil => exact (List.append_nil _).symm
    | cons x xs ih =>
      rw [List.foldl_cons, ih (sound.send x).1, (sound.send x).2, List.append_assoc]
      rfl
  rw [contents, List.drop_left]

end Posted

end Mailbox

namespace Pipe

namespace Link

variable {l l₁ l₂ : Link}

structure Posts (l l' : Link) : Prop where
  self : l'.self.inbox = l.self.inbox
  peer : l.peer.inbox.Posted l'.peer.inbox

namespace Posts

theorem refl : l.Posts l := ⟨rfl, .refl⟩

theorem trans (h : l.Posts l₁) (h' : l₁.Posts l₂) : l.Posts l₂ :=
  ⟨h'.self.trans h.self, h.peer.trans h'.peer⟩

theorem of_edits {s : List Scope} (h : Edits s l l₁)
    (unheard : .inbox ∉ s ∧ .bell ∉ s) : l.Posts l₁ := by
  refine h.lift refl trans ?_
  intro l e within
  cases e with
  | note n => cases n <;> exact ⟨rfl, .refl⟩
  | tell c => exact ⟨rfl, .one c⟩
  | publish =>
    rcases l.edit_publish with same | same <;> rw [same]
    · exact ⟨rfl, .refl⟩
    · exact ⟨rfl, .one Command.activateRead⟩
  | look | take | takeBack | put | renew | follow => exact ⟨rfl, .refl⟩
  | receive => exact absurd (within List.mem_cons_self) unheard.1
  | poll | abandon => exact absurd (within List.mem_cons_self) unheard.2

theorem obey (l : Link) (c : Command) : l.Posts (l.obey c).2 :=
  of_edits (l.obey_edits c) (by cases c <;> simp [Command.scopes])

theorem perform (l : Link) {c : Call} (quiet : c ≠ .process ∧ c ≠ .poll ∧ c ≠ .abandon) :
    l.Posts (l.perform c) :=
  of_edits (l.perform_edits c) (by cases c <;> simp_all [Call.scopes])

end Posts

structure Listens (l l' : Link) : Prop where
  rung : l'.self.inbox.rung = l.self.inbox.rung
  closed : l'.self.inbox.closed = l.self.inbox.closed
  peer : l.peer.inbox.Posted l'.peer.inbox

theorem Listens.trans (h : l.Listens l₁) (h' : l₁.Listens l₂) : l.Listens l₂ :=
  ⟨h'.rung.trans h.rung, h'.closed.trans h.closed, h.peer.trans h'.peer⟩

theorem Posts.listens (h : l.Posts l₁) : l.Listens l₁ :=
  ⟨congrArg Mailbox.rung h.self, congrArg Mailbox.closed h.self, h.peer⟩

theorem listens_processN (h : l.self.inbox.Sound) (turns : Nat) :
    l.Listens (processN turns l).2 ∧ (l.self.inbox.contents.length < turns →
      (processN turns l).2.self.inbox.letters.asleep = true) := by
  induction turns generalizing l with
  | zero => exact ⟨Posts.refl.listens, fun enough ↦ absurd enough (Nat.not_lt_zero _)⟩
  | succ turns ih =>
    have received : l.Listens l.receive.2 := ⟨rfl, rfl, .refl⟩
    match letters : l.self.inbox.contents with
    | [] =>
      obtain ⟨b, found, -⟩ := h.receive_nil letters
      rw [processN]
      rw [receive, found] at received ⊢
      have sleeps : b.letters.asleep = true := by
        have asleep := h.asleep_receive letters
        rwa [found] at asleep
      exact ⟨received, fun _ ↦ sleeps⟩
    | c :: rest =>
      obtain ⟨b, found, sound, left⟩ := h.receive_cons letters
      rw [processN]
      rw [receive, found] at received ⊢
      have kept : ((l.modifySelf ({ · with inbox := b })).obey c).2.self.inbox = b :=
        (obey_self _ c).1
      obtain ⟨others, asleep⟩ := ih (kept.symm ▸ sound)
      refine ⟨(received.trans (Posts.obey _ c).listens).trans others, fun enough ↦ asleep ?_⟩
      rw [kept]
      exact left ▸ Nat.lt_of_succ_lt_succ enough

theorem listens_process (h : l.self.inbox.Sound) :
    l.Listens l.process.2 ∧ l.process.2.self.inbox.letters.asleep = true := by
  obtain ⟨listens, asleep⟩ := listens_processN h (l.self.inbox.letters.queue.length + 1)
  exact ⟨listens, asleep (length_contents_lt h)⟩

theorem Sound.listens_process (h : l.Sound) :
    l.Listens l.process.2 ∧ l.process.2.self.inbox.letters.asleep = true :=
  Link.listens_process h.self.inbox

/-- All that an owner does to the inbox of the peer, unless it lets go of its end. -/
theorem Sound.posted_perform (h : l.Sound) {c : Call} (kept : c ≠ .abandon) :
    l.peer.inbox.Posted (l.perform c).peer.inbox := by
  by_cases heard : c = .process
  · subst heard
    exact h.listens_process.1.peer
  · by_cases asked : c = .poll
    · subst asked
      exact .refl
    · exact (Posts.perform l ⟨heard, asked, kept⟩).peer

end Link

end Pipe

end Conduit
