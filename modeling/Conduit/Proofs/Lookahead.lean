import Conduit.Proofs.CallDeeds

namespace Conduit

namespace Channel

variable {α : Type}

/-- A reader that looks twice finds nothing else, nor does it move on any further. -/
theorem checkRead_checkRead (c : Channel α) : c.checkRead.2.checkRead = c.checkRead := by
  unfold checkRead
  by_cases ahead : c.queue.frontPos = c.limit
  · rw [if_neg (not_not_intro ahead)]
    cases asleep : c.asleep with
    | true => simp [ahead, asleep]
    | false =>
      by_cases drained : c.published = c.limit
      · simp [ahead, drained]
      · simp [ahead, Ne.symm drained, drained]
  · simp [ahead]

theorem peek_snd (c : Channel α) : c.peek.2 = c.checkRead.2 := by
  unfold peek
  split <;> rename_i found <;> rw [found]

theorem read_peek (c : Channel α) : c.peek.2.read = c.read := by
  rw [peek_snd, read, checkRead_checkRead]
  rfl

theorem queue_peek (c : Channel α) : c.peek.2.queue = c.queue := by
  rw [peek_snd]
  unfold checkRead
  repeat' split
  all_goals rfl

end Channel

namespace Pipe

namespace Lane

theorem setReading_setReading (l : Lane) (c d : Channel Item) :
    (l.setReading c).setReading d = l.setReading d := by
  obtain ⟨writing, fresh⟩ := l
  match fresh with
  | [] => rfl
  | next :: others =>
    simp [setReading]

end Lane

structure Item.Passed (credentials : List Message) (rest items : List Item) : Prop where
  items : items = credentials.map .frame ++ rest
  credentials : ∀ m ∈ credentials, m.isCredential = true
  ends : rest = [] ∨ rest.head? = some .delimiter

theorem Item.answer_eq_none_iff (items : List Item) :
    answer items = none ↔ ∃ credentials rest, Passed credentials rest items := by
  induction items with
  | nil => exact ⟨fun _ ↦ ⟨[], [], rfl, List.forall_mem_nil _, .inl rfl⟩, fun _ ↦ rfl⟩
  | cons x items ih =>
    cases x with
    | delimiter => exact ⟨fun _ ↦ ⟨[], _, rfl, List.forall_mem_nil _, .inr rfl⟩, fun _ ↦ rfl⟩
    | frame m =>
      rw [answer]
      constructor
      · intro unanswered
        split at unanswered
        · rename_i credential
          obtain ⟨credentials, rest, rfl, all, ends⟩ := ih.mp unanswered
          exact ⟨m :: credentials, rest, rfl, List.forall_mem_cons.mpr ⟨credential, all⟩, ends⟩
        · contradiction
      · rintro ⟨_ | ⟨m', credentials⟩, rest, items, all, ends⟩
        · rw [List.map_nil, List.nil_append] at items
          subst items
          exact absurd ends (by simp)
        · simp only [List.map_cons, List.cons_append, List.cons.injEq, Item.frame.injEq] at items
          obtain ⟨rfl, rfl⟩ := items
          obtain ⟨credential, all⟩ := List.forall_mem_cons.mp all
          rw [if_pos credential]
          exact ih.mpr ⟨credentials, rest, rfl, all, ends⟩

/-- Credentials in front, and no other frame behind them before the end or a delimiter. -/
def Item.OnlyCredentials (items : List Item) : Prop :=
  ∃ credentials rest, credentials ≠ [] ∧ Passed credentials rest items

theorem Item.OnlyCredentials.starts {items : List Item} (h : OnlyCredentials items) :
    ∃ m rest, items = .frame m :: rest := by
  obtain ⟨_ | ⟨m, credentials⟩, rest, nonempty, rfl, -⟩ := h
  · exact absurd rfl nonempty
  · exact ⟨m, _, rfl⟩

theorem Item.onlyCredentials_iff (m : Message) (items : List Item) :
    OnlyCredentials (.frame m :: items) ↔ answer (.frame m :: items) = none := by
  rw [answer_eq_none_iff]
  constructor
  · rintro ⟨credentials, rest, -, passed⟩
    exact ⟨credentials, rest, passed⟩
  · rintro ⟨credentials, rest, passed⟩
    refine ⟨credentials, rest, ?_, passed⟩
    rintro rfl
    have ends := passed.ends
    rw [← List.nil_append rest, ← List.map_nil, ← passed.items] at ends
    exact absurd ends (by simp)

namespace Link

variable {l : Link}

@[simp] theorem setInbound_setInbound (l : Link) (c d : Channel Item) :
    (l.setInbound c).setInbound d = l.setInbound d := by
  simp only [setInbound, Lane.setReading_setReading]

theorem readItem_peek (opened : l.self.inOpen = true) :
    (l.setInbound l.inbound.peek.2).readItem = l.readItem := by
  have still : (l.setInbound l.inbound.peek.2).self.inOpen = true := opened
  rw [readItem, readItem, if_pos still, if_pos opened]
  simp only [inbound_setInbound, setInbound_setInbound, Channel.read_peek]

theorem readN_peek (opened : l.self.inOpen = true) (turns : Nat) :
    readN (turns + 1) (l.setInbound l.inbound.peek.2) = readN (turns + 1) l := by
  rw [readN, readN, readItem_peek opened]

theorem reads_meetDelimiter (l : Link) (reads : l.self.state.reads = true) :
    l.meetDelimiter.self.state.reads = false := by
  unfold meetDelimiter
  split
  · rfl
  · rfl
  · cases state : l.self.state <;> simp_all [State.reads]

theorem Sound.checkRead_iff (h : l.Sound) : l.checkRead.1 = true ↔
    l.self.state.reads = true ∧ ∃ m rest, l.inbound.readable = .frame m :: rest := by
  cases reads : l.self.state.reads with
  | false =>
    rw [checkRead_of_not_reads reads]
    simp
  | true =>
    have opened : ¬(!l.self.canRead || !l.self.inOpen) = true := by
      rw [l.self.canRead_eq, reads, h.inOpen reads]
      exact Bool.false_ne_true
    have held := h.inbound.holds
    rw [Link.checkRead, if_neg opened]
    cases front : l.inbound.readable using Item.front_cases with
    | nothing =>
      rw [front] at held
      obtain ⟨c, found, -⟩ := held.peek_nil
      simp [found]
    | frame m rest =>
      rw [front] at held
      obtain ⟨c, found, -⟩ := held.peek_cons
      simp [found]
    | delimiter rest =>
      rw [front] at held
      obtain ⟨c, found, -⟩ := held.peek_cons
      simp [found]

theorem Sound.read_checkRead (h : l.Sound) : l.checkRead.2.read = l.read := by
  cases reads : l.self.state.reads with
  | false => rw [checkRead_of_not_reads reads]
  | true =>
    have opens := h.inOpen reads
    have canRead : l.self.canRead = true := by rw [l.self.canRead_eq, reads]
    have held := h.inbound.holds
    have looked : (l.setInbound l.inbound.peek.2).read = l.read := by
      have canRead' : (l.setInbound l.inbound.peek.2).self.canRead = true := canRead
      rw [Link.read, Link.read, if_pos canRead, if_pos canRead', inbound_setInbound,
        Channel.queue_peek, readN_peek opens]
    rw [Link.checkRead, if_neg (by simp [canRead, opens])]
    cases front : l.inbound.readable using Item.front_cases with
    | nothing =>
      rw [front] at held
      obtain ⟨c, found, -⟩ := held.peek_nil
      obtain ⟨d, taken, -⟩ := held.read_nil
      have again := l.inbound.read_peek
      rw [found, taken] at again
      have idle : (l.setInbound c).fallIdle.readItem = (none, (l.setInbound d).fallIdle) := by
        have opens' : (l.setInbound c).fallIdle.self.inOpen = true := opens
        have inbound : (l.setInbound c).fallIdle.inbound = c := inbound_setInbound l c
        rw [readItem, if_pos opens', inbound, again]
        exact congrArg (none, ·.fallIdle) (setInbound_setInbound l c d)
      have canRead' : (l.setInbound c).fallIdle.self.canRead = true := canRead
      simp only [found]
      rw [Link.read, Link.read, if_pos canRead, if_pos canRead', Link.readN, Link.readN, idle,
        readItem, if_pos opens, taken]
      rfl
    | frame m rest =>
      rw [front] at held
      obtain ⟨c, found, -⟩ := held.peek_cons
      rw [found] at looked ⊢
      exact looked
    | delimiter rest =>
      rw [front] at held
      obtain ⟨c, found, -⟩ := held.peek_cons
      obtain ⟨d, taken, -⟩ := held.read_cons
      have again := l.inbound.read_peek
      rw [found, taken] at again
      simp only [found, inbound_setInbound, setInbound_setInbound, again]
      have ended := reads_meetDelimiter (l.setInbound d) reads
      rw [read_of_not_reads ended, Link.read, if_pos canRead, Link.readN,
        readItem, if_pos opens, taken]

end Link

namespace Pair

/-- Whatever the owners of a pipe did, a look does not change what a read comes to. It finds each
frame that a read would return, and another one exactly if there are only credentials to read. -/
theorem look_agrees_iff {s : Settings} (some_room : 0 < s.chunkSize) (calls : List (Side × Call))
    (side : Side) :
    let l := ((ofSettings s).run calls).link side
    l.checkRead.2.read = l.read ∧
      (l.read.1.isSome = true → l.checkRead.1 = true) ∧
      ((l.checkRead.1 = true ↔ l.read.1.isSome = true) ↔
        ¬(l.self.state.reads = true ∧ Item.OnlyCredentials l.inbound.readable)) := by
  intro l
  have sound : l.Sound := (@run_keep side calls (ofSettings s) (fun _ ↦ True)
    (fun _ _ _ ↦ trivial) (fun _ _ _ ↦ trivial) (ofSettings_sound some_room side) trivial).1
  have looked := sound.checkRead_iff
  refine ⟨sound.read_checkRead, ?_⟩
  cases reads : l.self.state.reads with
  | false => simp [Link.read_of_not_reads reads, Link.checkRead_of_not_reads reads]
  | true =>
    rw [(sound.read reads).1]
    match front : l.inbound.readable with
    | [] | .delimiter :: _ =>
      rw [front] at looked
      have nothing : ¬l.checkRead.1 = true := by simp [looked]
      refine ⟨nofun, iff_of_true (iff_of_false nothing nofun) ?_⟩
      rintro ⟨-, only⟩
      obtain ⟨m, rest, starts⟩ := only.starts
      exact absurd starts nofun
    | .frame m :: rest =>
      have found : l.checkRead.1 = true := looked.mpr ⟨reads, m, rest, front⟩
      rw [Item.onlyCredentials_iff]
      simp [found, Option.isSome_iff_ne_none]

/-- A look finds a credential, and a read then returns nothing. -/
theorem look_finds_credential :
    let calls : List (Side × Call) := [(.first, .write { flags := Flag.credential }),
      (.first, .flush)]
    let l := ((ofSettings {}).run calls).link .second
    l.checkRead.1 = true ∧ l.read.1 = none ∧ l.checkRead.2.read.1 = none :=
  ⟨rfl, rfl, rfl⟩

/-- With another frame behind the credential the look is right. -/
theorem look_agrees_past_credential :
    let calls : List (Side × Call) := [(.first, .write { flags := Flag.credential }),
      (.first, .write {}), (.first, .flush)]
    let l := ((ofSettings {}).run calls).link .second
    0 < ({} : Settings).chunkSize ∧ l.checkRead.1 = true ∧ l.read.1 = some {} ∧
      l.checkRead.2.read = l.read :=
  ⟨by decide, rfl, rfl, (look_agrees_iff (s := {}) (by decide) _ .second).1⟩

end Pair

end Pipe

end Conduit
