import Conduit.Pipe.Link
import Conduit.Proofs.ChannelContents

namespace Conduit.Pipe

def Item.more : Item → Bool
  | .frame m => m.more
  | .delimiter => false

def State.writes : State → Bool
  | .active | .delimiterReceived | .waitingForDelimiter | .terminating => true
  | .termAckSent | .doubleTerminated | .terminated => false

def State.reads : State → Bool
  | .active | .waitingForDelimiter => true
  | _ => false

theorem Endpoint.canRead_eq (e : Endpoint) : e.canRead = e.state.reads := by
  cases h : e.state <;> simp [Endpoint.canRead, State.reads, h]

namespace Lane

def Ordered (items : List Item) : Prop := items.Pairwise fun x y ↦ x = .delimiter → y = .delimiter

structure Sound (l : Lane) : Prop where
  writing : l.writing.Sound
  fresh : ∀ c ∈ l.fresh, c.Blank
  unfinished : ∀ x ∈ l.writing.unfinished, x.more = true
  ordered : Ordered l.writing.queue.toList

theorem Ordered.concat_delimiter {items : List Item} (h : Ordered items) :
    Ordered (items ++ [.delimiter]) := by
  refine List.pairwise_append.mpr ⟨h, List.pairwise_singleton _ _, ?_⟩
  intro x _ y hy _
  exact List.mem_singleton.mp hy

theorem Ordered.concat {items : List Item} (h : Ordered items) (unended : .delimiter ∉ items)
    (x : Item) : Ordered (items ++ [x]) := by
  refine List.pairwise_append.mpr ⟨h, List.pairwise_singleton _ _, ?_⟩
  rintro y hy z - rfl
  exact absurd hy unended

theorem reading_eq_writing {l : Lane} (h : l.fresh = []) : l.reading = l.writing := by
  simp [reading, h]

theorem reading_mem_fresh {l : Lane} (h : l.fresh ≠ []) : l.reading ∈ l.fresh := by
  rw [reading, List.getLast?_eq_some_getLast h, Option.getD_some]
  exact List.getLast_mem h

theorem Sound.reading_blank {l : Lane} (h : l.Sound) (moved : l.fresh ≠ []) : l.reading.Blank :=
  h.fresh _ (reading_mem_fresh moved)

theorem Sound.reading {l : Lane} (h : l.Sound) : l.reading.Sound := by
  by_cases moved : l.fresh = []
  · rw [reading_eq_writing moved]
    exact h.writing
  · exact (h.reading_blank moved).toSound

@[simp] theorem reading_setReading (l : Lane) (c : Channel Item) :
    (l.setReading c).reading = c := by
  unfold setReading
  split
  · rename_i h
    simp [Lane.reading, h]
  · simp [Lane.reading]

@[simp] theorem length_fresh_setReading (l : Lane) (c : Channel Item) :
    (l.setReading c).fresh.length = l.fresh.length := by
  unfold setReading
  split
  · rfl
  · rename_i h
    have : 0 < l.fresh.length := List.length_pos_iff.mpr (fun hnil ↦ h hnil)
    simp only [List.length_append, List.length_dropLast, List.length_singleton]
    omega

theorem setReading_of_nil {l : Lane} (h : l.fresh = []) (c : Channel Item) :
    l.setReading c = { l with writing := c } := by
  simp [setReading, h]

@[simp] theorem writing_setReading {l : Lane} (h : l.fresh ≠ []) (c : Channel Item) :
    (l.setReading c).writing = l.writing := by
  unfold setReading
  split
  · contradiction
  · rfl

theorem Sound.setReading {l : Lane} (h : l.Sound) {c : Channel Item} {r : List Item}
    (held : c.Holds r l.reading.awaiting l.reading.unfinished)
    (taken : r <:+ l.reading.readable) : (l.setReading c).Sound := by
  by_cases moved : l.fresh = []
  · rw [setReading_of_nil moved]
    rw [reading_eq_writing moved] at held taken
    refine ⟨held.sound, h.fresh, ?_, ?_⟩
    · rw [held.unfinished]
      exact h.unfinished
    · have shorter : c.queue.toList <:+ l.writing.queue.toList := by
        rw [held.toList_eq, h.writing.toList_eq, List.append_assoc, List.append_assoc]
        obtain ⟨gone, hgone⟩ := taken
        exact ⟨gone, by rw [← hgone, List.append_assoc]⟩
      exact h.ordered.sublist shorter.sublist
  · have hblank := (h.reading_blank moved).holds
    rw [hblank.readable, List.suffix_nil] at taken
    rw [hblank.awaiting, hblank.unfinished, taken] at held
    refine ⟨?_, ?_, ?_, ?_⟩
    · rw [writing_setReading moved]
      exact h.writing
    · intro d hd
      unfold Lane.setReading at hd
      split at hd
      · contradiction
      · rcases List.mem_append.mp hd with hd | hd
        · exact h.fresh d (List.dropLast_subset _ hd)
        · rw [List.mem_singleton.mp hd]
          exact held.blank
    · rw [writing_setReading moved]
      exact h.unfinished
    · rw [writing_setReading moved]
      exact h.ordered

theorem Sound.renew {l : Lane} (h : l.Sound) {size : Nat} (pos : 0 < size) :
    (l.renew size).Sound := by
  refine ⟨h.writing, ?_, h.unfinished, h.ordered⟩
  intro c hc
  rcases List.mem_append.mp hc with hc | hc
  · exact h.fresh c hc
  · rw [List.mem_singleton.mp hc]
    exact .create pos

theorem Sound.follow {l : Lane} (h : l.Sound) : l.follow.Sound := by
  unfold Lane.follow
  split
  · exact h
  · rename_i next fresh hfresh
    have hnext : next.Blank := h.fresh next (by rw [hfresh]; exact List.mem_cons_self)
    refine ⟨hnext.toSound, ?_, ?_, ?_⟩
    · intro c hc
      exact h.fresh c (by rw [hfresh]; exact List.mem_cons_of_mem _ hc)
    · simp [hnext.holds.unfinished]
    · simp [hnext.items, Ordered]

theorem Sound.follow_blank {l : Lane} (h : l.Sound) (moved : l.fresh ≠ []) :
    l.follow.writing.Blank := by
  unfold Lane.follow
  split
  · contradiction
  · rename_i next fresh hfresh
    exact h.fresh next (by rw [hfresh]; exact List.mem_cons_self)

theorem length_fresh_follow (l : Lane) : l.follow.fresh.length = l.fresh.length - 1 := by
  unfold follow
  split
  · rename_i h
    rw [h]
    rfl
  · rename_i h
    rw [h]
    rfl

end Lane

structure Endpoint.Sound (e : Endpoint) : Prop where
  chunkSize_pos : 0 < e.chunkSize
  lane : e.lane.Sound
  inbox : e.inbox.Sound
  /-- Each queue that the reader moved on to was announced. -/
  hiccups : e.inbox.contents.count .hiccup = e.lane.fresh.length
  unended : e.state = .active → .delimiter ∉ e.lane.writing.queue.toList
  outOpen : e.outOpen = e.state.writes
  inOpen : e.inOpen = (e.state != .terminated)

namespace Endpoint

structure SameQueues (e d : Endpoint) : Prop where
  state : e.state = d.state
  inOpen : e.inOpen = d.inOpen
  outOpen : e.outOpen = d.outOpen
  chunkSize : e.chunkSize = d.chunkSize
  lane : e.lane = d.lane
  letters : e.inbox.letters = d.inbox.letters

/-- Two records that differ in no more than marks, flags for the owner, and what was kept of
credentials and routing ids. -/
structure SameBooks (e d : Endpoint) : Prop extends e.SameQueues d where
  messagesRead : e.messagesRead = d.messagesRead
  messagesWritten : e.messagesWritten = d.messagesWritten

theorem SameQueues.of_eq {e d : Endpoint}
    (h : (e.state, e.inOpen, e.outOpen, e.chunkSize, e.lane, e.inbox.letters) =
      (d.state, d.inOpen, d.outOpen, d.chunkSize, d.lane, d.inbox.letters)) : e.SameQueues d := by
  simp only [Prod.mk.injEq] at h
  obtain ⟨state, inOpen, outOpen, chunkSize, lane, letters⟩ := h
  exact ⟨state, inOpen, outOpen, chunkSize, lane, letters⟩

theorem SameBooks.of_eq {e d : Endpoint} (h : (e.state, e.inOpen, e.outOpen, e.chunkSize, e.lane,
      e.inbox.letters, e.messagesRead, e.messagesWritten) = (d.state, d.inOpen, d.outOpen,
      d.chunkSize, d.lane, d.inbox.letters, d.messagesRead, d.messagesWritten)) :
    e.SameBooks d := by
  simp only [Prod.mk.injEq] at h
  obtain ⟨state, inOpen, outOpen, chunkSize, lane, letters, read, written⟩ := h
  exact ⟨⟨state, inOpen, outOpen, chunkSize, lane, letters⟩, read, written⟩

theorem SameBooks.refl {e : Endpoint} : e.SameBooks e := .of_eq rfl

theorem SameQueues.contents {e d : Endpoint} (h : e.SameQueues d) :
    e.inbox.contents = d.inbox.contents := by
  rw [Mailbox.contents, Mailbox.contents, h.letters]

theorem Sound.of_sameQueues {e d : Endpoint} (h : d.Sound) (same : e.SameQueues d) : e.Sound where
  chunkSize_pos := same.chunkSize ▸ h.chunkSize_pos
  lane := same.lane ▸ h.lane
  inbox := by
    have hinbox := h.inbox
    rw [Mailbox.Sound, ← same.contents, ← same.letters] at hinbox
    exact hinbox
  hiccups := by rw [same.contents, same.lane, h.hiccups]
  unended := by rw [same.state, same.lane]; exact h.unended
  outOpen := by rw [same.outOpen, same.state, h.outOpen]
  inOpen := by rw [same.inOpen, same.state, h.inOpen]

theorem Sound.send {e : Endpoint} (h : e.Sound) {c : Command} (hc : c ≠ .hiccup) :
    { e with inbox := e.inbox.send c }.Sound := by
  obtain ⟨hsound, hcontents⟩ := h.inbox.send c
  refine ⟨h.chunkSize_pos, h.lane, hsound, ?_, h.unended, h.outOpen, h.inOpen⟩
  rw [hcontents, List.count_append, List.count_singleton, if_neg (by simpa using hc)]
  exact h.hiccups

theorem Sound.announce {e : Endpoint} (h : e.Sound) {size : Nat} (pos : 0 < size) :
    { e with lane := e.lane.renew size, inbox := e.inbox.send .hiccup }.Sound := by
  obtain ⟨hsound, hcontents⟩ := h.inbox.send .hiccup
  refine ⟨h.chunkSize_pos, h.lane.renew pos, hsound, ?_, h.unended, h.outOpen, h.inOpen⟩
  rw [hcontents, List.count_append, h.hiccups]
  simp [Lane.renew]

theorem Sound.setReading {e : Endpoint} (h : e.Sound) {c : Channel Item} {r : List Item}
    (held : c.Holds r e.lane.reading.awaiting e.lane.reading.unfinished)
    (taken : r <:+ e.lane.reading.readable) :
    { e with lane := e.lane.setReading c }.Sound := by
  refine ⟨h.chunkSize_pos, h.lane.setReading held taken, h.inbox, ?_, ?_, h.outOpen, h.inOpen⟩
  · rw [Lane.length_fresh_setReading]
    exact h.hiccups
  · intro active hmem
    apply h.unended active
    by_cases moved : e.lane.fresh = []
    · simp only [Lane.setReading_of_nil moved, held.toList_eq, Lane.reading_eq_writing moved]
        at hmem taken
      rw [h.lane.writing.toList_eq]
      simp only [List.mem_append] at hmem ⊢
      exact hmem.imp_left (Or.imp_left (taken.mem ·))
    · simpa only [Lane.writing_setReading moved] using hmem

theorem Sound.setWriting {e : Endpoint} (h : e.Sound) {c : Channel Item} (sound : c.Sound)
    (unfinished : ∀ x ∈ c.unfinished, x.more = true) (ordered : Lane.Ordered c.queue.toList)
    (unended : e.state = .active → .delimiter ∉ c.queue.toList) :
    { e with lane := { e.lane with writing := c } }.Sound :=
  ⟨h.chunkSize_pos, ⟨sound, h.lane.fresh, unfinished, ordered⟩, h.inbox, h.hiccups, unended,
    h.outOpen, h.inOpen⟩

theorem Sound.setState {e : Endpoint} (h : e.Sound) {state : State} (hs : state ≠ .active)
    {inOpen outOpen : Bool} (hout : outOpen = state.writes)
    (hin : inOpen = (state != .terminated)) :
    { e with state, inOpen, outOpen }.Sound :=
  ⟨h.chunkSize_pos, h.lane, h.inbox, h.hiccups, fun active ↦ absurd active hs, hout, hin⟩

theorem Sound.setInbox {e : Endpoint} (h : e.Sound) {b : Mailbox Command} (sound : b.Sound)
    (hiccups : b.contents.count .hiccup = e.inbox.contents.count .hiccup) :
    { e with inbox := b }.Sound :=
  ⟨h.chunkSize_pos, h.lane, sound, hiccups.trans h.hiccups, h.unended, h.outOpen, h.inOpen⟩

theorem Sound.follow {e : Endpoint} (h : e.Sound) {b : Mailbox Command} {rest : List Command}
    (letters : e.inbox.contents = .hiccup :: rest) (sound : b.Sound) (left : b.contents = rest) :
    { e with lane := e.lane.follow, inbox := b }.Sound := by
  have hcount := h.hiccups
  rw [letters, List.count_cons_self] at hcount
  refine ⟨h.chunkSize_pos, h.lane.follow, sound, ?_, ?_, h.outOpen, h.inOpen⟩
  · rw [left, Lane.length_fresh_follow]
    omega
  · intro _
    have moved : e.lane.fresh ≠ [] := List.ne_nil_of_length_pos (by omega)
    rw [(h.lane.follow_blank moved).items]
    exact List.not_mem_nil

end Endpoint

end Conduit.Pipe
