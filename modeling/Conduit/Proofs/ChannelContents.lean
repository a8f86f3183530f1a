import Conduit.Mailbox
import Conduit.Proofs.ChunkLayout
import Mathlib.Data.List.Induction

namespace Conduit.Channel

variable {α : Type}

def readable (c : Channel α) : List α := c.queue.toList.take (c.published - c.queue.frontPos)

def awaiting (c : Channel α) : List α :=
  (c.queue.toList.take (c.complete - c.queue.frontPos)).drop (c.published - c.queue.frontPos)

def unfinished (c : Channel α) : List α := c.queue.toList.drop (c.complete - c.queue.frontPos)

/-- The limits lie in order between the two ends of the queue, and a reader that fell asleep has
read all that was published. -/
structure Sound (c : Channel α) : Prop where
  queue : c.queue.Sound
  front_le : c.queue.frontPos ≤ c.limit
  limit_le : c.limit ≤ c.published
  published_le : c.published ≤ c.complete
  complete_le : c.complete ≤ c.queue.backPos
  asleep : c.asleep = true → c.queue.frontPos = c.published

structure Blank (c : Channel α) : Prop extends c.Sound where
  items : c.queue.toList = []

theorem Sound.create {size : Nat} (h : 0 < size) : (create size : Channel α).Sound where
  queue := .empty h
  front_le := Nat.le_refl _
  limit_le := Nat.le_refl _
  published_le := Nat.le_refl _
  complete_le := Nat.le_refl _
  asleep := fun _ ↦ rfl

theorem Blank.create {size : Nat} (h : 0 < size) : (create size : Channel α).Blank :=
  { Sound.create h with items := rfl }

theorem Sound.toList_eq {c : Channel α} (h : c.Sound) :
    c.queue.toList = c.readable ++ c.awaiting ++ c.unfinished := by
  have hle := Nat.sub_le_sub_right h.published_le c.queue.frontPos
  have published := List.take_append_drop (c.published - c.queue.frontPos)
    (c.queue.toList.take (c.complete - c.queue.frontPos))
  rw [List.take_take, Nat.min_eq_left hle] at published
  unfold readable awaiting unfinished
  rw [published, List.take_append_drop]

theorem Sound.lengths {c : Channel α} (h : c.Sound) :
    c.queue.frontPos + c.readable.length = c.published ∧
    c.published + c.awaiting.length = c.complete ∧
    c.complete + c.unfinished.length = c.queue.backPos := by
  have hlen := h.queue.length_eq
  have h₁ := h.front_le
  have h₂ := h.limit_le
  have h₃ := h.published_le
  have h₄ := h.complete_le
  simp only [readable, awaiting, unfinished, List.length_take, List.length_drop]
  omega

structure Holds (c : Channel α) (r a u : List α) : Prop where
  sound : c.Sound
  readable : c.readable = r
  awaiting : c.awaiting = a
  unfinished : c.unfinished = u

theorem Sound.holds {c : Channel α} (h : c.Sound) :
    c.Holds c.readable c.awaiting c.unfinished := ⟨h, rfl, rfl, rfl⟩

theorem Holds.toList_eq {c : Channel α} {r a u : List α} (h : c.Holds r a u) :
    c.queue.toList = r ++ a ++ u := by
  rw [h.sound.toList_eq, h.readable, h.awaiting, h.unfinished]

theorem Holds.lengths {c : Channel α} {r a u : List α} (h : c.Holds r a u) :
    c.queue.frontPos + r.length = c.published ∧ c.published + a.length = c.complete ∧
    c.complete + u.length = c.queue.backPos := by
  have hlen := h.sound.lengths
  rwa [h.readable, h.awaiting, h.unfinished] at hlen

/-- The three runs follow from the list of all items and the two limits between them. -/
theorem Holds.of_limits {c : Channel α} {r a u : List α} (queue : c.queue.Sound)
    (items : c.queue.toList = r ++ a ++ u)
    (hr : c.queue.frontPos + r.length = c.published) (ha : c.published + a.length = c.complete)
    (front_le : c.queue.frontPos ≤ c.limit) (limit_le : c.limit ≤ c.published)
    (asleep : c.asleep = true → r = []) : c.Holds r a u := by
  have hp : c.published - c.queue.frontPos = r.length := by omega
  have hc : c.complete - c.queue.frontPos = (r ++ a).length := by
    rw [List.length_append]
    omega
  have hlen := queue.length_eq
  rw [items, List.length_append, List.length_append] at hlen
  refine ⟨⟨queue, front_le, limit_le, by omega, by omega, ?_⟩, ?_, ?_, ?_⟩
  · intro ha
    rw [asleep ha, List.length_nil] at hr
    omega
  · rw [Channel.readable, items, hp, List.append_assoc, List.take_left]
  · rw [Channel.awaiting, items, hp, hc, List.take_left, List.drop_left]
  · rw [Channel.unfinished, items, hc, List.drop_left]

theorem Holds.asleep {c : Channel α} {r a u : List α} (h : c.Holds r a u)
    (asleep : c.asleep = true) : r = [] := by
  have := h.lengths.1
  have := h.sound.asleep asleep
  exact List.length_eq_zero_iff.mp (by omega)

theorem Blank.holds {c : Channel α} (h : c.Blank) : c.Holds [] [] [] := by
  have items := h.toSound.toList_eq
  rw [h.items] at items
  have hu := (List.append_eq_nil_iff.mp items.symm)
  have hr := List.append_eq_nil_iff.mp hu.1
  exact ⟨h.toSound, hr.1, hr.2, hu.2⟩

theorem Holds.blank {c : Channel α} (h : c.Holds [] [] []) : c.Blank :=
  { h.sound with items := h.toList_eq }

theorem Holds.write_incomplete {c : Channel α} {r a u : List α} (h : c.Holds r a u) (x : α) :
    (c.write x true).Holds r a (u ++ [x]) := by
  obtain ⟨hr, ha, -⟩ := h.lengths
  apply Holds.of_limits
  · exact h.sound.queue.pushBack x
  · simp [Channel.write, h.toList_eq]
  · simpa [Channel.write] using hr
  · simpa [Channel.write] using ha
  · simpa [Channel.write] using h.sound.front_le
  · exact h.sound.limit_le
  · exact h.asleep

theorem Holds.write_whole {c : Channel α} {r a u : List α} (h : c.Holds r a u) (x : α) :
    (c.write x false).Holds r (a ++ u ++ [x]) [] := by
  obtain ⟨hr, ha, hu⟩ := h.lengths
  apply Holds.of_limits
  · exact h.sound.queue.pushBack x
  · simp [Channel.write, h.toList_eq]
  · simpa [Channel.write] using hr
  · simp only [Channel.write, ChunkQueue.backPos_pushBack, List.length_append,
      List.length_singleton, Bool.false_eq_true, if_false]
    omega
  · simpa [Channel.write] using h.sound.front_le
  · exact h.sound.limit_le
  · exact h.asleep

theorem Holds.unwrite {c : Channel α} {r a u : List α} {x : α} (h : c.Holds r a (u ++ [x])) :
    c.unwrite.2.Holds r a u := by
  obtain ⟨hr, ha, hu⟩ := h.lengths
  rw [List.length_append, List.length_singleton] at hu
  have items : c.queue.toList = r ++ a ++ u ++ [x] := by rw [h.toList_eq, ← List.append_assoc]
  obtain ⟨rest, hpop, hsound, hrest, hfront, hback⟩ := h.sound.queue.popBack_concat items
  have held : c.queue.backPos ≠ c.complete := by omega
  simp only [Channel.unwrite, if_neg held, hpop]
  apply Holds.of_limits
  · exact hsound
  · exact hrest
  · simpa only [hfront] using hr
  · exact ha
  · simpa only [hfront] using h.sound.front_le
  · exact h.sound.limit_le
  · exact h.asleep

theorem Holds.rollback {c : Channel α} {r a u : List α} (h : c.Holds r a u) :
    c.rollback.Holds r a [] := by
  have turns : c.queue.backPos - c.complete = u.length := by
    have := h.lengths.2.2
    omega
  rw [Channel.rollback, turns]
  -- the turns are counted at the start, and each one takes the last item of the run
  clear turns
  induction u using List.reverseRecOn generalizing c with
  | nil => exact h
  | append_singleton u x ih =>
    rw [List.length_append, List.length_singleton, unwriteN]
    exact ih h.unwrite

theorem Holds.flush {c : Channel α} {r a u : List α} (h : c.Holds r a u) :
    c.flush.2.Holds (r ++ a) [] u := by
  obtain ⟨hr, ha, -⟩ := h.lengths
  unfold Channel.flush
  split
  · rename_i none_awaiting
    have : a = [] := List.length_eq_zero_iff.mp (by omega)
    subst this
    rwa [List.append_nil]
  · apply Holds.of_limits
    · exact h.sound.queue
    · rw [h.toList_eq, List.append_nil]
    · rw [List.length_append]
      simp only
      omega
    · rfl
    · exact h.sound.front_le
    · exact Nat.le_trans h.sound.limit_le h.sound.published_le
    · exact fun ha ↦ absurd ha Bool.false_ne_true

theorem Holds.checkRead_nil {c : Channel α} {a u : List α} (h : c.Holds [] a u) :
    ∃ d, c.checkRead = (false, d) ∧ d.Holds [] a u := by
  obtain ⟨hr, ha, -⟩ := h.lengths
  rw [List.length_nil] at hr
  have hfront := h.sound.front_le
  have hlimit := h.sound.limit_le
  have reached : ¬ c.queue.frontPos ≠ c.limit := by omega
  unfold checkRead
  rw [if_neg reached]
  split
  · exact ⟨c, rfl, h⟩
  · rw [if_pos (by omega)]
    exact ⟨_, rfl, .of_limits h.sound.queue h.toList_eq hr ha hfront hlimit (fun _ ↦ rfl)⟩

theorem Holds.checkRead_cons {c : Channel α} {x : α} {r a u : List α}
    (h : c.Holds (x :: r) a u) :
    ∃ d, c.checkRead = (true, d) ∧ d.Holds (x :: r) a u ∧ d.queue.frontPos < d.limit := by
  obtain ⟨hr, ha, -⟩ := h.lengths
  have hlen : (x :: r).length = r.length + 1 := rfl
  have hfront := h.sound.front_le
  have hlimit := h.sound.limit_le
  unfold checkRead
  split
  · exact ⟨c, rfl, h, by omega⟩
  · rename_i reached
    have awake : ¬ c.asleep = true := fun ha ↦ List.cons_ne_nil _ _ (h.asleep ha)
    rw [if_neg awake, if_neg (by omega)]
    refine ⟨_, rfl, .of_limits h.sound.queue h.toList_eq hr ha ?_ (Nat.le_refl _) h.asleep, ?_⟩
    · simp only
      omega
    · simp only
      omega

theorem Holds.read_nil {c : Channel α} {a u : List α} (h : c.Holds [] a u) :
    ∃ d, c.read = (none, d) ∧ d.Holds [] a u := by
  obtain ⟨d, hd, hheld⟩ := h.checkRead_nil
  exact ⟨d, by rw [Channel.read, hd], hheld⟩

theorem Holds.read_cons {c : Channel α} {x : α} {r a u : List α} (h : c.Holds (x :: r) a u) :
    ∃ d, c.read = (some x, d) ∧ d.Holds r a u := by
  obtain ⟨d, hd, hheld, seen⟩ := h.checkRead_cons
  obtain ⟨hr, ha, -⟩ := hheld.lengths
  rw [List.length_cons] at hr
  have items : d.queue.toList = x :: (r ++ a ++ u) := hheld.toList_eq
  obtain ⟨rest, hpop, hsound, hrest, hfront, hback⟩ := hheld.sound.queue.popFront_cons items
  refine ⟨{ d with queue := rest }, by simp only [Channel.read, hd, hpop], ?_⟩
  apply Holds.of_limits
  · exact hsound
  · exact hrest
  · simp only [hfront]
    omega
  · exact ha
  · simp only [hfront]
    omega
  · exact hheld.sound.limit_le
  · exact fun asleep ↦ absurd (hheld.asleep asleep) (List.cons_ne_nil _ _)

theorem Holds.peek_nil {c : Channel α} {a u : List α} (h : c.Holds [] a u) :
    ∃ d, c.peek = (none, d) ∧ d.Holds [] a u := by
  obtain ⟨d, hd, hheld⟩ := h.checkRead_nil
  exact ⟨d, by rw [peek, hd], hheld⟩

theorem Holds.peek_cons {c : Channel α} {x : α} {r a u : List α} (h : c.Holds (x :: r) a u) :
    ∃ d, c.peek = (some x, d) ∧ d.Holds (x :: r) a u := by
  obtain ⟨d, hd, hheld, -⟩ := h.checkRead_cons
  refine ⟨d, ?_, hheld⟩
  rw [peek, hd]
  simp only [hheld.sound.queue.front?_eq, hheld.toList_eq, List.cons_append, List.head?_cons]

theorem Holds.readN {c : Channel α} {r a u : List α} (h : c.Holds r a u) {turns : Nat}
    (enough : r.length < turns) :
    (readN turns c).1 = r ∧ (readN turns c).2.Holds [] a u := by
  induction turns generalizing c r with
  | zero => omega
  | succ turns ih =>
    cases r with
    | nil =>
      obtain ⟨d, hd, hheld⟩ := h.read_nil
      simp only [Channel.readN, hd]
      exact ⟨trivial, hheld⟩
    | cons x r =>
      obtain ⟨d, hd, hheld⟩ := h.read_cons
      rw [List.length_cons] at enough
      obtain ⟨hr, hrest⟩ := ih hheld (by omega)
      simp only [Channel.readN, hd, hr]
      exact ⟨trivial, hrest⟩

theorem Holds.readAll {c : Channel α} {r a u : List α} (h : c.Holds r a u) :
    c.readAll.1 = r ∧ c.readAll.2.Holds [] a u := by
  apply h.readN
  have hlen := h.sound.queue.length_eq
  rw [h.toList_eq, List.length_append, List.length_append] at hlen
  rw [ChunkQueue.length]
  omega

end Conduit.Channel

namespace Conduit.Mailbox

variable {α : Type}

def contents (b : Mailbox α) : List α := b.letters.queue.toList

def Sound (b : Mailbox α) : Prop := b.letters.Holds b.contents [] []

theorem Sound.of_holds {b : Mailbox α} {r : List α} (h : b.letters.Holds r [] []) :
    b.Sound ∧ b.contents = r := by
  have items : b.contents = r := by rw [contents, h.toList_eq, List.append_nil, List.append_nil]
  exact ⟨by rwa [Sound, items], items⟩

theorem create_sound : (create : Mailbox α).Sound ∧ (create : Mailbox α).contents = [] := by
  have blank : (Channel.create chunkSize : Channel α).Blank := .create (by decide)
  obtain ⟨d, hd, hheld⟩ := blank.holds.checkRead_nil
  apply Sound.of_holds
  rwa [create, hd]

theorem Sound.send {b : Mailbox α} (h : b.Sound) (x : α) :
    (b.send x).Sound ∧ (b.send x).contents = b.contents ++ [x] := by
  apply Sound.of_holds
  simpa [Mailbox.send] using (h.write_whole x).flush

theorem Sound.receive_nil {b : Mailbox α} (h : b.Sound) (none_left : b.contents = []) :
    ∃ rest, b.receive = (none, rest) ∧ rest.Sound ∧ rest.contents = [] := by
  rw [Sound, none_left] at h
  obtain ⟨d, hd, hheld⟩ := h.read_nil
  exact ⟨{ b with letters := d }, by rw [receive, hd], Sound.of_holds hheld⟩

theorem Sound.receive_cons {b : Mailbox α} (h : b.Sound) {x : α} {xs : List α}
    (letters : b.contents = x :: xs) :
    ∃ rest, b.receive = (some x, rest) ∧ rest.Sound ∧ rest.contents = xs := by
  rw [Sound, letters] at h
  obtain ⟨d, hd, hheld⟩ := h.read_cons
  exact ⟨{ b with letters := d }, by rw [receive, hd], Sound.of_holds hheld⟩

end Conduit.Mailbox
