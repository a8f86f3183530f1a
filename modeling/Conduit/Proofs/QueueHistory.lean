import Conduit.Proofs.Assertions
import Conduit.Proofs.Line
import Conduit.Proofs.SharedPosition

namespace Conduit

/-- What the two ends do with a queue. The reader may also show a predicate the item in front. -/
inductive QueueStep (α : Type) where
  | use (u : QueueUse α)
  | probe (pred : α → Bool)

def QueueStep.writes {α : Type} (steps : List (QueueStep α)) : Nat :=
  steps.countP fun
    | .use (.write ..) => true
    | _ => false

def QueueStep.looks {α : Type} : QueueStep α → Bool
  | .use .checkRead | .use .read | .probe _ => true
  | _ => false

/-- A record of what became of a queue. -/
structure History (α : Type) where
  /-- What was written and not taken back. -/
  kept : List α := []
  /-- How many of those are complete. -/
  complete : Nat := 0
  published : Nat := 0
  returned : List α := []
  /-- The reader found nothing when it looked last, and nothing was published since. -/
  missed : Bool := false

namespace History

variable {α : Type} {h : History α}

/-- What was ever published. -/
def released (h : History α) : List α := h.kept.take h.published

def next? (h : History α) : Option α := h.released[h.returned.length]?

def answer (h : History α) : QueueStep α → Reply α
  | .use (.write ..) => .none
  | .use .unwrite => .item (if h.complete < h.kept.length then h.kept.getLast? else none)
  | .use .flush => .flag !(h.published < h.complete && h.missed)
  | .use .checkRead => .flag h.next?.isSome
  | .use .read => .item h.next?
  | .probe pred => .flag (h.next?.any pred)

def look (h : History α) : History α := { h with missed := h.next?.isNone }

def note (h : History α) : QueueStep α → History α
  | .use (.write x incomplete) =>
    { h with
      kept := h.kept ++ [x]
      complete := if incomplete then h.complete else h.kept.length + 1 }
  | .use .unwrite => if h.complete < h.kept.length then { h with kept := h.kept.dropLast } else h
  | .use .flush =>
    if h.published < h.complete then { h with published := h.complete, missed := false } else h
  | .use .checkRead | .probe _ => h.look
  | .use .read => { h.look with returned := h.returned ++ h.next?.toList }

def follow : History α → List (QueueStep α) → List (Reply α) × History α
  | h, [] => ([], h)
  | h, s :: ss =>
    let (rs, after) := (h.note s).follow ss
    (h.answer s :: rs, after)

def of (steps : List (QueueStep α)) : History α := (({} : History α).follow steps).2

/-- The reader found nothing when it looked last, and nothing was published since. -/
def CameUpEmpty (steps : List (QueueStep α)) : Prop :=
  ∃ earlier look since, steps = earlier ++ look :: since ∧ look.looks = true ∧
    (of earlier).next? = none ∧ (∀ s ∈ since, s.looks = false) ∧
    (of steps).published = (of earlier).published

theorem follow_append (h : History α) (ss ts : List (QueueStep α)) : h.follow (ss ++ ts) =
    ((h.follow ss).1 ++ ((h.follow ss).2.follow ts).1, ((h.follow ss).2.follow ts).2) := by
  induction ss generalizing h with
  | nil => rfl
  | cons s ss ih => simp only [List.cons_append, follow, ih]

theorem length_follow (h : History α) (ss : List (QueueStep α)) :
    (h.follow ss).1.length = ss.length := by
  induction ss generalizing h with
  | nil => rfl
  | cons s ss ih => simp only [follow, List.length_cons, ih]

theorem of_append (ss ts : List (QueueStep α)) : of (ss ++ ts) = ((of ss).follow ts).2 := by
  rw [of, follow_append]
  rfl

theorem of_concat (ss : List (QueueStep α)) (s : QueueStep α) :
    of (ss ++ [s]) = (of ss).note s := of_append ss [s]

theorem published_note (h : History α) (s : QueueStep α) : h.published ≤ (h.note s).published := by
  match s with
  | .use .flush =>
    rw [note]
    split
    · rename_i moves
      exact Nat.le_of_lt moves
    · exact Nat.le_refl _
  | .use .unwrite =>
    rw [note]
    split <;> exact Nat.le_refl _
  | .use (.write ..) | .use .checkRead | .use .read | .probe _ => exact Nat.le_refl _

theorem published_follow (h : History α) (ss : List (QueueStep α)) :
    h.published ≤ (h.follow ss).2.published := by
  induction ss generalizing h with
  | nil => exact Nat.le_refl _
  | cons s ss ih => exact Nat.le_trans (h.published_note s) (ih (h.note s))

theorem missed_note_of_looks {s : QueueStep α} (looks : s.looks = true) :
    (h.note s).missed = h.next?.isNone ∧ (h.note s).published = h.published := by
  match s with
  | .use .checkRead | .use .read | .probe _ => exact ⟨rfl, rfl⟩

theorem missed_note_of_not_looks {s : QueueStep α} (looks : s.looks = false) :
    (h.note s).missed = true ↔ h.missed = true ∧ (h.note s).published = h.published := by
  match s with
  | .use (.write ..) => exact (and_iff_left rfl).symm
  | .use .unwrite =>
    rw [note]
    split <;> exact (and_iff_left rfl).symm
  | .use .flush =>
    rw [note]
    split
    · rename_i moves
      exact ⟨nofun, fun still ↦ absurd still.2.symm (Nat.ne_of_lt moves)⟩
    · exact (and_iff_left rfl).symm

theorem missed_iff (steps : List (QueueStep α)) :
    (of steps).missed = true ↔ CameUpEmpty steps := by
  induction steps using List.reverseRecOn with
  | nil =>
    refine ⟨nofun, ?_⟩
    rintro ⟨earlier, look, since, same, -⟩
    exact absurd same (by simp)
  | append_singleton steps s ih =>
    rw [of_concat]
    cases looks : s.looks with
    | true =>
      obtain ⟨missed, published⟩ := missed_note_of_looks (h := of steps) looks
      rw [missed, Option.isNone_iff_eq_none]
      constructor
      · intro none_left
        exact ⟨steps, s, [], rfl, looks, none_left, nofun, by rw [of_concat, published]⟩
      · rintro ⟨earlier, look, since, same, -, none_left, blind, -⟩
        rcases List.eq_nil_or_concat' since with rfl | ⟨since, t, rfl⟩
        · obtain rfl := (List.append_inj' same rfl).1
          exact none_left
        · rw [← List.cons_append, ← List.append_assoc] at same
          obtain rfl := List.singleton_inj.mp (List.append_inj' same rfl).2
          exact absurd looks (by simp [blind])
    | false =>
      rw [missed_note_of_not_looks looks, ih]
      constructor
      · rintro ⟨⟨earlier, look, since, rfl, looked, none_left, blind, still⟩, published⟩
        refine ⟨earlier, look, since ++ [s], by simp, looked, none_left, ?_, ?_⟩
        · intro t ht
          rcases List.mem_append.mp ht with ht | ht
          · exact blind t ht
          · exact List.mem_singleton.mp ht ▸ looks
        · rw [of_concat, published, still]
      · rintro ⟨earlier, look, since, same, looked, none_left, blind, still⟩
        rcases List.eq_nil_or_concat' since with rfl | ⟨since, t, rfl⟩
        · obtain rfl := List.singleton_inj.mp (List.append_inj' same rfl).2
          exact absurd looked (by simp [looks])
        · rw [← List.cons_append, ← List.append_assoc] at same
          obtain ⟨rfl, rfl⟩ := List.append_inj' same rfl |>.imp id List.singleton_inj.mp
          have grown : (of earlier).published ≤ (of (earlier ++ look :: since)).published := by
            rw [of_append]
            exact published_follow ..
          have grown' := (of (earlier ++ look :: since)).published_note s
          rw [of_concat] at still
          refine ⟨⟨earlier, look, since, rfl, looked, none_left, ?_, by omega⟩, by omega⟩
          exact fun t ht ↦ blind t (List.mem_append_left _ ht)

end History

namespace Channel

variable {α : Type}

def step (c : Channel α) : QueueStep α → Reply α × Channel α
  | .use u => c.use u
  | .probe pred => c.peek.map (fun x ↦ .flag (x.any pred)) id

def stepAll : Channel α → List (QueueStep α) → List (Reply α) × Channel α
  | c, [] => ([], c)
  | c, s :: ss =>
    let (r, c) := c.step s
    let (rs, c) := c.stepAll ss
    (r :: rs, c)

/-- The record agrees with what the queue holds. -/
structure Recorded (c : Channel α) (h : History α) : Prop where
  sound : c.Sound
  kept : h.kept = h.returned ++ c.queue.toList
  front : c.queue.frontPos = h.returned.length
  published : c.published = h.published
  complete : c.complete = h.complete
  asleep : c.asleep = h.missed

namespace Recorded

variable {c : Channel α} {h : History α}

theorem create {chunkSize : Nat} (some_room : 0 < chunkSize) :
    (Channel.create chunkSize).Recorded ({} : History α) :=
  ⟨.create some_room, rfl, rfl, rfl, rfl, rfl⟩

theorem back (hc : c.Recorded h) : c.queue.backPos = h.kept.length := by
  rw [hc.kept, List.length_append, ← hc.front, hc.sound.queue.length_eq]

theorem next? (hc : c.Recorded h) : h.next? = c.readable.head? := by
  have shown := hc.sound.lengths.1
  have ahead : h.returned.length ≤ h.published := by
    rw [← hc.front, ← hc.published]
    omega
  rw [History.next?, History.released, hc.kept, Channel.readable, hc.front, hc.published,
    List.take_append, List.take_of_length_le ahead, List.getElem?_append_right (Nat.le_refl _),
    Nat.sub_self, List.head?_eq_getElem?]

theorem write (hc : c.Recorded h) (x : α) (incomplete : Bool) :
    (c.write x incomplete).Recorded (h.note (.use (.write x incomplete))) := by
  have sound : (c.write x incomplete).Sound := by
    cases incomplete with
    | true => exact (hc.sound.holds.write_incomplete x).sound
    | false => exact (hc.sound.holds.write_whole x).sound
  refine ⟨sound, ?_, ?_, hc.published, ?_, hc.asleep⟩
  · simp [Channel.write, History.note, hc.kept]
  · simpa [Channel.write, History.note] using hc.front
  · simp only [Channel.write, History.note, ChunkQueue.backPos_pushBack, hc.back, hc.complete]

/-- What is taken back is the last item, and not a complete one. -/
theorem unwrite (hc : c.Recorded h) : .item c.unwrite.1 = h.answer (.use .unwrite) ∧
    c.unwrite.2.Recorded (h.note (.use .unwrite)) := by
  have le := hc.sound.complete_le
  rw [hc.back, hc.complete] at le
  by_cases held : h.complete < h.kept.length
  · obtain ⟨u, x, last⟩ : ∃ u x, c.unfinished = u ++ [x] := by
      refine (List.eq_nil_or_concat' c.unfinished).resolve_left fun none_left ↦ ?_
      have ends := hc.sound.lengths.2.2
      rw [none_left, hc.back, hc.complete, List.length_nil] at ends
      omega
    have holds : c.Holds c.readable c.awaiting (u ++ [x]) := last ▸ hc.sound.holds
    have taken := holds.unwrite
    have items : h.kept = h.returned ++ (c.readable ++ c.awaiting ++ u) ++ [x] := by
      simp only [hc.kept, holds.toList_eq, List.append_assoc]
    have front : c.unwrite.2.queue.frontPos = c.queue.frontPos := by
      unfold Channel.unwrite
      split
      · rfl
      · exact ChunkQueue.frontPos_popBack _
    have limits : (c.unwrite.2.published, c.unwrite.2.complete, c.unwrite.2.asleep) =
        (c.published, c.complete, c.asleep) := by
      unfold Channel.unwrite
      split <;> rfl
    obtain ⟨published, complete, asleep⟩ := Prod.mk.inj limits |>.imp id Prod.mk.inj
    rw [holds.unwrite_concat, History.answer, History.note, if_pos held, if_pos held]
    refine ⟨by rw [items, List.getLast?_concat], taken.sound, ?_, front.trans hc.front,
      published.trans hc.published, complete.trans hc.complete, asleep.trans hc.asleep⟩
    rw [items, List.dropLast_concat, taken.toList_eq]
  · have all : c.queue.backPos = c.complete := by
      rw [hc.back, hc.complete]
      omega
    simp only [Channel.unwrite, if_pos all, History.answer, History.note, if_neg held]
    exact ⟨trivial, hc⟩

theorem flush (hc : c.Recorded h) : .flag c.flush.1 = h.answer (.use .flush) ∧
    c.flush.2.Recorded (h.note (.use .flush)) := by
  have le := hc.sound.published_le
  have sound : c.flush.2.Sound := hc.sound.holds.flush.sound
  rw [History.answer, History.note]
  unfold Channel.flush at sound ⊢
  by_cases none_awaiting : c.published = c.complete
  · have still : ¬h.published < h.complete := by
      rw [← hc.published, ← hc.complete]
      omega
    simp only [if_pos none_awaiting, if_neg still, decide_eq_false still]
    exact ⟨rfl, hc⟩
  · have moves : h.published < h.complete := by
      rw [← hc.published, ← hc.complete]
      omega
    simp only [if_neg none_awaiting, if_pos moves, decide_eq_true moves] at sound ⊢
    exact ⟨by rw [hc.asleep, Bool.true_and], sound, hc.kept, hc.front, hc.complete, hc.complete,
      rfl⟩

theorem look (hc : c.Recorded h) :
    ∃ d, c.checkRead = (h.next?.isSome, d) ∧ d.Recorded h.look := by
  have kept : (c.checkRead.2.queue, c.checkRead.2.published, c.checkRead.2.complete) =
      (c.queue, c.published, c.complete) := by
    unfold Channel.checkRead
    repeat' split
    all_goals rfl
  obtain ⟨queue, published, complete⟩ := Prod.mk.inj kept |>.imp id Prod.mk.inj
  have recorded (sound : c.checkRead.2.Sound) (asleep : c.checkRead.2.asleep = h.next?.isNone) :
      c.checkRead.2.Recorded h.look :=
    ⟨sound, hc.kept.trans (by rw [queue]; rfl), queue ▸ hc.front, published.trans hc.published,
      complete.trans hc.complete, asleep⟩
  have next := hc.next?
  cases found : c.readable with
  | nil =>
    have holds : c.Holds [] c.awaiting c.unfinished := found ▸ hc.sound.holds
    obtain ⟨d, looked, held⟩ := holds.checkRead_nil
    have asleep := holds.asleep_read_nil
    rw [Channel.read, looked] at asleep
    rw [found, List.head?_nil] at next
    rw [looked, next] at recorded
    exact ⟨d, by rw [looked, next]; rfl, recorded held.sound asleep⟩
  | cons x r =>
    have holds : c.Holds (x :: r) c.awaiting c.unfinished := found ▸ hc.sound.holds
    obtain ⟨d, looked, held, -⟩ := holds.checkRead_cons
    have awake : d.asleep = false :=
      Bool.eq_false_iff.mpr fun asleep ↦ List.cons_ne_nil _ _ (held.asleep asleep)
    rw [found, List.head?_cons] at next
    rw [looked, next] at recorded
    exact ⟨d, by rw [looked, next]; rfl, recorded held.sound awake⟩

theorem read (hc : c.Recorded h) : .item c.read.1 = h.answer (.use .read) ∧
    c.read.2.Recorded (h.note (.use .read)) := by
  obtain ⟨d, looked, recorded⟩ := hc.look
  rw [History.answer, History.note]
  cases found : h.next? with
  | none =>
    rw [found] at looked
    rw [Channel.read, looked, Option.toList_none, List.append_nil]
    exact ⟨rfl, recorded⟩
  | some x =>
    rw [found] at looked
    obtain ⟨r, items⟩ := List.head?_eq_some_iff.mp (hc.next?.symm.trans found)
    obtain ⟨r', items'⟩ := List.head?_eq_some_iff.mp (recorded.next?.symm.trans found)
    obtain ⟨e, read, held⟩ := Holds.read_cons (items ▸ hc.sound.holds)
    have all : d.queue.toList = x :: (r' ++ d.awaiting ++ d.unfinished) :=
      Holds.toList_eq (items' ▸ recorded.sound.holds)
    obtain ⟨rest, popped, -, left, front, -⟩ := recorded.sound.queue.popFront_cons all
    have taken : c.read = (some x, { d with queue := rest }) := by
      rw [Channel.read, looked]
      simp only [Option.isSome_some, popped]
    obtain rfl := (Prod.mk.inj (taken.symm.trans read)).2
    rw [read]
    refine ⟨rfl, held.sound, ?_, ?_, recorded.published, recorded.complete, ?_⟩
    · exact recorded.kept.trans (by simp [History.look, all, left])
    · simp only [front, recorded.front, History.look, Option.toList_some, List.length_append,
        List.length_singleton]
    · simpa only [History.look, found] using recorded.asleep

theorem probe (hc : c.Recorded h) (pred : α → Bool) :
    .flag (c.peek.1.any pred) = h.answer (.probe pred) ∧
    c.peek.2.Recorded (h.note (.probe pred)) := by
  obtain ⟨d, looked, recorded⟩ := hc.look
  have next : h.next? = d.readable.head? := recorded.next?
  rw [Channel.peek, looked, History.answer, History.note]
  cases found : h.next? with
  | none => exact ⟨rfl, recorded⟩
  | some x =>
    obtain ⟨r, items⟩ := List.head?_eq_some_iff.mp (next.symm.trans found)
    have all := Holds.toList_eq (items ▸ recorded.sound.holds)
    have front : d.queue.front? = some x := by
      rw [recorded.sound.queue.front?_eq, all]
      rfl
    simp only [Option.isSome_some, front]
    exact ⟨trivial, recorded⟩

theorem step (hc : c.Recorded h) (s : QueueStep α) :
    (c.step s).1 = h.answer s ∧ (c.step s).2.Recorded (h.note s) := by
  match s with
  | .use (.write x incomplete) => exact ⟨rfl, hc.write x incomplete⟩
  | .use .unwrite => exact hc.unwrite
  | .use .flush => exact hc.flush
  | .use .checkRead =>
    obtain ⟨d, looked, recorded⟩ := hc.look
    rw [Channel.step, Channel.use, looked]
    exact ⟨rfl, recorded⟩
  | .use .read => exact hc.read
  | .probe pred => exact hc.probe pred

theorem stepAll (hc : c.Recorded h) (steps : List (QueueStep α)) :
    (c.stepAll steps).1 = (h.follow steps).1 ∧
    (c.stepAll steps).2.Recorded (h.follow steps).2 := by
  induction steps generalizing c h with
  | nil => exact ⟨rfl, hc⟩
  | cons s steps ih =>
    obtain ⟨answer, recorded⟩ := hc.step s
    obtain ⟨answers, recorded'⟩ := ih recorded
    exact ⟨congrArg₂ List.cons answer answers, recorded'⟩

/-- The limits of the record lie in order, and the reader was given no more than was published. -/
theorem ordered (hc : c.Recorded h) : h.returned.length ≤ h.published ∧
    h.published ≤ h.complete ∧ h.complete ≤ h.kept.length := by
  have front_le := Nat.le_trans hc.sound.front_le hc.sound.limit_le
  have published_le := hc.sound.published_le
  have complete_le := hc.sound.complete_le
  rw [hc.front, hc.published] at front_le
  rw [hc.published, hc.complete] at published_le
  rw [hc.complete, hc.back] at complete_le
  exact ⟨front_le, published_le, complete_le⟩

theorem in_order (hc : c.Recorded h) : h.returned <+: h.released := by
  rw [List.prefix_iff_eq_take, History.released, List.take_take,
    Nat.min_eq_left hc.ordered.1, hc.kept, List.take_left]

theorem of_steps {chunkSize : Nat} (some_room : 0 < chunkSize) (steps : List (QueueStep α)) :
    ((Channel.create chunkSize).stepAll steps).2.Recorded (History.of steps) :=
  ((create some_room).stepAll steps).2

end Recorded

end Channel

namespace History

variable {α : Type} {h : History α}

theorem released_note (published_le : h.published ≤ h.complete)
    (complete_le : h.complete ≤ h.kept.length) (s : QueueStep α) :
    h.released <+: (h.note s).released := by
  have same : h.released <+: h.released := List.prefix_rfl
  match s with
  | .use (.write x _) =>
    have kept : (h.kept ++ [x]).take h.published = h.kept.take h.published :=
      List.take_append_of_le_length (Nat.le_trans published_le complete_le)
    simpa only [released, note, kept] using same
  | .use .unwrite =>
    rw [note]
    split
    · rename_i held
      have kept : h.kept.dropLast.take h.published = h.kept.take h.published := by
        rw [List.dropLast_eq_take, List.take_take, Nat.min_eq_left (by omega)]
      simpa only [released, kept] using same
    · exact same
  | .use .flush =>
    rw [note]
    split
    · exact List.take_prefix_take_left published_le
    · exact same
  | .use .checkRead | .use .read | .probe _ => exact same

theorem released_append (before after : List (QueueStep α)) :
    (of before).released <+: (of (before ++ after)).released := by
  induction after using List.reverseRecOn with
  | nil => simp
  | append_singleton after s ih =>
    obtain ⟨-, published_le, complete_le⟩ :=
      (Channel.Recorded.of_steps Nat.one_pos (before ++ after)).ordered
    rw [← List.append_assoc, of_concat]
    exact ih.trans (released_note published_le complete_le s)

theorem length_kept_note (h : History α) (s : QueueStep α) :
    (h.note s).kept.length ≤ h.kept.length + QueueStep.writes [s] := by
  match s with
  | .use (.write x _) => simp [note, QueueStep.writes]
  | .use .unwrite =>
    rw [note]
    split
    · simp only [List.length_dropLast]
      omega
    · exact Nat.le_add_right ..
  | .use .flush =>
    rw [note]
    split <;> exact Nat.le_add_right ..
  | .use .checkRead | .use .read | .probe _ => exact Nat.le_add_right ..

end History

end Conduit
