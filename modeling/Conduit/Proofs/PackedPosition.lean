import Conduit.Proofs.QueueHistory

namespace Conduit

namespace SharedQueue

variable {α : Type} {q : SharedQueue α} {c : Channel α}

def probe (q : SharedQueue α) (pred : α → Bool) : Bool × SharedQueue α :=
  match q.checkRead with
  | (false, q) => (false, q)
  | (true, q) => (q.queue.front?.any pred, q)

def step (q : SharedQueue α) : QueueStep α → Option (Reply α × SharedQueue α)
  | .use u => q.use u
  | .probe pred => some ((q.probe pred).map .flag id)

theorem probe_shows (h : c.Shows q) (pred : α → Bool) :
    (q.probe pred).1 = c.peek.1.any pred ∧ c.peek.2.Shows (q.probe pred).2 := by
  obtain ⟨told, shows, -⟩ := h.checkRead
  unfold probe Channel.peek
  match found : c.checkRead, found' : q.checkRead with
  | (false, d), (false, e) =>
    rw [found, found'] at shows
    exact ⟨rfl, shows⟩
  | (true, d), (true, e) =>
    rw [found, found'] at shows
    have queue : d.queue = e.queue := shows.queue
    exact ⟨by simp only [queue], shows⟩
  | (true, d), (false, e) | (false, d), (true, e) =>
    rw [found, found'] at told
    exact absurd told nofun

theorem step_shows (h : c.Shows q) (s : QueueStep α) :
    ∃ q', q.step s = some ((c.step s).1, q') ∧ (c.step s).2.Shows q' := by
  cases s with
  | use u => exact h.use u
  | probe pred =>
    obtain ⟨same, shows⟩ := probe_shows h pred
    exact ⟨_, congrArg some (Prod.ext (congrArg Reply.flag same) rfl), shows⟩

end SharedQueue

structure PackedQueue (α : Type) where
  queue : ChunkQueue α
  /-- Items before it may be read, or it is the mark of a reader that sleeps. -/
  shared : UInt64 := 0
  published : UInt64 := 0
  complete : UInt64 := 0
  limit : UInt64 := 0

namespace PackedQueue

variable {α : Type}

def asleep : UInt64 := .ofNat (wordLimit - 1)

def create (chunkSize : Nat) : PackedQueue α := { queue := ChunkQueue.empty chunkSize }

def front (q : PackedQueue α) : UInt64 := .ofNat q.queue.frontPos

/-- Puts `next` in the place of an expected word. The answer is what was there. -/
def exchange (q : PackedQueue α) (expected next : UInt64) : UInt64 × PackedQueue α :=
  (q.shared, if q.shared = expected then { q with shared := next } else q)

def write (q : PackedQueue α) (x : α) (incomplete : Bool) : PackedQueue α :=
  let queue := q.queue.pushBack x
  { q with queue, complete := if incomplete then q.complete else .ofNat queue.backPos }

def unwrite (q : PackedQueue α) : Option α × PackedQueue α :=
  if .ofNat q.queue.backPos = q.complete then (none, q)
  else
    let (x, queue) := q.queue.popBack
    (x, { q with queue })

/-- There is no answer if anything but the last published position or the mark is found. -/
def flush (q : PackedQueue α) : Option (Bool × PackedQueue α) :=
  if q.published = q.complete then some (true, q)
  else
    let (found, after) := q.exchange q.published q.complete
    if found = q.published then some (true, { after with published := q.complete })
    else if found = asleep then
      some (false, { after with shared := q.complete, published := q.complete })
    else none

def checkRead (q : PackedQueue α) : Bool × PackedQueue α :=
  if q.front ≠ q.limit ∧ q.limit ≠ asleep then (true, q)
  else
    let (found, after) := q.exchange q.front asleep
    (!(found = q.front || found = asleep), { after with limit := found })

def read (q : PackedQueue α) : Option α × PackedQueue α :=
  match q.checkRead with
  | (false, q) => (none, q)
  | (true, q) =>
    let (x, queue) := q.queue.popFront
    (x, { q with queue })

def probe (q : PackedQueue α) (pred : α → Bool) : Bool × PackedQueue α :=
  match q.checkRead with
  | (false, q) => (false, q)
  | (true, q) => (q.queue.front?.any pred, q)

def step (q : PackedQueue α) : QueueStep α → Option (Reply α × PackedQueue α)
  | .use (.write x incomplete) => some (.none, q.write x incomplete)
  | .use .unwrite => some (q.unwrite.map .item id)
  | .use .flush => q.flush.map (Prod.map .flag id)
  | .use .checkRead => some (q.checkRead.map .flag id)
  | .use .read => some (q.read.map .item id)
  | .probe pred => some ((q.probe pred).map .flag id)

/-- The replies to what both ends do in turn, unless a flush has none. -/
def stepAll : PackedQueue α → List (QueueStep α) → Option (List (Reply α) × PackedQueue α)
  | q, [] => some ([], q)
  | q, s :: ss => do
    let (r, q) ← q.step s
    let (rs, q) ← q.stepAll ss
    return (r :: rs, q)

def word : Option Nat → UInt64
  | some position => .ofNat position
  | none => asleep

def InRange (position : Option Nat) : Prop := ∀ n ∈ position, n < wordLimit - 1

theorem toNat_word {position : Nat} (fits : InRange (some position)) :
    (word (some position)).toNat = position :=
  UInt64.toNat_ofNat_of_lt' (Nat.lt_of_lt_of_le (fits position rfl) (by decide))

theorem word_eq_asleep {a : Option Nat} (fits : InRange a) : word a = asleep ↔ a = none := by
  match a with
  | none => exact ⟨fun _ ↦ rfl, fun _ ↦ rfl⟩
  | some n =>
    refine ⟨fun same ↦ ?_, nofun⟩
    have same := congrArg UInt64.toNat same
    rw [toNat_word fits] at same
    exact absurd (fits n rfl) (same ▸ by decide)

theorem word_inj {a b : Option Nat} (ha : InRange a) (hb : InRange b) :
    word a = word b ↔ a = b := by
  refine ⟨fun same ↦ ?_, congrArg word⟩
  match a, b with
  | none, b => exact ((word_eq_asleep hb).mp same.symm).symm
  | a, none => exact (word_eq_asleep ha).mp same
  | some n, some m =>
    have same := congrArg UInt64.toNat same
    rw [toNat_word ha, toNat_word hb] at same
    rw [same]

end PackedQueue

namespace SharedQueue

variable {α : Type} {q : SharedQueue α} {c : Channel α}

open PackedQueue (word InRange word_inj word_eq_asleep)

def pack (q : SharedQueue α) : PackedQueue α where
  queue := q.queue
  shared := word q.shared
  published := word (some q.published)
  complete := word (some q.complete)
  limit := word q.limit

structure Fits (q : SharedQueue α) : Prop where
  front : InRange (some q.queue.frontPos)
  back : InRange (some q.queue.backPos)
  published : InRange (some q.published)
  complete : InRange (some q.complete)
  shared : InRange q.shared
  limit : InRange q.limit

theorem Fits.of_shows (h : c.Shows q) (sound : c.Sound) (fits : c.queue.backPos < wordLimit - 1) :
    q.Fits := by
  have front_le := sound.front_le
  have limit_le := sound.limit_le
  have published_le := sound.published_le
  have complete_le := sound.complete_le
  have upTo {n : Nat} (le : n ≤ c.queue.backPos) : InRange (some n) := by
    intro m found
    obtain rfl := Option.mem_some.mp found
    exact Nat.lt_of_le_of_lt le fits
  refine ⟨?_, ?_, ?_, ?_, ?_, ?_⟩
  · exact h.queue ▸ upTo (by omega)
  · exact h.queue ▸ upTo (Nat.le_refl _)
  · exact h.published ▸ upTo (by omega)
  · exact h.complete ▸ upTo complete_le
  · rw [h.shared]
    split
    · exact nofun
    · exact upTo (by omega)
  · rcases h.limit with limit | ⟨limit, -⟩ <;> rw [limit]
    · exact upTo (by omega)
    · exact nofun

namespace Fits

theorem exchange (h : q.Fits) {expected : Option Nat} (fits : InRange expected)
    (next : Option Nat) :
    q.pack.exchange (word expected) (word next) = (q.exchange expected next).map word pack := by
  have same : q.pack.shared = word expected ↔ q.shared = expected := word_inj h.shared fits
  unfold PackedQueue.exchange SharedQueue.exchange
  by_cases found : q.shared = expected
  · rw [if_pos (same.mpr found), if_pos found]
    rfl
  · rw [if_neg (same.not.mpr found), if_neg found]
    rfl

theorem unwrite (h : q.Fits) : q.pack.unwrite = q.unwrite.map id pack := by
  have same : .ofNat q.pack.queue.backPos = q.pack.complete ↔ q.queue.backPos = q.complete :=
    (word_inj h.back h.complete).trans (Option.some.injEq ..).to_iff
  unfold PackedQueue.unwrite SharedQueue.unwrite
  by_cases none_left : q.queue.backPos = q.complete
  · rw [if_pos (same.mpr none_left), if_pos none_left]
    rfl
  · rw [if_neg (same.not.mpr none_left), if_neg none_left]
    rfl

/-- A word that is neither the last published position nor the mark is another position. -/
theorem flush (h : q.Fits) : q.pack.flush = q.flush.map (Prod.map id pack) := by
  have same : q.pack.published = q.pack.complete ↔ q.published = q.complete :=
    (word_inj h.published h.complete).trans (Option.some.injEq ..).to_iff
  have exchanged : q.pack.exchange q.pack.published q.pack.complete =
      (q.exchange (some q.published) (some q.complete)).map word pack :=
    h.exchange h.published (some q.complete)
  have found : word q.shared = q.pack.published ↔ q.shared = some q.published :=
    word_inj h.shared h.published
  unfold PackedQueue.flush SharedQueue.flush
  by_cases none_awaiting : q.published = q.complete
  · rw [if_pos (same.mpr none_awaiting), if_pos none_awaiting]
    rfl
  · rw [if_neg (same.not.mpr none_awaiting), if_neg none_awaiting, exchanged]
    simp only [SharedQueue.exchange, Prod.map, found, word_eq_asleep h.shared]
    cases shared : q.shared with
    | none =>
      rw [if_neg (by simp), if_pos rfl, if_neg (by simp)]
      rfl
    | some position =>
      by_cases expected : position = q.published
      · simp only [expected, if_true]
        rfl
      · have other : some position ≠ some q.published := by simpa using expected
        simp only [if_neg other, if_neg expected, reduceCtorEq, if_false, Option.map_none]

theorem checkRead (h : q.Fits) : q.pack.checkRead = q.checkRead.map id pack := by
  have ahead : q.pack.front ≠ q.pack.limit ∧ q.pack.limit ≠ PackedQueue.asleep ↔
      some q.queue.frontPos ≠ q.limit ∧ q.limit ≠ none :=
    and_congr (word_inj h.front h.limit).not (word_eq_asleep h.limit).not
  have exchanged : q.pack.exchange q.pack.front PackedQueue.asleep =
      (q.exchange (some q.queue.frontPos) none).map word pack := h.exchange h.front none
  have drained : word q.shared = q.pack.front ↔ q.shared = some q.queue.frontPos :=
    word_inj h.shared h.front
  unfold PackedQueue.checkRead SharedQueue.checkRead
  by_cases seen : some q.queue.frontPos ≠ q.limit ∧ q.limit ≠ none
  · rw [if_pos (ahead.mpr seen), if_pos seen]
    rfl
  · rw [if_neg (ahead.not.mpr seen), if_neg seen, exchanged]
    simp only [SharedQueue.exchange, Prod.map, drained, word_eq_asleep h.shared]
    refine Prod.ext ?_ rfl
    rw [Bool.not_or]
    exact congrArg₂ and decide_not.symm decide_not.symm

theorem read (h : q.Fits) : q.pack.read = q.read.map id pack := by
  rw [PackedQueue.read, SharedQueue.read, h.checkRead]
  match q.checkRead with
  | (false, e) => rfl
  | (true, e) => rfl

theorem probe (h : q.Fits) (pred : α → Bool) : q.pack.probe pred = (q.probe pred).map id pack := by
  rw [PackedQueue.probe, SharedQueue.probe, h.checkRead]
  match q.checkRead with
  | (false, e) => rfl
  | (true, e) => rfl

theorem step (h : q.Fits) (s : QueueStep α) :
    q.pack.step s = (q.step s).map (Prod.map id pack) := by
  match s with
  | .use (.write x true) | .use (.write x false) => rfl
  | .use .unwrite =>
    rw [PackedQueue.step, h.unwrite]
    rfl
  | .use .flush =>
    rw [PackedQueue.step, h.flush, SharedQueue.step, SharedQueue.use, Option.map_map,
      Option.map_map]
    rfl
  | .use .checkRead =>
    rw [PackedQueue.step, h.checkRead]
    rfl
  | .use .read =>
    rw [PackedQueue.step, h.read]
    rfl
  | .probe pred =>
    rw [PackedQueue.step, h.probe]
    rfl

end Fits

/-- As long as no position comes to the mark, the words tell what the positions do. -/
theorem stepAll_pack {h : History α} (recorded : c.Recorded h) (shows : c.Shows q)
    (steps : List (QueueStep α))
    (few : h.kept.length + QueueStep.writes steps < wordLimit - 1) :
    ∃ q', q.pack.stepAll steps = some ((c.stepAll steps).1, q'.pack) ∧
      (c.stepAll steps).2.Shows q' ∧ q'.Fits := by
  have back := recorded.back
  induction steps generalizing c q h with
  | nil => exact ⟨q, rfl, shows, .of_shows shows recorded.sound (by omega)⟩
  | cons s steps ih =>
    have split : QueueStep.writes (s :: steps) = QueueStep.writes [s] + QueueStep.writes steps :=
      @List.countP_append _ _ [s] steps
    have grown := h.length_kept_note s
    have fits : q.Fits := .of_shows shows recorded.sound (by omega)
    obtain ⟨q', stepped, shows'⟩ := step_shows shows s
    have recorded' := (recorded.step s).2
    obtain ⟨q'', others, final⟩ := ih recorded' shows' (by omega) recorded'.back
    refine ⟨q'', ?_, final⟩
    rw [PackedQueue.stepAll, fits.step, stepped]
    simp only [Option.map_some, Option.bind_eq_bind, Option.bind_some, Prod.map, others]
    rfl

end SharedQueue

namespace PackedQueue

variable {α : Type}

/-- The words of a queue by its record. -/
structure Recorded (q : PackedQueue α) (h : History α) : Prop where
  items : h.kept = h.returned ++ q.queue.toList
  front : q.queue.frontPos = h.returned.length
  published : q.published.toNat = h.published
  complete : q.complete.toNat = h.complete
  back : q.queue.backPos = h.kept.length
  /-- The position that both ends share is the mark or the last one that was published. -/
  shared : q.shared = if h.missed then asleep else q.published
  limit : q.limit ≠ asleep → q.queue.frontPos ≤ q.limit.toNat ∧ q.limit ≤ q.published
  front_le : q.queue.frontPos ≤ q.published.toNat
  published_le : q.published ≤ q.complete
  complete_le : q.complete.toNat ≤ q.queue.backPos
  in_order : h.returned <+: h.released

theorem Recorded.of_shows {c : Channel α} {q : SharedQueue α} {h : History α}
    (recorded : c.Recorded h) (shows : c.Shows q) (fits : q.Fits) : q.pack.Recorded h := by
  have published : q.pack.published.toNat = h.published :=
    (toNat_word fits.published).trans (shows.published.symm.trans recorded.published)
  have complete : q.pack.complete.toNat = h.complete :=
    (toNat_word fits.complete).trans (shows.complete.symm.trans recorded.complete)
  have queue : q.pack.queue = c.queue := shows.queue.symm
  obtain ⟨front_le, published_le, complete_le⟩ := recorded.ordered
  rw [← published, ← recorded.front, ← queue] at front_le
  rw [← published, ← complete] at published_le
  rw [← complete, ← recorded.back, ← queue] at complete_le
  refine ⟨queue ▸ recorded.kept, queue ▸ recorded.front, published, complete,
    queue ▸ recorded.back, ?_, ?_, front_le, UInt64.le_iff_toNat_le.mpr published_le,
    complete_le, recorded.in_order⟩
  · change word q.shared = _
    rw [shows.shared, ← recorded.asleep, apply_ite word, shows.published]
    rfl
  · intro awake
    rcases shows.limit with limit | ⟨limit, -⟩
    · have seen : q.pack.limit.toNat = c.limit := by
        change (word q.limit).toNat = _
        rw [limit, toNat_word (limit ▸ fits.limit)]
      rw [UInt64.le_iff_toNat_le, seen, published, ← recorded.published, queue]
      exact ⟨recorded.sound.front_le, recorded.sound.limit_le⟩
    · exact absurd (congrArg word limit) awake

/-- A queue whose positions are words gives out what was written in that order, and tells of each
reader that came up empty exactly once, as does the channel. -/
theorem fifo_and_wakes {chunkSize : Nat} (some_room : 0 < chunkSize) (steps : List (QueueStep α))
    (few : QueueStep.writes steps < wordLimit - 1) :
    ∃ answers q, (create chunkSize).stepAll steps = some (answers, q) ∧
      ((Channel.create chunkSize).stepAll steps).1 = answers ∧
      answers = (({} : History α).follow steps).1 ∧ q.Recorded (.of steps) ∧
      (∀ before after, steps = before ++ after →
        (History.of before).released <+: (History.of steps).released) ∧
      (∀ before after, steps = before ++ .use .flush :: after →
        (answers[before.length]? = some (.flag false) ↔
          (History.of before).published < (History.of before).complete ∧
            History.CameUpEmpty before)) := by
  have recorded := Channel.Recorded.of_steps some_room steps
  obtain ⟨q, packed, shows, fits⟩ := SharedQueue.stepAll_pack (.create some_room)
    (Channel.Shows.create chunkSize) steps (by simpa using few)
  have answered := ((Channel.Recorded.create some_room).stepAll steps).1
  refine ⟨_, q.pack, packed, rfl, answered, .of_shows recorded shows fits, ?_, ?_⟩
  · rintro before after rfl
    exact History.released_append before after
  · rintro before after rfl
    have at_flush : (({} : History α).follow (before ++ .use .flush :: after)).1[before.length]? =
        some ((History.of before).answer (.use .flush)) := by
      rw [History.follow_append, List.getElem?_append_right (by rw [History.length_follow]),
        History.length_follow, Nat.sub_self]
      rfl
    rw [answered, at_flush, History.answer, ← History.missed_iff]
    simp

/-- A reader that comes up empty is told of by the first flush only. -/
theorem fifo_and_wakes_read_first :
    let steps : List (QueueStep Nat) := [.use .read, .use (.write 7 false), .use .flush,
      .use (.write 8 false), .use .flush, .use .read]
    QueueStep.writes steps = 2 ∧ ((create 1).stepAll steps).map Prod.fst =
      some [.item none, .none, .flag false, .none, .flag true, .item (some 7)] := by
  have few : QueueStep.writes [.use .read, .use (.write 7 false), .use .flush,
      .use (.write 8 false), .use .flush, .use (.read : QueueUse Nat)] < wordLimit - 1 := by decide
  obtain ⟨answers, q, packed, -, answered, -⟩ := fifo_and_wakes Nat.one_pos _ few
  refine ⟨rfl, ?_⟩
  rw [packed, answered]
  rfl

end PackedQueue

end Conduit
