import Conduit.Proofs.DeedEffects
import Mathlib.Data.List.DropRight

namespace Conduit.Pipe

def Item.frames (items : List Item) : List Message :=
  items.filterMap fun
    | .frame m => some m
    | .delimiter => none

/-- What is left of some frames as those of an incomplete message behind them are taken back. -/
def wholeMessages (ms : List Message) : List Message := ms.rdropWhile (·.more)

/-- No credential is written. -/
def Call.Plain : Call → Prop
  | .write m => m.isCredential = false
  | _ => True

/-- The frames that are returned to the owner of the end that reads them. -/
def ordinary (ms : List Message) : List Message := ms.filter (!·.isCredential)

/-- The frames from one end since it last moved on to a fresh queue with its reader. -/
structure Ledger where
  /-- The frames that were accepted and not taken back. -/
  log : List Message := []
  /-- The whole messages of the log at the last flush. -/
  published : List Message := []
  /-- The frames that reads took. -/
  consumed : List Message := []
  /-- The frames that reads returned. -/
  returned : List Message := []
  /-- The credentials that reads took and did not return, also those before the last fresh queue. -/
  swallowed : List Message := []

namespace Ledger

def rollback (k : Ledger) : Ledger := { k with log := wholeMessages k.log }

def flush (k : Ledger) : Ledger := { k with published := wholeMessages k.log }

def supply (k : Ledger) : Deed → Ledger
  | .push m => { k with log := k.log ++ [m] }
  | .takeBack | .finish | .giveUp => k.rollback
  | .publish => k.flush
  | .request | .delimit => k.rollback.flush
  | .obey .hiccup => { swallowed := k.swallowed }
  | _ => k

def draw (k : Ledger) (took returned : List Message) : Ledger :=
  { k with
    consumed := k.consumed ++ took
    returned := k.returned ++ returned
    swallowed := k.swallowed ++ took.filter (·.isCredential) }

end Ledger

def Deed.taken (ds : List Deed) : List Message :=
  ds.filterMap fun
    | .take m => some m
    | _ => none

/-- Keeps the ledger of an end that writes. -/
def bookkeeping : Observer Ledger where
  own l c k := (l.deeds c).foldl Ledger.supply k
  peer l c k := k.draw (Deed.taken (l.deeds c)) <|
    match c with
    | .read => l.read.1.toList
    | _ => []

theorem ordinary_append (ms others : List Message) :
    ordinary (ms ++ others) = ordinary ms ++ ordinary others := List.filter_append _ _

theorem ordinary_of_plain {ms : List Message} (plain : ∀ m ∈ ms, m.isCredential = false) :
    ordinary ms = ms := by
  rw [ordinary, List.filter_eq_self]
  intro m hm
  rw [plain m hm]
  rfl

theorem wholeMessages_append {ms more : List Message} (h : ∀ m ∈ more, m.more = true) :
    wholeMessages (ms ++ more) = wholeMessages ms := by
  rw [wholeMessages, List.rdropWhile, List.reverse_append, List.dropWhile_append_of_pos]
  · rfl
  · simpa using h

theorem wholeMessages_concat {ms : List Message} {m : Message} (h : m.more = false) :
    wholeMessages (ms ++ [m]) = ms ++ [m] := List.rdropWhile_concat_neg _ _ _ (by simp [h])

theorem wholeMessages_idempotent (ms : List Message) :
    wholeMessages (wholeMessages ms) = wholeMessages ms := List.rdropWhile_idempotent _ _

theorem wholeMessages_le_append (ms more : List Message) :
    wholeMessages ms <+: wholeMessages (ms ++ more) := by
  induction more using List.reverseRecOn with
  | nil => simp
  | append_singleton more m ih =>
    rw [← List.append_assoc]
    by_cases follows : m.more = true
    · rwa [wholeMessages_append (by simpa using follows)]
    · rw [wholeMessages_concat (by simpa using follows), List.append_assoc]
      exact (List.rdropWhile_prefix _ ms).trans (List.prefix_append ms _)

namespace Item

@[simp] theorem frames_nil : frames [] = [] := rfl

@[simp] theorem frames_cons_frame (m : Message) (items : List Item) :
    frames (.frame m :: items) = m :: frames items := rfl

@[simp] theorem frames_cons_delimiter (items : List Item) :
    frames (.delimiter :: items) = frames items := rfl

@[simp] theorem frames_append (xs ys : List Item) : frames (xs ++ ys) = frames xs ++ frames ys :=
  List.filterMap_append

end Item

structure Ledger.Matches (k : Ledger) (s : Stock) : Prop where
  published : k.published = k.consumed ++ Item.frames s.readable
  log : k.log = k.published ++ Item.frames s.awaiting ++ Item.frames s.unfinished
  whole : wholeMessages k.log = k.published ++ Item.frames s.awaiting
  whole_published : wholeMessages k.published = k.published
  returned : k.returned = ordinary k.consumed

namespace Ledger.Matches

variable {k : Ledger} {s : Stock}

theorem push (h : k.Matches s) (m : Message) : (k.supply (.push m)).Matches (s.push m) := by
  unfold Stock.push
  split
  · rename_i more
    refine ⟨h.published, ?_, ?_, h.whole_published, h.returned⟩
    · simp [supply, h.log]
    · exact (wholeMessages_append (by simpa using more)).trans h.whole
  · rename_i more
    rw [Bool.not_eq_true] at more
    refine ⟨h.published, ?_, ?_, h.whole_published, h.returned⟩
    · simp [supply, h.log]
    · apply (wholeMessages_concat more).trans
      simp [supply, h.log]

theorem rollback (h : k.Matches s) : k.rollback.Matches s.rollback where
  published := h.published
  log := by simp [Ledger.rollback, Stock.rollback, h.whole]
  whole := (wholeMessages_idempotent _).trans h.whole
  whole_published := h.whole_published
  returned := h.returned

theorem flush (h : k.Matches s) : k.flush.Matches s.flush where
  published := by simp [Ledger.flush, Stock.flush, h.whole, h.published]
  log := by
    apply h.log.trans
    simp [Ledger.flush, Stock.flush, h.whole]
  whole := by simp [Ledger.flush, Stock.flush]
  whole_published := wholeMessages_idempotent _
  returned := h.returned

theorem endStream (h : k.Matches s) : k.rollback.flush.Matches s.endStream := by
  have flushed := h.rollback.flush
  refine ⟨?_, flushed.log, flushed.whole, flushed.whole_published, flushed.returned⟩
  simpa [Stock.flush, Stock.rollback, Stock.endStream] using flushed.published

theorem supply (h : k.Matches s) (d : Deed) : (k.supply d).Matches (d.supply s) := by
  cases d with
  | push m => exact h.push m
  | takeBack | finish | giveUp => exact h.rollback
  | publish => exact h.flush
  | request | delimit => exact h.endStream
  | obey c =>
    cases c with
    | hiccup => exact ⟨rfl, rfl, rfl, rfl, rfl⟩
    | activateRead | activateWrite | term | termAck | watermarks => exact h
  | quiet | take | meet | renew => exact h

theorem take {m : Message} {rest : List Item} (h : k.Matches s)
    (front : s.readable = .frame m :: rest) :
    (k.draw [m] (ordinary [m])).Matches { s with readable := rest } := by
  refine ⟨?_, h.log, h.whole, h.whole_published, ?_⟩
  · simpa [Ledger.draw, front] using h.published
  · simp [Ledger.draw, h.returned, ordinary]

theorem tail {rest : List Item} (h : k.Matches s) (front : s.readable = .delimiter :: rest) :
    k.Matches { s with readable := rest } := by
  refine ⟨?_, h.log, h.whole, h.whole_published, h.returned⟩
  simpa [front] using h.published

end Ledger.Matches

theorem Ledger.draw_nil (k : Ledger) : k.draw [] [] = k := by
  simp [draw]

theorem Ledger.draw_draw (k : Ledger) (took more returned others : List Message) :
    (k.draw took returned).draw more others = k.draw (took ++ more) (returned ++ others) := by
  simp [draw]

namespace Deed

@[simp] theorem taken_nil : taken [] = [] := rfl

theorem taken_cons (d : Deed) (ds : List Deed) : taken (d :: ds) = taken [d] ++ taken ds :=
  List.filterMap_append (l := [d])

theorem ordinary_taken_ofRead (state : State) (items : List Item) :
    ordinary (taken (ofRead state items)) = (Item.answer items).toList := by
  induction items with
  | nil => rfl
  | cons x rest ih =>
    cases x with
    | delimiter =>
      simp only [ofRead, ofDelimiter]
      split <;> rfl
    | frame m =>
      rw [ofRead, taken_cons, ordinary_append, Item.answer]
      split
      · rename_i credential
        rw [ih]
        simp [taken, ordinary, credential]
      · rename_i frame
        simp [taken, ordinary, frame]

end Deed

/-- Only a reader that stays with the queue finds items in it. -/
theorem Link.Sound.still {l : Link} (h : l.Sound) {x : Item} {rest : List Item}
    (front : l.inbound.readable = x :: rest) :
    l.peer.lane.fresh = [] ∧ l.peer.lane.stock.readable = x :: rest := by
  by_cases still : l.peer.lane.fresh = []
  · rw [Link.inbound, Lane.reading_eq_writing still] at front
    exact ⟨still, front⟩
  · rw [Link.inbound, (h.peer.lane.reading_blank still).holds.readable] at front
    exact absurd front.symm (List.cons_ne_nil _ _)

theorem Move.matches_draw {l l' : Link} {d : Deed} (h : Move l d l') (sound : l.Sound) {k : Ledger}
    (hk : k.Matches l.peer.lane.stock) :
    (k.draw (Deed.taken [d]) (ordinary (Deed.taken [d]))).Matches
      l'.peer.lane.stock := by
  have drawn := h.drawn.stock
  cases h with
  | take reads front held =>
    obtain ⟨still, items⟩ := sound.still front
    rw [drawn, if_pos still, items]
    exact hk.take items
  | meet _ front | finish _ front =>
    obtain ⟨still, items⟩ := sound.still front
    rw [drawn, if_pos still, items]
    exact (k.draw_nil).symm ▸ hk.tail items
  | adjust | signal | look | listen | push | takeBack | publish | renew | request | delimit | giveUp
  | obey =>
    rw [drawn]
    split <;> exact (k.draw_nil).symm ▸ hk

theorem Moves.matches_draw {l l' : Link} {ds : List Deed} (h : Moves l ds l') (sound : l.Sound)
    {k : Ledger} (hk : k.Matches l.peer.lane.stock) :
    (k.draw (Deed.taken ds) (ordinary (Deed.taken ds))).Matches
      l'.peer.lane.stock := by
  induction h generalizing k with
  | nil => exact (k.draw_nil).symm ▸ hk
  | quiet first _ ih =>
    have kept := first.matches_draw sound hk
    exact ih (first.sound sound) ((k.draw_nil) ▸ kept)
  | @deed _ _ _ d ds first _ ih =>
    have kept := ih (first.sound sound) (first.matches_draw sound hk)
    rw [Ledger.draw_draw, ← ordinary_append, ← Deed.taken_cons] at kept
    exact kept

theorem Moves.matches_supply {l l' : Link} {ds : List Deed} (h : Moves l ds l') (sound : l.Sound)
    {k : Ledger} (hk : k.Matches l.self.lane.stock) :
    (ds.foldl Ledger.supply k).Matches l'.self.lane.stock := by
  induction h generalizing k with
  | nil => exact hk
  | quiet first _ ih =>
    apply ih (first.sound sound)
    rw [first.supply sound]
    exact hk
  | deed first _ ih =>
    apply ih (first.sound sound)
    rw [first.supply sound]
    exact hk.supply _

theorem Ledger.mem_log_of_supply {k : Ledger} {ds : List Deed} {m : Message}
    (h : m ∈ (ds.foldl Ledger.supply k).log) : m ∈ k.log ∨ .push m ∈ ds := by
  have kept (k : Ledger) : wholeMessages k.log ⊆ k.log := (List.rdropWhile_prefix _ _).subset
  induction ds generalizing k with
  | nil => exact .inl h
  | cons d ds ih =>
    rcases ih h with logged | pushed
    · cases d with
      | push x =>
        rcases List.mem_append.mp logged with logged | last
        · exact .inl logged
        · rw [List.mem_singleton.mp last]
          exact .inr List.mem_cons_self
      | takeBack | finish | giveUp | request | delimit => exact .inl (kept k logged)
      | obey c =>
        cases c with
        | hiccup => exact absurd logged List.not_mem_nil
        | activateRead | activateWrite | term | termAck | watermarks => exact .inl logged
      | quiet | publish | take | meet | renew => exact .inl logged
    · exact .inr (List.mem_cons_of_mem _ pushed)

theorem Link.take_notMem_deeds {l : Link} {c : Call} {m : Message} (other : c ≠ .read) :
    .take m ∉ l.deeds c := by
  intro hd
  cases c with
  | read => contradiction
  | checkRead =>
    simp only [deeds] at hd
    split at hd
    · unfold Deed.ofLook at hd
      split at hd
      · unfold Deed.ofDelimiter at hd
        split at hd <;> simp at hd
      · exact absurd hd List.not_mem_nil
    · exact absurd hd List.not_mem_nil
  | _ => exact absurd (allows_of_mem_deeds hd) Bool.false_ne_true

theorem Link.taken_deeds {l : Link} {c : Call} (hc : ∀ m, c.allows (.take m) = false) :
    Deed.taken (l.deeds c) = [] := by
  apply List.filterMap_eq_nil_iff.mpr
  intro d hd
  cases d with
  | take m => exact absurd ((allows_of_mem_deeds hd).symm.trans (hc m)) nofun
  | _ => rfl

/-- No call but a read takes frames, and it returns those that are no credentials. -/
theorem Link.Sound.ordinary_taken {l : Link} (h : l.Sound) (c : Call) :
    ordinary (Deed.taken (l.deeds c)) = match c with
      | .read => l.read.1.toList
      | _ => [] := by
  cases c with
  | read =>
    match reads : l.self.state.reads with
    | false => simp [deeds, reads, read_of_not_reads reads, ordinary]
    | true =>
      simp only [deeds, reads, if_true, Deed.ordinary_taken_ofRead]
      rw [(h.read reads).1]
  | checkRead =>
    simp only [deeds]
    split
    · unfold Deed.ofLook
      split
      · unfold Deed.ofDelimiter
        split <;> rfl
      · rfl
    · rfl
  | _ => rw [taken_deeds fun _ ↦ rfl, ordinary, List.filter_nil]

theorem Pair.ledger_matches {s : Settings} {p : Pair} (made : create s = .ok p) (side : Side)
    (calls : List (Side × Call)) :
    ((p.run calls).link side).Sound ∧
      (p.watch bookkeeping side {} calls).Matches ((p.run calls).link side).self.lane.stock := by
  obtain ⟨rfl, pos⟩ := create_eq_ok made
  refine @watch_keep side calls _ Ledger bookkeeping (fun l k ↦ k.Matches l.self.lane.stock) ?_ ?_
    {} (ofSettings_sound pos side) ?_
  · intro l k c _ sound moves matched
    exact moves.matches_supply sound matched
  · intro l k c _ sound moves matched
    have drawn := moves.matches_draw sound matched
    rw [sound.ordinary_taken] at drawn
    exact drawn
  · rw [stock_ofSettings pos side]
    exact ⟨rfl, rfl, rfl, rfl, rfl⟩

end Conduit.Pipe
