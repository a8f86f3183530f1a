import Conduit.Proofs.Ledger

namespace Conduit.Pipe

def load (ms : List Message) : Nat := ms.countP Message.counts

def Stock.frames (s : Stock) : List Message :=
  Item.frames (s.readable ++ s.awaiting ++ s.unfinished)

/-- How a deed of the writer changes the number of messages that it wrote. -/
def Deed.tally (opened : Bool) (s : Stock) : Deed → Nat → Nat
  | .push m, n => n + load [m]
  | .obey .hiccup, n => if opened then n - load s.frames else n
  | _, n => n

def Link.Balanced (l : Link) (swallowed : Nat) : Prop :=
  l.self.state = .active →
    l.self.messagesWritten = l.peer.messagesRead + load l.self.lane.stock.frames + swallowed

@[simp] theorem load_append (ms others : List Message) :
    load (ms ++ others) = load ms + load others := List.countP_append

theorem load_singleton_le_one (m : Message) : load [m] ≤ 1 := List.countP_le_length

theorem load_eq_zero {ms : List Message} (h : ∀ m ∈ ms, m.more = true) : load ms = 0 := by
  apply List.countP_eq_zero.mpr
  intro m hm
  simp [Message.counts, h m hm]

theorem Item.countP_counts (items : List Item) :
    items.countP Item.counts = load (frames items) := by
  induction items with
  | nil => rfl
  | cons x items ih =>
    cases x with
    | frame m =>
      rw [List.countP_cons, ih, frames_cons_frame, load, load, List.countP_cons]
      rfl
    | delimiter =>
      rw [List.countP_cons, ih]
      rfl

namespace Stock

theorem frames_push (s : Stock) (m : Message) : (s.push m).frames = s.frames ++ [m] := by
  unfold push
  split <;> simp [frames]

theorem frames_flush (s : Stock) : s.flush.frames = s.frames := by
  simp [flush, frames]

end Stock

theorem Lane.Sound.load_unfinished {l : Lane} (h : l.Sound) :
    load (Item.frames l.stock.unfinished) = 0 := by
  apply load_eq_zero
  intro m hm
  obtain ⟨x, hx, hm⟩ := List.mem_filterMap.mp hm
  cases x with
  | frame m' =>
    obtain rfl : m' = m := by simpa using hm
    exact h.unfinished _ hx
  | delimiter => exact absurd hm nofun

theorem Lane.Sound.load_rollback {l : Lane} (h : l.Sound) :
    load l.stock.rollback.frames = load l.stock.frames := by
  simp [Stock.rollback, Stock.frames, h.load_unfinished]

/-- What a writer finds in a queue that its reader moved on from. -/
theorem Lane.Sound.countP_unread {l : Lane} (h : l.Sound) :
    (l.writing.flush.2.readAll).1.countP Item.counts = load l.stock.frames := by
  rw [h.holds.flush.readAll.1, Item.countP_counts, Stock.frames, Item.frames_append _
    l.stock.unfinished, load_append, h.load_unfinished, Nat.add_zero]

theorem Link.messagesWritten_followHiccup {l : Link} (h : l.self.lane.Sound)
    (opened : l.self.outOpen = true) :
    l.followHiccup.2.self.messagesWritten =
      l.self.messagesWritten - load l.self.lane.stock.frames := by
  rw [← h.countP_unread]
  simp only [followHiccup, if_pos opened]
  rfl

theorem load_eq_add (ms : List Message) :
    load ms = load (ordinary ms) + load (ms.filter (·.isCredential)) := by
  rw [load, List.countP_eq_countP_filter_add ms _ (·.isCredential), Nat.add_comm]
  simp [load, ordinary]

namespace Move

variable {l l' : Link} {d : Deed} {n : Nat}

theorem messagesWritten (h : Move l d l') (sound : l.Sound) : l'.self.messagesWritten =
    d.tally l.self.outOpen l.self.lane.stock l.self.messagesWritten := by
  cases h with
  | adjust self peer => exact self.messagesWritten
  | @push m active =>
    simp only [Link.countWritten, Deed.tally, load]
    split <;> simp [*, Link.modifySelf, Link.setOutbound]
  | takeBack | finish | giveUp => exact congrArg (·.messagesWritten) (Link.rollback_self _)
  | request | delimit => exact congrArg (·.messagesWritten) (Link.endStream_self _)
  | @obey c rest b letters hb left =>
    let received := l.modifySelf ({ · with inbox := b })
    by_cases hc : c = .hiccup
    · subst hc
      simp only [Deed.tally]
      split
      · rename_i opened
        exact Link.messagesWritten_followHiccup (l := received) sound.self.lane opened
      · rename_i shut
        have closed : ¬received.self.outOpen = true := shut
        simp only [Link.obey, Link.followHiccup]
        rw [if_neg closed]
        rfl
    · rw [((Link.obey_self received c).2.2 hc).2]
      cases c with
      | hiccup => contradiction
      | activateRead | activateWrite | term | termAck | watermarks => rfl
  | signal | look | listen | publish | take | meet | renew => rfl

theorem balanced (h : Move l d l') (sound : l.Sound) (balanced : l.Balanced n) : l'.Balanced n := by
  intro active
  -- the books are of no use to an end that is no longer active, and none becomes so again
  have was_active : l.self.state = .active := by
    by_contra ended
    exact Deed.turn_ne_active ended (h.state ▸ active)
  have books := balanced was_active
  have state := h.state
  rw [h.messagesWritten sound, h.supply sound, h.peer_kept.2.1]
  cases d with
  | push m =>
    simp only [Deed.tally, Deed.supply, Stock.frames_push, load_append]
    omega
  | takeBack => exact sound.self.lane.load_rollback ▸ books
  | publish =>
    rw [Deed.supply, Stock.frames_flush]
    exact books
  | obey c =>
    by_cases hc : c = .hiccup
    · subst hc
      have opened : l.self.outOpen = true := by
        rw [sound.self.outOpen, was_active]
        rfl
      have none_left : load (Deed.supply (.obey .hiccup) l.self.lane.stock).frames = 0 := rfl
      simp only [Deed.tally, if_pos opened]
      omega
    · rw [Deed.supply_obey hc]
      cases c <;> first | contradiction | exact books
  | delimit =>
    cases h with
    | delimit waiting => exact absurd (waiting.symm.trans was_active) nofun
  | meet | finish | giveUp | request => exact absurd (state.symm.trans active) nofun
  | quiet | take | renew => exact books

theorem messagesRead (h : Move l d l') :
    l'.self.messagesRead = l.self.messagesRead + load (ordinary (Deed.taken [d])) := by
  cases h with
  | adjust self peer => exact self.messagesRead
  | @take m rest c reads front held =>
    have counted : load (ordinary (Deed.taken [.take m])) =
        if m.counts && !m.isCredential then 1 else 0 := by
      cases credential : m.isCredential <;> simp [Deed.taken, ordinary, load, credential]
    rw [counted]
    rfl
  | push active =>
    rw [Link.countWritten]
    split <;> rfl
  | takeBack hopen =>
    rw [Link.rollback_self]
    rfl
  | finish | giveUp => exact congrArg (·.messagesRead) (Link.rollback_self _)
  | request | delimit =>
    rw [Link.endStream_self]
    rfl
  | @obey c rest b letters hb left => exact (Link.obey_self _ c).2.1
  | signal | look | listen | publish | meet | renew => rfl

theorem frames (h : Move l d l') (sound : l.Sound) :
    l.peer.lane.stock.frames = Deed.taken [d] ++ l'.peer.lane.stock.frames := by
  have drawn := h.drawn.stock
  cases h with
  | take _ front | meet _ front | finish _ front =>
    obtain ⟨still, items⟩ := sound.still front
    rw [drawn, if_pos still]
    simp [Stock.frames, items, Deed.taken, Deed.draw]
  | adjust | signal | look | listen | push | takeBack | publish | renew | request | delimit | giveUp
  | obey =>
    rw [drawn]
    split <;> rfl

theorem peer_balanced (h : Move l d l') (sound : l.Sound) (balanced : l.swap.Balanced n) :
    l'.swap.Balanced (n + load ((Deed.taken [d]).filter (·.isCredential))) := by
  intro active
  have books : l.peer.messagesWritten =
    l.self.messagesRead + load l.peer.lane.stock.frames + n := balanced (h.peer_state ▸ active)
  rw [h.frames sound, load_append, load_eq_add] at books
  rw [Link.swap_self, Link.swap_peer, h.peer_kept.2.2, h.messagesRead]
  omega

end Move

theorem Moves.balanced {l l' : Link} {ds : List Deed} {n : Nat} (h : Moves l ds l')
    (sound : l.Sound) (balanced : l.Balanced n) : l'.Balanced n :=
  @keep l l' ds (fun l ↦ l.Balanced n) h sound (fun _ deed sound ↦ deed.balanced sound) balanced

theorem Moves.peer_balanced {l l' : Link} {ds : List Deed} {n : Nat} (h : Moves l ds l')
    (sound : l.Sound) (balanced : l.swap.Balanced n) :
    l'.swap.Balanced (n + load ((Deed.taken ds).filter (·.isCredential))) := by
  induction h generalizing n with
  | nil => exact balanced
  | quiet first _ ih => exact ih (first.sound sound) (first.peer_balanced sound balanced)
  | deed first _ ih =>
    have next := ih (first.sound sound) (first.peer_balanced sound balanced)
    rw [Nat.add_assoc, ← load_append, ← List.filter_append, ← Deed.taken_cons] at next
    exact next

namespace Ledger

def unread (k : Ledger) : List Message := k.log.drop k.consumed.length

theorem swallowed_supply (k : Ledger) (ds : List Deed) :
    (ds.foldl supply k).swallowed = k.swallowed := by
  induction ds generalizing k with
  | nil => rfl
  | cons d ds ih =>
    rw [List.foldl_cons, ih]
    cases d with
    | obey c => cases c <;> rfl
    | _ => rfl

theorem Matches.unread {k : Ledger} {s : Stock} (h : k.Matches s) : k.unread = s.frames := by
  rw [Ledger.unread, h.log, h.published, List.append_assoc, List.append_assoc, List.drop_left]
  simp [Stock.frames]

end Ledger

namespace Pair

theorem balanced {s : Settings} {p : Pair} (made : create s = .ok p) (side : Side)
    (calls : List (Side × Call)) :
    ((p.run calls).link side).Balanced (load (p.watch bookkeeping side {} calls).swallowed) := by
  obtain ⟨rfl, pos⟩ := create_eq_ok made
  refine (@watch_keep side calls _ Ledger bookkeeping
    (fun l k ↦ l.Balanced (load k.swallowed)) ?_ ?_ {} (ofSettings_sound pos side) ?_).2
  · intro l k c _ sound moves balanced
    rw [bookkeeping, Ledger.swallowed_supply]
    exact moves.balanced sound balanced
  · intro l k c _ sound moves balanced
    have next := moves.peer_balanced sound balanced
    rw [← load_append] at next
    exact next
  · intro _
    rw [stock_ofSettings pos side]
    cases side <;> rfl

end Pair

theorem Link.checkMark_iff (l : Link) :
    (∀ highMark, (l.modifySelf ({ · with highMark })).checkMark = true) ↔
      l.self.messagesWritten - l.peer.messagesRead = 0 := by
  have room_iff (highMark : Nat) : (l.modifySelf ({ · with highMark })).checkMark = true ↔
      highMark = 0 ∨ l.self.messagesWritten - l.peer.messagesRead < highMark := by
    simp [checkMark, modifySelf]
  constructor
  · intro room
    by_contra full
    have := (room_iff _).mp (room (l.self.messagesWritten - l.peer.messagesRead))
    omega
  · intro empty highMark
    rw [room_iff]
    omega

/-- What counts against the watermark of an active end is what its peer has still to read, and what
its peer read past, which counts for good. A peer that read all leaves room at every watermark
exactly if it read past nothing that counts. -/
theorem credit_exact_iff {s : Settings} {p : Pair} (made : Pair.create s = .ok p) (side : Side)
    (calls : List (Side × Call)) {l : Link} {k : Ledger} (reached : (p.run calls).link side = l)
    (noted : p.watch bookkeeping side {} calls = k) (active : l.self.state = .active) :
    l.self.messagesWritten = l.peer.messagesRead + load k.unread + load k.swallowed ∧
      (l.self.messagesWritten = l.peer.messagesRead + load k.unread ↔ load k.swallowed = 0) ∧
      (k.unread = [] → ((∀ highMark, (l.modifySelf ({ · with highMark })).checkMark = true) ↔
        load k.swallowed = 0)) := by
  subst reached noted
  have balanced := Pair.balanced made side calls active
  rw [← (Pair.ledger_matches made side calls).2.unread] at balanced
  refine ⟨balanced, by omega, ?_⟩
  intro all_read
  have nothing : load [] = 0 := rfl
  rw [Link.checkMark_iff]
  rw [all_read] at balanced
  omega

theorem credit_exact_after_read :
    let calls : List (Side × Call) := [(.first, .write {}), (.first, .write {}), (.first, .flush),
      (.second, .read)]
    let l := ((Pair.ofSettings {}).run calls).link .first
    l.self.messagesWritten = l.peer.messagesRead + 1 := by
  have exact := credit_exact_iff (s := {}) rfl .first
    [(.first, .write {}), (.first, .write {}), (.first, .flush), (.second, .read)] rfl rfl rfl
  exact exact.1

/-- A credential that its reader read past counts against the watermark for good. -/
theorem credit_lost_to_credential :
    let calls : List (Side × Call) := [(.first, .write { flags := Flag.credential }),
      (.first, .flush), (.second, .read)]
    let p := Pair.ofSettings { highMarks := (1, 1) }
    let l := (p.run calls).link .first
    l.self.state = .active ∧ .hiccup ∉ l.self.inbox.contents ∧
      (p.watch bookkeeping .first {} calls).unread = [] ∧
      l.self.messagesWritten = l.peer.messagesRead + 1 ∧ l.checkMark = false :=
  ⟨rfl, by decide +kernel, by decide +kernel, rfl, rfl⟩

end Conduit.Pipe
