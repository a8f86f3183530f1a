import Conduit.Proofs.CallDeeds

namespace Conduit.Pipe

structure Stock where
  readable : List Item := []
  awaiting : List Item := []
  unfinished : List Item := []

namespace Stock

def rollback (s : Stock) : Stock := { s with unfinished := [] }

def flush (s : Stock) : Stock := { s with readable := s.readable ++ s.awaiting, awaiting := [] }

def push (s : Stock) (m : Message) : Stock :=
  if m.more then { s with unfinished := s.unfinished ++ [.frame m] }
  else { s with awaiting := s.awaiting ++ s.unfinished ++ [.frame m], unfinished := [] }

def endStream (s : Stock) : Stock := { readable := s.readable ++ s.awaiting ++ [.delimiter] }

end Stock

/-- What deeds of the writer do to the queue that it writes. -/
def Deed.supply : Deed → Stock → Stock
  | .push m, s => s.push m
  | .takeBack, s | .finish, s | .giveUp, s => s.rollback
  | .publish, s => s.flush
  | .request, s | .delimit, s => s.endStream
  | .obey .hiccup, _ => {}
  | _, s => s

def Deed.draw : Deed → List Item → List Item
  | .take _, items | .meet, items | .finish, items => items.tail
  | _, items => items

def Lane.stock (l : Lane) : Stock := ⟨l.writing.readable, l.writing.awaiting, l.writing.unfinished⟩

theorem Lane.Sound.holds {l : Lane} (h : l.Sound) :
    l.writing.Holds l.stock.readable l.stock.awaiting l.stock.unfinished := h.writing.holds

namespace Lane

theorem stock_of_holds {l : Lane} {r a u : List Item} (h : l.writing.Holds r a u) :
    l.stock = ⟨r, a, u⟩ := by
  rw [stock, h.readable, h.awaiting, h.unfinished]

theorem stock_setWriting {l : Lane} {c : Channel Item} {r a u : List Item} (h : c.Holds r a u) :
    { l with writing := c }.stock = ⟨r, a, u⟩ := stock_of_holds h

theorem fresh_setReading_eq_nil_iff (l : Lane) (c : Channel Item) :
    (l.setReading c).fresh = [] ↔ l.fresh = [] := by
  rw [← List.length_eq_zero_iff, length_fresh_setReading, List.length_eq_zero_iff]

end Lane

namespace Link

theorem rollback_self (l : Link) :
    l.rollback.self = { l.self with lane := l.rollback.self.lane } := by
  unfold rollback
  split <;> rfl

theorem endStream_self (l : Link) :
    l.endStream.self = { l.self with lane := l.endStream.self.lane } := by
  unfold endStream
  split <;> rfl

theorem rollback_peer (l : Link) : l.rollback.peer = l.peer := by
  unfold rollback
  split <;> rfl

theorem acknowledge_peer (l : Link) (state : State) :
    (l.acknowledge state).peer = { l.peer with inbox := l.peer.inbox.send .termAck } := rfl

theorem endStream_peer (l : Link) : l.endStream.peer = l.peer := by
  unfold endStream
  split <;> rfl

theorem Sound.stock_rollback {l : Link} (h : l.Sound) (opened : l.self.outOpen = true) :
    l.rollback.self.lane.stock = l.self.lane.stock.rollback := by
  rw [Link.rollback, if_pos opened]
  exact Lane.stock_setWriting h.outbound.holds.rollback

theorem Sound.stock_endStream {l : Link} (h : l.Sound) (opened : l.self.outOpen = true) :
    l.endStream.self.lane.stock = l.self.lane.stock.endStream := by
  rw [Link.endStream, if_pos opened, Stock.endStream]
  have held := (h.outbound.holds.rollback.write_whole .delimiter).flush
  rw [List.append_nil, ← List.append_assoc] at held
  exact Lane.stock_setWriting held

theorem Sound.stock_push {l : Link} (h : l.Sound) (m : Message) :
    (l.setOutbound (l.outbound.write (.frame m) m.more)).self.lane.stock =
      l.self.lane.stock.push m := by
  unfold Stock.push
  split
  · rename_i more
    rw [more]
    exact Lane.stock_setWriting (h.outbound.holds.write_incomplete _)
  · rename_i more
    rw [Bool.not_eq_true] at more
    rw [more]
    exact Lane.stock_setWriting (h.outbound.holds.write_whole _)

end Link

theorem Endpoint.Sound.stock_follow {e : Endpoint} (h : e.Sound) {rest : List Command}
    (letters : e.inbox.contents = .hiccup :: rest) : e.lane.follow.stock = {} := by
  have hcount := h.hiccups
  rw [letters, List.count_cons_self] at hcount
  have moved : e.lane.fresh ≠ [] := List.ne_nil_of_length_pos (by omega)
  exact Lane.stock_of_holds (h.lane.follow_blank moved).holds

theorem Deed.supply_obey {c : Command} (hc : c ≠ .hiccup) (s : Stock) :
    (Deed.obey c).supply s = s := by
  cases c with
  | hiccup => contradiction
  | activateRead | activateWrite | term | termAck | watermarks => rfl

theorem Move.supply {l l' : Link} {d : Deed} (h : Move l d l') (sound : l.Sound) :
    l'.self.lane.stock = d.supply l.self.lane.stock := by
  have opened := sound.self.outOpen
  cases h with
  | adjust self peer =>
    rw [self.lane]
    rfl
  | signal | look | listen | take | meet | renew => rfl
  | @push m active =>
    rw [Link.countWritten]
    split <;> exact sound.stock_push m
  | takeBack hopen => exact sound.stock_rollback hopen
  | publish hopen => exact Lane.stock_setWriting sound.outbound.holds.flush
  | @finish rest c waiting front held =>
    rw [waiting] at opened
    have taken := sound.setInbound held (front ▸ List.suffix_cons _ _)
    exact taken.stock_rollback opened
  | request unasked =>
    have hopen : l.self.outOpen = true := by
      rcases unasked with h | h <;> rw [opened, h] <;> rfl
    exact (sound.ask unasked).stock_endStream hopen
  | delimit waiting =>
    rw [waiting] at opened
    exact sound.stock_endStream opened
  | giveUp waiting =>
    rw [waiting] at opened
    exact sound.stock_rollback opened
  | @obey c rest b letters hb left =>
    by_cases hc : c = .hiccup
    · subst hc
      have followed : ((l.modifySelf ({ · with inbox := b })).obey .hiccup).2.self.lane =
          l.self.lane.follow := by
        simp only [Link.obey, Link.followHiccup]
        split <;> rfl
      rw [followed]
      exact sound.self.stock_follow letters
    · rw [((Link.obey_self _ c).2.2 hc).1, Deed.supply_obey hc]
      rfl

theorem Link.obey_peer (l : Link) (c : Command) :
    (l.obey c).2.peer = { l.peer with inbox := (l.obey c).2.peer.inbox } := by
  cases c with
  | activateRead | activateWrite =>
    simp only [obey]
    split <;> rfl
  | hiccup =>
    simp only [obey, followHiccup]
    split <;> rfl
  | term =>
    simp only [obey, meetTerm]
    split
    · split <;> rfl
    · rfl
    · rfl
    · rfl
  | termAck =>
    simp only [obey, meetTermAck]
    split <;> rfl
  | watermarks inbound outbound => rfl

inductive Lane.Drawn (l : Lane) (d : Deed) : Lane → Prop
  | same (hd : d ≠ .renew) (items : ∀ items, d.draw items = items) : l.Drawn d l
  | taken {c : Channel Item} (hd : d ≠ .renew)
    (held : c.Holds (d.draw l.reading.readable) l.reading.awaiting l.reading.unfinished) :
    l.Drawn d (l.setReading c)
  | renewed {size : Nat} (hd : d = .renew) : l.Drawn d (l.renew size)

theorem Move.drawn {l l' : Link} {d : Deed} (h : Move l d l') :
    l.peer.lane.Drawn d l'.peer.lane := by
  cases h with
  | adjust self peer =>
    rw [peer.lane]
    exact .same nofun fun _ ↦ rfl
  | look held => exact .taken nofun held
  | take _ front held | meet _ front held =>
    exact .taken nofun (by rwa [← Link.inbound, front])
  | finish waiting front held =>
    rw [Link.acknowledge_peer, Link.rollback_peer]
    exact .taken nofun (by rwa [← Link.inbound, front])
  | renew active => exact .renewed rfl
  | request | delimit =>
    rw [Link.endStream_peer]
    exact .same nofun fun _ ↦ rfl
  | takeBack hopen =>
    rw [Link.rollback_peer]
    exact .same nofun fun _ ↦ rfl
  | giveUp waiting =>
    rw [Link.acknowledge_peer, Link.rollback_peer]
    exact .same nofun fun _ ↦ rfl
  | obey letters hb left =>
    rw [Link.obey_peer]
    exact .same nofun fun _ ↦ rfl
  | push active =>
    rw [Link.countWritten]
    split <;> exact .same nofun fun _ ↦ rfl
  | signal | listen | publish => exact .same nofun fun _ ↦ rfl

namespace Lane.Drawn

variable {l l' : Lane} {d : Deed}

/-- Items go from the queue being written, unless the reader has moved on from it. -/
theorem stock (h : l.Drawn d l') : l'.stock = if l.fresh = [] then
    { l.stock with readable := d.draw l.stock.readable } else l.stock := by
  cases h with
  | same hd items => rw [items, ite_self]
  | @taken c hd held =>
    split
    · rename_i still
      rw [setReading_of_nil still]
      rw [reading_eq_writing still] at held
      exact stock_setWriting held
    · rename_i moved
      rw [Lane.stock, Lane.stock, writing_setReading moved]
  | renewed hd =>
    rw [hd]
    exact (ite_self _).symm

theorem readable (h : l.Drawn d l') (hd : d ≠ .renew) :
    l'.reading.readable = d.draw l.reading.readable := by
  cases h with
  | same hd items => rw [items]
  | taken hd held => rw [reading_setReading, held.readable]
  | renewed renewed => contradiction

theorem fresh_eq_nil_iff (h : l.Drawn d l') : l'.fresh = [] ↔ l.fresh = [] ∧ d ≠ .renew := by
  cases h with
  | same hd items => simp [hd]
  | taken hd held => simp [hd, fresh_setReading_eq_nil_iff]
  | renewed hd => simp [hd, renew]

end Lane.Drawn

def Deed.turn (delay : Bool) : Deed → State → State
  | .meet, _ => .delimiterReceived
  | .finish, _ | .giveUp, _ => .termAckSent
  | .request, _ => .terminating
  | .obey .term, .active => if delay then .waitingForDelimiter else .termAckSent
  | .obey .term, .delimiterReceived => .termAckSent
  | .obey .term, .terminating => .doubleTerminated
  | .obey .termAck, _ => .terminated
  | _, s => s

theorem Link.obey_state (l : Link) (c : Command) :
    (l.obey c).2.self.state = (Deed.obey c).turn l.self.delay l.self.state := by
  cases c with
  | activateRead | activateWrite =>
    simp only [obey]
    split <;> rfl
  | hiccup =>
    simp only [obey, followHiccup]
    split <;> rfl
  | term =>
    simp only [obey, meetTerm]
    cases state : l.self.state with
    | active =>
      simp only [Deed.turn]
      split <;> rfl
    | delimiterReceived | terminating => rfl
    | waitingForDelimiter | termAckSent | doubleTerminated | terminated => exact state
  | termAck =>
    simp only [obey, meetTermAck]
    split <;> rfl
  | watermarks inbound outbound => rfl

theorem Move.state {l l' : Link} {d : Deed} (h : Move l d l') :
    l'.self.state = d.turn l.self.delay l.self.state := by
  cases h with
  | adjust self peer => exact self.state
  | push active =>
    rw [Link.countWritten]
    split <;> rfl
  | takeBack hopen =>
    rw [Link.rollback_self]
    rfl
  | request | delimit =>
    rw [Link.endStream_self]
    rfl
  | obey letters hb left => exact Link.obey_state _ _
  | signal | look | listen | publish | take | meet | renew | finish | giveUp => rfl

theorem Deed.turn_ne_active {d : Deed} {delay : Bool} {s : State} (h : s ≠ .active) :
    d.turn delay s ≠ .active := by
  unfold turn
  split
  case h_5 => exact absurd rfl h
  case h_9 => exact h
  all_goals nofun

theorem Moves.ended {l l' : Link} {ds : List Deed} (h : Moves l ds l')
    (ended : l.self.state ≠ .active) : l'.self.state ≠ .active := by
  induction h with
  | nil => exact ended
  | quiet first _ ih | deed first _ ih => exact ih (first.state ▸ Deed.turn_ne_active ended)

theorem Deed.of_turn_eq_terminating {d : Deed} {delay : Bool} {s : State}
    (h : d.turn delay s = .terminating) : d = .request ∨ s = .terminating := by
  unfold turn at h
  split at h
  case h_4 => exact .inl rfl
  case h_5 => split at h <;> contradiction
  case h_9 => exact .inr h
  all_goals contradiction

/-- An end changes no state but its own, and counts only what it reads and writes itself. -/
theorem Move.peer_kept {l l' : Link} {d : Deed} (h : Move l d l') :
    l'.peer.state = l.peer.state ∧ l'.peer.messagesRead = l.peer.messagesRead ∧
      l'.peer.messagesWritten = l.peer.messagesWritten := by
  cases h with
  | adjust self peer => exact ⟨peer.state, peer.messagesRead, peer.messagesWritten⟩
  | push active =>
    rw [Link.countWritten]
    split <;> exact ⟨rfl, rfl, rfl⟩
  | takeBack hopen =>
    rw [Link.rollback_peer]
    exact ⟨rfl, rfl, rfl⟩
  | finish | giveUp =>
    rw [Link.acknowledge_peer, Link.rollback_peer]
    exact ⟨rfl, rfl, rfl⟩
  | request | delimit =>
    rw [Link.endStream_peer]
    exact ⟨rfl, rfl, rfl⟩
  | obey letters hb left =>
    rw [Link.obey_peer]
    exact ⟨rfl, rfl, rfl⟩
  | signal | look | listen | publish | take | meet | renew => exact ⟨rfl, rfl, rfl⟩

theorem Move.peer_state {l l' : Link} {d : Deed} (h : Move l d l') :
    l'.peer.state = l.peer.state := h.peer_kept.1

theorem Moves.peer_state {l l' : Link} {ds : List Deed} (h : Moves l ds l') :
    l'.peer.state = l.peer.state := by
  induction h with
  | nil => rfl
  | quiet first _ ih => exact ih.trans first.peer_state
  | deed first _ ih => exact ih.trans first.peer_state

theorem Pair.stock_ofSettings {s : Settings} (h : 0 < s.chunkSize) (side : Side) :
    ((ofSettings s).link side).self.lane.stock = {} := by
  cases side <;> exact Lane.stock_of_holds (Channel.Blank.create h).holds

theorem Pair.fresh_ofSettings (s : Settings) (side : Side) :
    ((ofSettings s).link side).self.lane.fresh = [] := by
  cases side <;> rfl

theorem Move.fresh {l l' : Link} {d : Deed} (h : Move l d l') (hd : d ≠ .obey .hiccup) :
    l'.self.lane.fresh = l.self.lane.fresh := by
  have rolled (l : Link) : l.rollback.self.lane.fresh = l.self.lane.fresh := by
    unfold Link.rollback
    split <;> rfl
  have ended (l : Link) : l.endStream.self.lane.fresh = l.self.lane.fresh := by
    unfold Link.endStream
    split <;> rfl
  cases h with
  | adjust self peer => rw [self.lane]
  | push active =>
    rw [Link.countWritten]
    split <;> rfl
  | takeBack | finish | giveUp => exact rolled _
  | request | delimit => exact ended _
  | @obey c rest b letters hb left =>
    rw [((Link.obey_self _ c).2.2 fun hc ↦ hd (congrArg Deed.obey hc)).1]
    rfl
  | signal | look | listen | publish | take | meet | renew => rfl

theorem Moves.fresh {l l' : Link} (h : Moves l [] l') :
    l'.self.lane.fresh = l.self.lane.fresh := by
  generalize none_told : [] = ds at h
  induction h with
  | nil => rfl
  | quiet first _ ih => exact (ih none_told).trans (first.fresh nofun)
  | deed => contradiction

theorem Link.Sound.moved_iff {l : Link} (h : l.Sound) :
    l.self.lane.fresh ≠ [] ↔ .hiccup ∈ l.self.inbox.contents := by
  rw [← List.length_pos_iff, ← h.self.hiccups, List.count_pos_iff]

theorem Moves.still {l l' : Link} {ds : List Deed} (h : Moves l ds l') (sound : l.Sound)
    (still : l.self.lane.fresh = []) : l'.self.lane.fresh = [] := by
  refine @keep l l' ds (fun l ↦ l.self.lane.fresh = []) h sound ?_ still
  intro l d l' _ deed sound still
  rw [deed.fresh, still]
  rintro rfl
  cases deed with
  | obey letters hb left => exact sound.moved_iff.mpr (letters ▸ List.mem_cons_self) still

theorem Moves.peer_still {l l' : Link} {ds : List Deed} (h : Moves l ds l') (sound : l.Sound)
    (hd : .renew ∉ ds) (still : l.peer.lane.fresh = []) : l'.peer.lane.fresh = [] := by
  refine @keep l l' ds (fun l ↦ l.peer.lane.fresh = []) h sound ?_ still
  intro l d l' told deed _ still
  refine deed.drawn.fresh_eq_nil_iff.mpr ⟨still, ?_⟩
  rintro rfl
  exact told.elim nofun hd

/-- The reader stays with the queue that is written, unless it ever hiccups. -/
theorem Pair.still {s : Settings} {p : Pair} (made : create s = .ok p) (side : Side)
    {calls : List (Side × Call)} (still : ∀ c, (side.other, c) ∈ calls → c ≠ .hiccup) :
    ((p.run calls).link side).self.lane.fresh = [] := by
  obtain ⟨rfl, pos⟩ := create_eq_ok made
  refine (@watch_keep side calls _ Unit unnoted (fun l _ ↦ l.self.lane.fresh = []) ?_ ?_ ()
    (ofSettings_sound pos side) (fresh_ofSettings s side)).2
  · intro l _ c _ sound moves unmoved
    exact moves.still sound unmoved
  · intro l _ c hc sound moves unmoved
    exact moves.peer_still sound (Link.renew_notMem_deeds (still c hc)) unmoved

end Conduit.Pipe
