import Conduit.Proofs.Credit

namespace Conduit

namespace Channel

variable {α : Type} {c : Channel α} {r a u : List α}

theorem Holds.asleep_read_nil (h : c.Holds [] a u) : c.read.2.asleep = true := by
  have reached : ¬c.queue.frontPos ≠ c.limit := by
    have front := h.lengths.1
    have front_le := h.sound.front_le
    have limit_le := h.sound.limit_le
    rw [List.length_nil] at front
    omega
  have all : c.published = c.limit := by
    have front := h.lengths.1
    rw [List.length_nil] at front
    omega
  unfold read checkRead
  rw [if_neg reached, if_pos all]
  by_cases asleep : c.asleep = true
  · rw [if_pos asleep]
    exact asleep
  · rw [if_neg asleep]

theorem asleep_checkRead (h : c.checkRead.1 = true) : c.checkRead.2.asleep = c.asleep := by
  revert h
  unfold checkRead
  split
  · exact fun _ ↦ rfl
  · split
    · nofun
    · split
      · nofun
      · exact fun _ ↦ rfl

theorem Holds.asleep_read_cons {x : α} (h : c.Holds (x :: r) a u) :
    c.read.2.asleep = c.asleep := by
  obtain ⟨d, hd, -, -⟩ := h.checkRead_cons
  have same := asleep_checkRead (c := c) (by rw [hd])
  rw [hd] at same
  simp only [read, hd]
  exact same

theorem Holds.flush_cons {x : α} (h : c.Holds r (x :: a) u) :
    c.flush.1 = !c.asleep ∧ c.flush.2.asleep = false := by
  have behind := h.lengths.2.1
  rw [List.length_cons] at behind
  unfold Channel.flush
  rw [if_neg (by omega)]
  exact ⟨rfl, rfl⟩

end Channel

namespace Pipe

structure Line where
  /-- The largest number of unread messages. Zero sets no limit. -/
  highMark : Nat
  returned : List Message := []
  /-- The frames of whole messages that are to be read. -/
  ready : List Message := []
  /-- The frames of a message that is not ended. -/
  part : List Message := []
  outActive : Bool := true
  inActive : Bool := true
  asleep : Bool := false
  /-- How often the writer was told that there is room, and has not heard it yet. -/
  orders : Nat := 0
  /-- How often the reader was woken, and has not heard it yet. -/
  wakeups : Nat := 0

namespace Line

def placed (t : Line) : List Message := t.returned ++ t.ready ++ t.part

def hasRoom (t : Line) : Bool := t.highMark = 0 || load t.ready < t.highMark

def refuse (t : Line) : Line := { t with outActive := false }

def place (t : Line) (m : Message) : Line :=
  if m.more then { t with part := t.part ++ [m] }
  else
    { t with
      ready := t.ready ++ (t.part ++ [m])
      part := []
      asleep := false
      wakeups := t.wakeups + if t.asleep then 1 else 0 }

def doze (t : Line) : Line := { t with inActive := false, asleep := true }

def read (t : Line) : Option Message × Line :=
  match t.ready with
  | [] => (none, t.doze)
  | m :: rest =>
    let low := lowWatermark t.highMark
    let told := m.counts ∧ low > 0 ∧ load (t.returned ++ [m]) % low = 0
    (some m, { t with
      returned := t.returned ++ [m]
      ready := rest
      orders := t.orders + if told then 1 else 0 })

def resume (t : Line) : Line := { t with outActive := t.outActive || t.orders > 0, orders := 0 }

def wake (t : Line) : Line := { t with inActive := t.inActive || t.wakeups > 0, wakeups := 0 }

structure Sound (t : Line) : Prop where
  plain : ∀ m ∈ t.ready ++ t.part, m.isCredential = false
  unended : ∀ m ∈ t.part, m.more = true
  slept : t.asleep = true → t.ready = []
  /-- A reader that is idle sleeps or was woken. -/
  woken : t.inActive = false → t.asleep = true ∨ 0 < t.wakeups
  /-- A writer that is idle was told that there is room, or will be as the reader goes on. -/
  resumed : t.outActive = false → 0 < t.orders ∨
    ∃ n, lowWatermark t.highMark ∣ n ∧ load t.returned < n ∧ n ≤ load (t.returned ++ t.ready)

variable {t : Line}

theorem lowWatermark_pos {high : Nat} (h : 0 < high) :
    0 < lowWatermark high ∧ lowWatermark high ≤ high := by
  unfold lowWatermark maxWatermarkDelta
  split <;> omega

theorem exists_dvd_between {d low high : Nat} (pos : 0 < d) (h : low + d ≤ high) :
    ∃ n, d ∣ n ∧ low < n ∧ n ≤ high := by
  refine ⟨(low / d + 1) * d, Nat.dvd_mul_left _ _, ?_, ?_⟩
  · exact Nat.lt_mul_of_div_lt (Nat.lt_succ_self _) pos
  · have := Nat.div_mul_le_self low d
    rw [Nat.succ_mul]
    omega

theorem Sound.refuse (h : t.Sound) (full : t.hasRoom = false) : t.refuse.Sound := by
  refine ⟨h.plain, h.unended, h.slept, h.woken, fun _ ↦ .inr ?_⟩
  simp only [hasRoom, Bool.or_eq_false_iff, decide_eq_false_iff_not] at full
  obtain ⟨pos, le⟩ := lowWatermark_pos (Nat.pos_of_ne_zero full.1)
  apply exists_dvd_between pos
  rw [load_append]
  exact Nat.add_le_add_left (Nat.le_trans le (Nat.le_of_not_lt full.2)) _

theorem Sound.place (h : t.Sound) {m : Message} (plain : m.isCredential = false) :
    (t.place m).Sound := by
  unfold Line.place
  split
  · rename_i more
    refine ⟨?_, ?_, h.slept, h.woken, h.resumed⟩
    · intro x hx
      simp only [← List.append_assoc, List.mem_append (t := [m]), List.mem_singleton] at hx
      rcases hx with hx | rfl
      · exact h.plain x hx
      · exact plain
    · intro x hx
      rcases List.mem_append.mp hx with hx | hx
      · exact h.unended x hx
      · exact List.mem_singleton.mp hx ▸ more
  · refine ⟨?_, nofun, nofun, ?_, ?_⟩
    · intro x hx
      simp only [List.append_nil, ← List.append_assoc, List.mem_append (t := [m]),
        List.mem_singleton] at hx
      rcases hx with hx | rfl
      · exact h.plain x hx
      · exact plain
    · intro idle
      right
      rcases h.woken idle with asleep | woken
      · simp only [asleep, if_true]
        exact Nat.succ_pos _
      · exact Nat.add_pos_left woken _
    · intro idle
      refine (h.resumed idle).imp_right ?_
      rintro ⟨n, dvd, low, high⟩
      refine ⟨n, dvd, low, Nat.le_trans high ?_⟩
      simp only [load_append]
      omega

/-- A multiple that lay ahead is reached with the next frame, or lies ahead of the reader still. -/
theorem reached_or_ahead {d n : Nat} {returned rest : List Message} {m : Message} (dvd : d ∣ n)
    (low : load returned < n) (high : n ≤ load (returned ++ m :: rest)) :
    (m.counts ∧ d > 0 ∧ load (returned ++ [m]) % d = 0) ∨
      load (returned ++ [m]) < n ∧ n ≤ load (returned ++ [m] ++ rest) := by
  rw [List.append_cons] at high
  by_cases reached : n = load (returned ++ [m])
  · have counted : m.counts = true := by
      by_contra uncounted
      have none : load [m] = 0 := by simp [load, uncounted]
      rw [load_append] at reached
      omega
    have positive : 0 < d := by
      refine Nat.pos_of_ne_zero fun zero ↦ ?_
      rw [zero, Nat.zero_dvd] at dvd
      omega
    exact .inl ⟨counted, positive, Nat.mod_eq_zero_of_dvd (reached ▸ dvd)⟩
  · have one := load_singleton_le_one m
    refine .inr ⟨?_, high⟩
    rw [load_append] at reached ⊢
    omega

theorem Sound.read (h : t.Sound) : t.read.2.Sound := by
  unfold Line.read
  split
  · rename_i none
    exact ⟨h.plain, h.unended, fun _ ↦ none, fun _ ↦ .inl rfl, h.resumed⟩
  · rename_i m rest front
    have awake : t.asleep ≠ true := fun asleep ↦ List.cons_ne_nil _ _ (front ▸ h.slept asleep)
    refine ⟨?_, h.unended, fun asleep ↦ absurd asleep awake, h.woken, fun idle ↦ ?_⟩
    · intro x hx
      apply h.plain x
      rw [front]
      exact List.mem_cons_of_mem _ hx
    · rcases h.resumed idle with told | ⟨n, dvd, low, high⟩
      · exact .inl (Nat.add_pos_left told _)
      · rcases reached_or_ahead dvd low (front ▸ high) with reached | ahead
        · refine .inl (Nat.add_pos_right _ ?_)
          rw [if_pos reached]
          exact Nat.one_pos
        · exact .inr ⟨n, dvd, ahead⟩

@[simp] theorem refuse_refuse : t.refuse.refuse = t.refuse := rfl

@[simp] theorem doze_doze : t.doze.doze = t.doze := rfl

@[simp] theorem refuse_part : t.refuse.part = t.part := rfl

@[simp] theorem place_outActive (m : Message) : (t.place m).outActive = t.outActive := by
  unfold Line.place
  split <;> rfl

@[simp] theorem place_inActive (m : Message) : (t.place m).inActive = t.inActive := by
  unfold Line.place
  split <;> rfl

@[simp] theorem place_returned (m : Message) : (t.place m).returned = t.returned := by
  unfold Line.place
  split <;> rfl

@[simp] theorem read_outActive : t.read.2.outActive = t.outActive := by
  unfold Line.read
  split <;> rfl

@[simp] theorem read_part : t.read.2.part = t.part := by
  unfold Line.read
  split <;> rfl

@[simp] theorem read_wakeups : t.read.2.wakeups = t.wakeups := by
  unfold Line.read
  split <;> rfl

theorem hasRoom_read (room : t.hasRoom = true) : t.read.2.hasRoom = true := by
  unfold Line.read
  split
  · exact room
  · rename_i m rest ready
    have both : load (m :: rest) = load [m] + load rest := load_append [m] rest
    simp only [hasRoom, ready, Bool.or_eq_true, decide_eq_true_eq] at room ⊢
    omega

theorem returned_prefix_placed (t : Line) : t.returned <+: t.placed := by
  rw [placed, List.append_assoc]
  exact List.prefix_append _ _

@[simp] theorem placed_read : t.read.2.placed = t.placed := by
  unfold Line.read
  split
  · rfl
  · rename_i ready
    simp [placed, ready]

@[simp] theorem placed_place (m : Message) : (t.place m).placed = t.placed ++ [m] := by
  unfold Line.place placed
  split <;> simp

/-- A reader that is idle and has nothing left to hear has read all. -/
theorem Sound.ready_eq_nil (h : t.Sound) (idle : t.inActive = false) (heard : t.wakeups = 0) :
    t.ready = [] := by
  rcases h.woken idle with asleep | woken
  · exact h.slept asleep
  · omega

theorem Sound.outActive_resume (h : t.Sound) (read : t.ready = []) : t.resume.outActive = true := by
  by_contra idle
  simp only [Line.resume, Bool.or_eq_true, decide_eq_true_eq, not_or, Bool.not_eq_true] at idle
  rcases h.resumed idle.1 with told | ⟨n, -, low, high⟩
  · exact idle.2 told
  · rw [read, List.append_nil] at high
    omega

theorem hasRoom_of_ready_nil (read : t.ready = []) : t.hasRoom = true := by
  by_cases none : t.highMark = 0
  · simp [hasRoom, none]
  · simp [hasRoom, read, load, Nat.pos_of_ne_zero none]

theorem Sound.resume (h : t.Sound) : t.resume.Sound := by
  refine ⟨h.plain, h.unended, h.slept, h.woken, fun idle ↦ .inr ?_⟩
  simp only [Line.resume, Bool.or_eq_false_iff, decide_eq_false_iff_not] at idle
  exact (h.resumed idle.1).resolve_left idle.2

theorem Sound.wake (h : t.Sound) : t.wake.Sound := by
  refine ⟨h.plain, h.unended, h.slept, fun idle ↦ .inl ?_, h.resumed⟩
  simp only [Line.wake, Bool.or_eq_false_iff, decide_eq_false_iff_not] at idle
  exact (h.woken idle.1).resolve_right idle.2

end Line

structure Link.Carries (l : Link) (t : Line) : Prop where
  sound : t.Sound
  active : l.self.state = .active ∧ l.peer.state = .active
  opened : l.self.outOpen = true ∧ l.peer.inOpen = true
  still : l.self.lane.fresh = []
  held : l.outbound.Holds (t.ready.map .frame) [] (t.part.map .frame)
  asleep : l.outbound.asleep = t.asleep
  outActive : l.self.outActive = t.outActive
  inActive : l.peer.inActive = t.inActive
  written : l.self.messagesWritten = load (t.returned ++ t.ready)
  read : l.peer.messagesRead = load t.returned
  highMark : l.self.highMark = t.highMark
  lowMark : l.peer.lowMark = lowWatermark t.highMark
  orders : l.self.inbox.Sound ∧ l.self.inbox.contents = List.replicate t.orders .activateWrite
  wakeups : l.peer.inbox.Sound ∧ l.peer.inbox.contents = List.replicate t.wakeups .activateRead

namespace Link.Carries

variable {l : Link} {t : Line}

theorem checkMark_eq (h : l.Carries t) : l.checkMark = t.hasRoom := by
  rw [checkMark, h.written, h.read, h.highMark, load_append, Nat.add_sub_cancel_left,
    Line.hasRoom]
  by_cases none : t.highMark = 0
  · simp [none]
  · simp [Nat.pos_of_ne_zero none, none, ← decide_not]

theorem write_full (h : l.Carries t) (full : t.hasRoom = false) (m : Message) :
    (l.write m).1 = false ∧ (l.write m).2.Carries t.refuse := by
  have refused : l.write m = (false, l.modifySelf ({ · with outActive := false })) := by
    simp [write, checkWrite, h.active.1, h.opened.1, h.checkMark_eq, full]
  rw [refused]
  exact ⟨rfl, { h with sound := h.sound.refuse full, outActive := rfl }⟩

theorem write_eq (h : l.Carries t) (room : t.hasRoom = true) (m : Message) :
    l.write m = (true, (l.setOutbound (l.outbound.write (.frame m) m.more)).modifySelf fun e ↦
      { e with messagesWritten := e.messagesWritten + load [m] }) := by
  have count (l : Link) : l.countWritten m = l.modifySelf fun e ↦
      { e with messagesWritten := e.messagesWritten + load [m] } := by
    unfold countWritten load
    split <;> simp [*, modifySelf]
  simp [write, checkWrite, h.active.1, h.opened.1, h.checkMark_eq, room, count]

theorem flush_eq (active : l.self.state = .active) (opened : l.self.outOpen = true) :
    l.flush = if l.outbound.flush.1 then l.setOutbound l.outbound.flush.2
      else (l.setOutbound l.outbound.flush.2).send .activateRead := by
  simp [flush, active, opened]

theorem load_eq_zero_of_more {m : Message} (more : m.more = true) : load [m] = 0 := by
  simp [load, Message.counts, more]

theorem write_begun (h : l.Carries t) (room : t.hasRoom = true) {m : Message}
    (plain : m.isCredential = false) (more : m.more = true) :
    (l.write m).1 = true ∧ (l.write m).2.Carries (t.place m) := by
  have sound := h.sound.place plain
  rw [h.write_eq room, more]
  rw [Line.place, if_pos more] at sound ⊢
  refine ⟨rfl, { h with sound, held := ?_, written := ?_ }⟩
  · rw [List.map_append]
    exact h.held.write_incomplete _
  · simp only [modifySelf, load_eq_zero_of_more more]
    exact h.written

theorem write_ended (h : l.Carries t) (room : t.hasRoom = true) {m : Message}
    (plain : m.isCredential = false) (ends : m.more = false) :
    (l.write m).1 = true ∧ (l.write m).2.flush.Carries (t.place m) := by
  have sound := h.sound.place plain
  have whole := h.held.write_whole (.frame m)
  have published := whole.flush
  have woken : ((l.outbound.write (.frame m) false).flush.1 = !l.outbound.asleep) ∧
      (l.outbound.write (.frame m) false).flush.2.asleep = false := by
    cases part : t.part with
    | nil | cons => exact (part ▸ whole).flush_cons
  have written : l.self.messagesWritten + load [m] =
      load (t.returned ++ (t.ready ++ (t.part ++ [m]))) := by
    have none := load_eq_zero h.sound.unended
    simp only [h.written, load_append, none]
    omega
  let after (c : Channel Item) : Link := (l.setOutbound c).modifySelf fun e ↦
    { e with messagesWritten := e.messagesWritten + load [m] }
  let c := l.outbound.write (.frame m) false
  have flushed : (after c).flush =
      if c.flush.1 then after c.flush.2 else (after c.flush.2).send .activateRead :=
    flush_eq (l := after c) h.active.1 h.opened.1
  rw [Line.place, if_neg (by simp [ends])] at sound ⊢
  have carries (inbox : Mailbox Command) (received : inbox.Sound ∧ inbox.contents =
      .replicate (t.wakeups + if t.asleep then 1 else 0) .activateRead) :
      ({ after c.flush.2 with peer := { l.peer with inbox } } : Link).Carries
        { t with
          ready := t.ready ++ (t.part ++ [m])
          part := []
          asleep := false
          wakeups := t.wakeups + if t.asleep then 1 else 0 } := by
    refine { h with sound, held := ?_, asleep := woken.2, written := written, wakeups := received }
    rw [List.map_append, List.map_append]
    exact published
  rw [h.write_eq room, ends]
  refine ⟨rfl, ?_⟩
  rw [show (after c).flush = _ from flushed, woken.1, h.asleep]
  by_cases asleep : t.asleep = true
  · obtain ⟨sent, contents⟩ := h.wakeups.1.send .activateRead
    simp only [asleep] at carries ⊢
    refine carries _ ⟨sent, contents.trans ?_⟩
    rw [h.wakeups.2, if_pos trivial, List.replicate_succ']
  · simp only [asleep] at carries ⊢
    exact carries _ h.wakeups

theorem setInbound_swap (still : l.self.lane.fresh = []) (c : Channel Item) :
    l.swap.setInbound c = (l.setOutbound c).swap := by
  simp only [setInbound, setOutbound, modifySelf, swap, Lane.setReading_of_nil still]

theorem readItem_peer (h : l.Carries t) {x : Option Item} {c : Channel Item}
    (found : l.outbound.read = (x, c)) : l.swap.readItem = (x, (l.setOutbound c).swap) := by
  have inbound : l.swap.inbound = l.outbound := Lane.reading_eq_writing h.still
  rw [readItem, swap_self, if_pos h.opened.2, inbound, found]
  exact congrArg _ (setInbound_swap h.still c)

/-- The reader counts a frame, and tells the writer as it gets to the low watermark. -/
theorem countRead_peer (h : l.Carries t) (c : Channel Item) (m : Message) :
    (l.setOutbound c).swap.countRead m =
      let read := (l.setOutbound c).swap.modifySelf fun e ↦
        { e with messagesRead := e.messagesRead + load [m] }
      if m.counts = true ∧ lowWatermark t.highMark > 0 ∧
          load (t.returned ++ [m]) % lowWatermark t.highMark = 0 then
        read.send .activateWrite
      else read := by
  have one (counted : m.counts = true) : load [m] = 1 := by simp [load, counted]
  have low : (l.setOutbound c).swap.self.lowMark = lowWatermark t.highMark := h.lowMark
  have read : (l.setOutbound c).swap.self.messagesRead = load t.returned := h.read
  unfold countRead
  split
  · rename_i counted
    simp only [counted, true_and, load_append, one counted, ← read, ← low]
    rfl
  · rename_i uncounted
    have none : load [m] = 0 := by simp [load, uncounted]
    rw [if_neg fun h ↦ uncounted h.1, none]
    rfl

theorem read_peer (h : l.Carries t) :
    l.swap.read.1 = t.read.1 ∧ l.swap.read.2.swap.Carries t.read.2 := by
  have sound := h.sound.read
  have canRead : l.swap.self.canRead = true := by
    rw [Endpoint.canRead_eq, swap_self, h.active.2]
    rfl
  rw [Link.read, if_pos canRead, readN]
  unfold Line.read Line.doze at sound ⊢
  cases ready : t.ready with
  | nil =>
    have held := h.held
    have written := h.written
    rw [ready] at held sound written
    obtain ⟨c, found, left⟩ := held.read_nil
    have asleep := held.asleep_read_nil
    rw [found] at asleep
    rw [h.readItem_peer found]
    exact ⟨rfl, { h with sound, held := left, asleep, inActive := rfl, written }⟩
  | cons m rest =>
    have held := h.held
    have written := h.written
    rw [ready, List.append_cons] at written
    rw [ready] at held sound
    obtain ⟨c, found, left⟩ := held.read_cons
    have asleep := held.asleep_read_cons
    rw [found] at asleep
    rw [h.readItem_peer found]
    have plain : m.isCredential = false := h.sound.plain m (by simp [ready])
    dsimp only
    rw [if_neg (by simp [plain]), h.countRead_peer]
    refine ⟨rfl, ?_⟩
    have carries (inbox : Mailbox Command) (orders : Nat)
        (sound : { t with returned := t.returned ++ [m], ready := rest, orders }.Sound)
        (told : inbox.Sound ∧ inbox.contents = .replicate orders .activateWrite) :
        (⟨{ l.self with lane := { l.self.lane with writing := c }, inbox },
          { l.peer with messagesRead := l.peer.messagesRead + load [m] }⟩ : Link).Carries
          { t with returned := t.returned ++ [m], ready := rest, orders } := by
      have read : l.peer.messagesRead + load [m] = load (t.returned ++ [m]) := by
        rw [h.read, load_append]
      exact { h with
        sound, held := left, asleep := asleep.trans h.asleep, written, read, orders := told }
    by_cases told : m.counts = true ∧ lowWatermark t.highMark > 0 ∧
        load (t.returned ++ [m]) % lowWatermark t.highMark = 0
    · obtain ⟨sent, contents⟩ := h.orders.1.send .activateWrite
      simp only [if_pos told] at sound ⊢
      refine carries _ _ sound ⟨sent, contents.trans ?_⟩
      rw [h.orders.2, List.replicate_succ']
    · simp only [if_neg told] at sound ⊢
      exact carries _ _ sound h.orders

theorem obey_activateWrite (active : l.self.state = .active) :
    l.obey .activateWrite = (if l.self.outActive = false then [.writeActivated] else [],
      l.modifySelf ({ · with outActive := true })) := by
  cases on : l.self.outActive with
  | false => simp [obey, active, on]
  | true =>
    have same : l.modifySelf ({ · with outActive := true }) = l := by rw [modifySelf, ← on]
    rw [same]
    simp [obey, on]

theorem obey_activateRead (reads : l.self.canRead = true) :
    l.obey .activateRead = (if l.self.inActive = false then [.readActivated] else [],
      l.modifySelf ({ · with inActive := true })) := by
  cases on : l.self.inActive with
  | false => simp [obey, reads, on]
  | true =>
    have same : l.modifySelf ({ · with inActive := true }) = l := by rw [modifySelf, ← on]
    rw [same]
    simp [obey, on]

theorem obey_order (h : l.Carries t) {left : Nat} (orders : t.orders = left + 1) :
    ∃ b, l.self.inbox.receive = (some .activateWrite, b) ∧
      ((l.modifySelf ({ · with inbox := b })).obey .activateWrite).1 =
        (if t.outActive = false then [.writeActivated] else []) ∧
      ((l.modifySelf ({ · with inbox := b })).obey .activateWrite).2.Carries
        { t with outActive := true, orders := left } := by
  obtain ⟨b, received, inbox, behind⟩ := h.orders.1.receive_cons
    (by rw [h.orders.2, orders, List.replicate_succ])
  have sound : { t with outActive := true, orders := left }.Sound :=
    ⟨h.sound.plain, h.sound.unended, h.sound.slept, h.sound.woken, nofun⟩
  have active : (l.modifySelf ({ · with inbox := b })).self.state = .active := h.active.1
  have told : (l.modifySelf ({ · with inbox := b })).self.outActive = t.outActive := h.outActive
  refine ⟨b, received, ?_⟩
  rw [obey_activateWrite active, told]
  exact ⟨rfl, { h with sound, outActive := rfl, orders := ⟨inbox, behind⟩ }⟩

theorem processN_orders (h : l.Carries t) {turns : Nat} (enough : t.orders < turns) :
    (processN turns l).1 =
        ⟨t.orders, if t.outActive = false ∧ 0 < t.orders then [.writeActivated] else []⟩ ∧
      (processN turns l).2.Carries t.resume := by
  induction turns generalizing l t with
  | zero => contradiction
  | succ turns ih =>
    match orders : t.orders with
    | 0 =>
      have sound := h.sound.resume
      unfold Line.resume at sound ⊢
      obtain ⟨b, received, empty, left⟩ := h.orders.1.receive_nil (by rw [h.orders.2, orders]; rfl)
      rw [processN, receive, received, if_neg (by simp)]
      rw [orders] at sound ⊢
      refine ⟨rfl, { h with sound, outActive := ?_, orders := ⟨empty, left⟩ }⟩
      exact h.outActive.trans (Bool.or_false _).symm
    | left + 1 =>
      obtain ⟨b, received, told, going⟩ := h.obey_order orders
      obtain ⟨none, resumed⟩ := ih going (by simp only; omega)
      have same : { t with outActive := true, orders := left }.resume = t.resume := by
        simp [Line.resume, orders]
      rw [processN, receive, received]
      rw [same] at resumed
      refine ⟨?_, resumed⟩
      rw [if_neg (by simp)] at none
      simp only [told, none, List.append_nil, Nat.succ_pos, and_true]

/-- Orders that are waiting are no more than the letters in the inbox. -/
theorem process (h : l.Carries t) :
    l.process.1 = ⟨t.orders, if t.outActive = false ∧ 0 < t.orders then [.writeActivated] else []⟩ ∧
      l.process.2.Carries t.resume := by
  apply h.processN_orders
  have length := h.orders.1.sound.queue.length_eq
  have contents := congrArg List.length h.orders.2
  rw [List.length_replicate, Mailbox.contents] at contents
  rw [ChunkQueue.length]
  omega

theorem obey_wakeup (h : l.Carries t) {left : Nat} (wakeups : t.wakeups = left + 1) :
    ∃ b, l.peer.inbox.receive = (some .activateRead, b) ∧
      ((l.swap.modifySelf ({ · with inbox := b })).obey .activateRead).1 =
        (if t.inActive = false then [.readActivated] else []) ∧
      ((l.swap.modifySelf ({ · with inbox := b })).obey .activateRead).2.swap.Carries
        { t with inActive := true, wakeups := left } := by
  obtain ⟨b, received, inbox, behind⟩ := h.wakeups.1.receive_cons
    (by rw [h.wakeups.2, wakeups, List.replicate_succ])
  have sound : { t with inActive := true, wakeups := left }.Sound :=
    ⟨h.sound.plain, h.sound.unended, h.sound.slept, nofun, h.sound.resumed⟩
  have reads : (l.swap.modifySelf ({ · with inbox := b })).self.canRead = true := by
    have state : (l.swap.modifySelf ({ · with inbox := b })).self.state = .active := h.active.2
    rw [Endpoint.canRead_eq, state]
    rfl
  have told : (l.swap.modifySelf ({ · with inbox := b })).self.inActive = t.inActive := h.inActive
  refine ⟨b, received, ?_⟩
  rw [obey_activateRead reads, told]
  exact ⟨rfl, { h with sound, inActive := rfl, wakeups := ⟨inbox, behind⟩ }⟩

theorem processN_wakeups (h : l.Carries t) {turns : Nat} (enough : t.wakeups < turns) :
    (processN turns l.swap).1 =
        ⟨t.wakeups, if t.inActive = false ∧ 0 < t.wakeups then [.readActivated] else []⟩ ∧
      (processN turns l.swap).2.swap.Carries t.wake := by
  induction turns generalizing l t with
  | zero => contradiction
  | succ turns ih =>
    match wakeups : t.wakeups with
    | 0 =>
      have sound := h.sound.wake
      unfold Line.wake at sound ⊢
      obtain ⟨b, received, empty, left⟩ :=
        h.wakeups.1.receive_nil (by rw [h.wakeups.2, wakeups]; rfl)
      rw [processN, receive, swap_self, received, if_neg (by simp)]
      rw [wakeups] at sound ⊢
      refine ⟨rfl, { h with sound, inActive := ?_, wakeups := ⟨empty, left⟩ }⟩
      exact h.inActive.trans (Bool.or_false _).symm
    | left + 1 =>
      obtain ⟨b, received, told, going⟩ := h.obey_wakeup wakeups
      obtain ⟨none, woken⟩ := ih going (by simp only; omega)
      have same : { t with inActive := true, wakeups := left }.wake = t.wake := by
        simp [Line.wake, wakeups]
      rw [processN, receive, swap_self, received]
      rw [same] at woken
      refine ⟨?_, woken⟩
      rw [if_neg (by simp)] at none
      simp only [swap_swap] at none
      simp only [told, none, List.append_nil, Nat.succ_pos, and_true]

theorem process_peer (h : l.Carries t) :
    l.swap.process.1 =
        ⟨t.wakeups, if t.inActive = false ∧ 0 < t.wakeups then [.readActivated] else []⟩ ∧
      l.swap.process.2.swap.Carries t.wake := by
  apply h.processN_wakeups
  have length := h.wakeups.1.sound.queue.length_eq
  have contents := congrArg List.length h.wakeups.2
  rw [List.length_replicate, Mailbox.contents] at contents
  rw [ChunkQueue.length, swap_self]
  omega

end Link.Carries

theorem Pair.carries_ofSettings {s : Settings} (pos : 0 < s.chunkSize) :
    ((ofSettings s).link .first).Carries { highMark := s.highMarks.1 } := by
  have blank : (Channel.create s.chunkSize : Channel Item).Blank := .create pos
  refine ⟨⟨nofun, nofun, nofun, nofun, nofun⟩, ⟨rfl, rfl⟩, ⟨rfl, rfl⟩, rfl, blank.holds, rfl, rfl,
    rfl, rfl, rfl, rfl, rfl, Mailbox.create_sound, Mailbox.create_sound⟩

namespace Line

def seenBy (side : Side) (t : Line) (l : Link) : Prop :=
  match side with
  | .first => l.Carries t
  | .second => l.swap.Carries t

def hear (side : Side) (t : Line) : Line :=
  match side with
  | .first => t.resume
  | .second => t.wake

def active (side : Side) (t : Line) : Bool :=
  match side with
  | .first => t.outActive
  | .second => t.inActive

def told (side : Side) (t : Line) : Nat :=
  match side with
  | .first => t.orders
  | .second => t.wakeups

def resumption : Side → Event
  | .first => .writeActivated
  | .second => .readActivated

def report (side : Side) (t : Line) : Link.Report :=
  ⟨t.told side, if t.active side = false ∧ 0 < t.told side then [resumption side] else []⟩

theorem mem_report_iff {side : Side} {t : Line} {e : Event} : e ∈ (t.report side).events ↔
    e = resumption side ∧ t.active side = false ∧ 0 < t.told side := by
  by_cases told : t.active side = false ∧ 0 < t.told side <;> simp [report, told]

theorem active_hear_iff (side : Side) (t : Line) : (t.hear side).active side = true ↔
    t.active side = true ∨ ∃ e, e ∈ (t.report side).events := by
  have heard : (t.hear side).active side = (t.active side || decide (t.told side > 0)) := by
    cases side <;> rfl
  simp only [mem_report_iff, exists_eq_left, heard, Bool.or_eq_true, decide_eq_true_eq]
  cases t.active side <;> simp

theorem process_seenBy {side : Side} {t : Line} {l : Link} (h : t.seenBy side l) :
    l.process.1 = t.report side ∧ (t.hear side).seenBy side l.process.2 := by
  cases side with
  | first => exact h.process
  | second => exact h.process_peer

theorem hear_hear (side : Side) (t : Line) : (t.hear side).hear side = t.hear side := by
  cases side <;> simp [hear, resume, wake]

theorem report_hear (side : Side) (t : Line) : (t.hear side).report side = {} := by
  cases side <;> simp [hear, report, active, told, resume, wake]

end Line

theorem Pair.link_seenBy {p : Pair} {t : Line} (h : (p.link .first).Carries t) (side : Side) :
    t.seenBy side (p.link side) := by
  cases side <;> exact h

theorem Pair.carries_setLink {p : Pair} {t : Line} {side : Side} {l : Link} (h : t.seenBy side l) :
    ((p.setLink side l).link .first).Carries t := by
  cases side <;> exact h

end Pipe

end Conduit
