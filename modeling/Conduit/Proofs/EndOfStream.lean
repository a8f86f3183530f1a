import Conduit.Proofs.ReadingOn

namespace Conduit.Pipe

namespace Link

def Ahead (l : Link) : Prop :=
  l.self.state = .terminating → l.peer.state.reads = true →
    l.self.lane.fresh = [] ∧ .delimiter ∈ l.self.lane.stock.readable

def Lost (l : Link) : Prop :=
  l.self.state = .terminating → l.peer.state.reads = true →
    l.self.lane.fresh = [] → l.self.lane.stock = {}

end Link

theorem Deed.reads_of_turn {d : Deed} {delay : Bool} {s : State}
    (h : (d.turn delay s).reads = true) : s.reads = true := by
  unfold turn at h
  split at h
  case h_5 => rfl
  case h_9 => exact h
  all_goals exact absurd h Bool.false_ne_true

theorem Deed.mem_supply {d : Deed} {s : Stock} {x : Item} (hd : d ≠ .obey .hiccup)
    (h : x ∈ s.readable) : x ∈ (d.supply s).readable := by
  cases d with
  | push m =>
    simp only [supply, Stock.push]
    split <;> exact h
  | publish => exact List.mem_append_left _ h
  | request | delimit => exact List.mem_append_left _ (List.mem_append_left _ h)
  | obey c =>
    rw [supply_obey (fun hc ↦ hd (congrArg Deed.obey hc))]
    exact h
  | quiet | takeBack | take | meet | finish | renew | giveUp => exact h

namespace Move

variable {l l' : Link} {d : Deed}

theorem ahead (h : Move l d l') (sound : l.Sound) (hd : d ≠ .request) (ahead : l.Ahead) :
    l'.Ahead := by
  intro terminating reads
  rw [h.state] at terminating
  rw [h.peer_state] at reads
  have asked := (Deed.of_turn_eq_terminating terminating).resolve_left hd
  obtain ⟨still, hmem⟩ := ahead asked reads
  -- no news of a fresh queue is on its way, since the reader stayed
  have unmoved : d ≠ .obey .hiccup := by
    rintro rfl
    cases h with
    | obey letters hb left => exact sound.moved_iff.mpr (letters ▸ List.mem_cons_self) still
  rw [h.fresh unmoved, h.supply sound]
  exact ⟨still, Deed.mem_supply unmoved hmem⟩

theorem peer_ahead (h : Move l d l') (hd : d ≠ .renew) (ahead : l.swap.Ahead) : l'.swap.Ahead := by
  intro terminating reads
  have terminating' : l.peer.state = .terminating := h.peer_state ▸ terminating
  have reads' : (d.turn l.self.delay l.self.state).reads = true := h.state ▸ reads
  obtain ⟨(still : l.peer.lane.fresh = []), (hmem : Item.delimiter ∈ l.peer.lane.stock.readable)⟩ :=
    ahead terminating' (Deed.reads_of_turn reads')
  refine ⟨h.drawn.fresh_eq_nil_iff.mpr ⟨still, hd⟩, ?_⟩
  rw [Link.swap_self, h.drawn.stock, if_pos still]
  cases h with
  | @take m rest c was_reading front held =>
    rw [Link.inbound, Lane.reading_eq_writing still] at front
    have items : l.peer.lane.stock.readable = .frame m :: rest := front
    rw [items] at hmem ⊢
    exact (List.mem_cons.mp hmem).resolve_left (by simp)
  | meet | finish => exact absurd reads' Bool.false_ne_true
  | adjust | signal | look | listen | push | takeBack | publish | request | delimit | giveUp
  | obey => exact hmem
  | renew => contradiction

theorem lost (h : Move l d l') (sound : l.Sound) (hd : d ≠ .request) (lost : l.Lost) :
    l'.Lost := by
  intro terminating reads still
  rw [h.state] at terminating
  rw [h.peer_state] at reads
  have asked := (Deed.of_turn_eq_terminating terminating).resolve_left hd
  rw [h.supply sound]
  by_cases followed : d = .obey .hiccup
  · rw [followed]
    rfl
  · rw [h.fresh followed] at still
    rw [lost asked reads still]
    cases h with
    | push active => exact absurd (active.symm.trans asked) nofun
    | delimit waiting => exact absurd (waiting.symm.trans asked) nofun
    | request => contradiction
    | obey => exact Deed.supply_obey (fun hc ↦ followed (congrArg Deed.obey hc)) _
    | adjust | signal | look | listen | takeBack | publish | take | meet | finish | renew
    | giveUp => rfl

theorem peer_lost (h : Move l d l') (lost : l.swap.Lost) : l'.swap.Lost := by
  intro terminating reads still
  have terminating' : l.peer.state = .terminating := h.peer_state ▸ terminating
  have reads' : (d.turn l.self.delay l.self.state).reads = true := h.state ▸ reads
  have still' := (h.drawn.fresh_eq_nil_iff.mp still).1
  have blank : l.peer.lane.stock = {} := lost terminating' (Deed.reads_of_turn reads') still'
  rw [Link.swap_self, h.drawn.stock, if_pos still', blank]
  unfold Deed.draw
  split <;> rfl

theorem request_ahead (h : Move l .request l') (sound : l.Sound)
    (still : l.self.lane.fresh = []) : l'.Ahead := by
  intro _ _
  rw [h.fresh nofun, h.supply sound]
  exact ⟨still, List.mem_append_right _ List.mem_cons_self⟩

theorem request_lost (h : Move l .request l') (moved : l.self.lane.fresh ≠ []) : l'.Lost := by
  intro _ _ still
  rw [h.fresh nofun] at still
  exact absurd still moved

theorem renew_lost (h : Move l .renew l') : l'.swap.Lost := by
  intro _ _ still
  exact absurd rfl (h.drawn.fresh_eq_nil_iff.mp still).2

end Move

/-- Whether the request of an end crosses the news that its peer moved on to a fresh queue. -/
def crossing : Observer Bool where
  own l
    | .terminate _, crossed =>
      if l.self.state = .active ∨ l.self.state = .delimiterReceived then
        decide (.hiccup ∈ l.self.inbox.contents)
      else crossed
    | _, crossed => crossed
  peer l
    | .hiccup, crossed => crossed || (l.self.state == .active && l.peer.state == .terminating)
    | _, crossed => crossed

structure Link.Coming (l : Link) (crossed : Bool) : Prop where
  sound : l.Sound
  ahead : crossed = false → l.Ahead
  lost : crossed = true → l.Lost

namespace Link.Coming

variable {l : Link} {crossed : Bool}

theorem move {l' : Link} {d : Deed} (h : l.Coming crossed) (deed : Move l d l')
    (hd : d ≠ .request) : l'.Coming crossed :=
  ⟨deed.sound h.sound, fun hc ↦ deed.ahead h.sound hd (h.ahead hc),
    fun hc ↦ deed.lost h.sound hd (h.lost hc)⟩

theorem moves {l' : Link} {ds : List Deed} (h : l.Coming crossed) (deeds : Moves l ds l')
    (hd : .request ∉ ds) : l'.Coming crossed := by
  refine @Moves.keep l l' ds (fun l ↦ l.Coming crossed) deeds h.sound ?_ h
  intro l d l' told deed _ h
  apply h.move deed
  rintro rfl
  exact told.elim nofun hd

theorem request {l' : Link} (h : l.Coming crossed) (deeds : Moves l [.request] l') :
    l'.Coming (decide (.hiccup ∈ l.self.inbox.contents)) := by
  obtain ⟨l₁, l₂, before, deed, behind⟩ := deeds.split
  have sound := before.sound h.sound
  have moved := h.sound.moved_iff
  rw [← before.fresh] at moved
  have coming : l₂.Coming (decide (.hiccup ∈ l.self.inbox.contents)) := by
    refine ⟨deed.sound sound, fun hc ↦ deed.request_ahead sound ?_, fun hc ↦ deed.request_lost ?_⟩
    · exact not_not.mp (mt moved.mp (of_decide_eq_false hc))
    · exact moved.mpr (of_decide_eq_true hc)
  exact coming.moves behind List.not_mem_nil

theorem perform (h : l.Coming crossed) (c : Call) :
    (l.perform c).Coming (crossing.own l c crossed) := by
  have moves := Moves.perform h.sound c
  cases c with
  | terminate delay =>
    by_cases unasked : l.self.state = .active ∨ l.self.state = .delimiterReceived
    · have asks : l.deeds (.terminate delay) = [.request] := by
        rcases unasked with state | state <;> simp [deeds, state]
      rw [asks] at moves
      simp only [crossing, if_pos unasked]
      exact h.request moves
    · have asks_not : .request ∉ l.deeds (.terminate delay) := by
        intro hd
        simp only [deeds] at hd
        split at hd
        · exact unasked (.inl ‹_›)
        · exact unasked (.inr ‹_›)
        · cases delay <;> exact absurd (List.mem_singleton.mp hd) (by simp)
        · exact absurd hd List.not_mem_nil
      simp only [crossing, if_neg unasked]
      exact h.moves moves asks_not
  | _ => exact h.moves moves (fun hd ↦ absurd (allows_of_mem_deeds hd) Bool.false_ne_true)

theorem peer_move {l' : Link} {d : Deed} (h : l.swap.Coming crossed) (deed : Move l d l')
    (hd : d ≠ .renew) : l'.swap.Coming crossed :=
  ⟨(deed.sound h.sound.swap).swap, fun hc ↦ deed.peer_ahead hd (h.ahead hc),
    fun hc ↦ deed.peer_lost (h.lost hc)⟩

theorem peer_moves {l' : Link} {ds : List Deed} (h : l.swap.Coming crossed) (deeds : Moves l ds l')
    (hd : .renew ∉ ds) : l'.swap.Coming crossed := by
  refine @Moves.keep l l' ds (fun l ↦ l.swap.Coming crossed) deeds h.sound.swap ?_ h
  intro l d l' told deed _ h
  apply h.peer_move deed
  rintro rfl
  exact told.elim nofun hd

theorem renew {l' : Link} (h : l.swap.Coming crossed) (deeds : Moves l [.renew] l') :
    l'.swap.Coming (crossed || l.peer.state == .terminating) := by
  obtain ⟨l₁, l₂, before, deed, behind⟩ := deeds.split
  have coming : l₂.swap.Coming (crossed || l.peer.state == .terminating) := by
    refine ⟨(deed.sound (before.sound h.sound.swap)).swap, ?_, fun _ ↦ deed.renew_lost⟩
    intro hc terminating
    have state : l.peer.state = .terminating := by
      rw [← before.peer_state, ← deed.peer_state]
      exact terminating
    simp [state] at hc
  exact coming.peer_moves behind List.not_mem_nil

theorem peer_perform (h : l.swap.Coming crossed) (c : Call) :
    (l.perform c).swap.Coming (crossing.peer l c crossed) := by
  have moves := Moves.perform h.sound.swap c
  cases c with
  | hiccup =>
    by_cases active : l.self.state = .active
    · have renews : l.deeds .hiccup = [.renew] := if_pos active
      rw [swap_swap, renews] at moves
      simpa [crossing, active] using h.renew moves
    · have renews_not : l.deeds .hiccup = [] := if_neg active
      rw [swap_swap, renews_not] at moves
      have inactive : (l.self.state == .active) = false := beq_false_of_ne active
      simp only [crossing, inactive, Bool.false_and, Bool.or_false]
      exact h.peer_moves moves List.not_mem_nil
  | _ => exact h.peer_moves moves (renew_notMem_deeds nofun)

end Link.Coming

theorem Pair.coming {s : Settings} {p : Pair} (made : create s = .ok p) (side : Side)
    (calls : List (Side × Call)) :
    ((p.run calls).link side).Coming (p.watch crossing side false calls) := by
  obtain ⟨rfl, pos⟩ := create_eq_ok made
  refine @watch_induction Bool crossing side (fun l crossed ↦ l.Coming crossed) calls
    (fun l _ c _ h ↦ h.perform c) (fun l _ c _ h ↦ @Link.Coming.peer_perform l.swap _ h c) _ _ ?_
  refine ⟨ofSettings_sound pos side, ?_, nofun⟩
  intro _ terminating
  cases side <;> exact absurd terminating nofun

/-- A peer that never moves on to a fresh queue crosses nothing. -/
theorem Pair.watch_crossing_of_still {s : Settings} {p : Pair} (made : create s = .ok p)
    (side : Side) {calls : List (Side × Call)}
    (still : ∀ c, (side.other, c) ∈ calls → c ≠ .hiccup) :
    p.watch crossing side false calls = false := by
  obtain ⟨rfl, pos⟩ := create_eq_ok made
  refine (@watch_keep side calls _ Bool crossing
    (fun l crossed ↦ crossed = false ∧ l.self.lane.fresh = []) ?_ ?_ false
    (ofSettings_sound pos side) ⟨rfl, fresh_ofSettings s side⟩).2.1
  · intro l crossed c _ sound moves h
    obtain ⟨rfl, unmoved⟩ := h
    refine ⟨?_, moves.still sound unmoved⟩
    cases c with
    | terminate delay =>
      have unheard : .hiccup ∉ l.self.inbox.contents :=
        fun h ↦ sound.moved_iff.mpr h unmoved
      simp [crossing, unheard]
    | _ => rfl
  · intro l crossed c hc sound moves h
    obtain ⟨rfl, unmoved⟩ := h
    have hc := still c hc
    refine ⟨?_, moves.peer_still sound (Link.renew_notMem_deeds hc) unmoved⟩
    cases c with
    | hiccup => contradiction
    | _ => rfl

namespace Link.Coming

variable {l : Link}

theorem delimiter_mem (h : l.swap.Coming false) (asked : l.peer.state = .terminating)
    (reads : l.self.state.reads = true) : .delimiter ∈ l.inbound.readable := by
  obtain ⟨(still : l.peer.lane.fresh = []), (hmem : Item.delimiter ∈ l.peer.lane.stock.readable)⟩ :=
    h.ahead rfl asked reads
  rw [Link.inbound, Lane.reading_eq_writing still]
  exact hmem

theorem readable_eq_nil (h : l.swap.Coming true) (asked : l.peer.state = .terminating)
    (reads : l.self.state.reads = true) : l.inbound.readable = [] := by
  by_cases still : l.peer.lane.fresh = []
  · have blank : l.peer.lane.stock = {} := h.lost rfl asked reads still
    rw [Link.inbound, Lane.reading_eq_writing still]
    exact congrArg Stock.readable blank
  · exact (h.sound.swap.peer.lane.reading_blank still).holds.readable

/-- Reading alone, an end that waits for a delimiter goes on only when it meets it. -/
theorem state_of_waiting {l' : Link} {d : Deed} (deed : Move l d l')
    (hd : d = .quiet ∨ d.isRead = true) (waiting : l.self.state = .waitingForDelimiter) :
    l'.self.state = .waitingForDelimiter ∨
      l'.self.state = .termAckSent ∧ .delimiter ∈ l.inbound.readable := by
  have state := deed.state
  cases deed with
  | meet active => exact absurd (active.symm.trans waiting) nofun
  | finish was_waiting front held => exact .inr ⟨rfl, front ▸ List.mem_cons_self⟩
  | adjust | signal | look | listen | take => exact .inl (state.trans waiting)
  | push | takeBack | publish | renew | request | delimit | giveUp | obey =>
    exact absurd hd (by simp [Deed.isRead])

theorem state_of_agreed {l' : Link} {d : Deed} (deed : Move l d l')
    (hd : d = .quiet ∨ d.isRead = true) (agreed : l.self.state = .termAckSent) :
    l'.self.state = .termAckSent := by
  have state := deed.state
  cases deed with
  | meet active => exact absurd (active.symm.trans agreed) nofun
  | finish => exact state
  | adjust | signal | look | listen | take => exact state.trans agreed
  | push | takeBack | publish | renew | request | delimit | giveUp | obey =>
    exact absurd hd (by simp [Deed.isRead])

theorem state_readAll_of_ahead (h : l.swap.Coming false) (asked : l.peer.state = .terminating)
    (waiting : l.self.state = .waitingForDelimiter) : l.readAll.2.self.state = .termAckSent := by
  have sound : l.Sound := h.sound.swap
  obtain ⟨⟨ds, moves, isRead⟩, reached⟩ := sound.readAll
  have coming : l.readAll.2.swap.Coming false :=
    h.peer_moves moves (fun hd ↦ absurd (isRead _ hd) Bool.false_ne_true)
  have asked' : l.readAll.2.peer.state = .terminating := moves.peer_state.trans asked
  have either : l.readAll.2.self.state = .waitingForDelimiter ∨
      l.readAll.2.self.state = .termAckSent := by
    refine @Moves.keep l _ ds (fun l ↦ l.self.state = .waitingForDelimiter ∨
      l.self.state = .termAckSent) moves sound ?_ (.inl waiting)
    intro l d l' told deed _ h
    rcases h with waiting | agreed
    · exact (state_of_waiting deed (told.imp_right (isRead d)) waiting).imp_right And.left
    · exact .inr (state_of_agreed deed (told.imp_right (isRead d)) agreed)
  apply either.resolve_left
  intro waiting
  have reads : l.readAll.2.self.state.reads = true := by
    rw [waiting]
    rfl
  have ahead := coming.delimiter_mem asked' reads
  rw [reached reads] at ahead
  exact List.not_mem_nil ahead

theorem state_readAll_of_lost (h : l.swap.Coming true) (asked : l.peer.state = .terminating)
    (waiting : l.self.state = .waitingForDelimiter) :
    l.readAll.2.self.state = .waitingForDelimiter := by
  obtain ⟨⟨ds, moves, isRead⟩, -⟩ := h.sound.swap.readAll
  have kept := @Moves.keep l _ ds (fun l ↦ l.swap.Coming true ∧ l.peer.state = .terminating ∧
    l.self.state = .waitingForDelimiter) moves h.sound.swap ?_ ⟨h, asked, waiting⟩
  · exact kept.2.2
  · intro l d l' told deed _ kept
    obtain ⟨h, asked, waiting⟩ := kept
    have hd := told.imp_right (isRead d)
    have renews_not : d ≠ .renew := by
      rintro rfl
      exact hd.elim nofun nofun
    refine ⟨h.peer_move deed renews_not, deed.peer_state.trans asked, ?_⟩
    refine (state_of_waiting deed hd waiting).resolve_right fun ⟨_, hmem⟩ ↦ ?_
    rw [h.readable_eq_nil asked (by rw [waiting]; rfl)] at hmem
    exact List.not_mem_nil hmem

end Link.Coming

/-- An end that waits for the delimiter of a peer that asked has it ahead, and comes to it by
reading on, exactly if the request did not cross the news of a fresh queue. Otherwise it waits
on. -/
theorem delimiter_ahead_iff {s : Settings} {p : Pair} (made : Pair.create s = .ok p) (side : Side)
    (calls : List (Side × Call)) {l : Link} (reached : (p.run calls).link side.other = l)
    (waiting : l.self.state = .waitingForDelimiter) (asked : l.peer.state = .terminating) :
    (.delimiter ∈ l.inbound.readable ↔ p.watch crossing side false calls = false) ∧
      l.readAll.2.self.state =
        if p.watch crossing side false calls then .waitingForDelimiter else .termAckSent := by
  have coming : l.swap.Coming (p.watch crossing side false calls) := by
    rw [← reached, Pair.link_other]
    exact Pair.coming made side calls
  have reads : l.self.state.reads = true := by
    rw [waiting]
    rfl
  match crossed : p.watch crossing side false calls with
  | false =>
    rw [crossed] at coming
    refine ⟨⟨fun _ ↦ rfl, fun _ ↦ coming.delimiter_mem asked reads⟩, ?_⟩
    exact coming.state_readAll_of_ahead asked waiting
  | true =>
    rw [crossed] at coming
    rw [coming.readable_eq_nil asked reads]
    refine ⟨⟨fun hmem ↦ absurd hmem List.not_mem_nil, nofun⟩, ?_⟩
    exact coming.state_readAll_of_lost asked waiting

theorem delimiter_ahead_after_request :
    let calls : List (Side × Call) := [(.first, .terminate true), (.second, .process)]
    let l := ((Pair.ofSettings {}).run calls).link .second
    .delimiter ∈ l.inbound.readable ∧ l.readAll.2.self.state = .termAckSent := by
  have ahead := delimiter_ahead_iff (s := {}) rfl .first
    [(.first, .terminate true), (.second, .process)] rfl rfl rfl
  exact ⟨ahead.1.mpr rfl, ahead.2⟩

/-- A request that crosses the news of a fresh queue leaves its delimiter in the one before. -/
theorem delimiter_lost_after_hiccup :
    let l := ((Pair.ofSettings {}).run [(.second, .hiccup), (.first, .terminate true),
      (.second, .process), (.first, .process)]).link .second
    l.self.state = .waitingForDelimiter ∧ l.peer.state = .terminating ∧
      .delimiter ∉ l.inbound.readable ∧ l.readAll.2.self.state = .waitingForDelimiter :=
  ⟨rfl, rfl, by decide +kernel, rfl⟩

end Conduit.Pipe
