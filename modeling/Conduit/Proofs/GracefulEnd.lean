import Conduit.Proofs.Convergence
import Conduit.Proofs.Delivery
import Conduit.Proofs.Terms

namespace Conduit.Pipe

/-- A call of an owner that leaves it to the peer to end the pipe. -/
def Call.isPatient : Call → Bool
  | .hiccup | .setNoDelay | .terminate _ => false
  | _ => true

namespace Shaking

variable {s p : State} {d q : List Command}

theorem peer_of_reads (h : Shaking s d p q) (reads : s.reads = true) :
    p = .active ∨ p = .terminating := by
  rcases h with h | h
  · cases h with
    | opened => exact .inl rfl
    | asked | waiting => exact .inr rfl
    | agreed | confirmed | crossed | crossedOnce | crossedTwice | crossedOver | closed =>
      exact absurd reads Bool.false_ne_true
  · cases h with
    | opened => exact .inl rfl
    | asked | waiting | agreed | confirmed | crossed | crossedOnce | crossedTwice | crossedOver
    | closed => exact absurd reads Bool.false_ne_true

theorem peer_of_term (h : Shaking s (.term :: d) p q) :
    p = .terminating ∨ p = .doubleTerminated := by
  rcases h with h | h
  · cases h with
    | asked | crossed => exact .inl rfl
  · cases h with
    | crossed => exact .inl rfl
    | crossedOnce => exact .inr rfl

theorem not_reads_of_termAck (h : Shaking s (.termAck :: d) p q) : s.reads = false := by
  rcases h with h | h <;> cases h <;> rfl

theorem active_of_term (h : Shaking s (.term :: d) p q) (reads : s.reads = true) :
    s = .active := by
  rcases h.hear_term with rfl | rfl | rfl
  · rfl
  · exact absurd reads Bool.false_ne_true
  · exact absurd reads Bool.false_ne_true

end Shaking

theorem Endpoint.due_of_letters {e : Endpoint} {c : Command} {rest : List Command}
    (letters : e.inbox.contents = c :: rest) (hc : c.shakes = true) :
    e.due = c :: rest.filter Command.shakes := by
  rw [due, letters, List.filter_cons, if_pos hc]

namespace Link

/-- An end whose peer does not ask to terminate. Once it has asked itself, all that it wrote is
published. -/
structure Leads (l : Link) : Prop where
  shaking : l.Shaking
  self : l.self.state = .active ∨ l.self.state = .terminating ∨ l.self.state = .terminated
  peer : l.peer.state ≠ .terminating ∧ l.peer.state ≠ .doubleTerminated
  settled : l.self.state ≠ .active →
    l.self.lane.stock.awaiting = [] ∧ l.self.lane.stock.unfinished = []

end Link

theorem Deed.supply_settled {d : Deed} {s : Stock} (hd : ∀ m, d ≠ .push m)
    (settled : s.awaiting = [] ∧ s.unfinished = []) :
    (d.supply s).awaiting = [] ∧ (d.supply s).unfinished = [] := by
  cases d with
  | push m => exact absurd rfl (hd m)
  | takeBack | finish | giveUp => exact ⟨settled.1, rfl⟩
  | publish => exact ⟨rfl, settled.2⟩
  | request | delimit => exact ⟨rfl, rfl⟩
  | obey c => cases c <;> first | exact settled | exact ⟨rfl, rfl⟩
  | quiet | take | meet | renew => exact settled

theorem Deed.turn_eq_doubleTerminated {d : Deed} {delay : Bool} {s : State}
    (h : d.turn delay s = .doubleTerminated) : s = .terminating ∨ s = .doubleTerminated := by
  unfold turn at h
  split at h
  case h_5 => split at h <;> contradiction
  case h_7 => exact .inl rfl
  case h_9 => exact .inr h
  all_goals contradiction

namespace Move

variable {l l' : Link} {d : Deed}

theorem leads_state (h : Move l d l') (sound : l.Sound) (leads : l.Leads) :
    l'.self.state = l.self.state ∨ d = .request ∧ l'.self.state = .terminating ∨
      l.self.state ≠ .active ∧ l'.self.state = .terminated := by
  have state := h.state
  have shaking := leads.shaking
  cases h with
  | @meet rest c active front held =>
    rw [Link.Shaking, active] at shaking
    have ended := sound.ended (by rw [front]; exact List.mem_cons_self)
    rcases shaking.peer_of_reads rfl with peer | peer
    · exact absurd peer ended
    · exact absurd peer leads.peer.1
  | finish waiting | delimit waiting | giveUp waiting =>
    have self := leads.self
    rw [waiting] at self
    exact absurd self (by simp)
  | request unasked => exact .inr (.inl ⟨rfl, state⟩)
  | @obey c rest b letters hb left =>
    cases c with
    | term =>
      rw [Link.Shaking, Endpoint.due_of_letters letters rfl] at shaking
      rcases shaking.peer_of_term with peer | peer
      · exact absurd peer leads.peer.1
      · exact absurd peer leads.peer.2
    | termAck =>
      rw [Link.Shaking, Endpoint.due_of_letters letters rfl] at shaking
      refine .inr (.inr ⟨?_, state⟩)
      intro active
      have ended := shaking.not_reads_of_termAck
      rw [active] at ended
      exact absurd ended Bool.noConfusion
    | activateRead | activateWrite | hiccup | watermarks => exact .inl state
  | adjust | signal | look | listen | push | takeBack | publish | take | renew => exact .inl state

theorem leads (h : Move l d l') (sound : l.Sound) (leads : l.Leads) : l'.Leads := by
  have turned := h.leads_state sound leads
  refine ⟨h.shaking sound leads.shaking, ?_, h.peer_state.symm ▸ leads.peer, ?_⟩
  · rcases turned with same | ⟨-, asked⟩ | ⟨-, done⟩
    · rw [same]
      exact leads.self
    · exact .inr (.inl asked)
    · exact .inr (.inr done)
  · intro ended
    rw [h.supply sound]
    by_cases active : l.self.state = .active
    · rcases turned with same | ⟨rfl, -⟩ | ⟨begun, -⟩
      · exact absurd (same.trans active) ended
      · exact ⟨rfl, rfl⟩
      · exact absurd active begun
    · refine Deed.supply_settled ?_ (leads.settled active)
      rintro m rfl
      cases h with
      | push was_active => exact active was_active

theorem peer_leads (h : Move l d l') (sound : l.Sound) (hd : d ≠ .request) (leads : l.swap.Leads) :
    l'.swap.Leads := by
  refine ⟨(h.shaking sound leads.shaking.symm).symm, ?_, ⟨?_, ?_⟩, ?_⟩
  · rw [Link.swap_self, h.peer_state]
    exact leads.self
  · rw [Link.swap_peer, h.state]
    intro asked
    exact (Deed.of_turn_eq_terminating asked).elim hd leads.peer.1
  · rw [Link.swap_peer, h.state]
    intro crossed
    exact (Deed.turn_eq_doubleTerminated crossed).elim leads.peer.1 leads.peer.2
  · intro ended
    rw [Link.swap_self, h.peer_state] at ended
    rw [Link.swap_self, h.drawn.stock]
    split
    · exact leads.settled ended
    · exact leads.settled ended

end Move

theorem Link.request_notMem_deeds {l : Link} {c : Call} (patient : c.isPatient = true) :
    .request ∉ l.deeds c := by
  intro hd
  have allowed := allows_of_mem_deeds hd
  cases c with
  | terminate delay => exact absurd patient Bool.false_ne_true
  | _ => exact absurd allowed Bool.false_ne_true

theorem Link.delay_of_patient (l : Link) {c : Call} (patient : c.isPatient = true) :
    (l.perform c).self.delay = l.self.delay := by
  apply l.delay_perform
  · rintro rfl
    exact absurd patient Bool.false_ne_true
  · rintro delay rfl
    exact absurd patient Bool.false_ne_true

namespace Pair

variable {s : Settings} {p : Pair} {side : Side} {calls : List (Side × Call)}

theorem leads (made : create s = .ok p)
    (patient : ∀ c, (side.other, c) ∈ calls → c.isPatient = true) :
    ((p.run calls).link side).Leads := by
  obtain ⟨sound, start⟩ := shaking made side []
  have first : (p.link side).Leads := by
    obtain ⟨rfl, pos⟩ := create_eq_ok made
    cases side <;> exact ⟨start, .inl rfl, ⟨nofun, nofun⟩, fun begun ↦ absurd rfl begun⟩
  refine (@watch_keep side calls p Unit unnoted (fun l _ ↦ l.Leads) ?_ ?_ () sound first).2
  · intro l _ c _ sound moves leads
    exact moves.keep sound (fun _ ↦ Move.leads) leads
  · intro l _ c hc sound moves leads
    refine @Moves.keep l _ _ (fun l ↦ l.swap.Leads) moves sound ?_ leads
    intro l d l' told deed sound leads
    apply deed.peer_leads sound _ leads
    rintro rfl
    exact told.elim nofun (Link.request_notMem_deeds (patient c hc))

theorem delayed (waits : (p.link side).peer.delay = true)
    (patient : ∀ c, (side.other, c) ∈ calls → c.isPatient = true) :
    ((p.run calls).link side).peer.delay = true := by
  refine @watch_induction Unit unnoted side (fun l _ ↦ l.peer.delay = true) calls ?_ ?_ p () waits
  · intro l _ c _ waits
    obtain ⟨lane, inbox, peer⟩ := Link.Reaches.perform l c
    rw [peer]
    exact waits
  · intro l _ c hc waits
    rw [Link.swap_peer, Link.delay_of_patient _ (patient c hc)]
    exact waits

end Pair

def Deed.isCalm : Deed → Bool
  | .quiet | .push _ | .takeBack | .publish | .take _ | .renew | .delimit => true
  | .meet | .finish | .request | .giveUp | .obey _ => false

theorem Deed.turn_of_calm {d : Deed} (calm : d.isCalm = true) (delay : Bool) (s : State) :
    d.turn delay s = s := by
  cases d with
  | quiet | push | takeBack | publish | take | renew | delimit => rfl
  | meet | finish | request | giveUp | obey => exact absurd calm Bool.false_ne_true

theorem Moves.state_of_calm {l l' : Link} {ds : List Deed} (h : Moves l ds l')
    (calm : ∀ d ∈ ds, d.isCalm = true) : l'.self.state = l.self.state := by
  induction h with
  | nil => rfl
  | quiet first _ ih => exact (ih calm).trans first.state
  | deed first _ ih =>
    have rest := ih fun d hd ↦ calm d (List.mem_cons_of_mem _ hd)
    rw [rest, first.state, Deed.turn_of_calm (calm _ List.mem_cons_self)]

theorem Deed.ofRead_calm_or_ends (state : State) (items : List Item) :
    (∀ d ∈ ofRead state items, d.isCalm = true) ∨ ∃ (passed : List Message) (rest : List Item),
      items = passed.map .frame ++ .delimiter :: rest ∧ ∀ m ∈ passed, m.isCredential = true := by
  induction items with
  | nil => exact .inl nofun
  | cons x items ih =>
    cases x with
    | delimiter => exact .inr ⟨[], items, rfl, nofun⟩
    | frame m =>
      rw [ofRead]
      split
      · rename_i credential
        refine ih.imp ?_ ?_
        · intro calm d hd
          exact (List.mem_cons.mp hd).elim (fun first ↦ first ▸ rfl) (calm d)
        · rintro ⟨passed, rest, rfl, credentials⟩
          refine ⟨m :: passed, rest, rfl, ?_⟩
          intro x hx
          exact (List.mem_cons.mp hx).elim (fun first ↦ first ▸ credential) (credentials x)
      · left
        intro d hd
        rw [List.mem_singleton.mp hd]
        rfl

namespace Link

/-- A read that passes nothing but credentials, or a look, comes to the delimiter. -/
def Meets (l : Link) (c : Call) : Prop :=
  (c = .read ∨ c = .checkRead) ∧ ∃ (passed : List Message) (rest : List Item),
    l.inbound.readable = passed.map .frame ++ .delimiter :: rest ∧
      (∀ m ∈ passed, m.isCredential = true) ∧ (c = .checkRead → passed = [])

variable {l : Link}

theorem Hearing.reads_on {l' : Link} {cs : List Command} {es : List Event} (h : l.Hearing cs es l')
    (sound : l.Sound) (shaking : l.Shaking) (waits : l.self.delay = true)
    (reads : l.self.state.reads = true) : l'.self.state.reads = true := by
  induction h with
  | done | listen => exact reads
  | @obey _ _ c _ _ _ _ letters empty left _ ih =>
    have obeyed := Move.obey letters empty left
    refine ih (obeyed.sound sound) (obeyed.shaking sound shaking) ?_ ?_
    · rw [delay_of_edits (obey_edits _ c) (by cases c <;> simp [Command.scopes])]
      exact waits
    · rw [obeyed.state]
      cases c with
      | term =>
        rw [Link.Shaking, Endpoint.due_of_letters letters rfl] at shaking
        rw [shaking.active_of_term reads, waits]
        rfl
      | termAck =>
        rw [Link.Shaking, Endpoint.due_of_letters letters rfl] at shaking
        exact absurd (shaking.not_reads_of_termAck.symm.trans reads) Bool.false_ne_true
      | activateRead | activateWrite | hiccup | watermarks => exact reads

theorem Sound.meets_of_left (h : l.Sound) (shaking : l.Shaking) (waits : l.self.delay = true)
    {c : Call} (patient : c.isPatient = true) (reads : l.self.state.reads = true)
    (left : (l.perform c).self.state.reads = false) : l.Meets c := by
  have moves := Moves.perform h c
  have stays (calm : ∀ d ∈ l.deeds c, d.isCalm = true) : l.Meets c := by
    rw [moves.state_of_calm calm] at left
    exact absurd (left.symm.trans reads) Bool.false_ne_true
  cases c with
  | read =>
    rcases Deed.ofRead_calm_or_ends l.self.state l.inbound.readable with calm | ends
    · apply stays
      simpa only [deeds, if_pos reads] using calm
    · obtain ⟨passed, rest, items, credentials⟩ := ends
      exact ⟨.inl rfl, passed, rest, items, credentials, by simp⟩
  | checkRead =>
    cases items : l.inbound.readable using Item.front_cases with
    | delimiter rest =>
      exact ⟨.inr rfl, [], rest, items, List.forall_mem_nil _, fun _ ↦ rfl⟩
    | nothing | frame m rest =>
      apply stays
      simp [deeds, items, Deed.ofLook]
  | process =>
    have still : (l.perform .process).self.state.reads = true :=
      h.hearing_process.reads_on h shaking waits reads
    exact absurd (left.symm.trans still) Bool.false_ne_true
  | hiccup | setNoDelay | terminate => exact absurd patient Bool.false_ne_true
  | write | rollback | flush | checkWrite | setWatermarks | setBoosts | sendWatermarks
  | setRoutingId | poll | abandon =>
    apply stays
    intro d hd
    have allowed := allows_of_mem_deeds hd
    cases d with
    | push | takeBack | publish => rfl
    | _ => exact absurd allowed Bool.false_ne_true

end Link

theorem Item.answer_eq_head? {items : List Item} (ordered : Lane.Ordered items) :
    answer items = (ordinary (frames items)).head? := by
  induction items with
  | nil => rfl
  | cons x items ih =>
    cases x with
    | delimiter =>
      rw [frames_cons_delimiter, ordered.frames_eq_nil]
      rfl
    | frame m =>
      rw [answer, frames_cons_frame, ordinary, List.filter_cons]
      split
      · rename_i credential
        rw [if_neg (by simp [credential])]
        exact ih (List.pairwise_cons.mp ordered).2
      · rename_i frame
        rw [if_pos (by simpa using frame)]
        rfl

theorem Ledger.supply_settled {k : Ledger} {d : Deed} (whole : wholeMessages k.log = k.log)
    (published : k.published = k.log) (hd : ∀ m, d ≠ .push m) (hd' : d ≠ .obey .hiccup) :
    k.supply d = k := by
  have rolled : k.rollback = k := by rw [Ledger.rollback, whole]
  have flushed : k.flush = k := by rw [Ledger.flush, whole.trans published.symm]
  cases d with
  | push m => exact absurd rfl (hd m)
  | takeBack | finish | giveUp => exact rolled
  | publish => exact flushed
  | request | delimit => rw [supply, rolled, flushed]
  | obey c =>
    cases c with
    | hiccup => exact absurd rfl hd'
    | activateRead | activateWrite | term | termAck | watermarks => rfl
  | quiet | take | meet | renew => rfl

structure Link.Serves (l : Link) (k : Ledger) : Prop where
  leads : l.Leads
  coming : l.Coming false
  still : l.self.lane.fresh = []
  books : k.Matches l.self.lane.stock

namespace Link.Serves

variable {l : Link} {k : Ledger}

theorem settled (h : l.Serves k) (asked : l.self.state ≠ .active) :
    wholeMessages k.log = k.log ∧ k.published = k.log := by
  obtain ⟨awaiting, unfinished⟩ := h.leads.settled asked
  have log := h.books.log
  rw [awaiting, unfinished, Item.frames_nil, List.append_nil, List.append_nil] at log
  exact ⟨log ▸ h.books.whole_published, log.symm⟩

theorem own_eq (h : l.Serves k) (asked : l.self.state ≠ .active) (c : Call) :
    bookkeeping.own l c k = k := by
  obtain ⟨whole, published⟩ := h.settled asked
  have unheard : .hiccup ∉ l.self.inbox.contents := fun told ↦
    h.coming.sound.moved_iff.mpr told h.still
  refine List.foldlRecOn (motive := (· = k)) _ _ rfl ?_
  rintro _ rfl d hd
  apply Ledger.supply_settled whole published
  · rintro m rfl
    exact asked (l.checkWrite_moves.2 (of_push_mem_deeds hd).2).2
  · rintro rfl
    exact unheard (of_obey_mem_deeds hd)

theorem in_order (h : l.Serves k) : k.returned <+: ordinary k.log :=
  (h.books.delivers h.coming.sound.swap h.still).in_order

/-- What is left to read is what was not returned. -/
theorem left (h : l.Serves k) (asked : l.self.state ≠ .active) :
    ordinary k.log = k.returned ++ ordinary (Item.frames l.swap.inbound.readable) := by
  have published := Ledger.Matches.readable (l := l.swap) h.books h.still
  rw [← (h.settled asked).2, published, ordinary_append, h.books.returned]

theorem given_of_meets (h : l.Serves k) {c : Call} (meets : l.swap.Meets c) :
    l.self.state ≠ .active ∧ k.returned = ordinary k.log := by
  obtain ⟨-, passed, rest, items, credentials, -⟩ := meets
  have sound := h.coming.sound.swap
  have asked : l.self.state ≠ .active := sound.ended (by simp [items])
  refine ⟨asked, ?_⟩
  have behind : Item.frames rest = [] := by
    have ordered := sound.ordered
    rw [items] at ordered
    exact Lane.Ordered.frames_eq_nil (List.pairwise_append.mp ordered).2.1
  have none_left : ordinary (Item.frames l.swap.inbound.readable) = [] := by
    have frames : Item.frames (passed.map .frame) = passed := by
      simp [Item.frames, List.filterMap_map]
    rw [items, Item.frames_append, Item.frames_cons_delimiter, behind, List.append_nil, frames]
    simpa [ordinary] using credentials
  rw [h.left asked, none_left, List.append_nil]

end Link.Serves

namespace Pair

variable {s : Settings} {p : Pair} {side : Side} {calls : List (Side × Call)}

theorem serves (made : create s = .ok p)
    (patient : ∀ c, (side.other, c) ∈ calls → c.isPatient = true) :
    ((p.run calls).link side).Serves (p.watch bookkeeping side {} calls) := by
  have unmoved : ∀ c, (side.other, c) ∈ calls → c ≠ .hiccup := by
    rintro c hc rfl
    exact absurd (patient _ hc) Bool.false_ne_true
  have coming := coming made side calls
  rw [watch_crossing_of_still made side unmoved] at coming
  exact ⟨leads made patient, coming, still made side unmoved, (ledger_matches made side calls).2⟩

theorem log_of_asked (made : create s = .ok p) {begun : List (Side × Call)}
    (asked : ((p.run begun).link side).self.state ≠ .active) (more : List (Side × Call))
    (patient : ∀ c, (side.other, c) ∈ begun ++ more → c.isPatient = true) :
    ((p.run (begun ++ more)).link side).self.state ≠ .active ∧
      (p.watch bookkeeping side {} (begun ++ more)).log =
        (p.watch bookkeeping side {} begun).log := by
  induction more using List.reverseRecOn with
  | nil =>
    rw [List.append_nil]
    exact ⟨asked, rfl⟩
  | append_singleton more call ih =>
    obtain ⟨t, c⟩ := call
    rw [← List.append_assoc] at patient ⊢
    have patient' : ∀ c, (side.other, c) ∈ begun ++ more → c.isPatient = true :=
      fun c hc ↦ patient c (List.mem_append_left _ hc)
    obtain ⟨asked', log⟩ := ih patient'
    have serves := serves made patient'
    have moves := Moves.perform (shaking made t (begun ++ more)).1 c
    rw [run_concat, watch_concat, ← log]
    by_cases own : t = side
    · subst own
      rw [perform_own, if_pos rfl, serves.own_eq asked']
      exact ⟨moves.ended asked', rfl⟩
    · obtain rfl := Side.eq_other_of_ne own
      rw [perform_other, if_neg own, Link.swap_self]
      rw [link_other] at moves
      exact ⟨moves.peer_state ▸ asked', rfl⟩

theorem given_concat (made : create s = .ok p) {t : Side} {c : Call}
    (patient : ∀ c', (side.other, c') ∈ calls ++ [(t, c)] → c'.isPatient = true)
    (asked : ((p.run calls).link side).self.state ≠ .active)
    (given : (p.watch bookkeeping side {} calls).returned =
      ordinary (p.watch bookkeeping side {} calls).log) :
    (p.watch bookkeeping side {} (calls ++ [(t, c)])).returned =
      ordinary (p.watch bookkeeping side {} (calls ++ [(t, c)])).log := by
  have patient' : ∀ c', (side.other, c') ∈ calls → c'.isPatient = true :=
    fun c' hc ↦ patient c' (List.mem_append_left _ hc)
  have in_order := (serves made patient).in_order
  rw [(log_of_asked made asked [(t, c)] patient).2] at in_order ⊢
  rw [watch_concat] at in_order ⊢
  by_cases own : t = side
  · subst own
    rw [if_pos rfl, (serves made patient').own_eq asked, given]
  · rw [if_neg own] at in_order ⊢
    -- what was returned before is a prefix of what is, and that of the same frames
    have more : (p.watch bookkeeping side {} calls).returned <+:
        (bookkeeping.peer ((p.run calls).link t) c (p.watch bookkeeping side {} calls)).returned :=
      List.prefix_append _ _
    rw [given] at more
    exact in_order.eq_of_length (Nat.le_antisymm in_order.length_le more.length_le)

theorem meets_of_stopped (made : create s = .ok p) (waits : (p.link side).peer.delay = true)
    {t : Side} {c : Call}
    (patient : ∀ c', (side.other, c') ∈ calls ++ [(t, c)] → c'.isPatient = true)
    (reads : ((p.run calls).link side).peer.state.reads = true)
    (stopped : ((p.run (calls ++ [(t, c)])).link side).peer.state.reads = false) :
    t = side.other ∧ ((p.run calls).link side).swap.Meets c := by
  obtain ⟨sound, shaking⟩ := shaking made side calls
  rw [run_concat] at stopped
  by_cases own : t = side
  · subst own
    rw [perform_own, (Moves.perform sound c).peer_state] at stopped
    exact absurd (stopped.symm.trans reads) Bool.false_ne_true
  · obtain rfl := Side.eq_other_of_ne own
    rw [perform_other] at stopped
    have delay := delayed waits fun c' hc ↦ patient c' (List.mem_append_left _ hc)
    exact ⟨rfl, sound.swap.meets_of_left shaking.symm delay (patient c (by simp)) reads stopped⟩

/-- A reader that stopped was given all. -/
theorem given (made : create s = .ok p) (waits : (p.link side).peer.delay = true)
    (patient : ∀ c, (side.other, c) ∈ calls → c.isPatient = true)
    (stopped : ((p.run calls).link side).peer.state.reads = false) :
    ((p.run calls).link side).self.state ≠ .active ∧
      (p.watch bookkeeping side {} calls).returned =
        ordinary (p.watch bookkeeping side {} calls).log := by
  induction calls using List.reverseRecOn with
  | nil =>
    obtain ⟨rfl, -⟩ := create_eq_ok made
    cases side <;> exact absurd stopped Bool.noConfusion
  | append_singleton calls call ih =>
    obtain ⟨t, c⟩ := call
    have patient' : ∀ c', (side.other, c') ∈ calls → c'.isPatient = true :=
      fun c' hc ↦ patient c' (List.mem_append_left _ hc)
    have before : ((p.run calls).link side).self.state ≠ .active ∧
        (p.watch bookkeeping side {} calls).returned =
          ordinary (p.watch bookkeeping side {} calls).log := by
      match reads : ((p.run calls).link side).peer.state.reads with
      | false => exact ih patient' reads
      | true =>
        have meets := (meets_of_stopped made waits patient reads stopped).2
        exact (serves made patient').given_of_meets meets
    exact ⟨(log_of_asked made before.1 [(t, c)] patient).1,
      given_concat made patient before.1 before.2⟩

theorem log_of_terminate (made : create s = .ok p)
    (patient : ∀ c, (side.other, c) ∈ calls → c.isPatient = true) (delay : Bool) :
    (p.watch bookkeeping side {} (calls ++ [(side, .terminate delay)])).log =
      wholeMessages (p.watch bookkeeping side {} calls).log := by
  have serves := serves made patient
  rw [watch_concat, if_pos rfl]
  by_cases active : ((p.run calls).link side).self.state = .active
  · have asks : ((p.run calls).link side).deeds (.terminate delay) = [.request] := by
      simp [Link.deeds, active]
    have owned (k : Ledger) : bookkeeping.own ((p.run calls).link side) (.terminate delay) k =
        k.rollback.flush := congrArg (List.foldl Ledger.supply k) asks
    rw [owned]
    rfl
  · rw [serves.own_eq active, (serves.settled active).1]

end Pair

/-- How a reader, seen by its end, comes to the end of what was written for it. -/
structure Concludes (l : Link) (k : Ledger) (whole : List Message) : Prop where
  in_order : k.returned <+: ordinary whole
  /-- A reader that was not given all finds the next frame, and reads on. -/
  goes_on : l.self.state.reads = true → k.returned ≠ ordinary whole →
    ∃ m, l.read.1 = some m ∧ k.returned ++ [m] <+: ordinary whole ∧
      l.read.2.self.state = l.self.state
  /-- Given all, it finds the end with its next read. -/
  ends : l.self.state.reads = true → k.returned = ordinary whole →
    l.read.1 = none ∧ l.read.2.self.state.reads = false
  /-- One that no longer reads was given all. -/
  complete : l.self.state.reads = false → k.returned = ordinary whole ∧ l.read.1 = none

namespace Link.Serves

variable {l : Link} {k : Ledger}

theorem read_eq (h : l.swap.Serves k) (reads : l.self.state.reads = true) :
    l.read.1 = (ordinary (Item.frames l.inbound.readable)).head? := by
  have sound : l.Sound := h.coming.sound.swap
  rw [(sound.read reads).1, Item.answer_eq_head? sound.ordered]

theorem goes_on (h : l.swap.Serves k) (asked : l.peer.state ≠ .active)
    (reads : l.self.state.reads = true) (part : k.returned ≠ ordinary k.log) :
    ∃ m, l.read.1 = some m ∧ k.returned ++ [m] <+: ordinary k.log ∧
      l.read.2.self.state = l.self.state := by
  have left := h.left asked
  have next := h.read_eq reads
  have sound : l.Sound := h.coming.sound.swap
  obtain ⟨answer, moves⟩ := sound.read reads
  match rest : ordinary (Item.frames l.inbound.readable) with
  | [] =>
    rw [swap_swap, rest, List.append_nil] at left
    exact absurd left.symm part
  | m :: others =>
    rw [rest, List.head?_cons] at next
    rw [swap_swap, rest, List.append_cons] at left
    have found : Item.answer l.inbound.readable ≠ none := by
      rw [← answer, next]
      nofun
    exact ⟨m, next, ⟨others, left.symm⟩, ((moves.read rfl).2 found).1⟩

theorem ends (h : l.swap.Serves k) (asked : l.peer.state ≠ .active)
    (reads : l.self.state.reads = true) (given : k.returned = ordinary k.log) :
    l.read.1 = none ∧ l.read.2.self.state.reads = false := by
  have sound : l.Sound := h.coming.sound.swap
  obtain ⟨answer, moves⟩ := sound.read reads
  have nothing : l.read.1 = none := by
    have left := h.left asked
    rw [swap_swap, ← given, List.self_eq_append_right] at left
    rw [h.read_eq reads, left, List.head?_nil]
  refine ⟨nothing, ?_⟩
  by_contra still
  rw [Bool.not_eq_false] at still
  -- it would have read on past the delimiter
  have terminating : l.peer.state = .terminating :=
    (h.leads.shaking.symm.peer_of_reads reads).resolve_left asked
  have coming : l.read.2.swap.Coming false := h.coming.peer_moves moves
    (fun hd ↦ absurd (Deed.isRead_of_mem_ofRead hd) Bool.false_ne_true)
  have ahead := coming.delimiter_mem (moves.peer_state.trans terminating) still
  rw [(moves.read rfl).1 (answer ▸ nothing) still] at ahead
  exact List.not_mem_nil ahead

end Link.Serves

/-- However an end asks to terminate, a peer that was built to wait and leaves it to it is given
every whole message that was written before, in order, and nothing of one that was left incomplete.
It reads until then, and stops with the call that meets the delimiter behind them. -/
theorem termination_loses_nothing {s : Settings} {p : Pair} (made : Pair.create s = .ok p)
    (side : Side) (waits : (p.link side.other).self.delay = true)
    {before after calls : List (Side × Call)} {delay : Bool}
    (asks : calls = before ++ (side, .terminate delay) :: after)
    (patient : ∀ c, (side.other, c) ∈ calls → c.isPatient = true) :
    let whole := wholeMessages (p.watch bookkeeping side {} before).log
    Concludes ((p.run calls).link side.other) (p.watch bookkeeping side {} calls) whole ∧
      ∀ begun t c, begun ++ [(t, c)] <+: calls →
        ((p.run begun).link side.other).self.state.reads = true →
        ((p.run (begun ++ [(t, c)])).link side.other).self.state.reads = false →
        t = side.other ∧ ((p.run begun).link side.other).Meets c ∧
          (p.watch bookkeeping side {} begun).returned = ordinary whole := by
  intro whole
  simp only [Pair.link_other] at waits ⊢
  let l := ((p.run calls).link side).swap
  have serves : l.swap.Serves (p.watch bookkeeping side {} calls) := Pair.serves made patient
  have asked : l.peer.state ≠ .active :=
    Pair.begun made (asks ▸ List.mem_append_right _ List.mem_cons_self)
  have log : (p.watch bookkeeping side {} calls).log = whole := by
    have patient' : ∀ c, (side.other, c) ∈ before → c.isPatient = true :=
      fun c hc ↦ patient c (asks ▸ List.mem_append_left _ hc)
    refine Eq.trans ?_ (Pair.log_of_terminate made patient' delay)
    rw [asks, List.append_cons] at patient ⊢
    refine (Pair.log_of_asked made ?_ after patient).2
    exact Pair.begun made (List.mem_append_right _ List.mem_cons_self)
  rw [← log]
  refine ⟨⟨serves.in_order, ?goes_on, ?ends, ?complete⟩, ?stops⟩
  case goes_on => exact fun reads part ↦ serves.goes_on asked reads part
  case ends => exact fun reads given ↦ serves.ends asked reads given
  case complete =>
    intro stopped
    exact ⟨(Pair.given made waits patient stopped).2, by rw [Link.read_of_not_reads stopped]⟩
  case stops =>
    rintro begun t c ⟨more, rfl⟩ reads stopped
    have patient' : ∀ c', (side.other, c') ∈ begun ++ [(t, c)] → c'.isPatient = true :=
      fun c' hc ↦ patient c' (List.mem_append_left _ hc)
    obtain ⟨own, meets⟩ := Pair.meets_of_stopped made waits patient' reads stopped
    obtain ⟨asked', given⟩ := (Pair.serves made fun c' hc ↦
      patient' c' (List.mem_append_left _ hc)).given_of_meets meets
    refine ⟨own, meets, ?_⟩
    rw [List.append_assoc] at patient ⊢
    rw [given, (Pair.log_of_asked made asked' _ patient).2]

theorem termination_loses_nothing_unflushed :
    let p := Pair.ofSettings {}
    let part : Message := { flags := Flag.more }
    let before : List (Side × Call) := [(.first, .write part), (.first, .write {}),
      (.first, .write part)]
    let calls := before ++ (.first, .terminate false) :: [(.second, .process), (.second, .read)]
    ((p.run calls).link .second).self.state = .waitingForDelimiter ∧
      (p.watch bookkeeping .first {} calls).returned = [part] ∧
      Concludes ((p.run calls).link .second) (p.watch bookkeeping .first {} calls) [part, {}] := by
  intro p part before calls
  have whole : wholeMessages (p.watch bookkeeping .first {} before).log = [part, {}] := by
    decide +kernel
  have patient : ∀ c, (Side.first.other, c) ∈ calls → c.isPatient = true := by
    simp [calls, before, Side.other, Call.isPatient]
  have concludes := termination_loses_nothing (s := {}) (p := p) rfl .first rfl rfl patient
  rw [whole] at concludes
  exact ⟨by decide +kernel, by decide +kernel, concludes.1⟩

end Conduit.Pipe
