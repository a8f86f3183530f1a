import Conduit.Proofs.Handshake

namespace Conduit

namespace Channel

variable {α : Type}

def unwriteWhile (expected : α → Bool) : Nat → Channel α → Option (Channel α)
  | 0, c => some c
  | n + 1, c =>
    match c.unwrite with
    | (none, c) => some c
    | (some x, c) => if expected x then unwriteWhile expected n c else none

theorem Holds.unwrite_concat {c : Channel α} {r a u : List α} {x : α} (h : c.Holds r a (u ++ [x])) :
    c.unwrite = (some x, c.unwrite.2) := by
  have last := h.lengths.2.2
  rw [List.length_append, List.length_singleton] at last
  have items : c.queue.toList = r ++ a ++ u ++ [x] := by rw [h.toList_eq, ← List.append_assoc]
  obtain ⟨rest, popped, -⟩ := h.sound.queue.popBack_concat items
  have held : c.queue.backPos ≠ c.complete := by omega
  simp only [Channel.unwrite, if_neg held, popped]

theorem Holds.unwriteWhile {c : Channel α} {r a u : List α} (h : c.Holds r a u)
    {expected : α → Bool} (all : ∀ x ∈ u, expected x = true) :
    c.unwriteWhile expected (c.queue.backPos - c.complete) = some c.rollback := by
  have turns : c.queue.backPos - c.complete = u.length := by
    have := h.lengths.2.2
    omega
  rw [Channel.rollback, turns]
  clear turns
  induction u using List.reverseRecOn generalizing c with
  | nil => rfl
  | append_singleton u x ih =>
    rw [List.length_append, List.length_singleton, Channel.unwriteWhile, h.unwrite_concat]
    simp only
    rw [if_pos (all x (List.mem_append_right _ List.mem_cons_self)), unwriteN]
    exact ih h.unwrite fun y hy ↦ all y (List.mem_append_left _ hy)

end Channel

namespace Pipe

theorem Shaking.termAck_expected {s p : State} {d q : List Command}
    (h : Shaking s (.termAck :: d) p q) :
    s = .terminating ∨ s = .termAckSent ∨ s = .doubleTerminated := by
  rcases h with h | h <;> cases h <;> simp

namespace Link

def rollback? (l : Link) : Option Link :=
  if l.self.outOpen then
    let begun := l.outbound.queue.backPos - l.outbound.complete
    (l.outbound.unwriteWhile Item.more begun).map l.setOutbound
  else some l

def meetDelimiter? (l : Link) : Option Link :=
  match l.self.state with
  | .active => some (l.setState .delimiterReceived)
  | .waitingForDelimiter => l.rollback?.map (·.acknowledge .termAckSent)
  | _ => none

def checkRead? (l : Link) : Option (Bool × Link) :=
  if !l.self.canRead || !l.self.inOpen then some (false, l)
  else
    let (item, c) := l.inbound.peek
    let l := l.setInbound c
    match item with
    | none => some (false, l.fallIdle)
    | some .delimiter => (l.setInbound l.inbound.read.2).meetDelimiter?.map (false, ·)
    | some (.frame _) => some (true, l)

def readN? : Nat → Link → Option (Option Message × Link)
  | 0, l => some (none, l)
  | turns + 1, l =>
    match l.readItem with
    | (none, l) => some (none, l.fallIdle)
    | (some .delimiter, l) => l.meetDelimiter?.map (none, ·)
    | (some (.frame m), l) =>
      if m.isCredential then readN? turns (l.modifySelf ({ · with credential := m.data }))
      else some (some m, l.countRead m)

def read? (l : Link) : Option (Option Message × Link) :=
  if l.self.canRead then readN? (l.inbound.queue.length + 1) l else some (none, l)

def writeDelimiter? (l : Link) : Option Link :=
  let l := l.modifySelf ({ · with outActive := false })
  if l.self.outOpen then
    l.rollback?.map fun l ↦ (l.setOutbound (l.outbound.write .delimiter false)).flush
  else some l

def terminate? (l : Link) (delay : Bool) : Option Link :=
  let l := l.modifySelf ({ · with delay })
  match l.self.state with
  | .terminating | .doubleTerminated | .termAckSent | .terminated => some l
  | .active | .delimiterReceived => ((l.send .term).setState .terminating).writeDelimiter?
  | .waitingForDelimiter =>
    if delay then l.writeDelimiter?
    else l.rollback?.bind fun l ↦ (l.acknowledge .termAckSent).writeDelimiter?

def meetTerm? (l : Link) : Option Link :=
  match l.self.state with
  | .active | .delimiterReceived | .terminating => some l.meetTerm
  | _ => none

def meetTermAck? (l : Link) : Option Link :=
  match l.self.state with
  | .terminating | .termAckSent | .doubleTerminated => some l.meetTermAck
  | _ => none

def obey? (l : Link) : Command → Option (List Event × Link)
  | .term => l.meetTerm?.map ([], ·)
  | .termAck => l.meetTermAck?.map ([.terminated], ·)
  | c => some (l.obey c)

def processN? : Nat → Link → Option (Report × Link)
  | 0, l => some ({}, l)
  | turns + 1, l =>
    match l.receive with
    | (none, l) => some ({}, l)
    | (some c, l) => do
      let (events, l) ← l.obey? c
      let (report, l) ← processN? turns l
      return (⟨report.processed + 1, events ++ report.events⟩, l)

def process? (l : Link) : Option (Report × Link) :=
  processN? (l.self.inbox.letters.queue.length + 1) l

def perform? (l : Link) : Call → Option Link
  | .rollback => l.rollback?
  | .read => l.read?.map (·.2)
  | .checkRead => l.checkRead?.map (·.2)
  | .terminate delay => l.terminate? delay
  | .process => l.process?.map (·.2)
  | c => some (l.perform c)

variable {l : Link}

theorem rollback?_eq (h : l.self.lane.Sound) : l.rollback? = some l.rollback := by
  unfold rollback? rollback
  split
  · simp only [outbound, h.writing.holds.unwriteWhile h.unfinished, Option.map_some]
  · rfl

theorem meetDelimiter?_eq (h : l.self.lane.Sound) (reads : l.self.state.reads = true) :
    l.meetDelimiter? = some l.meetDelimiter := by
  unfold meetDelimiter? meetDelimiter
  match state : l.self.state with
  | .active => rfl
  | .waitingForDelimiter => simp only [rollback?_eq h, Option.map_some]
  | .delimiterReceived | .termAckSent | .terminating | .doubleTerminated | .terminated =>
    rw [state] at reads
    exact absurd reads Bool.noConfusion

theorem checkRead?_eq (h : l.self.lane.Sound) : l.checkRead? = some l.checkRead := by
  unfold checkRead? checkRead
  split
  · rfl
  · rename_i opened
    have reads : l.self.state.reads = true := by
      rw [← l.self.canRead_eq]
      simpa using (not_or.mp (mt (Bool.or_eq_true _ _).mpr opened)).1
    match found : l.inbound.peek with
    | (none, c) | (some (.frame m), c) => rfl
    | (some .delimiter, c) =>
      let met := (l.setInbound c).setInbound (l.setInbound c).inbound.read.2
      have expected : met.meetDelimiter? = some met.meetDelimiter := meetDelimiter?_eq h reads
      simp only [met] at expected
      simp only [expected, Option.map_some]

theorem readN?_eq (h : l.self.lane.Sound) (reads : l.self.state.reads = true) (turns : Nat) :
    readN? turns l = some (readN turns l) := by
  induction turns generalizing l with
  | zero => rfl
  | succ turns ih =>
    have same := l.readItem_self
    match found : l.readItem with
    | (none, k) => simp only [readN?, readN, found]
    | (some .delimiter, k) =>
      rw [found] at same
      simp only at same
      rw [← same] at h reads
      simp only [readN?, readN, found, meetDelimiter?_eq h reads, Option.map_some]
    | (some (.frame m), k) =>
      rw [found] at same
      simp only at same
      rw [← same] at h reads
      simp only [readN?, readN, found]
      split
      · exact ih h reads
      · rfl

theorem read?_eq (h : l.self.lane.Sound) : l.read? = some l.read := by
  unfold read? read
  split
  · rename_i reads
    exact readN?_eq h (l.self.canRead_eq ▸ reads) _
  · rfl

theorem writeDelimiter?_eq (h : l.self.lane.Sound) :
    l.writeDelimiter? = some l.writeDelimiter := by
  have rolled := rollback?_eq (l := l.modifySelf ({ · with outActive := false })) h
  unfold writeDelimiter? writeDelimiter
  simp only [rolled, Option.map_some]
  split <;> rfl

theorem terminate?_eq (h : l.self.lane.Sound) (delay : Bool) :
    l.terminate? delay = some (l.terminate delay) := by
  let asked := l.modifySelf ({ · with delay })
  have rolled : asked.rollback? = some asked.rollback := rollback?_eq h
  unfold terminate? terminate
  match state : l.self.state with
  | .terminating | .doubleTerminated | .termAckSent | .terminated =>
    have late : asked.self.state = _ := state
    simp only [asked] at late
    simp only [late]
  | .active | .delimiterReceived =>
    have unasked : asked.self.state = _ := state
    simp only [asked] at unasked
    simp only [unasked]
    exact writeDelimiter?_eq h
  | .waitingForDelimiter =>
    have waiting : asked.self.state = _ := state
    simp only [asked] at waiting rolled
    simp only [waiting, rolled, Option.bind_some]
    split
    · exact writeDelimiter?_eq h
    · rfl

theorem meetTerm?_eq {d p : List Command} {s : State}
    (h : Pipe.Shaking l.self.state (.term :: d) s p) : l.meetTerm? = some l.meetTerm := by
  unfold meetTerm?
  rcases h.hear_term with state | state | state <;> simp only [state]

theorem meetTermAck?_eq {d p : List Command} {s : State}
    (h : Pipe.Shaking l.self.state (.termAck :: d) s p) : l.meetTermAck? = some l.meetTermAck := by
  unfold meetTermAck?
  rcases h.termAck_expected with state | state | state <;> simp only [state]

theorem obey?_eq {c : Command} {d p : List Command} {s : State}
    (h : Pipe.Shaking l.self.state (if c.shakes then c :: d else d) s p) :
    l.obey? c = some (l.obey c) := by
  cases c with
  | term => simp only [obey?, obey, meetTerm?_eq h, Option.map_some]
  | termAck => simp only [obey?, obey, meetTermAck?_eq h, Option.map_some]
  | activateRead | activateWrite | hiccup | watermarks => rfl

theorem processN?_eq (sound : l.Sound) (shaking : l.Shaking) (turns : Nat) :
    processN? turns l = some (processN turns l) := by
  induction turns generalizing l with
  | zero => rfl
  | succ turns ih =>
    match letters : l.self.inbox.contents with
    | [] =>
      obtain ⟨b, found, -, -⟩ := sound.self.inbox.receive_nil letters
      simp only [processN?, processN, receive, found]
    | c :: rest =>
      obtain ⟨b, found, inbox, left⟩ := sound.self.inbox.receive_cons letters
      have obeyed := Move.obey letters inbox left
      have due : l.self.due =
          if c.shakes then c :: rest.filter Command.shakes else rest.filter Command.shakes := by
        rw [Endpoint.due, letters, List.filter_cons]
      have heard := shaking
      rw [Link.Shaking, due] at heard
      have expected := obey?_eq (l := l.modifySelf ({ · with inbox := b })) heard
      have others := ih (obeyed.sound sound) (obeyed.shaking sound shaking)
      simp only [processN?, processN, receive, found, expected, Option.bind_eq_bind,
        Option.bind_some, others]
      rfl

theorem perform?_eq (sound : l.Sound) (shaking : l.Shaking) (c : Call) :
    l.perform? c = some (l.perform c) := by
  have lane := sound.self.lane
  cases c with
  | rollback => exact rollback?_eq lane
  | read => simp only [perform?, perform, read?_eq lane, Option.map_some]
  | checkRead => simp only [perform?, perform, checkRead?_eq lane, Option.map_some]
  | terminate delay => exact terminate?_eq lane delay
  | process =>
    simp only [perform?, perform, process?, processN?_eq sound shaking, Option.map_some, process]
  | write | flush | checkWrite | setWatermarks | setBoosts | sendWatermarks | setNoDelay
  | setRoutingId | hiccup | poll | abandon => rfl

end Link

namespace Pair

def perform? (p : Pair) (side : Side) (c : Call) : Option Pair :=
  ((p.link side).perform? c).map (p.setLink side)

def run? (p : Pair) (calls : List (Side × Call)) : Option Pair :=
  calls.foldlM (fun p c ↦ p.perform? c.1 c.2) p

theorem run?_eq {s : Settings} {p : Pair} (made : create s = .ok p) (calls : List (Side × Call)) :
    p.run? calls = some (p.run calls) := by
  induction calls using List.reverseRecOn with
  | nil => rfl
  | append_singleton calls call ih =>
    obtain ⟨sound, shaking⟩ := shaking made call.1 calls
    rw [run?, List.foldlM_append, ← run?, ih, run_append, Option.bind_eq_bind, Option.bind_some,
      List.foldlM_cons, perform?, Link.perform?_eq sound shaking]
    rfl

end Pair

end Pipe

end Conduit
