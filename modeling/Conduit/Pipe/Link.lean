import Conduit.Pipe.Endpoint

namespace Conduit.Pipe

structure Link where
  self : Endpoint
  peer : Endpoint

namespace Link

def swap (l : Link) : Link := ⟨l.peer, l.self⟩

def modifySelf (l : Link) (f : Endpoint → Endpoint) : Link := { l with self := f l.self }

def setState (l : Link) (state : State) : Link := l.modifySelf ({ · with state })

def send (l : Link) (c : Command) : Link :=
  { l with peer := { l.peer with inbox := l.peer.inbox.send c } }

def inbound (l : Link) : Channel Item := l.peer.lane.reading

def setInbound (l : Link) (c : Channel Item) : Link :=
  { l with peer := { l.peer with lane := l.peer.lane.setReading c } }

def outbound (l : Link) : Channel Item := l.self.lane.writing

def setOutbound (l : Link) (c : Channel Item) : Link :=
  l.modifySelf fun e ↦ { e with lane := { e.lane with writing := c } }

def rollback (l : Link) : Link :=
  if l.self.outOpen then l.setOutbound l.outbound.rollback else l

def closeOut (l : Link) : Link := l.modifySelf ({ · with outOpen := false })

/-- Lets go of the outgoing queue and agrees to terminate. -/
def acknowledge (l : Link) (state : State) : Link :=
  (l.closeOut.send .termAck).setState state

def meetDelimiter (l : Link) : Link :=
  match l.self.state with
  | .active => l.setState .delimiterReceived
  | .waitingForDelimiter => l.rollback.acknowledge .termAckSent
  | _ => l

def fallIdle (l : Link) : Link := l.modifySelf ({ · with inActive := false })

/-- Whether a frame can be read. A delimiter in front is taken, and ends the stream. -/
def checkRead (l : Link) : Bool × Link :=
  if !l.self.canRead || !l.self.inOpen then (false, l)
  else
    let (item, c) := l.inbound.peek
    let l := l.setInbound c
    match item with
    | none => (false, l.fallIdle)
    | some .delimiter => (false, (l.setInbound l.inbound.read.2).meetDelimiter)
    | some (.frame _) => (true, l)

def readItem (l : Link) : Option Item × Link :=
  if l.self.inOpen then
    let (item, c) := l.inbound.read
    (item, l.setInbound c)
  else (none, l)

/-- Counts a frame that was read. Each time the low watermark is reached, the peer is told that
there is room. -/
def countRead (l : Link) (m : Message) : Link :=
  if m.counts then
    let read := l.self.messagesRead + 1
    let l := l.modifySelf ({ · with messagesRead := read })
    if l.self.lowMark > 0 ∧ read % l.self.lowMark = 0 then l.send .activateWrite else l
  else l

def readN : Nat → Link → Option Message × Link
  | 0, l => (none, l)
  | turns + 1, l =>
    match l.readItem with
    | (none, l) => (none, l.fallIdle)
    | (some .delimiter, l) => (none, l.meetDelimiter)
    | (some (.frame m), l) =>
      if m.isCredential then readN turns (l.modifySelf ({ · with credential := m.data }))
      else (some m, l.countRead m)

/-- The next frame. Credentials are kept and not returned. -/
def read (l : Link) : Option Message × Link :=
  if l.self.canRead then readN (l.inbound.queue.length + 1) l else (none, l)

def readAllN : Nat → Link → List Message × Link
  | 0, l => ([], l)
  | turns + 1, l =>
    match l.read with
    | (none, l) => ([], l)
    | (some m, l) =>
      let (ms, l) := readAllN turns l
      (m :: ms, l)

def readAll (l : Link) : List Message × Link := readAllN (l.inbound.queue.length + 1) l

def checkMark (l : Link) : Bool :=
  !(l.self.highMark > 0 && l.self.messagesWritten - l.peer.messagesRead ≥ l.self.highMark)

def checkWrite (l : Link) : Bool × Link :=
  if l.self.state != .active || !l.self.outOpen then (false, l)
  else if l.checkMark then (true, l)
  else (false, l.modifySelf ({ · with outActive := false }))

def countWritten (l : Link) (m : Message) : Link :=
  if m.counts then l.modifySelf fun e ↦ { e with messagesWritten := e.messagesWritten + 1 } else l

/-- Whether the frame was accepted. It can be read after a flush, together with the frames up to the
end of its message. -/
def write (l : Link) (m : Message) : Bool × Link :=
  match l.checkWrite with
  | (false, l) => (false, l)
  | (true, l) => (true, (l.setOutbound (l.outbound.write (.frame m) m.more)).countWritten m)

def writeN (m : Message) : Nat → Link → Nat × Link
  | 0, l => (0, l)
  | n + 1, l =>
    match l.write m with
    | (false, l) => (0, l)
    | (true, l) =>
      let (written, l) := writeN m n l
      (written + 1, l)

/-- Publishes complete messages and wakes a reader that fell asleep. -/
def flush (l : Link) : Link :=
  if l.self.state = .termAckSent ∨ l.self.outOpen = false then l
  else
    let (awake, c) := l.outbound.flush
    let l := l.setOutbound c
    if awake then l else l.send .activateRead

/-- Moves on to a fresh inbound queue. The peer drops what is unread in the one before. -/
def hiccup (l : Link) : Link :=
  if l.self.state = .active ∧ l.self.inOpen then
    let l := { l with peer := { l.peer with lane := l.peer.lane.renew l.self.chunkSize } }
    (l.modifySelf ({ · with inActive := true })).send .hiccup
  else l

/-- Ends the outgoing messages with a delimiter, which no watermark holds back. -/
def writeDelimiter (l : Link) : Link :=
  let l := l.modifySelf ({ · with outActive := false })
  if l.self.outOpen then
    let l := l.rollback
    (l.setOutbound (l.outbound.write .delimiter false)).flush
  else l

/-- Starts to terminate. With `delay`, the peer reads on up to the delimiter. -/
def terminate (l : Link) (delay : Bool) : Link :=
  let l := l.modifySelf ({ · with delay })
  match l.self.state with
  | .terminating | .doubleTerminated | .termAckSent | .terminated => l
  | .active | .delimiterReceived => ((l.send .term).setState .terminating).writeDelimiter
  | .waitingForDelimiter =>
    if delay then l.writeDelimiter else (l.rollback.acknowledge .termAckSent).writeDelimiter

/-- Follows the reader to its fresh queue. Unread messages of the old one no longer count. -/
def followHiccup (l : Link) : List Event × Link :=
  if l.self.outOpen then
    let unread := (l.outbound.flush.2.readAll).1.countP Item.counts
    let l := l.modifySelf fun e ↦
      { e with
        lane := e.lane.follow
        messagesWritten := e.messagesWritten - unread
        outActive := true }
    (if l.self.state = .active then [.hiccuped] else [], l)
  else ([], l.modifySelf fun e ↦ { e with lane := e.lane.follow })

def meetTerm (l : Link) : Link :=
  match l.self.state with
  | .active => if l.self.delay then l.setState .waitingForDelimiter else l.acknowledge .termAckSent
  | .delimiterReceived => l.acknowledge .termAckSent
  | .terminating => l.acknowledge .doubleTerminated
  | _ => l

/-- Ends the handshake. What is unread goes with the queue. -/
def meetTermAck (l : Link) : Link :=
  let l := if l.self.state = .terminating then l.closeOut.send .termAck else l
  l.modifySelf fun e ↦
    { e with
      state := .terminated
      inOpen := false
      outOpen := false
      inActive := false
      outActive := false }

def obey (l : Link) : Command → List Event × Link
  | .activateRead =>
    if !l.self.inActive && l.self.canRead then
      ([.readActivated], l.modifySelf ({ · with inActive := true }))
    else ([], l)
  | .activateWrite =>
    if !l.self.outActive && l.self.state == .active then
      ([.writeActivated], l.modifySelf ({ · with outActive := true }))
    else ([], l)
  | .hiccup => l.followHiccup
  | .term => ([], l.meetTerm)
  | .termAck => ([.terminated], l.meetTermAck)
  | .watermarks inbound outbound => ([], l.modifySelf (·.setWatermarks inbound outbound))

def receive (l : Link) : Option Command × Link :=
  let (c, inbox) := l.self.inbox.receive
  (c, l.modifySelf ({ · with inbox }))

structure Report where
  processed : Nat := 0
  events : List Event := []
deriving DecidableEq

def processN : Nat → Link → Report × Link
  | 0, l => ({}, l)
  | turns + 1, l =>
    match l.receive with
    | (none, l) => ({}, l)
    | (some c, l) =>
      let (events, l) := l.obey c
      let (report, l) := processN turns l
      (⟨report.processed + 1, events ++ report.events⟩, l)

/-- Obeys the commands of the peer until none is left. -/
def process (l : Link) : Report × Link := processN (l.self.inbox.letters.queue.length + 1) l

/-- Whether commands are waiting, as a waiter learns it that gives up at once. -/
def poll (l : Link) : Wait × Link :=
  let (w, inbox) := l.self.inbox.poll
  (w, l.modifySelf ({ · with inbox }))

def abandon (l : Link) : Link :=
  { l with peer := { l.peer with inbox := l.peer.inbox.close } }

end Link

end Conduit.Pipe
