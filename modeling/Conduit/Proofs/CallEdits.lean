import Conduit.Proofs.EndpointSound
import Conduit.Proofs.PipeRun

namespace Conduit.Pipe

inductive Scope where
  /-- The watermarks of either end. -/
  | marks
  /-- Whether it reads on as its peer terminates. -/
  | delay
  /-- Whether there is room to write. -/
  | room
  /-- What there is to read, and whether it goes on reading. -/
  | input
  | credential
  /-- Room for its peer to write. -/
  | credit
  /-- The end of the handshake. -/
  | ending
  | inbox
  | bell
deriving DecidableEq

inductive Note where
  | state (state : State)
  | closeOut
  | inActive (inActive : Bool)
  | outActive (outActive : Bool)
  /-- It read one more message. -/
  | counted
  | written
  /-- So many of its messages were dropped with a queue. -/
  | unwritten (n : Nat)
  | credential (credential : Bytes)
  | marks (inbound outbound : Nat)
  | boosts (inbound outbound : Nat)
  | delay (delay : Bool)
  | routingId (id : Option UInt32)
  | terminated

def Note.scope : Note → List Scope
  | .state s => if s.reads then [.input] else []
  | .inActive _ => [.input]
  | .outActive _ => [.room]
  | .credential _ => [.credential]
  | .marks .. => [.marks]
  | .delay _ => [.delay]
  | .terminated => [.ending]
  | .closeOut | .counted | .written | .unwritten _ | .boosts .. | .routingId _ => []

def Endpoint.note (e : Endpoint) : Note → Endpoint
  | .state state => { e with state }
  | .closeOut => { e with outOpen := false }
  | .inActive inActive => { e with inActive }
  | .outActive outActive => { e with outActive }
  | .counted => { e with messagesRead := e.messagesRead + 1 }
  | .written => { e with messagesWritten := e.messagesWritten + 1 }
  | .unwritten n => { e with messagesWritten := e.messagesWritten - n }
  | .credential credential => { e with credential }
  | .marks inbound outbound => e.setWatermarks inbound outbound
  | .boosts inbound outbound => e.setBoosts inbound outbound
  | .delay delay => { e with delay }
  | .routingId routingId => { e with routingId }
  | .terminated =>
    { e with
      state := .terminated
      inOpen := false
      outOpen := false
      inActive := false
      outActive := false }

inductive Edit where
  | note (n : Note)
  | tell (c : Command)
  /-- It looks for something to read. -/
  | look
  | take
  | takeBack
  | put (x : Item) (incomplete : Bool)
  /-- It publishes what it wrote, and tells a reader that sleeps. -/
  | publish
  /-- It gives its peer a fresh queue to write. -/
  | renew
  /-- It moves on to the next queue to write. -/
  | follow
  | receive
  | poll
  | abandon

def Edit.scope : Edit → List Scope
  | .note n => n.scope
  | .tell (.watermarks ..) => [.marks]
  | .tell .activateWrite => [.credit]
  | .look | .take | .renew => [.input]
  | .receive => [.inbox]
  | .poll | .abandon => [.bell]
  | .tell _ | .takeBack | .put .. | .publish | .follow => []

namespace Link

def edit (l : Link) : Edit → Link
  | .note n => l.modifySelf (·.note n)
  | .tell c => l.send c
  | .look => l.setInbound l.inbound.peek.2
  | .take => l.setInbound l.inbound.read.2
  | .takeBack => l.setOutbound l.outbound.rollback
  | .put x incomplete => l.setOutbound (l.outbound.write x incomplete)
  | .publish =>
    let (awake, c) := l.outbound.flush
    if awake then l.setOutbound c else (l.setOutbound c).send .activateRead
  | .renew => { l with peer := { l.peer with lane := l.peer.lane.renew l.self.chunkSize } }
  | .follow => l.modifySelf fun e ↦ { e with lane := e.lane.follow }
  | .receive => l.receive.2
  | .poll => l.poll.2
  | .abandon => l.abandon

inductive Edits (s : List Scope) : Link → Link → Prop
  | nil {l : Link} : Edits s l l
  | cons {l l' : Link} (e : Edit) (within : e.scope ⊆ s)
    (others : Edits s (l.edit e) l') : Edits s l l'

namespace Edits

variable {s t : List Scope} {l l₁ l₂ : Link}

theorem one (e : Edit) (within : e.scope ⊆ s) : Edits s l (l.edit e) :=
  .cons e within .nil

theorem note {n : Note} (plain : n.scope = []) : Edits s l (l.modifySelf (·.note n)) := by
  apply one (.note n)
  rw [Edit.scope, plain]
  exact List.nil_subset _

theorem trans (h : Edits s l l₁) (h' : Edits s l₁ l₂) : Edits s l l₂ := by
  induction h with
  | nil => exact h'
  | cons e within _ ih => exact .cons e within (ih h')

theorem mono (h : Edits s l l₁) (wider : s ⊆ t) : Edits t l l₁ := by
  induction h with
  | nil => exact .nil
  | cons e within _ ih => exact .cons e (List.Subset.trans within wider) ih

/-- What each edit keeps, all of them keep. -/
theorem keep {P : Link → Prop} (h : Edits s l l₁)
    (edit : ∀ {l : Link} (e : Edit), e.scope ⊆ s → P l → P (l.edit e)) (start : P l) :
    P l₁ := by
  induction h with
  | nil => exact start
  | cons e within _ ih => exact ih (edit e within start)

theorem lift {R : Link → Link → Prop} (h : Edits s l l₁) (refl : R l l)
    (trans : ∀ {l l₁ l₂}, R l l₁ → R l₁ l₂ → R l l₂)
    (edit : ∀ (l : Link) (e : Edit), e.scope ⊆ s → R l (l.edit e)) : R l l₁ :=
  h.keep (P := R l) (fun e within left ↦ trans left (edit _ e within)) refl

end Edits

theorem edit_publish (l : Link) : l.edit .publish = l.setOutbound l.outbound.flush.2 ∨
    l.edit .publish = (l.setOutbound l.outbound.flush.2).send .activateRead := by
  cases awake : l.outbound.flush.1 <;> simp [edit, awake]

variable {s : List Scope}

theorem send_edits (l : Link) {c : Command} (within : (Edit.tell c).scope ⊆ s) :
    Edits s l (l.send c) := .one (.tell c) within

theorem rollback_edits (l : Link) : Edits s l l.rollback := by
  unfold rollback
  split
  · exact .one .takeBack (List.nil_subset _)
  · exact .nil

theorem acknowledge_edits (l : Link) {state : State} (ends : state.reads = false) :
    Edits s l (l.acknowledge state) := by
  have closed : Edits s l l.closeOut := .note (n := .closeOut) rfl
  refine (closed.trans (send_edits _ (List.nil_subset _))).trans (.note (n := .state state) ?_)
  rw [Note.scope, ends, if_neg Bool.false_ne_true]

theorem meetDelimiter_edits (l : Link) : Edits s l l.meetDelimiter := by
  unfold meetDelimiter
  split
  · exact .note (n := .state .delimiterReceived) rfl
  · exact (rollback_edits l).trans (acknowledge_edits _ rfl)
  · exact .nil

theorem fallIdle_edits (l : Link) : Edits [.input] l l.fallIdle :=
  .one (.note (.inActive false)) (List.Subset.refl _)

theorem checkRead_edits (l : Link) : Edits [.input] l l.checkRead.2 := by
  have looked : Edits [.input] l (l.setInbound l.inbound.peek.2) := .one .look (List.Subset.refl _)
  have taken (k : Link) : Edits [.input] k (k.setInbound k.inbound.read.2) :=
    .one .take (List.Subset.refl _)
  unfold checkRead
  split
  · exact .nil
  · dsimp only
    split
    · exact looked.trans (fallIdle_edits _)
    · exact (looked.trans (taken _)).trans (meetDelimiter_edits _)
    · exact looked

theorem readItem_edits (l : Link) : Edits [.input] l l.readItem.2 := by
  unfold readItem
  split
  · exact .one .take (List.Subset.refl _)
  · exact .nil

theorem countRead_edits (l : Link) (m : Message) : Edits [.credit] l (l.countRead m) := by
  have counted : Edits [.credit] l
      (l.modifySelf ({ · with messagesRead := l.self.messagesRead + 1 })) :=
    .note (n := .counted) rfl
  unfold countRead
  split
  · dsimp only
    split
    · exact counted.trans (send_edits _ (List.Subset.refl _))
    · exact counted
  · exact .nil

theorem readN_edits (l : Link) (turns : Nat) :
    Edits [.input, .credential, .credit] l (readN turns l).2 := by
  induction turns generalizing l with
  | zero => exact .nil
  | succ turns ih =>
    have took := (readItem_edits l).mono (t := [.input, .credential, .credit]) (by simp)
    rw [readN]
    split <;> rename_i found <;> rw [found] at took
    · exact took.trans ((fallIdle_edits _).mono (by simp))
    · exact took.trans (meetDelimiter_edits _)
    · rename_i m k
      split
      · have kept : Edits [.input, .credential, .credit] k
            (k.modifySelf ({ · with credential := m.data })) :=
          .one (.note (.credential m.data)) (by simp [Edit.scope, Note.scope])
        exact (took.trans kept).trans (ih _)
      · exact took.trans ((countRead_edits _ _).mono (by simp))

theorem read_edits (l : Link) : Edits [.input, .credential, .credit] l l.read.2 := by
  unfold read
  split
  · exact readN_edits l _
  · exact .nil

theorem refuse_edits (l : Link) : Edits [.room] l (l.modifySelf ({ · with outActive := false })) :=
  .one (.note (.outActive false)) (List.Subset.refl _)

theorem checkWrite_edits (l : Link) : Edits [.room] l l.checkWrite.2 := by
  unfold checkWrite
  split
  · exact .nil
  · split
    · exact .nil
    · exact refuse_edits l

theorem place_edits (l : Link) (m : Message) : Edits s l
    ((l.setOutbound (l.outbound.write (.frame m) m.more)).countWritten m) := by
  have put : Edits s l (l.setOutbound (l.outbound.write (.frame m) m.more)) :=
    .one (.put (.frame m) m.more) (List.nil_subset _)
  unfold countWritten
  split
  · exact put.trans (.note (n := .written) rfl)
  · exact put

theorem write_edits (l : Link) (m : Message) : Edits [.room] l (l.write m).2 := by
  have looked := checkWrite_edits l
  unfold write
  split <;> rename_i found <;> rw [found] at looked
  · exact looked
  · exact looked.trans (place_edits _ m)

theorem flush_edits (l : Link) : Edits s l l.flush := by
  unfold flush
  split
  · exact .nil
  · exact .one .publish (List.nil_subset _)

theorem hiccup_edits (l : Link) : Edits [.input] l l.hiccup := by
  unfold hiccup
  split
  · have renewed : Edits [.input] l
        { l with peer := { l.peer with lane := l.peer.lane.renew l.self.chunkSize } } :=
      .one .renew (List.Subset.refl _)
    have woken := renewed.trans (.one (.note (.inActive true)) (List.Subset.refl _))
    exact woken.trans (send_edits _ (List.nil_subset _))
  · exact .nil

theorem writeDelimiter_edits (l : Link) : Edits [.room] l l.writeDelimiter := by
  unfold writeDelimiter
  dsimp only
  split
  · have put (k : Link) : Edits [.room] k (k.setOutbound (k.outbound.write .delimiter false)) :=
      .one (.put .delimiter false) (List.nil_subset _)
    exact (((refuse_edits l).trans (rollback_edits _)).trans (put _)).trans (flush_edits _)
  · exact refuse_edits l

/-- Having said whether it reads on, an end that terminates writes its last. -/
theorem terminate_edits (l : Link) (delay : Bool) :
    Edits [.room] (l.modifySelf ({ · with delay })) (l.terminate delay) := by
  unfold terminate
  generalize l.modifySelf ({ · with delay }) = k
  have requested : Edits [.room] k ((k.send .term).setState .terminating) :=
    (send_edits k (List.nil_subset _)).trans (.note (n := .state .terminating) rfl)
  dsimp only
  split
  · exact .nil
  · exact .nil
  · exact .nil
  · exact .nil
  · exact requested.trans (writeDelimiter_edits _)
  · exact requested.trans (writeDelimiter_edits _)
  · split
    · exact writeDelimiter_edits k
    · have agreed : Edits [.room] k (k.rollback.acknowledge .termAckSent) :=
        (rollback_edits k).trans (acknowledge_edits _ rfl)
      exact agreed.trans (writeDelimiter_edits _)

end Link

def Command.scopes : Command → List Scope
  | .activateRead | .term => [.input]
  | .activateWrite | .hiccup => [.room]
  | .termAck => [.ending]
  | .watermarks .. => [.marks]

namespace Link

theorem followHiccup_edits (l : Link) : Edits [.room] l l.followHiccup.2 := by
  have followed : Edits [.room] l (l.modifySelf fun e ↦ { e with lane := e.lane.follow }) :=
    .one .follow (List.nil_subset _)
  unfold followHiccup
  split
  · let unread := (l.outbound.flush.2.readAll).1.countP Item.counts
    have discounted := followed.trans (.note (n := .unwritten unread) rfl)
    exact discounted.trans (.one (.note (.outActive true)) (List.Subset.refl _))
  · exact followed

theorem meetTerm_edits (l : Link) : Edits [.input] l l.meetTerm := by
  unfold meetTerm
  split
  · split
    · exact .one (.note (.state .waitingForDelimiter)) (List.Subset.refl _)
    · exact acknowledge_edits l rfl
  · exact acknowledge_edits l rfl
  · exact acknowledge_edits l rfl
  · exact .nil

theorem meetTermAck_edits (l : Link) : Edits [.ending] l l.meetTermAck := by
  have ended (k : Link) : Edits [.ending] k (k.modifySelf (·.note .terminated)) :=
    .one (.note .terminated) (List.Subset.refl _)
  unfold meetTermAck
  split
  · have closed : Edits [.ending] l l.closeOut := .note (n := .closeOut) rfl
    exact (closed.trans (send_edits _ (List.nil_subset _))).trans (ended _)
  · exact ended l

theorem obey_edits (l : Link) (c : Command) : Edits c.scopes l (l.obey c).2 := by
  cases c with
  | activateRead =>
    simp only [obey]
    split
    · exact .one (.note (.inActive true)) (List.Subset.refl _)
    · exact .nil
  | activateWrite =>
    simp only [obey]
    split
    · exact .one (.note (.outActive true)) (List.Subset.refl _)
    · exact .nil
  | hiccup => exact followHiccup_edits l
  | term => exact meetTerm_edits l
  | termAck => exact meetTermAck_edits l
  | watermarks inbound outbound => exact .one (.note (.marks inbound outbound)) (List.Subset.refl _)

theorem processN_edits (l : Link) (turns : Nat) :
    Edits [.marks, .room, .input, .ending, .inbox] l (processN turns l).2 := by
  induction turns generalizing l with
  | zero => exact .nil
  | succ turns ih =>
    have received : Edits [.marks, .room, .input, .ending, .inbox] l l.receive.2 :=
      .one .receive (by simp [Edit.scope])
    rw [processN]
    split <;> rename_i found <;> rw [found] at received
    · exact received
    · rename_i c k
      have obeyed := (obey_edits k c).mono (t := [.marks, .room, .input, .ending, .inbox])
        (by cases c <;> simp [Command.scopes])
      exact (received.trans obeyed).trans (ih _)

end Link

def Call.scopes : Call → List Scope
  | .rollback | .flush | .setBoosts .. | .setRoutingId _ => []
  | .write _ | .checkWrite => [.room]
  | .read => [.input, .credential, .credit]
  | .checkRead | .hiccup => [.input]
  | .setWatermarks .. | .sendWatermarks .. => [.marks]
  | .setNoDelay => [.delay]
  | .terminate _ => [.delay, .room]
  | .process => [.marks, .room, .input, .ending, .inbox]
  | .poll | .abandon => [.bell]

theorem Link.perform_edits (l : Link) (c : Call) : Edits c.scopes l (l.perform c) := by
  cases c with
  | write m => exact write_edits l m
  | rollback => exact rollback_edits l
  | flush => exact flush_edits l
  | checkWrite => exact checkWrite_edits l
  | read => exact read_edits l
  | checkRead => exact checkRead_edits l
  | setWatermarks inbound outbound =>
    exact .one (.note (.marks inbound outbound)) (List.Subset.refl _)
  | setBoosts inbound outbound => exact .note (n := .boosts inbound outbound) rfl
  | sendWatermarks inbound outbound => exact send_edits l (List.Subset.refl _)
  | setNoDelay => exact .one (.note (.delay false)) (List.Subset.refl _)
  | setRoutingId routingId => exact .note (n := .routingId routingId) rfl
  | hiccup => exact hiccup_edits l
  | terminate delay =>
    have asked : Edits [.delay, .room] l (l.modifySelf ({ · with delay })) :=
      .one (.note (.delay delay)) (by simp [Edit.scope, Note.scope])
    exact asked.trans ((terminate_edits l delay).mono (by simp))
  | process => exact processN_edits l _
  | poll => exact .one .poll (List.Subset.refl _)
  | abandon => exact .one .abandon (List.Subset.refl _)

end Conduit.Pipe
