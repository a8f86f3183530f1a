import Conduit.Proofs.Bell
import Conduit.Proofs.EngineRun
import Conduit.Proofs.GracefulEnd
import Conduit.Proofs.Resumption

namespace Conduit.Bridge

open Wire Pipe

def talks : Call → Prop
  | .write _ | .flush | .read | .process => True
  | _ => False

def Led (p : Pair) (l : Link) (i : Ledger) : Prop := ∃ o, Reached p talks ofEngine l i o

def Fed (p : Pair) (l : Link) (i : Ledger) : Prop :=
  ∃ o, Reached p talks (fun c ↦ ofEngine c ∧ c.Plain) l i o

theorem talks.patient {c : Call} (h : talks c) : c.isPatient = true := by
  cases c with
  | write | flush | read | process => rfl
  | _ => exact absurd h id

theorem undisturbed {calls : List (Side × Call)} (users : ∀ c, (.first, c) ∈ calls → talks c)
    (engines : ∀ c, (.second, c) ∈ calls → ofEngine c ∧ c.Plain) :
    Undisturbed .second calls := by
  have ofUsers {c : Call} (hc : talks c) : c.isMarks = false ∧ c ≠ .hiccup := by
    cases c with
    | write | flush | read | process => exact ⟨rfl, nofun⟩
    | _ => exact absurd hc id
  have ofEngines {c : Call} (hc : ofEngine c) : c.isMarks = false := by
    cases c with
    | setWatermarks | sendWatermarks => exact absurd hc id
    | _ => rfl
  refine ⟨?_, fun c hc ↦ (ofUsers (users c hc)).2, fun c hc ↦ (engines c hc).2⟩
  rintro ⟨side, c⟩ hc
  cases side with
  | first => exact (ofUsers (users c hc)).1
  | second => exact ofEngines (engines c hc).1

theorem Ledger.supplyAll_of_still {k : Ledger} {ds : List Deed}
    (still : ∀ d ∈ ds, k.supply d = k) : ds.foldl Ledger.supply k = k := by
  induction ds with
  | nil => rfl
  | cons d ds ih =>
    rw [List.foldl_cons, still d List.mem_cons_self]
    exact ih fun d hd ↦ still d (List.mem_cons_of_mem _ hd)

theorem write_accepts (l : Link) (m : Message) : (l.write m).1 = l.checkWrite.1 := by
  unfold Link.write
  split <;> rename_i found <;> rw [found]

namespace Led

variable {s : Settings} {p : Pair} {l l' : Link} {i : Ledger}

theorem user (h : Led p l i) {c : Call} (allowed : talks c) :
    Led p (l.swap.perform c).swap (bookkeeping.peer l.swap c i) := by
  obtain ⟨o, h⟩ := h
  exact ⟨_, h.user allowed⟩

variable (made : Pair.create s = .ok p)

include made

theorem sound (h : Led p l i) : l.Sound := by
  obtain ⟨o, h⟩ := h
  exact h.sound made

theorem serves (h : Led p l i) : l.Serves i := by
  obtain ⟨o, h⟩ := h
  obtain ⟨calls, rfl, rfl, -, users, -⟩ := h.calls
  exact @Pair.serves s p .second calls made fun c hc ↦ (users c hc).patient

/-- Once it was asked to end, an engine changes nothing in the books. -/
theorem worked (h : Led p l i) (asked : l.self.state ≠ .active) (worked : Worked ofEngine l l') :
    Led p l' i ∧ l'.self.state ≠ .active := by
  refine worked.keep (fun l' ↦ Led p l' i ∧ l'.self.state ≠ .active) ?_ ⟨h, asked⟩
  rintro l c allowed ⟨led, asked⟩
  have same := (serves made led).own_eq asked c
  have asked' := (Moves.perform (sound made led) c).ended asked
  obtain ⟨o, led⟩ := led
  have next := led.engine allowed
  rw [same] at next
  exact ⟨⟨_, next⟩, asked'⟩

end Led

namespace Fed

variable {s : Settings} {p : Pair} {l : Link} {i : Ledger}

theorem start (p : Pair) : Fed p (p.link .second) {} := ⟨{}, .start⟩

theorem led (h : Fed p l i) : Led p l i := by
  obtain ⟨o, h⟩ := h
  exact ⟨o, h.mono (fun _ hc ↦ hc) fun _ hc ↦ hc.1⟩

theorem engine (h : Fed p l i) {c : Call} (allowed : ofEngine c) (plain : c.Plain) :
    Fed p (l.perform c) (bookkeeping.own l c i) := by
  obtain ⟨o, h⟩ := h
  exact ⟨_, h.engine ⟨allowed, plain⟩⟩

theorem user (h : Fed p l i) {c : Call} (allowed : talks c) :
    Fed p (l.swap.perform c).swap (bookkeeping.peer l.swap c i) := by
  obtain ⟨o, h⟩ := h
  exact ⟨_, h.user allowed⟩

theorem poll (h : Fed p l i) : Fed p l.poll.2 i := h.engine (c := .poll) trivial trivial

variable (made : Pair.create s = .ok p)

include made

theorem sound (h : Fed p l i) : l.Sound := h.led.sound made

theorem serves (h : Fed p l i) : l.Serves i := h.led.serves made

/-- As long as it was not asked to end, both ends use the pipe. -/
theorem running (h : Fed p l i) (active : l.self.state = .active) : l.Running := by
  have leads := (serves made h).leads
  have reads : l.self.state.reads = true := by
    rw [active]
    rfl
  exact ⟨active, (leads.shaking.peer_of_reads reads).resolve_right leads.peer.1⟩

theorem resumes (h : Fed p l i) (active : l.self.state = .active) :
    ∃ refused, l.Resumes refused := by
  have running := running made h active
  obtain ⟨o, h⟩ := h
  obtain ⟨calls, rfl, -, -, users, engines⟩ := h.calls
  exact ⟨_, Pair.resumes made (undisturbed users engines) running⟩

theorem signals (h : Fed p l i) (active : l.self.state = .active) :
    ∀ c ∈ l.self.inbox.contents, c = .activateRead ∨ c = .activateWrite := by
  have running := running made h active
  obtain ⟨o, h⟩ := h
  obtain ⟨calls, rfl, -, -, users, engines⟩ := h.calls
  exact Pair.signals made (undisturbed users engines) running

theorem written_eq (h : Fed p l i) (active : l.self.state = .active) :
    l.self.messagesWritten = l.peer.messagesRead + load i.unread := by
  obtain ⟨o, h⟩ := h
  obtain ⟨calls, rfl, rfl, -, users, engines⟩ := h.calls
  exact Pair.written_eq made (undisturbed users engines) active

/-- It hears of no more than that there is something to read or room to write. -/
theorem process (h : Fed p l i) (active : l.self.state = .active) :
    Fed p l.process.2 i ∧ l.process.2.self.state = .active := by
  have signals := signals made h active
  have same : bookkeeping.own l .process i = i := by
    refine Ledger.supplyAll_of_still fun d hd ↦ ?_
    obtain ⟨c, hc, rfl⟩ := List.mem_map.mp hd
    rcases signals c hc with rfl | rfl <;> rfl
  have heard := h.engine (c := .process) trivial trivial
  rw [same] at heard
  exact ⟨heard, ((sound made h).hearing_process.heeds active signals).state⟩

/-- Its user wrote no end that it could read. -/
theorem read (h : Fed p l i) (active : l.self.state = .active) :
    Fed p l.read.2 i ∧ l.read.2.self.state = .active ∧
      l.read.2.self.outActive = l.self.outActive := by
  have sound := sound made h
  have unended : .delimiter ∉ l.inbound.readable :=
    fun ahead ↦ sound.ended ahead (running made h active).peer
  have reads : l.self.state.reads = true := by
    rw [active]
    rfl
  have calm : ∀ d ∈ l.deeds .read, d.isCalm = true := by
    rw [Link.deeds, if_pos reads]
    refine (Deed.ofRead_calm_or_ends _ _).resolve_right ?_
    rintro ⟨passed, rest, items, -⟩
    exact unended (by simp [items])
  have same : bookkeeping.own l .read i = i := by
    refine Ledger.supplyAll_of_still fun d hd ↦ ?_
    have isRead := Link.allows_of_mem_deeds hd
    have calm := calm d hd
    cases d with
    | take m => rfl
    | meet | finish => exact absurd calm Bool.false_ne_true
    | _ => exact absurd isRead Bool.false_ne_true
  have read := h.engine (c := .read) trivial trivial
  rw [same] at read
  have state := (Moves.perform sound .read).state_of_calm calm
  exact ⟨read, state.trans active, (Link.Rests.perform l (c := .read) rfl).outActive⟩

/-- It writes a frame, or is refused and waits to be told to go on. -/
theorem write (h : Fed p l i) (active : l.self.state = .active) {m : Message}
    (plain : m.isCredential = false) :
    (l.write m).2.self.state = .active ∧ (l.write m).1 = l.checkWrite.1 ∧
      Fed p (l.write m).2 (if l.checkWrite.1 then { i with log := i.log ++ [m] } else i) ∧
      (l.checkWrite.1 = false → (l.write m).2.self.outActive = false) := by
  have written := h.engine (c := .write m) trivial plain
  have books : bookkeeping.own l (.write m) i =
      if l.checkWrite.1 then { i with log := i.log ++ [m] } else i := by
    simp only [bookkeeping, Link.deeds]
    split <;> rfl
  rw [books] at written
  have calm : ∀ d ∈ l.deeds (.write m), d.isCalm = true := by
    intro d hd
    have allowed := Link.allows_of_mem_deeds hd
    cases d with
    | push => rfl
    | _ => exact absurd allowed Bool.false_ne_true
  have state := (Moves.perform (sound made h) (.write m)).state_of_calm calm
  refine ⟨state.trans active, write_accepts l m, written, fun full ↦ ?_⟩
  have looked := (sound made h).checkWrite_eq active
  by_cases room : l.checkMark = true
  · rw [looked, if_pos room] at full
    exact absurd full Bool.noConfusion
  · rw [if_neg room] at looked
    unfold Link.write
    rw [looked]
    rfl

theorem flush (h : Fed p l i) (active : l.self.state = .active) :
    Fed p l.flush i.flush ∧ l.flush.self.state = .active := by
  have sound := sound made h
  have opened : l.self.outOpen = true := by
    rw [sound.self.outOpen, active]
    rfl
  have deeds : l.deeds .flush = [.publish] := by simp [Link.deeds, active, opened]
  have flushed := h.engine (c := .flush) trivial trivial
  have books : bookkeeping.own l .flush i = i.flush := by
    simp only [bookkeeping, deeds]
    rfl
  rw [books] at flushed
  refine ⟨flushed, ?_⟩
  refine ((Moves.perform sound .flush).state_of_calm fun d hd ↦ ?_).trans active
  rw [deeds] at hd
  rw [List.mem_singleton.mp hd]
  rfl

/-- It ends the pipe, with what was complete published. -/
theorem terminate (h : Fed p l i) (active : l.self.state = .active) :
    Fed p (l.terminate false) i.rollback.flush ∧ (l.terminate false).self.state ≠ .active := by
  have asked := h.engine (c := .terminate false) trivial trivial
  have books : bookkeeping.own l (.terminate false) i = i.rollback.flush := by
    simp only [bookkeeping, Link.deeds, active]
    rfl
  rw [books] at asked
  exact ⟨asked, (sound made h).terminate_begun false⟩

theorem load_unread (h : Fed p l i) (flushed : i.published = wholeMessages i.log)
    (read : l.self.lane.stock.readable = []) : load i.unread = 0 := by
  have books := (serves made h).books
  have awaiting : Item.frames l.self.lane.stock.awaiting = [] := by
    have whole := books.whole
    rwa [← flushed, List.self_eq_append_right] at whole
  rw [books.unread, Stock.frames, Item.frames_append, Item.frames_append, read, awaiting]
  exact (sound made h).self.lane.load_unfinished

/-- An engine that was refused is told to go on. -/
theorem told (h : Fed p l i) (active : l.self.state = .active)
    (flushed : i.published = wholeMessages i.log) (read : l.self.lane.stock.readable = [])
    (idle : l.self.outActive = false) : .activateWrite ∈ l.self.inbox.contents := by
  obtain ⟨refused, resumes⟩ := resumes made h active
  refine (resumes.promised idle).resolve_right ?_
  rintro ⟨n, -, ahead, within⟩
  have written := written_eq made h active
  have none_unread := load_unread made h flushed read
  omega

end Fed

end Conduit.Bridge
