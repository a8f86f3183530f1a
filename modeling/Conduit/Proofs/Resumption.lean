import Conduit.Proofs.Convergence
import Conduit.Proofs.Delivery
import Conduit.Proofs.Outstanding
import Conduit.Proofs.Terms

namespace Conduit.Pipe

/-- Keeps whether a frame was refused and no resumption was reported since. -/
def refusing : Observer Bool where
  own l c refused :=
    match c with
    | .write m => refused || !(l.write m).1
    | .checkWrite => refused || !l.checkWrite.1
    | .process => refused && decide (.writeActivated ∉ l.process.1.events)
    | _ => refused
  peer _ _ refused := refused

def Call.isMarks : Call → Bool
  | .setWatermarks .. | .sendWatermarks .. => true
  | _ => false

/-- Watermarks stay, the peer of an end keeps to its queue, and the end writes no credentials. -/
structure Undisturbed (side : Side) (calls : List (Side × Call)) : Prop where
  marks : ∀ c ∈ calls, c.2.isMarks = false
  still : ∀ c, (side.other, c) ∈ calls → c ≠ .hiccup
  plain : ∀ c, (side, c) ∈ calls → c.Plain

theorem Undisturbed.of_append {side : Side} {calls more : List (Side × Call)}
    (h : Undisturbed side (calls ++ more)) : Undisturbed side calls where
  marks c hc := h.marks c (List.mem_append_left _ hc)
  still c hc := h.still c (List.mem_append_left _ hc)
  plain c hc := h.plain c (List.mem_append_left _ hc)

def Endpoint.marks (e : Endpoint) : Nat × Nat := (e.highMark, e.lowMark)

theorem Shaking.due_eq_nil {d q : List Command} (h : Shaking .active d .active q) : d = [] := by
  rcases h with h | h <;> cases h <;> rfl

theorem Moves.le_messagesWritten {l l' : Link} {ds : List Deed} (h : Moves l ds l')
    (sound : l.Sound) (hd : .obey .hiccup ∉ ds) :
    l.self.messagesWritten ≤ l'.self.messagesWritten := by
  refine @keep l l' ds (fun k ↦ l.self.messagesWritten ≤ k.self.messagesWritten) h sound ?_ le_rfl
  intro k d k' told deed sound more
  refine le_trans more ?_
  rw [deed.messagesWritten sound]
  unfold Deed.tally
  split
  · exact Nat.le_add_right _ _
  · exact absurd (told.resolve_left nofun) hd
  · exact le_rfl

theorem Ledger.Matches.consumed_subset {k : Ledger} {s : Stock} (h : k.Matches s) :
    k.consumed ⊆ k.log := by
  rw [h.log, h.published, List.append_assoc, List.append_assoc]
  exact List.subset_append_left _ _

namespace Link

variable {l l' : Link}

/-- Neither end has begun to terminate. -/
structure Running (l : Link) : Prop where
  self : l.self.state = .active
  peer : l.peer.state = .active

structure Steady (own other : Nat × Nat) (l : Link) : Prop where
  self : l.self.marks = own
  peer : l.peer.marks = other
  heard : ∀ c ∈ l.self.inbox.contents, c.isTerms = false
  told : ∀ c ∈ l.peer.inbox.contents, c.isTerms = false

theorem Steady.swap {own other : Nat × Nat} (h : l.Steady own other) : l.swap.Steady other own :=
  ⟨h.peer, h.self, h.told, h.heard⟩

/-- A call that changes no watermarks may change whether the end reads on. -/
theorem Sound.keeps_perform (h : l.Sound) (plain : ∀ c ∈ l.self.inbox.contents, c.isTerms = false)
    {c : Call} (hc : c.isMarks = false) :
    ∃ delay, (l.modifySelf ({ · with delay })).Keeps (l.perform c) := by
  by_cases simple : c.isPlain = true
  · exact ⟨l.self.delay, Keeps.perform l simple⟩
  · cases c with
    | process => exact ⟨l.self.delay, h.hearing_process.keeps plain⟩
    | terminate delay => exact ⟨delay, Keeps.terminate l delay⟩
    | setNoDelay => exact ⟨false, .refl⟩
    | setWatermarks | sendWatermarks => exact absurd hc Bool.noConfusion
    | _ => exact absurd rfl simple

theorem contents_perform (l : Link) {c : Call} (hc : c ≠ .process) :
    (l.perform c).self.inbox.contents = l.self.inbox.contents := by
  cases c with
  | process => contradiction
  | read | checkRead | hiccup => exact (Rests.perform l rfl).contents
  | write | rollback | flush | checkWrite | setWatermarks | setBoosts | sendWatermarks | setNoDelay
  | setRoutingId | terminate | poll | abandon =>
    exact (Writes.perform l (by simp)).contents

theorem Sound.steady_perform {own other : Nat × Nat} (h : l.Sound) (steady : l.Steady own other)
    {c : Call} (hc : c.isMarks = false) : (l.perform c).Steady own other := by
  obtain ⟨delay, terms, ⟨lane, inbox, peer⟩, cs, sent, plain⟩ := h.keeps_perform steady.heard hc
  refine ⟨(congrArg Prod.snd terms).trans steady.self, ?_, ?_, ?_⟩
  · rw [peer]
    exact steady.peer
  · by_cases hears : c = .process
    · subst hears
      have none_left : (l.perform .process).self.inbox.contents = [] := h.process.2.2
      rw [none_left]
      exact nofun
    · rw [contents_perform l hears]
      exact steady.heard
  · rw [sent]
    intro x hx
    exact (List.mem_append.mp hx).elim (steady.told x) (plain x)

theorem messagesRead_meetDelimiter (l : Link) :
    l.meetDelimiter.self.messagesRead = l.self.messagesRead := by
  unfold meetDelimiter
  split
  · rfl
  · exact congrArg (·.messagesRead) (rollback_self l)
  · rfl

theorem tolls_countRead {n : Nat} {m : Message} (dvd : l.self.lowMark ∣ n)
    (ahead : l.self.messagesRead < n) (reached : n ≤ (l.countRead m).self.messagesRead) :
    .activateWrite ∈ (l.countRead m).peer.inbox.contents := by
  have counts : m.counts = true := by
    by_contra uncounted
    rw [countRead, if_neg uncounted] at reached
    omega
  rw [countRead, if_pos counts] at reached ⊢
  dsimp only at reached ⊢
  have counted : n = l.self.messagesRead + 1 := by
    apply Nat.le_antisymm _ ahead
    split at reached <;> exact reached
  have pos : 0 < l.self.lowMark := Nat.pos_of_dvd_of_pos dvd (by omega)
  have multiple : (l.self.messagesRead + 1) % l.self.lowMark = 0 :=
    Nat.mod_eq_zero_of_dvd (counted ▸ dvd)
  rw [if_pos ⟨pos, multiple⟩]
  have told := Mailbox.contents_send l.peer.inbox .activateWrite
  exact told ▸ List.mem_append_right _ List.mem_cons_self

theorem tolls_readN {n : Nat} (dvd : l.self.lowMark ∣ n) (ahead : l.self.messagesRead < n)
    {turns : Nat} (reached : n ≤ (readN turns l).2.self.messagesRead) :
    .activateWrite ∈ (readN turns l).2.peer.inbox.contents := by
  induction turns generalizing l with
  | zero => exact absurd reached (Nat.not_le.mpr ahead)
  | succ turns ih =>
    have took := l.readItem_self
    rw [readN] at reached ⊢
    split at reached <;> rename_i k found <;> rw [found] at took <;> dsimp only at took
    · have same : k.fallIdle.self.messagesRead = l.self.messagesRead := by rw [← took]; rfl
      rw [same] at reached
      exact absurd reached (Nat.not_le.mpr ahead)
    · have same := k.messagesRead_meetDelimiter
      rw [took] at same
      rw [same] at reached
      exact absurd reached (Nat.not_le.mpr ahead)
    · rename_i m
      split at reached
      · rename_i credential
        rw [if_pos credential]
        rw [← took] at dvd ahead
        exact ih dvd ahead reached
      · rename_i frame
        rw [if_neg frame]
        exact tolls_countRead (took ▸ dvd) (took ▸ ahead) reached

theorem Sound.tolls_perform (h : l.Sound) {c : Call} {n : Nat} (dvd : l.self.lowMark ∣ n)
    (ahead : l.self.messagesRead < n) (reached : n ≤ (l.perform c).self.messagesRead) :
    .activateWrite ∈ (l.perform c).peer.inbox.contents := by
  by_cases reads : c = .read
  · subst reads
    unfold Link.perform Link.read at reached ⊢
    dsimp only at reached ⊢
    split at reached
    · rename_i canRead
      rw [if_pos canRead]
      exact tolls_readN dvd ahead reached
    · exact absurd reached (Nat.not_le.mpr ahead)
  · have read := (Moves.perform h c).messagesRead
    have nothing : ordinary (Deed.taken (l.deeds c)) = [] := by
      rw [h.ordinary_taken]
      split
      · contradiction
      · rfl
    rw [read, nothing] at reached
    exact absurd reached (Nat.not_le.mpr ahead)

/-- An end is told to go on, or its peer has yet to come to a multiple of the low watermark. -/
def Promised (l : Link) : Prop :=
  .activateWrite ∈ l.self.inbox.contents ∨ ∃ n, l.peer.lowMark ∣ n ∧
    l.peer.messagesRead < n ∧ n ≤ l.self.messagesWritten

structure Resumes (l : Link) (refused : Bool) : Prop where
  idle : refused = true → l.self.outActive = false
  promised : l.self.outActive = false → l.Promised

/-- What it comes to that an active end hears these signals, and tells its owner of these events. -/
structure Heeds (l : Link) (letters : List Command) (events : List Event) (l' : Link) : Prop where
  state : l'.self.state = .active
  active : l'.self.outActive = true ↔ l.self.outActive = true ∨ .activateWrite ∈ letters
  told : .writeActivated ∈ events ↔ l.self.outActive = false ∧ .activateWrite ∈ letters

theorem Heeds.trans {l₁ l₂ : Link} {cs cs' : List Command} {es es' : List Event}
    (h : l.Heeds cs es l₁) (h' : l₁.Heeds cs' es' l₂) : l.Heeds (cs ++ cs') (es ++ es') l₂ := by
  have idle : l₁.self.outActive = false ↔ l.self.outActive = false ∧ .activateWrite ∉ cs := by
    rw [← Bool.not_eq_true, h.active, not_or, Bool.not_eq_true]
  refine ⟨h'.state, ?_, ?_⟩
  · rw [h'.active, h.active, List.mem_append, or_assoc]
  · rw [List.mem_append, h.told, h'.told, idle, List.mem_append]
    tauto

theorem Heeds.obey {c : Command} (active : l.self.state = .active) (signal : c.isSignal = true) :
    l.Heeds [c] (l.obey c).1 (l.obey c).2 := by
  cases c with
  | activateRead =>
    have reads : l.self.canRead = true := by
      rw [Endpoint.canRead_eq, active]
      rfl
    rw [Carries.obey_activateRead reads]
    refine ⟨active, ?_, ?_⟩
    · simp [modifySelf]
    · split <;> simp
  | activateWrite =>
    rw [Carries.obey_activateWrite active]
    refine ⟨active, ?_, ?_⟩
    · simp [modifySelf]
    · split <;> simp [*]
  | watermarks inbound outbound =>
    refine ⟨active, ?_, ?_⟩
    · simp [Link.obey, modifySelf, Endpoint.setWatermarks]
    · simp [Link.obey]
  | hiccup | term | termAck => exact absurd signal Bool.false_ne_true

theorem Hearing.heeds_signals {cs : List Command} {es : List Event} (h : l.Hearing cs es l')
    (active : l.self.state = .active) (signals : ∀ c ∈ cs, c.isSignal = true) :
    l.Heeds cs es l' := by
  induction h with
  | done | listen => exact ⟨active, (or_iff_left List.not_mem_nil).symm, by simp⟩
  | @obey l _ c _ _ b _ _ _ _ _ ih =>
    let received : Link := l.modifySelf ({ · with inbox := b })
    have first : received.Heeds [c] (received.obey c).1 (received.obey c).2 :=
      .obey active (signals c List.mem_cons_self)
    have both := first.trans (ih first.state fun x hx ↦ signals x (List.mem_cons_of_mem _ hx))
    exact ⟨both.state, both.active, both.told⟩

theorem Hearing.heeds {cs : List Command} {es : List Event} (h : l.Hearing cs es l')
    (active : l.self.state = .active)
    (signals : ∀ c ∈ cs, c = .activateRead ∨ c = .activateWrite) : l.Heeds cs es l' := by
  apply h.heeds_signals active
  intro c hc
  rcases signals c hc with rfl | rfl <;> rfl

/-- Where neither end terminates, an end is not asked to. -/
theorem Running.unasked (active : l.Running) (shaking : l.Shaking) :
    ∀ c ∈ l.self.inbox.contents, c ≠ .term ∧ c ≠ .termAck := by
  rw [Link.Shaking, active.self, active.peer] at shaking
  have quiet := List.filter_eq_nil_iff.mp shaking.due_eq_nil
  intro c hc
  constructor
  · rintro rfl
    exact absurd rfl (quiet _ hc)
  · rintro rfl
    exact absurd rfl (quiet _ hc)

/-- If the peer keeps to its queue besides, it is told nothing but signals. -/
theorem Running.signals (active : l.Running) (sound : l.Sound) (shaking : l.Shaking)
    (still : l.self.lane.fresh = []) : ∀ c ∈ l.self.inbox.contents, c.isSignal = true := by
  intro c hc
  obtain ⟨unasked, unanswered⟩ := active.unasked shaking c hc
  cases c with
  | activateRead | activateWrite | watermarks => rfl
  | hiccup => exact absurd still (sound.moved_iff.mpr hc)
  | term => contradiction
  | termAck => contradiction

/-- The letters to an end that no one asks for anything. -/
theorem Steady.signals {own other : Nat × Nat} (h : l.Steady own other) (sound : l.Sound)
    (shaking : l.Shaking) (active : l.Running) (still : l.self.lane.fresh = []) :
    ∀ c ∈ l.self.inbox.contents, c = .activateRead ∨ c = .activateWrite := by
  intro c hc
  have signal := active.signals sound shaking still c hc
  cases c with
  | activateRead => exact .inl rfl
  | activateWrite => exact .inr rfl
  | watermarks => exact absurd (h.heard _ hc) Bool.noConfusion
  | hiccup | term | termAck => exact absurd signal Bool.false_ne_true

theorem Resumes.keep {refused : Bool} (h : l.Resumes refused)
    (outActive : l'.self.outActive = l.self.outActive) (promised : l.Promised → l'.Promised) :
    l'.Resumes refused :=
  ⟨fun r ↦ outActive.trans (h.idle r), fun idle ↦ promised (h.promised (outActive ▸ idle))⟩

theorem Sound.promised_perform (h : l.Sound) {c : Call} (hc : c ≠ .process)
    (promised : l.Promised) : (l.perform c).Promised := by
  obtain ⟨lane, inbox, peer⟩ := Reaches.perform l c
  have unheard : .obey .hiccup ∉ l.deeds c := by
    intro hd
    have allowed := allows_of_mem_deeds hd
    cases c with
    | process => contradiction
    | _ => exact absurd allowed Bool.false_ne_true
  have more := (Moves.perform h c).le_messagesWritten h unheard
  rw [Promised, contents_perform l hc, peer]
  exact promised.imp_right fun ⟨n, dvd, ahead, within⟩ ↦ ⟨n, dvd, ahead, within.trans more⟩

theorem Sound.resumes_process (h : l.Sound) (active : l.self.state = .active)
    (signals : ∀ c ∈ l.self.inbox.contents, c = .activateRead ∨ c = .activateWrite) {refused : Bool}
    (resumes : l.Resumes refused) :
    l.process.2.Resumes (refused && decide (.writeActivated ∉ l.process.1.events)) := by
  have heeds := h.hearing_process.heeds active signals
  constructor
  · intro still
    rw [Bool.and_eq_true, decide_eq_true_eq, heeds.told, not_and] at still
    have idle := resumes.idle still.1
    rw [← Bool.not_eq_true, heeds.active, not_or, idle]
    exact ⟨Bool.false_ne_true, still.2 idle⟩
  · intro idle
    rw [← Bool.not_eq_true, heeds.active, not_or, Bool.not_eq_true] at idle
    obtain ⟨n, dvd, ahead, within⟩ := (resumes.promised idle.1).resolve_left idle.2
    obtain ⟨lane, inbox, peer⟩ := Reaches.perform l .process
    have more := (Moves.perform h .process).le_messagesWritten h fun hd ↦ by
      rcases signals _ (of_obey_mem_deeds hd) with same | same <;> contradiction
    right
    refine ⟨n, ?_, ?_, within.trans more⟩
    · exact congrArg Endpoint.lowMark peer ▸ dvd
    · exact congrArg Endpoint.messagesRead peer ▸ ahead

/-- From what was read to what was written it is at least the low watermark. -/
theorem Sound.resumes_of_refused (h : l.Sound) (active : l.self.state = .active)
    (low : l.peer.lowMark = lowWatermark l.self.highMark) (full : l.checkWrite.1 = false) :
    l.checkWrite.2.Resumes true := by
  rw [h.checkWrite_eq active] at full ⊢
  split at full
  · exact absurd full Bool.noConfusion
  · rename_i beyond
    rw [if_neg beyond]
    refine ⟨fun _ ↦ rfl, fun _ ↦ .inr ?_⟩
    simp only [checkMark, Bool.not_eq_true', Bool.not_eq_false, Bool.and_eq_true,
      decide_eq_true_eq] at beyond
    obtain ⟨pos, le⟩ := Line.lowWatermark_pos beyond.1
    have far : l.peer.messagesRead + l.peer.lowMark ≤ l.self.messagesWritten := by omega
    exact Line.exists_dvd_between (low ▸ pos) far

theorem Sound.resumes_checkWrite (h : l.Sound) (active : l.self.state = .active)
    (low : l.peer.lowMark = lowWatermark l.self.highMark) {refused : Bool}
    (resumes : l.Resumes refused) :
    l.checkWrite.2.Resumes (refused || !l.checkWrite.1) := by
  match answer : l.checkWrite.1 with
  | true =>
    rw [(l.checkWrite_moves.2 answer).1, Bool.not_true, Bool.or_false]
    exact resumes
  | false =>
    rw [Bool.not_false, Bool.or_true]
    exact h.resumes_of_refused active low answer

theorem Sound.resumes_write (h : l.Sound) (active : l.self.state = .active)
    (low : l.peer.lowMark = lowWatermark l.self.highMark) {refused : Bool}
    (resumes : l.Resumes refused) (m : Message) :
    (l.write m).2.Resumes (refused || !(l.write m).1) := by
  have looked := h.resumes_checkWrite active low resumes
  have promised : l.Promised → (l.write m).2.Promised := h.promised_perform (c := .write m) nofun
  unfold Link.write at promised ⊢
  split <;> rename_i k found <;> rw [found] at looked promised
  · exact looked
  · rw [Bool.not_true, Bool.or_false] at looked ⊢
    have accepted := l.checkWrite_moves.2 (by rw [found])
    rw [found] at accepted
    obtain rfl : k = l := accepted.1
    have kept := Rests.of_edits (s := []) (place_edits k m) (List.nil_subset _)
    exact looked.keep kept.outActive promised

theorem Sound.resumes_own (h : l.Sound) {c : Call}
    (active : l.self.state = .active ∧ (l.perform c).self.state = .active)
    (signals : ∀ c ∈ l.self.inbox.contents, c = .activateRead ∨ c = .activateWrite)
    (low : l.peer.lowMark = lowWatermark l.self.highMark) {refused : Bool}
    (resumes : l.Resumes refused) : (l.perform c).Resumes (refusing.own l c refused) := by
  cases c with
  | write m => exact h.resumes_write active.1 low resumes m
  | checkWrite => exact h.resumes_checkWrite active.1 low resumes
  | process => exact h.resumes_process active.1 signals resumes
  | terminate delay => exact absurd active.2 (h.terminate_begun delay)
  | setWatermarks | sendWatermarks | setNoDelay =>
    exact resumes.keep rfl (h.promised_perform nofun)
  | rollback | flush | read | checkRead | hiccup | setBoosts | setRoutingId | poll | abandon =>
    exact resumes.keep (Rests.perform l rfl).outActive (h.promised_perform nofun)

theorem Sound.resumes_peer (h : l.Sound) {c : Call}
    (low : (l.perform c).self.lowMark = l.self.lowMark) {refused : Bool}
    (resumes : l.swap.Resumes refused) : (l.perform c).swap.Resumes refused := by
  obtain ⟨lane, inbox, peer⟩ := Reaches.perform l c
  have outActive : (l.perform c).peer.outActive = l.peer.outActive := by rw [peer]
  refine resumes.keep outActive ?_
  rintro (told | ⟨n, dvd, ahead, within⟩)
  · exact .inl ((Spares.perform l c).letters told)
  · by_cases reached : n ≤ (l.perform c).self.messagesRead
    · exact .inl (h.tolls_perform dvd ahead reached)
    · refine .inr ⟨n, ?_, Nat.not_le.mp reached, ?_⟩
      · rw [swap_peer, low]
        exact dvd
      · rw [swap_self, peer]
        exact within

end Link

namespace Pair

variable {s : Settings} {p : Pair} {side : Side} {calls : List (Side × Call)}

theorem steady (made : create s = .ok p) (h : Undisturbed side calls) :
    ((p.run calls).link side).Steady (p.link side).self.marks (p.link side).peer.marks := by
  have sound := (covered made side []).1
  have first : (p.link side).Steady (p.link side).self.marks (p.link side).peer.marks := by
    obtain ⟨rfl, -⟩ := create_eq_ok made
    have silent : (Mailbox.create : Mailbox Command).contents = [] := Mailbox.create_sound.2
    cases side <;> refine ⟨rfl, rfl, ?_, ?_⟩ <;>
      · simp only [link, ofSettings, endpoint, silent]
        exact List.forall_mem_nil _
  refine (@watch_keep side calls p Unit unnoted (fun l _ ↦ l.Steady (p.link side).self.marks
    (p.link side).peer.marks) ?_ ?_ () sound first).2
  · intro l _ c hc sound _ steady
    exact sound.steady_perform steady (h.marks _ hc)
  · intro l _ c hc sound _ steady
    exact (sound.steady_perform steady.swap (h.marks _ hc)).swap

theorem lowMark (made : create s = .ok p) (h : Undisturbed side calls) :
    ((p.run calls).link side).peer.lowMark =
      lowWatermark ((p.run calls).link side).self.highMark := by
  have steady := steady made h
  have own : ((p.run calls).link side).self.highMark = (p.link side).self.highMark :=
    congrArg Prod.fst steady.self
  have other : ((p.run calls).link side).peer.lowMark = (p.link side).peer.lowMark :=
    congrArg Prod.snd steady.peer
  rw [own, other]
  obtain ⟨rfl, -⟩ := create_eq_ok made
  cases side <;> rfl

theorem active_of_append (made : create s = .ok p) {more : List (Side × Call)}
    (active : ((p.run (calls ++ more)).link side).Running) :
    ((p.run calls).link side).Running := by
  by_contra ended
  have sound := (covered made side calls).1
  have kept := @run_keep side more (p.run calls)
    (fun l ↦ ¬l.Running) ?_ ?_ sound ended
  · rw [← run_append] at kept
    exact kept.2 active
  · rintro l d l' deed _ ended ⟨own, other⟩
    rw [deed.peer_state] at other
    exact Deed.turn_ne_active (fun active ↦ ended ⟨active, other⟩) (deed.state ▸ own)
  · rintro l d l' deed _ ended ⟨own, other⟩
    rw [Link.swap_self, deed.peer_state] at own
    exact Deed.turn_ne_active (fun active ↦ ended ⟨own, active⟩) (deed.state ▸ other)

/-- An active end is told nothing but to go on. -/
theorem signals (made : create s = .ok p) (h : Undisturbed side calls)
    (active : ((p.run calls).link side).Running) :
    ∀ c ∈ ((p.run calls).link side).self.inbox.contents,
      c = .activateRead ∨ c = .activateWrite := by
  obtain ⟨sound, shaking⟩ := shaking made side calls
  exact (steady made h).signals sound shaking active (Pair.still made side h.still)

theorem resumes (made : create s = .ok p) (h : Undisturbed side calls)
    (active : ((p.run calls).link side).Running) :
    ((p.run calls).link side).Resumes (p.watch refusing side false calls) := by
  induction calls using List.reverseRecOn with
  | nil =>
    obtain ⟨rfl, -⟩ := create_eq_ok made
    cases side <;> exact ⟨nofun, nofun⟩
  | append_singleton calls call ih =>
    obtain ⟨t, c⟩ := call
    have before := h.of_append
    have active' := active_of_append made active
    have sound := (covered made side calls).1
    rw [run_concat] at active ⊢
    rw [watch_concat]
    by_cases own : t = side
    · subst own
      rw [perform_own] at active ⊢
      rw [if_pos rfl]
      exact sound.resumes_own ⟨active'.self, active.self⟩ (signals made before active')
        (lowMark made before) (ih before active')
    · obtain rfl := Side.eq_other_of_ne own
      rw [perform_other]
      have steady := steady made before
      have kept := sound.swap.steady_perform steady.swap (h.marks (side.other, c) (by simp))
      have low := congrArg Prod.snd (kept.self.trans steady.peer.symm)
      rw [if_neg own, link_other]
      exact sound.swap.resumes_peer low (ih before active')

theorem logged_of_plain (made : create s = .ok p) (plain : ∀ c, (side, c) ∈ calls → c.Plain) :
    (∀ m ∈ (p.watch bookkeeping side {} calls).log, m.isCredential = false) ∧
      (p.watch bookkeeping side {} calls).swallowed = [] := by
  induction calls using List.reverseRecOn with
  | nil => exact ⟨nofun, rfl⟩
  | append_singleton calls call ih =>
    obtain ⟨t, c⟩ := call
    obtain ⟨logged, none_left⟩ := ih fun c hc ↦ plain c (List.mem_append_left _ hc)
    have books := (ledger_matches made side (calls ++ [(t, c)])).2
    rw [watch_concat] at books ⊢
    by_cases own : t = side
    · subst own
      rw [if_pos rfl]
      refine ⟨?_, (Ledger.swallowed_supply _ _).trans none_left⟩
      intro m hm
      rcases Ledger.mem_log_of_supply hm with before | pushed
      · exact logged m before
      · obtain ⟨rfl, -⟩ := Link.of_push_mem_deeds pushed
        exact plain (.write m) (by simp)
    · rw [if_neg own] at books ⊢
      refine ⟨logged, List.append_eq_nil_iff.mpr ⟨none_left, List.filter_eq_nil_iff.mpr ?_⟩⟩
      intro m hm
      rw [logged m (books.consumed_subset (List.mem_append_right _ hm))]
      exact Bool.false_ne_true

theorem logged_plain (made : create s = .ok p) (h : Undisturbed side calls) :
    (∀ m ∈ (p.watch bookkeeping side {} calls).log, m.isCredential = false) ∧
      (p.watch bookkeeping side {} calls).swallowed = [] := logged_of_plain made h.plain

/-- What it takes to be told to go on stays until commands are obeyed. -/
theorem told_append (made : create s = .ok p) {more : List (Side × Call)}
    (unheard : (side, .process) ∉ more)
    (told : .activateWrite ∈ ((p.run calls).link side).self.inbox.contents)
    (refused : p.watch refusing side false calls = true) :
    .activateWrite ∈ ((p.run (calls ++ more)).link side).self.inbox.contents ∧
      p.watch refusing side false (calls ++ more) = true := by
  rw [run_append, watch_append]
  refine (@watch_keep side more (p.run calls) Bool refusing
    (fun l refused ↦ .activateWrite ∈ l.self.inbox.contents ∧ refused = true) ?_ ?_ _
    (covered made side calls).1 ⟨told, refused⟩).2
  · rintro l _ c hc - - ⟨told, rfl⟩
    have silent : c ≠ .process := fun hears ↦ unheard (hears ▸ hc)
    rw [Link.contents_perform l silent]
    refine ⟨told, ?_⟩
    cases c <;> first | contradiction | rfl
  · rintro l _ c - sound - ⟨told, refused⟩
    exact ⟨(Link.Spares.perform l c).letters told, refused⟩

end Pair

/-- The writer has published all whole messages, and the reader finds nothing. -/
structure Drained (l : Link) (k : Ledger) : Prop where
  flushed : k.published = wholeMessages k.log
  finished : l.swap.read.1 = none

/-- What is left in a queue that was flushed and read is no message. -/
theorem Drained.load_unread {l : Link} {k : Ledger} (h : Drained l k) (sound : l.Sound)
    (books : k.Matches l.self.lane.stock) (plain : ∀ m ∈ k.log, m.isCredential = false)
    (still : l.self.lane.fresh = []) (reads : l.peer.state.reads = true) : load k.unread = 0 := by
  have awaiting : Item.frames l.self.lane.stock.awaiting = [] := by
    have whole := books.whole
    rwa [← h.flushed, List.self_eq_append_right] at whole
  have readable : Item.frames l.self.lane.stock.readable = [] := by
    have same : l.swap.inbound.readable = l.self.lane.stock.readable :=
      congrArg Channel.readable (Lane.reading_eq_writing still)
    match front : Item.frames l.self.lane.stock.readable with
    | [] => rfl
    | m :: rest =>
      have logged : m ∈ k.log := by
        rw [books.log, books.published, front]
        simp
      have found := sound.swap.read_eq_some reads (same ▸ front) (plain m logged)
      exact absurd (h.finished.symm.trans found) nofun
  rw [books.unread, Stock.frames, Item.frames_append, Item.frames_append, readable, awaiting]
  exact sound.self.lane.load_unfinished

/-- An active end all of whose messages were read finds room as soon as it has processed its
commands. -/
theorem Link.Sound.room_of_signals {l : Link} (h : l.Sound) (active : l.self.state = .active)
    (signals : ∀ c ∈ l.self.inbox.contents, c.isSignal = true)
    (read : l.self.messagesWritten ≤ l.peer.messagesRead) : l.process.2.checkWrite.1 = true := by
  have heeds := h.hearing_process.heeds_signals active signals
  have moves := Moves.perform h .process
  have written := moves.messagesWritten_le h fun m hm ↦
    Call.noConfusion (of_push_mem_deeds hm).1
  have room : l.process.2.checkMark = true := by
    have counted : l.process.2.self.messagesWritten ≤ l.process.2.peer.messagesRead :=
      (written.trans read).trans_eq moves.peer_counts.1.symm
    simp only [checkMark, Bool.not_eq_true', Bool.and_eq_false_iff, decide_eq_false_iff_not]
    omega
  have sound : l.process.2.Sound := h.perform .process
  rw [sound.checkWrite_eq heeds.state, if_pos room]

theorem Link.Sound.room_of_process {l : Link} (h : l.Sound) (active : l.self.state = .active)
    (signals : ∀ c ∈ l.self.inbox.contents, c = .activateRead ∨ c = .activateWrite)
    (read : l.self.messagesWritten ≤ l.peer.messagesRead) : l.process.2.checkWrite.1 = true := by
  apply h.room_of_signals active _ read
  intro c hc
  rcases signals c hc with rfl | rfl <;> rfl

namespace Pair

variable {s : Settings} {p : Pair} {side : Side} {calls : List (Side × Call)}

theorem written_of_plain (made : create s = .ok p) (plain : ∀ c, (side, c) ∈ calls → c.Plain)
    (active : ((p.run calls).link side).self.state = .active) :
    ((p.run calls).link side).self.messagesWritten =
      ((p.run calls).link side).peer.messagesRead +
        load (p.watch bookkeeping side {} calls).unread := by
  have balanced := balanced made side calls active
  have none_lost : load [] = 0 := rfl
  rwa [(logged_of_plain made plain).2, none_lost, Nat.add_zero,
    ← (ledger_matches made side calls).2.unread] at balanced

theorem written_eq (made : create s = .ok p) (h : Undisturbed side calls)
    (active : ((p.run calls).link side).self.state = .active) :
    ((p.run calls).link side).self.messagesWritten =
      ((p.run calls).link side).peer.messagesRead +
        load (p.watch bookkeeping side {} calls).unread := written_of_plain made h.plain active

theorem told_or_unread (made : create s = .ok p) (h : Undisturbed side calls)
    (active : ((p.run calls).link side).Running)
    (refused : p.watch refusing side false calls = true) :
    .activateWrite ∈ ((p.run calls).link side).self.inbox.contents ∨
      0 < load (p.watch bookkeeping side {} calls).unread := by
  have resumes := resumes made h active
  refine (resumes.promised (resumes.idle refused)).imp_right ?_
  rintro ⟨n, -, ahead, within⟩
  rw [written_eq made h active.self] at within
  omega

theorem load_unread (made : create s = .ok p) (h : Undisturbed side calls)
    (active : ((p.run calls).link side).peer.state = .active)
    (drained : Drained ((p.run calls).link side) (p.watch bookkeeping side {} calls)) :
    load (p.watch bookkeeping side {} calls).unread = 0 := by
  obtain ⟨sound, books⟩ := ledger_matches made side calls
  exact drained.load_unread sound books (logged_plain made h).1 (still made side h.still)
    (active ▸ rfl)

end Pair

/-- A writer that was refused, and has not reported since that it goes on, is told to go on, or a
message of its own is unread. Once it has published and its peer has read all, it reports it when it
next processes its commands, and then finds room if it wrote nothing more. -/
theorem writer_told_to_resume {s : Settings} {p : Pair} (made : Pair.create s = .ok p) (side : Side)
    {calls : List (Side × Call)} (h : Undisturbed side calls)
    {l : Link} {k : Ledger} (reached : (p.run calls).link side = l)
    (noted : p.watch bookkeeping side {} calls = k)
    (active : l.Running) :
    (p.watch refusing side false calls = true →
      .activateWrite ∈ l.self.inbox.contents ∨ ∃ m ∈ k.unread, m.counts = true) ∧
    ∀ begun more, calls = begun ++ more → (side, .process) ∉ more →
      p.watch refusing side false begun = true →
      Drained ((p.run begun).link side) (p.watch bookkeeping side {} begun) →
      .writeActivated ∈ l.process.1.events ∧ (Drained l k → l.process.2.checkWrite.1 = true) := by
  subst reached noted
  constructor
  · intro refused
    exact (Pair.told_or_unread made h active refused).imp_right List.countP_pos_iff.mp
  · rintro begun more rfl unheard refused drained
    have sound := (Pair.covered made side (begun ++ more)).1
    have before := Pair.active_of_append made active
    have none_unread := Pair.load_unread made h.of_append before.peer drained
    have told := (Pair.told_or_unread made h.of_append before refused).resolve_right
      (Nat.not_lt.mpr none_unread.le)
    obtain ⟨told', refused'⟩ := Pair.told_append made unheard told refused
    have signals := Pair.signals made h active
    have heeds := sound.hearing_process.heeds active.self signals
    have idle := (Pair.resumes made h active).idle refused'
    refine ⟨heeds.told.mpr ⟨idle, told'⟩, fun finished ↦ ?_⟩
    have written := Pair.written_eq made h active.self
    rw [Pair.load_unread made h active.peer finished, Nat.add_zero] at written
    exact sound.room_of_process active.self signals written.le

theorem writer_told_to_resume_after_reads :
    let s : Settings := { highMarks := (2, 1) }
    let p := Pair.ofSettings s
    let calls : List (Side × Call) := [(.first, .write {}), (.first, .write {}), (.first, .flush),
      (.first, .write {}), (.second, .read), (.second, .read), (.second, .read)]
    let l := (p.run calls).link .first
    Drained l (p.watch bookkeeping .first {} calls) ∧
      p.watch refusing .first false calls = true ∧ l.self.outActive = false ∧
      .writeActivated ∈ l.process.1.events ∧ l.process.2.checkWrite.1 = true := by
  intro s p calls l
  have undisturbed : Undisturbed .first calls := by
    refine ⟨by decide, by simp [calls, Side.other], ?_⟩
    simp [calls, Call.Plain]
    decide
  have drained : Drained l (p.watch bookkeeping .first {} calls) :=
    ⟨by decide +kernel, by decide +kernel⟩
  have refused : p.watch refusing .first false calls = true := by decide +kernel
  have active : l.Running := ⟨by decide +kernel, by decide +kernel⟩
  obtain ⟨-, told⟩ :=
    writer_told_to_resume (s := s) (p := p) (l := l) rfl .first undisturbed rfl rfl active
  obtain ⟨reports, room⟩ :=
    told calls [] (List.append_nil _).symm List.not_mem_nil refused drained
  exact ⟨drained, refused, by decide +kernel, reports, room drained⟩

end Conduit.Pipe
