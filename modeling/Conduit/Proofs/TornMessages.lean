import Conduit.Proofs.Delivery

namespace Conduit.Pipe

structure Script where
  /-- The messages that were ended since. -/
  messages : List (List Message) := []
  /-- The frames of the message that is not ended yet. -/
  part : List Message := []
  /-- The frames that stayed behind of the first message. -/
  lost : List Message := []

namespace Script

def push (s : Script) (m : Message) : Script :=
  if m.more then { s with part := s.part ++ [m] }
  else { s with messages := s.messages ++ [s.part ++ [m]], part := [] }

/-- Gives up the message that is not ended. -/
def rollback (s : Script) : Script :=
  { s with part := [], lost := if s.messages = [] then [] else s.lost }

def supply (s : Script) : Deed → Script
  | .push m => s.push m
  | .takeBack | .finish | .giveUp | .request | .delimit => s.rollback
  | .obey .hiccup => { part := s.part, lost := s.part }
  | _ => s

end Script

/-- Keeps the script of an end that writes. -/
def scripting : Observer Script where
  own l c s := (l.deeds c).foldl Script.supply s
  peer _ _ s := s

structure Script.Tells (s : Script) (k : Ledger) : Prop where
  frames : s.lost ++ k.log = s.messages.flatten ++ s.part
  whole : ∀ ms ∈ s.messages, IsMessage ms
  unended : ∀ m ∈ s.part, m.more = true
  torn : ∀ m ∈ s.lost, m.more = true
  published : k.published = [] ∨
    ∃ ended, ended <+: s.messages ∧ s.lost ++ k.published = ended.flatten

theorem IsMessage.ne_nil {ms : List Message} (h : IsMessage ms) : ms ≠ [] := by
  obtain ⟨init, last, rfl, -, -⟩ := h
  exact List.concat_ne_nil _ _

theorem IsMessage.concat {part : List Message} {m : Message} (unended : ∀ x ∈ part, x.more = true)
    (ends : m.more = false) : IsMessage (part ++ [m]) := ⟨part, m, rfl, unended, ends⟩

theorem IsMessage.eq_nil_of_shift {ms lost rest others : List Message} (h : IsMessage ms)
    (torn : ∀ m ∈ lost, m.more = true) (same : lost ++ (ms ++ rest) = ms ++ others) :
    lost = [] := by
  obtain ⟨init, last, rfl, unended, ends⟩ := h
  have upTo {before : List Message} (unended : ∀ m ∈ before, m.more = true)
      (behind : List Message) : (before ++ last :: behind).takeWhile (·.more) = before := by
    rw [List.takeWhile_append_of_pos unended, List.takeWhile_cons_of_neg (by simp [ends]),
      List.append_nil]
  have shifted : ∀ m ∈ lost ++ init, m.more = true := by
    intro m hm
    exact (List.mem_append.mp hm).elim (torn m) (unended m)
  rw [List.append_assoc, List.append_assoc, ← List.append_assoc] at same
  have begun := congrArg (List.takeWhile (·.more)) same
  rw [List.singleton_append, List.singleton_append, upTo shifted, upTo unended] at begun
  exact List.append_left_eq_self.mp begun

theorem wholeMessages_eq_nil_iff {ms : List Message} :
    wholeMessages ms = [] ↔ ∀ m ∈ ms, m.more = true := by
  rw [wholeMessages, List.rdropWhile_eq_nil_iff]

theorem wholeMessages_flatten {messages : List (List Message)}
    (whole : ∀ ms ∈ messages, IsMessage ms) :
    wholeMessages messages.flatten = messages.flatten := by
  cases messages using List.reverseRecOn with
  | nil => rfl
  | append_singleton messages ms =>
    obtain ⟨init, last, rfl, -, ends⟩ := whole ms (by simp)
    rw [List.flatten_append, List.flatten_singleton, ← List.append_assoc]
    exact wholeMessages_concat ends

theorem wholeMessages_append_of_ne_nil {ms : List Message} (h : wholeMessages ms ≠ [])
    (before : List Message) : wholeMessages (before ++ ms) = before ++ wholeMessages ms := by
  induction ms using List.reverseRecOn with
  | nil => contradiction
  | append_singleton ms m ih =>
    rw [← List.append_assoc]
    unfold wholeMessages at ih h ⊢
    by_cases more : m.more = true
    · rw [List.rdropWhile_concat_pos _ _ _ more] at h ⊢
      rw [List.rdropWhile_concat_pos _ _ _ more]
      exact ih h
    · rw [List.rdropWhile_concat_neg _ _ _ more, List.rdropWhile_concat_neg _ _ _ more,
        List.append_assoc]

namespace Script.Tells

variable {s : Script} {k : Ledger}

theorem whole_log (h : s.Tells k) :
    s.messages = [] ∧ wholeMessages k.log = [] ∨
      s.lost ++ wholeMessages k.log = s.messages.flatten ∧ s.messages ≠ [] := by
  match messages : s.messages with
  | [] =>
    refine .inl ⟨rfl, wholeMessages_eq_nil_iff.mpr fun m hm ↦ h.unended m ?_⟩
    have frames := h.frames
    rw [messages, List.flatten_nil, List.nil_append] at frames
    exact frames ▸ List.mem_append_right _ hm
  | ms :: others =>
    have ended : wholeMessages (s.lost ++ k.log) = (ms :: others).flatten := by
      rw [h.frames, wholeMessages_append h.unended, messages]
      exact wholeMessages_flatten (messages ▸ h.whole)
    have some : wholeMessages k.log ≠ [] := by
      intro none
      have all : ∀ m ∈ s.lost ++ k.log, m.more = true := by
        intro m hm
        rcases List.mem_append.mp hm with hm | hm
        · exact h.torn m hm
        · exact wholeMessages_eq_nil_iff.mp none m hm
      rw [wholeMessages_eq_nil_iff.mpr all] at ended
      have first := h.whole ms (messages ▸ List.mem_cons_self)
      exact first.ne_nil (List.append_eq_nil_iff.mp ended.symm).1
    rw [wholeMessages_append_of_ne_nil some] at ended
    exact .inr ⟨ended, List.cons_ne_nil _ _⟩

theorem push (h : s.Tells k) (m : Message) : (s.push m).Tells (k.supply (.push m)) := by
  have frames : s.lost ++ (k.log ++ [m]) = s.messages.flatten ++ (s.part ++ [m]) := by
    rw [← List.append_assoc, h.frames, List.append_assoc]
  unfold Script.push
  split
  · rename_i more
    refine ⟨frames, h.whole, ?_, h.torn, h.published⟩
    intro x hx
    rcases List.mem_append.mp hx with hx | hx
    · exact h.unended x hx
    · exact List.mem_singleton.mp hx ▸ more
  · rename_i ends
    rw [Bool.not_eq_true] at ends
    refine ⟨?_, ?_, nofun, h.torn, ?_⟩
    · rw [List.flatten_append, List.flatten_singleton, List.append_nil]
      exact frames
    · intro ms hms
      rcases List.mem_append.mp hms with hms | hms
      · exact h.whole ms hms
      · exact List.mem_singleton.mp hms ▸ .concat h.unended ends
    · refine h.published.imp_right ?_
      rintro ⟨ended, begun, published⟩
      exact ⟨ended, begun.trans (List.prefix_append _ _), published⟩

theorem rollback (h : s.Tells k) : s.rollback.Tells k.rollback := by
  rcases h.whole_log with ⟨messages, log⟩ | ⟨log, messages⟩
  · have none : k.published = [] := by
      refine h.published.elim id ?_
      rintro ⟨ended, begun, published⟩
      rw [messages, List.prefix_nil] at begun
      rw [begun] at published
      exact (List.append_eq_nil_iff.mp published).2
    unfold Script.rollback Ledger.rollback
    rw [if_pos messages, messages, log]
    exact ⟨rfl, nofun, nofun, nofun, .inl none⟩
  · unfold Script.rollback Ledger.rollback
    rw [if_neg messages]
    refine ⟨?_, h.whole, nofun, h.torn, h.published⟩
    rw [List.append_nil]
    exact log

theorem flush (h : s.Tells k) : s.Tells k.flush := by
  refine ⟨h.frames, h.whole, h.unended, h.torn, ?_⟩
  rcases h.whole_log with ⟨-, log⟩ | ⟨log, -⟩
  · exact .inl log
  · exact .inr ⟨s.messages, List.prefix_rfl, log⟩

theorem supply (h : s.Tells k) (d : Deed) : (s.supply d).Tells (k.supply d) := by
  cases d with
  | push m => exact h.push m
  | takeBack | finish | giveUp => exact h.rollback
  | publish => exact h.flush
  | request | delimit => exact h.rollback.flush
  | obey c =>
    cases c with
    | hiccup => exact ⟨by simp [Script.supply, Ledger.supply], nofun, h.unended, h.unended, .inl rfl⟩
    | activateRead | activateWrite | term | termAck | watermarks => exact h
  | quiet | take | meet | renew => exact h

theorem deeds (h : s.Tells k) (ds : List Deed) :
    (ds.foldl Script.supply s).Tells (ds.foldl Ledger.supply k) := by
  induction ds generalizing s k with
  | nil => exact h
  | cons d ds ih => exact ih (h.supply d)

theorem draw (h : s.Tells k) (took returned : List Message) : s.Tells (k.draw took returned) :=
  ⟨h.frames, h.whole, h.unended, h.torn, h.published⟩

theorem published_whole_iff (h : s.Tells k) :
    (∃ ended, ended <+: s.messages ∧ k.published = ended.flatten) ↔
      s.lost = [] ∨ k.published = [] := by
  constructor
  · rintro ⟨seen, begun, published⟩
    rcases h.published with none | ⟨ended, begun', published'⟩
    · exact .inr none
    · match seen, ended, begun.trans List.prefix_rfl, begun'.trans List.prefix_rfl with
      | [], _, _, _ => exact .inr published
      | _, [], _, _ => exact .inl (List.append_eq_nil_iff.mp published').1
      | ms :: seen, ms' :: ended, begun, begun' =>
        obtain ⟨_, messages⟩ := begun
        obtain ⟨_, messages'⟩ := begun'
        obtain ⟨rfl, -⟩ := List.cons.inj (messages.trans messages'.symm)
        have whole := h.whole ms (messages ▸ List.mem_cons_self)
        rw [published] at published'
        exact .inl (whole.eq_nil_of_shift h.torn published')
  · rintro (whole | none)
    · rcases h.published with none | ⟨ended, begun, published⟩
      · exact ⟨[], List.nil_prefix, none⟩
      · rw [whole, List.nil_append] at published
        exact ⟨ended, begun, published⟩
    · exact ⟨[], List.nil_prefix, none⟩

end Script.Tells

namespace Pair

theorem watch_both {κ κ' : Type} {o : Observer κ} {o' : Observer κ'} {side : Side}
    {calls : List (Side × Call)} {Inv : κ → κ' → Prop}
    (own : ∀ l c k k', Inv k k' → Inv (o.own l c k) (o'.own l c k'))
    (peer : ∀ l c k k', Inv k k' → Inv (o.peer l c k) (o'.peer l c k'))
    {p : Pair} {k : κ} {k' : κ'} (start : Inv k k') :
    Inv (p.watch o side k calls) (p.watch o' side k' calls) := by
  induction calls generalizing p k k' with
  | nil => exact start
  | cons call calls ih =>
    obtain ⟨s, c⟩ := call
    rw [watch, watch]
    apply ih
    by_cases hs : s = side
    · rw [if_pos hs, if_pos hs]
      exact own _ c k k' start
    · rw [if_neg hs, if_neg hs]
      exact peer _ c k k' start

theorem script_tells (p : Pair) (side : Side) (calls : List (Side × Call)) :
    (p.watch scripting side {} calls).Tells (p.watch bookkeeping side {} calls) :=
  @watch_both _ _ scripting bookkeeping side calls Script.Tells (fun _ _ _ _ h ↦ h.deeds _)
    (fun _ _ _ _ h ↦ h.draw _ _) _ _ _ ⟨rfl, nofun, nofun, nofun, .inl rfl⟩

end Pair

/-- What is read off a queue are whole messages as they were written, unless the writer came to the
queue in the middle of a message and has published the rest of it. -/
theorem reads_whole_messages_iff {s : Settings} {p : Pair} (made : Pair.create s = .ok p)
    (side : Side) (calls : List (Side × Call)) :
    let ledger := p.watch bookkeeping side {} calls
    let script := p.watch scripting side {} calls
    ledger.returned <+: ordinary ledger.published ∧
      ((∃ ended, ended <+: script.messages ∧ ledger.published = ended.flatten) ↔
        script.lost = [] ∨ ledger.published = []) := by
  obtain ⟨-, matched⟩ := Pair.ledger_matches made side calls
  refine ⟨?_, (p.script_tells side calls).published_whole_iff⟩
  rw [matched.returned, matched.published]
  exact (List.prefix_append _ _).filter _

theorem reads_whole_messages_after_hiccup :
    let p := Pair.ofSettings {}
    let part : Message := { data := [1], flags := Flag.more }
    let calls : List (Side × Call) := [(.first, .write part), (.second, .hiccup),
      (.first, .rollback), (.first, .process), (.first, .write part), (.first, .write {}),
      (.first, .flush), (.second, .read)]
    let ledger := p.watch bookkeeping .first {} calls
    let script := p.watch scripting .first {} calls
    ledger.returned = [part] ∧ script.lost = [] ∧
      ∃ ended, ended <+: script.messages ∧ ledger.published = ended.flatten := by
  intro p part calls ledger script
  have whole : script.lost = [] := by decide +kernel
  refine ⟨by decide +kernel, whole, ?_⟩
  exact (reads_whole_messages_iff (s := {}) rfl .first calls).2.mpr (.inl whole)

/-- The end of a message is read as a whole one. -/
theorem suffix_read_after_hiccup :
    let p := Pair.ofSettings {}
    let part : Message := { data := [1], flags := Flag.more }
    let last : Message := { data := [2] }
    let calls : List (Side × Call) := [(.first, .write part), (.second, .hiccup),
      (.first, .process), (.first, .write last), (.first, .flush), (.second, .read)]
    let ledger := p.watch bookkeeping .first {} calls
    let script := p.watch scripting .first {} calls
    (p.run calls).first.state = .active ∧ (p.run calls).second.state = .active ∧
      script.messages = [[part, last]] ∧ ledger.returned = [last] ∧
      ¬∃ ended, ended <+: script.messages ∧ ledger.returned = ended.flatten := by
  intro p part last calls ledger script
  have messages : script.messages = [[part, last]] := by decide +kernel
  have returned : ledger.returned = [last] := by decide +kernel
  refine ⟨by decide +kernel, by decide +kernel, messages, returned, ?_⟩
  rw [messages, returned]
  rintro ⟨ended, begun, frames⟩
  match ended with
  | [] => exact List.cons_ne_nil _ _ frames
  | ms :: _ =>
    rw [(List.cons_prefix_cons.mp begun).1] at frames
    exact absurd (List.cons.inj frames).1 (by decide)

end Conduit.Pipe
