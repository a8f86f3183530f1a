import Conduit.Proofs.Wakefulness

namespace Conduit.Pipe

def Endpoint.terms (e : Endpoint) : Bool × Nat × Nat := (e.delay, e.highMark, e.lowMark)

def Command.isTerms : Command → Bool
  | .watermarks .. => true
  | _ => false

namespace Link

def Reaches (l l' : Link) : Prop := ∃ lane inbox, l'.peer = { l.peer with lane, inbox }

structure Keeps (l l' : Link) : Prop where
  terms : l'.self.terms = l.self.terms
  reaches : l.Reaches l'
  letters : ∃ cs, l'.peer.inbox.contents = l.peer.inbox.contents ++ cs ∧
    ∀ c ∈ cs, c.isTerms = false

structure Rests (l l' : Link) : Prop extends l.Keeps l' where
  contents : l'.self.inbox.contents = l.self.inbox.contents
  outActive : l'.self.outActive = l.self.outActive

theorem Reaches.refl {l : Link} : l.Reaches l := ⟨l.peer.lane, l.peer.inbox, rfl⟩

theorem Reaches.trans {l l₁ l₂ : Link} (h : l.Reaches l₁) (h' : l₁.Reaches l₂) : l.Reaches l₂ := by
  obtain ⟨lane, inbox, peer⟩ := h
  obtain ⟨lane', inbox', peer'⟩ := h'
  exact ⟨lane', inbox', by rw [peer', peer]⟩

theorem Reaches.edit (l : Link) (e : Edit) : l.Reaches (l.edit e) := by
  cases e with
  | publish =>
    rcases l.edit_publish with same | same <;> rw [same]
    · exact .refl
    · exact ⟨l.peer.lane, _, rfl⟩
  | tell | look | take | renew | abandon => exact ⟨_, _, rfl⟩
  | note | takeBack | put | follow | receive | poll => exact .refl

theorem Reaches.of_edits {s : List Scope} {l l' : Link} (h : Edits s l l') :
    l.Reaches l' :=
  h.lift .refl .trans fun l e _ ↦ edit l e

namespace Keeps

variable {l l₁ l₂ : Link}

theorem refl : l.Keeps l := ⟨rfl, .refl, [], (List.append_nil _).symm, nofun⟩

theorem trans (h : l.Keeps l₁) (h' : l₁.Keeps l₂) : l.Keeps l₂ := by
  refine ⟨h'.terms.trans h.terms, h.reaches.trans h'.reaches, ?_⟩
  obtain ⟨cs, sent, plain⟩ := h.letters
  obtain ⟨ds, sent', plain'⟩ := h'.letters
  refine ⟨cs ++ ds, by rw [sent', sent, List.append_assoc], ?_⟩
  intro c hc
  exact (List.mem_append.mp hc).elim (plain c) (plain' c)

theorem of_silent (terms : l₁.self.terms = l.self.terms) (reaches : l.Reaches l₁)
    (silent : l₁.peer.inbox.contents = l.peer.inbox.contents) : l.Keeps l₁ :=
  ⟨terms, reaches, [], silent.trans (List.append_nil _).symm, nofun⟩

theorem of_self {e : Endpoint} (terms : e.terms = l.self.terms) : l.Keeps { l with self := e } :=
  of_silent terms .refl rfl

theorem send (l : Link) {c : Command} (plain : c.isTerms = false) : l.Keeps (l.send c) := by
  refine ⟨rfl, ⟨l.peer.lane, _, rfl⟩, [c], Mailbox.contents_send _ c, ?_⟩
  intro x hx
  rw [List.mem_singleton.mp hx, plain]

theorem of_edits {s : List Scope} (h : Edits s l l₁)
    (kept : .marks ∉ s ∧ .delay ∉ s) : l.Keeps l₁ := by
  refine h.lift refl trans ?_
  intro l e within
  have reaches := Reaches.edit l e
  cases e with
  | note n =>
    cases n with
    | marks => exact absurd (within List.mem_cons_self) kept.1
    | delay => exact absurd (within List.mem_cons_self) kept.2
    | _ => exact of_self rfl
  | tell c =>
    cases c with
    | watermarks => exact absurd (within List.mem_cons_self) kept.1
    | _ => exact send l rfl
  | publish =>
    have flushed : l.Keeps (l.setOutbound l.outbound.flush.2) := of_self rfl
    rcases l.edit_publish with same | same <;> rw [same]
    · exact flushed
    · exact flushed.trans (send _ rfl)
  | look | take | takeBack | put | renew | follow | receive | poll | abandon =>
    exact of_silent rfl reaches rfl

end Keeps

namespace Rests

variable {l l₁ l₂ : Link}

theorem refl : l.Rests l := ⟨.refl, rfl, rfl⟩

theorem trans (h : l.Rests l₁) (h' : l₁.Rests l₂) : l.Rests l₂ :=
  ⟨h.toKeeps.trans h'.toKeeps, h'.contents.trans h.contents, h'.outActive.trans h.outActive⟩

theorem of_edits {s : List Scope} (h : Edits s l l₁)
    (kept : s ⊆ [.input, .credential, .credit, .bell]) : l.Rests l₁ := by
  refine (h.mono kept).lift refl trans ?_
  intro l e within
  have keeps : l.Keeps (l.edit e) := .of_edits (.one e within) (by simp)
  have other {x : Scope} (h : x ∉ [.input, .credential, .credit, .bell]) : x ∉ e.scope :=
    fun there ↦ h (within there)
  refine ⟨keeps, ?_, ?_⟩
  · cases e with
    | receive => exact absurd List.mem_cons_self (other (x := .inbox) (by simp))
    | publish => rcases l.edit_publish with same | same <;> rw [same] <;> rfl
    | note n => cases n <;> rfl
    | _ => rfl
  · cases e with
    | note n =>
      cases n with
      | outActive => exact absurd List.mem_cons_self (other (x := .room) (by simp))
      | terminated => exact absurd List.mem_cons_self (other (x := .ending) (by simp))
      | _ => rfl
    | publish => rcases l.edit_publish with same | same <;> rw [same] <;> rfl
    | _ => rfl

end Rests

end Link

def Call.isPlain : Call → Bool
  | .setWatermarks .. | .sendWatermarks .. | .setNoDelay | .terminate _ | .process => false
  | _ => true

def Call.rests : Call → Bool
  | .write _ | .checkWrite => false
  | c => c.isPlain

namespace Link

theorem Rests.perform (l : Link) {c : Call} (hc : c.rests = true) : l.Rests (l.perform c) :=
  of_edits (l.perform_edits c) (by cases c <;> simp_all [Call.rests, Call.isPlain, Call.scopes])

theorem Keeps.perform (l : Link) {c : Call} (hc : c.isPlain = true) : l.Keeps (l.perform c) :=
  of_edits (l.perform_edits c) (by cases c <;> simp_all [Call.isPlain, Call.scopes])

/-- Asking to terminate, an end says anew whether it reads on. -/
theorem Keeps.terminate (l : Link) (delay : Bool) :
    (l.modifySelf ({ · with delay })).Keeps (l.terminate delay) :=
  of_edits (l.terminate_edits delay) (by simp)

/-- An end that is not asked for other terms keeps its own as it hears what its peer has to say. -/
theorem Hearing.keeps {l l' : Link} {cs : List Command} {es : List Event}
    (h : l.Hearing cs es l') (plain : ∀ c ∈ cs, c.isTerms = false) : l.Keeps l' := by
  induction h with
  | done => exact .refl
  | listen => exact .of_self rfl
  | @obey l _ c _ _ b _ _ _ _ _ ih =>
    have received : l.Keeps (l.modifySelf ({ · with inbox := b })) := .of_self rfl
    have kept : .marks ∉ c.scopes ∧ .delay ∉ c.scopes := by
      have heard := plain c List.mem_cons_self
      cases c <;> simp_all [Command.scopes, Command.isTerms]
    have obeyed := received.trans (.of_edits (obey_edits _ c) kept)
    exact obeyed.trans (ih fun x hx ↦ plain x (List.mem_cons_of_mem _ hx))

theorem Reaches.perform (l : Link) (c : Call) : l.Reaches (l.perform c) :=
  of_edits (l.perform_edits c)

theorem delay_of_edits {s : List Scope} {l l' : Link} (h : Edits s l l')
    (kept : .delay ∉ s) : l'.self.delay = l.self.delay := by
  refine h.keep (P := fun k ↦ k.self.delay = l.self.delay) ?_ rfl
  intro k e within start
  cases e with
  | note n =>
    cases n with
    | delay => exact absurd (within List.mem_cons_self) kept
    | _ => exact start
  | publish => rcases k.edit_publish with same | same <;> rw [same] <;> exact start
  | _ => exact start

theorem delay_perform (l : Link) {c : Call} (unset : c ≠ .setNoDelay)
    (unasked : ∀ delay, c ≠ .terminate delay) : (l.perform c).self.delay = l.self.delay :=
  delay_of_edits (l.perform_edits c) (by cases c <;> simp_all [Call.scopes])

end Link

end Conduit.Pipe
