import Conduit.Proofs.EngineRun
import Conduit.Proofs.Reception
import Conduit.Proofs.Terms

namespace Conduit.Pipe.Link

theorem credential_of_edits {s : List Scope} {l l' : Link} (h : Edits s l l')
    (unread : .credential ∉ s) : l'.self.credential = l.self.credential := by
  refine h.keep (P := fun k ↦ k.self.credential = l.self.credential) ?_ rfl
  intro k e within start
  cases e with
  | note n =>
    cases n with
    | credential => exact absurd (within List.mem_cons_self) unread
    | _ => exact start
  | publish => rcases k.edit_publish with same | same <;> rw [same] <;> exact start
  | _ => exact start

theorem credential_perform (l : Link) {c : Call} (unread : c ≠ .read) :
    (l.perform c).self.credential = l.self.credential :=
  credential_of_edits (l.perform_edits c) (by cases c <;> simp_all [Call.scopes])

theorem read_of_terminated {l : Link} (done : l.self.state = .terminated) :
    l.read = (none, l) := by
  simp [read, Endpoint.canRead, done]

/-- An end that is done stays so, and what it knows of its peer with it. -/
theorem Sound.perform_of_terminated {l : Link} (h : l.Sound) (done : l.self.state = .terminated)
    (c : Call) : (l.perform c).self.state = .terminated ∧
      (l.perform c).self.credential = l.self.credential := by
  by_cases read : c = .read
  · subst read
    change l.read.2.self.state = _ ∧ l.read.2.self.credential = _
    rw [read_of_terminated done]
    exact ⟨done, rfl⟩
  · refine ⟨?_, l.credential_perform read⟩
    have further := (Moves.perform h c).remaining_le
    rw [done] at further
    exact State.remaining_inj (Nat.le_zero.mp further)

end Conduit.Pipe.Link

namespace Conduit.Net

open Pipe

namespace FairQueue

/-- The last sender that it knows by its id, and the credential that it keeps of one before. -/
def named (q : FairQueue) : Option Nat × Bytes := (q.lastIn, q.savedCredential)

theorem named_terminated (q : FairQueue) (id : Nat) (credential : Bytes) :
    (q.terminated id credential).named = if q.lastIn = some id then (none, credential) else
      q.named := by
  have given (b : Prop) [Decidable b] :
      (if b then { q with more := false } else q).named = q.named := by
    split <;> rfl
  have attributed {q' : FairQueue} (same : q'.named = q.named) :
      (if q'.lastIn = some id then { q' with savedCredential := credential, lastIn := none }
        else q').named = if q.lastIn = some id then (none, credential) else q.named := by
    have lastIn : q'.lastIn = q.lastIn := congrArg Prod.fst same
    rw [lastIn]
    split
    · rfl
    · exact same
  exact attributed (given _)

theorem named_heed_foldl (q : FairQueue) (id : Nat) (events : List Event) :
    (events.foldl (heed id) q).named = q.named := by
  induction events generalizing q with
  | nil => rfl
  | cons e events ih =>
    have heeded : (q.heed id e).named = q.named := by cases e <;> rfl
    exact (ih _).trans heeded

end FairQueue

theorem Pairs.endpoint?_of_link? {ps : Pairs} {p : Place} {l : Link}
    (there : ps.link? p = some l) : ps.endpoint? p = some l.self := by
  obtain ⟨pair, found, rfl⟩ := Option.map_eq_some_iff.mp there
  rw [endpoint?, found, Option.map_some]
  cases p.side <;> rfl

/-- A record of whom the messages of a fair queue came from. -/
structure Attribution where
  /-- The ends that were put into the table, with their ids. -/
  entered : List (Nat × Place) := []
  /-- Where the last complete message came from. -/
  sender : Option Nat := none
  /-- The last pipe that was reported terminated while it was the sender. -/
  reported : Option Nat := none

namespace Attribution

def received (a : Attribution) : Option FairQueue.Received → Attribution
  | some r => if r.message.more then a else { a with sender := some r.pipe }
  | none => a

def note (a : Attribution) (w : Reception) : Reception.Step → Attribution
  | .floor (.enter id p) => { a with entered := (id, p) :: a.entered }
  | .receive => a.received (w.queue.receive w.table w.pairs).1
  | .terminated id _ => if a.sender = some id then { a with reported := some id } else a
  | .floor (.build _) | .floor (.leave _) | .floor (.call ..) | .attach _ | .activated _ | .hasIn
  | .hear _ => a

def notes : Attribution → Reception → List Reception.Step → Attribution
  | a, _, [] => a
  | a, w, s :: steps => (a.note w s).notes (w.step s) steps

/-- What those around the queue may do. Ids and ends are put into the table once, the ends are read
through the queue alone, and a pipe is reported terminated with its own credential, when it is or
when it has left the table. -/
def Permits (a : Attribution) (w : Reception) : Reception.Step → Prop
  | .floor (.enter id p) =>
    (w.pairs.link? p).isSome = true ∧ ∀ e ∈ a.entered, e.1 ≠ id ∧ e.2 ≠ p
  | .floor (.call p c) => c ≠ .read ∨ ∀ e ∈ a.entered, e.2 ≠ p
  | .terminated id credential => ∀ e ∈ a.entered, e.1 = id → ∀ l ∈ w.pairs.link? e.2,
    l.self.credential = credential ∧ (w.table.find? id = none ∨ l.self.state = .terminated)
  | .floor (.build _) | .floor (.leave _) | .attach _ | .activated _ | .receive | .hasIn
  | .hear _ => True

instance (a : Attribution) (w : Reception) : DecidablePred (a.Permits w)
  | .floor (.enter id p) => inferInstanceAs (Decidable
      ((w.pairs.link? p).isSome = true ∧ ∀ e ∈ a.entered, e.1 ≠ id ∧ e.2 ≠ p))
  | .floor (.call p c) => inferInstanceAs (Decidable (c ≠ .read ∨ ∀ e ∈ a.entered, e.2 ≠ p))
  | .terminated id credential => inferInstanceAs (Decidable
      (∀ e ∈ a.entered, e.1 = id → ∀ l ∈ w.pairs.link? e.2, l.self.credential = credential ∧
        (w.table.find? id = none ∨ l.self.state = .terminated)))
  | .floor (.build _) | .floor (.leave _) | .attach _ | .activated _ | .receive | .hasIn
  | .hear _ => isTrue trivial

def Permitted : Attribution → Reception → List Reception.Step → Prop
  | _, _, [] => True
  | a, w, s :: steps => a.Permits w s ∧ (a.note w s).Permitted (w.step s) steps

instance decidablePermitted : (a : Attribution) → (w : Reception) → (steps : List Reception.Step) →
    Decidable (a.Permitted w steps)
  | _, _, [] => isTrue trivial
  | a, w, s :: steps =>
    have := decidablePermitted (a.note w s) (w.step s) steps
    inferInstanceAs (Decidable (a.Permits w s ∧ (a.note w s).Permitted (w.step s) steps))

/-- An end that is not read any more through the table, with the credential that it ended with. -/
def Parted (t : Table) (ps : Pairs) (e : Nat × Place) (credential : Bytes) : Prop :=
  ∃ l, ps.link? e.2 = some l ∧ l.self.credential = credential ∧
    (t.find? e.1 = none ∨ l.self.state = .terminated)

/-- The queue knows the last sender by its id until it is reported. It keeps the credential of the
last one that was. -/
structure Sound (a : Attribution) (t : Table) (q : FairQueue) (ps : Pairs) : Prop where
  links : ps.All fun _ l ↦ l.Sound
  there : ∀ e ∈ a.entered, (ps.link? e.2).isSome = true
  once : ∀ e ∈ a.entered, ∀ e' ∈ a.entered, e.1 = e'.1 ∨ e.2 = e'.2 → e = e'
  known : ∀ id p, t.find? id = some p → (id, p) ∈ a.entered
  sender : ∀ id, a.sender = some id → ∃ p, (id, p) ∈ a.entered
  lastIn : q.lastIn = if a.reported = a.sender then none else a.sender
  unsaved : a.reported = none → q.savedCredential = []
  saved : ∀ id, a.reported = some id → ∃ p, (id, p) ∈ a.entered ∧
    Parted t ps (id, p) q.savedCredential

variable {a : Attribution} {w : Reception} {t : Table} {q q' : FairQueue} {ps : Pairs}
variable {id : Nat} {p : Place}

namespace Sound

theorem empty : Sound {} {} {} {} :=
  ⟨fun p l there ↦ absurd there (by simp [Pairs.link?, Pairs.get?]), nofun, nofun, nofun, nofun,
    rfl, fun _ ↦ rfl, nofun⟩

theorem of_named (h : Sound a t q ps) (same : q'.named = q.named) : Sound a t q' ps := by
  have lastIn : q'.lastIn = q.lastIn := congrArg Prod.fst same
  have saved : q'.savedCredential = q.savedCredential := congrArg Prod.snd same
  exact { h with
    lastIn := lastIn.trans h.lastIn
    unsaved := fun unreported ↦ saved.trans (h.unsaved unreported)
    saved := saved.symm ▸ h.saved }

end Sound

/-- What is parted stays so, unless its owner reads on by itself. -/
theorem Parted.perform {e : Nat × Place} {credential : Bytes} (h : Parted t ps e credential)
    (links : ps.All fun _ l ↦ l.Sound) {r : Place} {c : Call}
    (unread : c = .read → t.find? e.1 = none → r ≠ e.2) :
    Parted t (ps.perform r c) e credential := by
  obtain ⟨l, there, kept, parted⟩ := h
  have sound := links _ _ there
  obtain ⟨l', seen, ⟨rfl, rfl⟩ | ⟨-, rfl⟩ | ⟨-, -, rfl⟩⟩ := Pairs.exists_link?_perform there r c
  · -- the end itself calls
    rcases parted with left | done
    · have calls : c ≠ .read := fun reads ↦ unread reads left rfl
      exact ⟨_, seen, (l.credential_perform calls).trans kept, .inl left⟩
    · obtain ⟨done', same⟩ := sound.perform_of_terminated done c
      exact ⟨_, seen, same.trans kept, .inr done'⟩
  · -- its peer calls, and reaches no further than the queues
    obtain ⟨lane, inbox, beyond⟩ := Link.Reaches.perform l.swap c
    refine ⟨_, seen, ?_, parted.imp_right fun done ↦ ?_⟩
    · exact (congrArg Endpoint.credential beyond).trans kept
    · exact (congrArg Endpoint.state beyond).trans done
  · exact ⟨_, seen, kept, parted⟩

namespace Sound

theorem perform (h : Sound a t q ps) {r : Place} {c : Call}
    (unread : c = .read → ∀ e ∈ a.entered, t.find? e.1 = none → r ≠ e.2) :
    Sound a t q (ps.perform r c) := by
  refine { h with links := ?_, there := ?_, saved := ?_ }
  · apply h.links.act
    · exact fun l _ own ↦ own.perform c
    · exact fun l _ peer ↦ (peer.swap.perform c).swap
  · intro e entered
    obtain ⟨l, there⟩ := Option.isSome_iff_exists.mp (h.there e entered)
    obtain ⟨l', seen, -⟩ := Pairs.exists_link?_perform there r c
    exact seen ▸ rfl
  · intro id reported
    obtain ⟨p, entered, parted⟩ := h.saved id reported
    exact ⟨p, entered, parted.perform h.links fun reads ↦ unread reads _ entered⟩

/-- Reads through the table concern ends that are in it. -/
theorem act (h : Sound a t q ps) {ρ : Type} {f : Link → ρ × Link} {c : Call}
    (same : ∀ l, (f l).2 = l.perform c) (id : Nat) : Sound a t q (t.act id f ps).2 := by
  cases found : t.find? id with
  | none =>
    rw [Table.act_of_none found]
    exact h
  | some r =>
    rw [Table.act_of_some found, Pairs.act_eq_perform same]
    refine h.perform fun _ e entered left ↦ ?_
    rintro rfl
    have same := h.once e entered _ (h.known id e.2 found) (.inr rfl)
    rw [same] at left
    exact Option.some_ne_none _ (found.symm.trans left)

theorem serves {r : Option FairQueue.Received × FairQueue × Pairs} (h : Sound a t q ps)
    (serves : q.Serves t ps r) : Sound (a.received r.1) t r.2.1 r.2.2 := by
  induction serves with
  | rests => exact h
  | @takes q ps id m current read =>
    have after := h.act (c := .read) (f := Link.read) (fun _ ↦ rfl) id
    cases more : m.more with
    | true =>
      simp only [received, more, if_true]
      apply after.of_named
      rw [FairQueue.took, if_pos more]
      rfl
    | false =>
      obtain ⟨p, l, found, there, took, -⟩ := Table.exists_of_act read
      -- who was reported has nothing to give
      have unreported : a.reported ≠ some id := by
        intro reported
        obtain ⟨p', entered, l', seen, -, parted⟩ := h.saved id reported
        obtain ⟨rfl⟩ := h.once _ entered _ (h.known id p found) (.inl rfl)
        obtain rfl := Option.some.inj (there.symm.trans seen)
        rcases parted with left | done
        · exact Option.some_ne_none _ (found.symm.trans left)
        · rw [Link.read_of_terminated done] at took
          contradiction
      have named : (q.took ⟨m, id⟩).named = (some id, q.savedCredential) := by
        rw [FairQueue.took, if_neg (by simp [more])]
        rfl
      have lastIn : (q.took ⟨m, id⟩).lastIn = some id := congrArg Prod.fst named
      have saved : (q.took ⟨m, id⟩).savedCredential = q.savedCredential := congrArg Prod.snd named
      simp only [received, more, Bool.false_eq_true, if_false]
      refine { after with sender := ?_, lastIn := ?_, unsaved := ?_, saved := ?_ }
      · rintro _ ⟨⟩
        exact ⟨p, h.known id p found⟩
      · exact lastIn.trans (if_neg unreported).symm
      · exact fun none ↦ saved.trans (h.unsaved none)
      · exact saved.symm ▸ after.saved
  | @skips q ps id r current nothing rest ih =>
    have after := h.act (c := .read) (f := Link.read) (fun _ ↦ rfl) id
    exact ih (after.of_named rfl)

theorem looks {r : Bool × FairQueue × Pairs} (h : Sound a t q ps) (looks : q.Looks t ps r) :
    Sound a t r.2.1 r.2.2 := by
  induction looks with
  | rests => exact h
  | sees => exact h.act (c := .checkRead) (f := Link.checkRead) (fun _ ↦ rfl) _
  | @skips q ps id r current nothing rest ih =>
    have after := h.act (c := .checkRead) (f := Link.checkRead) (fun _ ↦ rfl) id
    exact ih (after.of_named rfl)

theorem terminated (h : Sound a t q ps) {credential : Bytes}
    (own : ∀ e ∈ a.entered, e.1 = id → ∀ l ∈ ps.link? e.2, l.self.credential = credential ∧
      (t.find? id = none ∨ l.self.state = .terminated)) :
    Sound (if a.sender = some id then { a with reported := some id } else a) t
      (q.terminated id credential) ps := by
  have named := q.named_terminated id credential
  by_cases last : a.sender = some id
  · rw [if_pos last]
    obtain ⟨p, entered⟩ := h.sender id last
    obtain ⟨l, there⟩ := Option.isSome_iff_exists.mp (h.there _ entered)
    obtain ⟨same, parted⟩ := own _ entered rfl l there
    have forgotten : (q.terminated id credential).lastIn = none ∧
        Parted t ps (id, p) (q.terminated id credential).savedCredential := by
      by_cases again : a.reported = some id
      · -- it was reported before, and the queue does not know it any more
        have lastIn : q.lastIn = none := by rw [h.lastIn, again, last, if_pos rfl]
        rw [lastIn, if_neg (Option.some_ne_none id).symm] at named
        obtain ⟨p', entered', parted'⟩ := h.saved id again
        obtain ⟨rfl⟩ := h.once _ entered _ entered' (.inl rfl)
        have kept : (q.terminated id credential).savedCredential = q.savedCredential :=
          congrArg Prod.snd named
        exact ⟨(congrArg Prod.fst named).trans lastIn, kept.symm ▸ parted'⟩
      · have lastIn : q.lastIn = some id := by rw [h.lastIn, last, if_neg again]
        rw [if_pos lastIn] at named
        have saved : (q.terminated id credential).savedCredential = credential :=
          congrArg Prod.snd named
        exact ⟨congrArg Prod.fst named, saved.symm ▸ ⟨l, there, same, parted⟩⟩
    refine { h with lastIn := ?_, unsaved := nofun, saved := ?_ }
    · rw [if_pos last.symm]
      exact forgotten.1
    · rintro _ ⟨⟩
      exact ⟨p, entered, forgotten.2⟩
  · have other : q.lastIn ≠ some id := by
      rw [h.lastIn]
      split
      · exact (Option.some_ne_none id).symm
      · exact last
    rw [if_neg last]
    rw [if_neg other] at named
    exact h.of_named named

theorem build (h : Sound a t q ps) {s : Settings} (pos : 0 < s.chunkSize) :
    Sound a t q { list := ps.list.push (Pair.ofSettings s) } := by
  refine { h with links := ?_, there := ?_, saved := ?_ }
  · exact h.links.push fun side ↦ Pair.ofSettings_sound pos side
  · intro e entered
    obtain ⟨l, there⟩ := Option.isSome_iff_exists.mp (h.there e entered)
    exact Pairs.link?_push there _ ▸ rfl
  · intro id reported
    obtain ⟨p, entered, l, there, parted⟩ := h.saved id reported
    exact ⟨p, entered, l, Pairs.link?_push there _, parted⟩

theorem enter (h : Sound a t q ps) (there : (ps.link? p).isSome = true)
    (new : ∀ e ∈ a.entered, e.1 ≠ id ∧ e.2 ≠ p) :
    Sound { a with entered := (id, p) :: a.entered } (t.insert id p) q ps := by
  have apart {e : Nat × Place} (entered : e ∈ a.entered) : ¬(e.1 = id ∨ e.2 = p) :=
    not_or.mpr (new e entered)
  refine { h with there := ?_, once := ?_, known := ?_, sender := ?_, saved := ?_ }
  · exact List.forall_mem_cons.mpr ⟨there, h.there⟩
  · refine List.forall_mem_cons.mpr ⟨?_, fun e entered ↦ ?_⟩
    · refine List.forall_mem_cons.mpr ⟨fun _ ↦ rfl, fun e entered same ↦ ?_⟩
      exact absurd (same.imp Eq.symm Eq.symm) (apart entered)
    · exact List.forall_mem_cons.mpr ⟨fun same ↦ absurd same (apart entered), h.once e entered⟩
  · intro id' p' found
    rw [Table.find?_insert] at found
    split at found
    · rename_i own
      obtain rfl := Option.some.inj found
      exact own ▸ List.mem_cons_self
    · exact List.mem_cons_of_mem _ (h.known id' p' found)
  · intro id' sent
    obtain ⟨p', entered⟩ := h.sender id' sent
    exact ⟨p', List.mem_cons_of_mem _ entered⟩
  · intro id' reported
    obtain ⟨p', entered, l, seen, same, parted⟩ := h.saved id' reported
    refine ⟨p', List.mem_cons_of_mem _ entered, l, seen, same, parted.imp_left fun left ↦ ?_⟩
    rw [Table.find?_insert, if_neg (new _ entered).1]
    exact left

theorem leave (h : Sound a t q ps) (id : Nat) : Sound a (t.erase id) q ps := by
  refine { h with known := ?_, saved := ?_ }
  · intro id' p' found
    rw [Table.find?_erase] at found
    split at found
    · contradiction
    · exact h.known id' p' found
  · intro id' reported
    obtain ⟨p', entered, l, seen, same, parted⟩ := h.saved id' reported
    refine ⟨p', entered, l, seen, same, parted.imp_left fun left ↦ ?_⟩
    rw [Table.find?_erase]
    split
    · rfl
    · exact left

theorem step (h : Sound a w.table w.queue w.pairs) {s : Reception.Step}
    (permitted : a.Permits w s) :
    Sound (a.note w s) (w.step s).table (w.step s).queue (w.step s).pairs := by
  cases s with
  | floor c =>
    cases c with
    | build s =>
      simp only [Reception.step, Floor.change]
      split
      · rename_i made
        obtain ⟨rfl, pos⟩ := Pair.create_eq_ok made
        exact h.build pos
      · exact h
    | enter id p => exact h.enter permitted.1 permitted.2
    | leave id => exact h.leave id
    | call r c =>
      refine h.perform fun reads e entered _ ↦ ?_
      rcases permitted with unread | apart
      · exact absurd reads unread
      · exact (apart e entered).symm
  | attach id => exact h.of_named rfl
  | activated id => exact h.of_named rfl
  | terminated id credential => exact h.terminated permitted
  | receive => exact h.serves (w.queue.receive_serves w.table w.pairs)
  | hasIn =>
    cases more : w.queue.more with
    | true =>
      rw [Reception.step, FairQueue.hasIn_of_more w.table w.pairs more]
      exact h
    | false => exact h.looks (FairQueue.hasIn_looks w.table w.pairs more)
  | hear id =>
    have after := h.act (c := .process) (f := Link.process) (fun _ ↦ rfl) id
    exact after.of_named (FairQueue.named_heed_foldl _ _ _)

theorem run (h : Sound a w.table w.queue w.pairs) {steps : List Reception.Step}
    (permitted : a.Permitted w steps) :
    Sound (a.notes w steps) (w.run steps).table (w.run steps).queue (w.run steps).pairs := by
  induction steps generalizing a w with
  | nil => exact h
  | cons s steps ih => exact ih (h.step permitted.1) permitted.2

/-- What the queue answers while the sender is in its table, once it was reported, and in between.
-/
theorem credential_eq (h : Sound a t q ps) (sent : a.sender = some id) :
    ∃ p l, (id, p) ∈ a.entered ∧ ps.link? p = some l ∧
      (t.find? id = some p ∨ t.find? id = none) ∧
      (t.find? id = some p ∨ a.reported = some id → q.credential t ps = l.self.credential) ∧
      (t.find? id = none → a.reported ≠ some id → q.credential t ps = q.savedCredential) := by
  obtain ⟨p, entered⟩ := h.sender id sent
  obtain ⟨l, there⟩ := Option.isSome_iff_exists.mp (h.there _ entered)
  have found : t.find? id = some p ∨ t.find? id = none := by
    cases listed : t.find? id with
    | none => exact .inr rfl
    | some p' =>
      obtain ⟨rfl⟩ := h.once _ entered _ (h.known id p' listed) (.inl rfl)
      exact .inl rfl
  have lastIn (unreported : a.reported ≠ some id) : q.lastIn = some id := by
    rw [h.lastIn, sent, if_neg unreported]
  refine ⟨p, l, entered, there, found, fun known ↦ ?_, fun left unreported ↦ ?_⟩
  · by_cases reported : a.reported = some id
    · obtain ⟨p', entered', l', there', same, -⟩ := h.saved id reported
      obtain ⟨rfl⟩ := h.once _ entered _ entered' (.inl rfl)
      obtain rfl := Option.some.inj (there.symm.trans there')
      have forgotten : q.lastIn = none := by rw [h.lastIn, sent, if_pos reported]
      rw [FairQueue.credential, forgotten]
      exact same.symm
    · have seen : t.endpoint? ps id = some l.self := by
        rw [Table.endpoint?, known.resolve_right reported]
        exact Pairs.endpoint?_of_link? there
      rw [FairQueue.credential, lastIn reported, Option.bind_some, seen]
  · have unseen : t.endpoint? ps id = none := by rw [Table.endpoint?, left, Option.bind_none]
    rw [FairQueue.credential, lastIn unreported, Option.bind_some, unseen]

end Sound

/-- The queue names the credential of the end that the last complete message came from, as long as
that end is in the table and again once it was reported terminated. While it is in neither place,
the queue names the sender that it heard reported before, whoever that was. -/
theorem credential_of_sender {steps : List Reception.Step}
    (permitted : ({} : Attribution).Permitted {} steps)
    (sent : (({} : Attribution).notes {} steps).sender = some id) :
    let w := Reception.run {} steps
    let a := ({} : Attribution).notes {} steps
    let named := w.queue.credential w.table w.pairs
    ∃ p l, (id, p) ∈ a.entered ∧ w.pairs.link? p = some l ∧
      (w.table.find? id = some p ∨ w.table.find? id = none) ∧
      (w.table.find? id = some p ∨ a.reported = some id → named = l.self.credential) ∧
      (w.table.find? id = none → a.reported ≠ some id →
        a.reported = none ∧ named = [] ∨ ∃ id' p' l', a.reported = some id' ∧
          (id', p') ∈ a.entered ∧ w.pairs.link? p' = some l' ∧ named = l'.self.credential) := by
  intro w a named
  have sound := Sound.empty.run (w := {}) permitted
  obtain ⟨p, l, entered, there, found, known, unknown⟩ := sound.credential_eq sent
  refine ⟨p, l, entered, there, found, known, fun left unreported ↦ ?_⟩
  have fallen : named = w.queue.savedCredential := unknown left unreported
  cases reported : a.reported with
  | none => exact .inl ⟨rfl, fallen.trans (sound.unsaved reported)⟩
  | some id' =>
    obtain ⟨p', entered', l', there', same, -⟩ := sound.saved id' reported
    exact .inr ⟨id', p', l', rfl, entered', there', fallen.trans same.symm⟩

def twoSenders : List Reception.Step :=
  let speak (pair : Nat) (credential : Bytes) : List Reception.Step :=
    [.floor (.call ⟨pair, .first⟩ (.write { data := credential, flags := Flag.credential })),
      .floor (.call ⟨pair, .first⟩ (.write { data := [1] })), .floor (.call ⟨pair, .first⟩ .flush)]
  [.floor (.build {}), .floor (.build { ids := (3, 4) }), .floor (.enter 2 ⟨0, .second⟩),
    .floor (.enter 4 ⟨1, .second⟩), .attach 2, .attach 4] ++ speak 0 [0x61] ++ speak 1 [0x62] ++
  [.receive, .floor (.leave 2), .terminated 2 [0x61], .receive]

theorem credential_of_sender_left_and_reported :
    let steps := twoSenders ++ [.floor (.leave 4), .terminated 4 [0x62]]
    let w := Reception.run {} steps
    w.queue.credential w.table w.pairs = [0x62] := by
  intro steps w
  have permitted : ({} : Attribution).Permitted {} steps := by decide +kernel
  have sent : (({} : Attribution).notes {} steps).sender = some 4 := by decide +kernel
  have reported : (({} : Attribution).notes {} steps).reported = some 4 := by decide +kernel
  have entered : (({} : Attribution).notes {} steps).entered =
      [(4, ⟨1, .second⟩), (2, ⟨0, .second⟩)] := by decide +kernel
  have ended : ∀ l ∈ w.pairs.link? ⟨1, .second⟩, l.self.credential = [0x62] := by decide +kernel
  obtain ⟨p, l, listed, there, -, known, -⟩ := credential_of_sender permitted sent
  rw [entered] at listed
  obtain rfl : p = ⟨1, .second⟩ := by simpa using listed
  exact (known (.inr reported)).trans (ended l there)

/-- The second sender has left the table and is not reported yet. The queue names the first one, who
left before. -/
theorem credential_of_wrong_sender :
    let steps := twoSenders ++ [.floor (.leave 4)]
    let w := Reception.run {} steps
    let a := ({} : Attribution).notes {} steps
    ({} : Attribution).Permitted {} steps ∧ a.sender = some 4 ∧ (4, ⟨1, .second⟩) ∈ a.entered ∧
      (w.pairs.link? ⟨1, .second⟩).any (·.self.credential = [0x62]) = true ∧
      w.queue.credential w.table w.pairs = [0x61] := by
  decide +kernel

end Attribution

end Conduit.Net
