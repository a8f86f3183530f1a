import Conduit.Proofs.Reception
import Conduit.Proofs.Wakefulness

namespace Conduit.Net

open Pipe

namespace Reception

variable {w : Reception} {t : Table} {q q' : FairQueue} {ps : Pairs} {astray astray' : List Place}
variable {id : Nat} {p : Place} {l l' : Link}

/-- What an owner may do. A pipe that enters the table stays, is attached while it is there, is read
through the queue alone, and what it hears reaches the queue. -/
def Tends (w : Reception) : Step → Prop
  | .floor (.build _) | .receive | .hasIn | .hear _ => True
  | .floor (.enter id p) =>
    id ∉ w.queue.pipes.items.toList ∧ (∀ e ∈ w.table.entries, e.2 ≠ p) ∧
      (w.pairs.link? p).isSome
  | .floor (.call p c) =>
    (∀ e ∈ w.table.entries, e.2 ≠ p) ∨ c ≠ .read ∧ c ≠ .checkRead ∧ c ≠ .process
  | .attach id => (w.table.find? id).isSome
  | .floor (.leave _) | .activated _ | .terminated _ _ => False

instance (w : Reception) : DecidablePred w.Tends
  | .floor (.build _) | .receive | .hasIn | .hear _ => isTrue trivial
  | .floor (.enter id p) => inferInstanceAs (Decidable (id ∉ w.queue.pipes.items.toList ∧
      (∀ e ∈ w.table.entries, e.2 ≠ p) ∧ (w.pairs.link? p).isSome = true))
  | .floor (.call p c) => inferInstanceAs (Decidable
      ((∀ e ∈ w.table.entries, e.2 ≠ p) ∨ c ≠ .read ∧ c ≠ .checkRead ∧ c ≠ .process))
  | .attach id => inferInstanceAs (Decidable ((w.table.find? id).isSome = true))
  | .floor (.leave _) | .activated _ | .terminated _ _ => isFalse not_false

def Tended : Reception → List Step → Prop
  | _, [] => True
  | w, s :: steps => w.Tends s ∧ (w.step s).Tended steps

instance decidableTended : (w : Reception) → (steps : List Step) → Decidable (w.Tended steps)
  | _, [] => isTrue trivial
  | w, s :: steps =>
    have := decidableTended (w.step s) steps
    inferInstanceAs (Decidable (w.Tends s ∧ (w.step s).Tended steps))

def strays (w : Reception) : Step → List Place
  | .floor (.call p .hiccup) =>
    if (∃ id ∈ w.queue.pipes.inactive, w.table.find? id = some p) ∧
        (w.pairs.link? p).any (·.self.state = .active) then [p]
    else []
  | _ => []

def strayed : Reception → List Step → List Place
  | _, [] => []
  | w, s :: steps => w.strays s ++ (w.step s).strayed steps

structure Attends (t : Table) (q : FairQueue) (ps : Pairs) (astray : List Place) : Prop where
  links : ps.All fun _ l ↦ l.Sound ∧ l.Wakeful
  pipes : q.pipes.Sound
  known : ∀ id ∈ q.pipes.items.toList, (t.find? id).isSome
  there : ∀ id p, t.find? id = some p → (ps.link? p).isSome
  once : ∀ id id' p, t.find? id = some p → t.find? id' = some p → id = id'
  aside : ∀ id p l, id ∈ q.pipes.inactive → t.find? id = some p → ps.link? p = some l →
    l.self.state.reads = true → (l.self.inActive = true ↔ p ∈ astray)
  gone : ∀ p ∈ astray, ∃ id ∈ q.pipes.inactive, t.find? id = some p

namespace Attends

theorem empty : Attends {} {} {} [] where
  links := fun _ _ there ↦ absurd there (by simp [Pairs.link?, Pairs.get?])
  pipes := ActiveSet.sound_empty
  known := by simp [ActiveSet.empty]
  there := nofun
  once := nofun
  aside := by simp [ActiveSet.inactive, ActiveSet.empty]
  gone := nofun

theorem notMem_strayed (h : Attends t q ps astray) (found : t.find? id = some p)
    (waits : id ∉ q.pipes.inactive) : p ∉ astray := by
  intro stray
  obtain ⟨id', aside, found'⟩ := h.gone p stray
  exact waits (h.once id id' p found found' ▸ aside)

/-- What an end does changes its own pipe, and may change what the queue thinks of it. -/
theorem put (h : Attends t q ps astray) (there : ps.link? p = some l) (sound : l'.Sound)
    (wakeful : l'.Wakeful) (spares : l.Spares l') (pipes : q'.pipes.Sound)
    (items : ∀ id ∈ q'.pipes.items.toList, id ∈ q.pipes.items.toList)
    (kept : ∀ id, t.find? id ≠ some p → (id ∈ q'.pipes.inactive ↔ id ∈ q.pipes.inactive))
    (others : ∀ r ≠ p, r ∈ astray' ↔ r ∈ astray)
    (here : ∀ id ∈ q'.pipes.inactive, t.find? id = some p → l'.self.state.reads = true →
      (l'.self.inActive = true ↔ p ∈ astray'))
    (gone : p ∈ astray' → ∃ id ∈ q'.pipes.inactive, t.find? id = some p) :
    Attends t q' (ps.put p l') astray' := by
  have known : (ps.link? p).isSome := there ▸ rfl
  have beyond : ps.link? p.other = some l.swap := by rw [Pairs.link?_other, there]; rfl
  have apart {id : Nat} {r : Place} (found : t.find? id = some r) (other : r ≠ p) :
      t.find? id ≠ some p := by
    rw [found]
    exact fun same ↦ other (Option.some.inj same)
  refine ⟨?_, pipes, fun id hid ↦ h.known id (items id hid), ?_, h.once, ?_, ?_⟩
  · apply h.links.put
    · exact ⟨sound, wakeful⟩
    · exact ⟨sound.swap, spares.wakeful (h.links p.other _ beyond).2⟩
  · intro id r found
    by_cases own : r = p
    · rw [own, Pairs.link?_put known]
      rfl
    · by_cases peer : r = p.other
      · rw [peer, Pairs.link?_put_other known]
        rfl
      · rw [Pairs.link?_put_of_ne own peer]
        exact h.there id r found
  · intro id r k aside found seen reads
    by_cases own : r = p
    · subst own
      rw [Pairs.link?_put known] at seen
      obtain rfl := Option.some.inj seen
      exact here id aside found reads
    · have before := (kept id (apart found own)).mp aside
      rw [others r own]
      by_cases peer : r = p.other
      · subst peer
        rw [Pairs.link?_put_other known] at seen
        obtain rfl := Option.some.inj seen
        rw [Link.swap_self] at reads ⊢
        rw [spares.inActive]
        exact h.aside id _ l.swap before found beyond (spares.state ▸ reads)
      · rw [Pairs.link?_put_of_ne own peer] at seen
        exact h.aside id r k before found seen reads
  · intro r stray
    by_cases own : r = p
    · exact own ▸ gone (own ▸ stray)
    · obtain ⟨id, aside, found⟩ := h.gone r ((others r own).mp stray)
      exact ⟨id, (kept id (apart found own)).mpr aside, found⟩

theorem congr (h : Attends t q ps astray) (same : q'.pipes = q.pipes) :
    Attends t q' ps astray :=
  { h with
    pipes := same ▸ h.pipes
    known := same ▸ h.known
    aside := same ▸ h.aside
    gone := same ▸ h.gone }

/-- The queue looks at its current pipe, and may set it aside if there is nothing to read. -/
theorem look (h : Attends t q ps astray) (current : q.current? = some id) {ρ : Type}
    {f : Link → ρ × Link} (nothing : ρ → Prop)
    (reads : ∀ l, l.Sound → l.Reads (nothing (f l).1) (f l).2 ∧ (f l).2.Sound) :
    Attends t q (t.act id f ps).2 astray ∧ ∃ x, (t.act id f ps).1 = some x ∧
      (nothing x → Attends t q.deactivate (t.act id f ps).2 astray) := by
  obtain ⟨p, found⟩ := Option.isSome_iff_exists.mp (h.known id (FairQueue.mem_of_current? current))
  obtain ⟨l, there⟩ := Option.isSome_iff_exists.mp (h.there id p found)
  have active := ActiveSet.mem_active_of_current? current
  have waits : id ∉ q.pipes.inactive := fun aside ↦ (h.pipes.mem_inactive_iff.mp aside).2 active
  have heeded : p ∉ astray := h.notMem_strayed found waits
  obtain ⟨sound, wakeful⟩ := h.links p l there
  obtain ⟨reads, sound'⟩ := reads l sound
  rw [Table.act_of_some found, Pairs.act_of_some there]
  refine ⟨?_, _, rfl, fun none ↦ ?_⟩
  · apply h.put there sound' (reads.wakeful wakeful) reads.toSpares h.pipes
    · exact fun _ there ↦ there
    · exact fun _ _ ↦ Iff.rfl
    · exact fun _ _ ↦ Iff.rfl
    · intro id' aside found'
      exact absurd (h.once id id' p found found' ▸ aside) waits
    · exact fun stray ↦ absurd stray heeded
  · obtain ⟨pipes, perm, others⟩ := h.pipes.deactivateAt current
    apply h.put there sound' (reads.wakeful wakeful) reads.toSpares
    · exact q.pipes_deactivate ▸ pipes
    · rw [q.pipes_deactivate]
      exact fun y hy ↦ perm.mem_iff.mp hy
    · intro id' apart
      have other : id' ≠ id := fun same ↦ apart (same ▸ found)
      rw [q.pipes_deactivate, pipes.mem_inactive_iff, h.pipes.mem_inactive_iff, perm.mem_iff,
        others, and_iff_left other]
    · exact fun _ _ ↦ Iff.rfl
    · intro _ _ _ still
      exact iff_of_false (ne_true_of_eq_false (reads.idle none still)) heeded
    · exact fun stray ↦ absurd stray heeded

theorem serves {r : Option FairQueue.Received × FairQueue × Pairs} (h : Attends t q ps astray)
    (serves : q.Serves t ps r) : Attends t r.2.1 r.2.2 astray := by
  have reads (l : Link) (sound : l.Sound) : l.Reads (l.read.1 = none) l.read.2 ∧ l.read.2.Sound :=
    ⟨sound.reads_read, sound.perform .read⟩
  induction serves with
  | rests => exact h
  | takes current =>
    obtain ⟨stays, -⟩ := h.look current (· = none) reads
    exact stays.congr (FairQueue.pipes_took _ _)
  | skips current nothing _ ih =>
    obtain ⟨-, x, answer, leaves⟩ := h.look current (· = none) reads
    rw [answer] at nothing
    exact ih ((leaves nothing).congr (by simp only [FairQueue.pipes_deactivate]))

theorem looks {r : Bool × FairQueue × Pairs} (h : Attends t q ps astray)
    (looks : q.Looks t ps r) : Attends t r.2.1 r.2.2 astray := by
  have reads (l : Link) (sound : l.Sound) :
      l.Reads (l.checkRead.1 = false) l.checkRead.2 ∧ l.checkRead.2.Sound :=
    ⟨sound.reads_checkRead, sound.perform .checkRead⟩
  induction looks with
  | rests => exact h
  | sees current => exact (h.look current (· = false) reads).1
  | skips current nothing _ ih =>
    obtain ⟨-, x, answer, leaves⟩ := h.look current (· = false) reads
    rw [answer] at nothing
    exact ih (leaves (by simpa using nothing))

theorem attach (h : Attends t q ps astray) (there : (t.find? id).isSome) :
    Attends t (q.attach id) ps astray := by
  by_cases old : id ∈ q.pipes.items.toList
  · exact h.congr (ActiveSet.pushActive_of_mem old)
  · obtain ⟨pipes, perm, active, -⟩ := h.pipes.pushActive old
    have same : ∀ y, y ∈ (q.attach id).pipes.inactive ↔ y ∈ q.pipes.inactive := by
      intro y
      rw [FairQueue.pipes_attach, pipes.mem_inactive_iff, h.pipes.mem_inactive_iff, perm.mem_iff,
        active, List.mem_append, List.mem_singleton]
      have fresh : y = id → y ∉ q.pipes.items.toList := fun same ↦ same ▸ old
      tauto
    refine { h with pipes := pipes, known := ?_, aside := ?_, gone := ?_ }
    · intro y hy
      rcases List.mem_append.mp (perm.mem_iff.mp hy) with hy | hy
      · exact h.known y hy
      · exact List.mem_singleton.mp hy ▸ there
    · intro y p l aside
      exact h.aside y p l ((same y).mp aside)
    · intro p stray
      obtain ⟨y, aside, found⟩ := h.gone p stray
      exact ⟨y, (same y).mpr aside, found⟩

theorem hear (h : Attends t q ps astray) (found : t.find? id = some p)
    (there : ps.link? p = some l) :
    Attends t (l.process.1.events.foldl (FairQueue.heed id) q) (ps.put p l.process.2) astray := by
  obtain ⟨sound, wakeful⟩ := h.links p l there
  have hears := sound.hears_process
  obtain ⟨pipes, perm, active⟩ := FairQueue.heed_foldl h.pipes id l.process.1.events
  have aside (y : Nat) : y ∈ (l.process.1.events.foldl (FairQueue.heed id) q).pipes.inactive ↔
      y ∈ q.pipes.inactive ∧ ¬(y = id ∧ .readActivated ∈ l.process.1.events) := by
    rw [pipes.mem_inactive_iff, h.pipes.mem_inactive_iff, perm.mem_iff, active]
    have same : y = id → (y ∈ q.pipes.items.toList ↔ id ∈ q.pipes.items.toList) :=
      fun same ↦ same ▸ Iff.rfl
    tauto
  have heard : l.process.2.Sound := sound.perform .process
  apply h.put there heard (hears.wakeful wakeful) hears.toSpares pipes
  · exact fun y hy ↦ perm.mem_iff.mp hy
  · intro y apart
    rw [aside, and_iff_left]
    rintro ⟨rfl, -⟩
    exact apart found
  · exact fun _ _ ↦ Iff.rfl
  · intro y idle found' reads
    obtain ⟨before, silent⟩ := (aside y).mp idle
    have unwoken : .readActivated ∉ l.process.1.events :=
      fun woken ↦ silent ⟨h.once y id p found' found, woken⟩
    rw [hears.active reads, or_iff_left unwoken]
    exact h.aside y p l before found' there (hears.reads reads)
  · intro stray
    obtain ⟨y, before, found'⟩ := h.gone p stray
    refine ⟨y, (aside y).mpr ⟨before, ?_⟩, found'⟩
    rintro ⟨-, woken⟩
    -- an end that strayed counts as awake, and is woken by no signal
    obtain ⟨idle, reads⟩ := hears.woken woken
    have active := (h.aside y p l before found' there reads).mpr stray
    exact Bool.false_ne_true (idle.symm.trans active)

/-- A call that neither reads nor hears leaves an end asleep, but for a hiccup. -/
theorem call (h : Attends t q ps astray) {c : Call}
    (writes : (∀ id, t.find? id ≠ some p) ∨ c ≠ .read ∧ c ≠ .checkRead ∧ c ≠ .process)
    (stray : p ∈ astray' ↔ p ∈ astray ∨ c = .hiccup ∧
      (∃ id ∈ q.pipes.inactive, t.find? id = some p) ∧
        (ps.link? p).any (·.self.state = .active) = true)
    (others : ∀ r ≠ p, r ∈ astray' ↔ r ∈ astray) :
    Attends t q (ps.perform p c) astray' := by
  match there : ps.link? p with
  | none =>
    have same : ∀ r, r ∈ astray' ↔ r ∈ astray := by
      intro r
      by_cases own : r = p
      · rw [own, stray, there]
        simp
      · exact others r own
    rw [Pairs.perform, Pairs.act_of_none there]
    refine { h with aside := ?_, gone := ?_ }
    · intro id r l aside found seen reads
      rw [same]
      exact h.aside id r l aside found seen reads
    · intro r hr
      exact h.gone r ((same r).mp hr)
  | some l =>
    obtain ⟨sound, wakeful⟩ := h.links p l there
    rw [Pairs.perform, Pairs.act_of_some there]
    apply h.put there (sound.perform c) (sound.wakeful_perform c wakeful)
      (Link.Spares.perform l c) h.pipes
    · exact fun _ there ↦ there
    · exact fun _ _ ↦ Iff.rfl
    · exact others
    · intro id aside found reads
      have reader := writes.resolve_left fun outside ↦ outside id found
      have held := h.aside id p l aside found there
      by_cases hiccup : c = .hiccup
      · subst hiccup
        rw [stray, there]
        simp only [Option.any_some, decide_eq_true_eq, true_and]
        by_cases active : l.self.state = .active
        · have opened := sound.inOpen (by rw [active]; rfl)
          have woken : (l.perform .hiccup).self.inActive = true := by
            rw [Link.perform, Link.hiccup, if_pos ⟨active, opened⟩]
            rfl
          exact iff_of_true woken (.inr ⟨⟨id, aside, found⟩, active⟩)
        · have still : l.perform .hiccup = l := by
            rw [Link.perform, Link.hiccup, if_neg fun both ↦ active both.1]
          rw [still] at reads ⊢
          rw [held reads, or_iff_left fun both ↦ active both.2]
      · have writes := Link.Writes.perform l ⟨reader.1, reader.2.1, reader.2.2, hiccup⟩
        rw [writes.idle, held (writes.reads reads), stray, or_iff_left fun both ↦ hiccup both.1]
    · intro strays
      rcases stray.mp strays with before | ⟨-, set, -⟩
      · exact h.gone p before
      · exact set

theorem enter (h : Attends t q ps astray) (unknown : id ∉ q.pipes.items.toList)
    (new : ∀ id, t.find? id ≠ some p) (there : (ps.link? p).isSome) :
    Attends (t.insert id p) q ps astray := by
  have other {y : Nat} (hy : y ∈ q.pipes.items.toList) : y ≠ id := fun same ↦ unknown (same ▸ hy)
  have items {y : Nat} (hy : y ∈ q.pipes.inactive) : y ∈ q.pipes.items.toList :=
    List.mem_of_mem_drop hy
  refine { h with known := ?_, there := ?_, once := ?_, aside := ?_, gone := ?_ }
  · intro y hy
    rw [Table.find?_insert, if_neg (other hy)]
    exact h.known y hy
  · intro y r found
    rw [Table.find?_insert] at found
    split at found
    · exact Option.some.inj found ▸ there
    · exact h.there y r found
  · intro y y' r found found'
    rw [Table.find?_insert] at found found'
    split at found <;> split at found' <;> rename_i same same'
    · exact same.trans same'.symm
    · exact absurd (Option.some.inj found ▸ found') (new y')
    · exact absurd (Option.some.inj found' ▸ found) (new y)
    · exact h.once y y' r found found'
  · intro y r l aside found
    rw [Table.find?_insert, if_neg (other (items aside))] at found
    exact h.aside y r l aside found
  · intro r stray
    obtain ⟨y, aside, found⟩ := h.gone r stray
    refine ⟨y, aside, ?_⟩
    rw [Table.find?_insert, if_neg (other (items aside))]
    exact found

theorem build (h : Attends t q ps astray) {s : Settings} {pair : Pair}
    (made : Pair.create s = .ok pair) :
    Attends t q ⟨ps.list.push pair⟩ astray := by
  obtain ⟨rfl, pos⟩ := Pair.create_eq_ok made
  refine { h with links := ?_, there := ?_, aside := ?_ }
  · apply h.links.push
    intro side
    refine ⟨Pair.ofSettings_sound pos side, ?_⟩
    intro idle
    cases side <;> exact absurd idle nofun
  · intro id p found
    obtain ⟨l, there⟩ := Option.isSome_iff_exists.mp (h.there id p found)
    rw [Pairs.link?_push there]
    rfl
  · intro id p l aside found there
    obtain ⟨k, before⟩ := Option.isSome_iff_exists.mp (h.there id p found)
    rw [Pairs.link?_push before] at there
    exact Option.some.inj there ▸ h.aside id p k aside found before

end Attends

theorem mem_strays {c : Call} {r : Place} : r ∈ w.strays (.floor (.call p c)) ↔
    r = p ∧ c = .hiccup ∧ (∃ id ∈ w.queue.pipes.inactive, w.table.find? id = some p) ∧
      (w.pairs.link? p).any (·.self.state = .active) = true := by
  unfold strays
  split
  · rename_i hiccup
    obtain ⟨rfl, rfl⟩ := Change.call.inj (Step.floor.inj hiccup)
    split
    · rename_i both
      simp [both]
    · rename_i short
      simp only [List.not_mem_nil, false_iff]
      exact fun all ↦ short all.2.2
  · rename_i other
    simp only [List.not_mem_nil, false_iff]
    rintro ⟨-, rfl, -⟩
    exact other p rfl

theorem Attends.step (h : Attends w.table w.queue w.pairs astray) {s : Step} (tends : w.Tends s) :
    Attends (w.step s).table (w.step s).queue (w.step s).pairs (astray ++ w.strays s) := by
  have calm (silent : w.strays s = []) (h' : Attends (w.step s).table (w.step s).queue
      (w.step s).pairs astray) : Attends (w.step s).table (w.step s).queue (w.step s).pairs
        (astray ++ w.strays s) := by
    rwa [silent, List.append_nil]
  cases s with
  | floor c =>
    cases c with
    | build s =>
      apply calm rfl
      simp only [Reception.step, Floor.change]
      split
      · rename_i made
        exact h.build made
      · exact h
    | enter id p =>
      obtain ⟨unknown, new, there⟩ := tends
      apply calm rfl
      apply h.enter unknown _ there
      intro id' found
      exact new _ (Table.mem_of_find? found) rfl
    | leave id => exact tends.elim
    | call p c =>
      apply h.call
      · apply tends.imp_left
        intro outside id' found
        exact outside _ (Table.mem_of_find? found) rfl
      · rw [List.mem_append, mem_strays, and_iff_right rfl]
      · intro r other
        rw [List.mem_append, mem_strays, or_iff_left fun all ↦ other all.1]
  | attach id => exact calm rfl (h.attach tends)
  | activated id => exact tends.elim
  | terminated id credential => exact tends.elim
  | receive => exact calm rfl (h.serves (w.queue.receive_serves w.table w.pairs))
  | hasIn =>
    apply calm rfl
    cases more : w.queue.more with
    | true =>
      rw [Reception.step, FairQueue.hasIn_of_more w.table w.pairs more]
      exact h
    | false => exact h.looks (FairQueue.hasIn_looks w.table w.pairs more)
  | hear id =>
    apply calm rfl
    simp only [Reception.step]
    match found : w.table.find? id with
    | none =>
      rw [Table.act_of_none found]
      exact h
    | some p =>
      match there : w.pairs.link? p with
      | none =>
        rw [Table.act_of_some found, Pairs.act_of_none there]
        exact h
      | some l =>
        rw [Table.act_of_some found, Pairs.act_of_some there]
        exact h.hear found there

theorem Attends.run (h : Attends w.table w.queue w.pairs astray) {steps : List Step}
    (tended : w.Tended steps) : Attends (w.run steps).table (w.run steps).queue (w.run steps).pairs
      (astray ++ w.strayed steps) := by
  induction steps generalizing w astray with
  | nil =>
    rw [strayed, List.append_nil]
    exact h
  | cons s steps ih =>
    have later := ih (h.step tended.1) tended.2
    rwa [List.append_assoc] at later

/-- A pipe that the queue set aside and that has something to read waits to hear of it, exactly if
its own end did not hiccup since. -/
theorem told_iff_not_strayed {steps : List Step} (tended : ({} : Reception).Tended steps) {id : Nat}
    {p : Place} {l : Link} (aside : id ∈ (run {} steps).queue.pipes.inactive)
    (found : (run {} steps).table.find? id = some p)
    (there : (run {} steps).pairs.link? p = some l) (reads : l.self.state.reads = true)
    (some : l.inbound.readable ≠ []) :
    .activateRead ∈ l.self.inbox.contents ∧ l.self.inActive = false ↔
      p ∉ ({} : Reception).strayed steps := by
  have attends := Attends.empty.run (w := {}) tended
  obtain ⟨sound, wakeful⟩ := attends.links p l there
  have active := attends.aside id p l aside found there reads
  rw [List.nil_append] at active
  constructor
  · rintro ⟨-, idle⟩ stray
    exact Bool.false_ne_true (idle.symm.trans (active.mpr stray))
  · intro heeded
    have idle : l.self.inActive = false := Bool.eq_false_iff.mpr (mt active.mp heeded)
    exact ⟨sound.told wakeful idle reads some, idle⟩

theorem told_of_frame_behind_sleep :
    let steps : List Step := [.floor (.build {}), .floor (.enter 2 ⟨0, .second⟩), .attach 2,
      .receive, .floor (.call ⟨0, .first⟩ (.write {})), .floor (.call ⟨0, .first⟩ .flush)]
    ((run {} steps).pairs.link? ⟨0, .second⟩).any
      (.activateRead ∈ ·.self.inbox.contents) = true := by
  intro steps
  have tended : ({} : Reception).Tended steps := by decide +kernel
  have aside : 2 ∈ (run {} steps).queue.pipes.inactive := by decide +kernel
  have found : (run {} steps).table.find? 2 = some ⟨0, .second⟩ := by decide +kernel
  have ready : ((run {} steps).pairs.link? ⟨0, .second⟩).any
      (fun l ↦ l.self.state.reads = true ∧ l.inbound.readable ≠ []) = true := by decide +kernel
  match there : (run {} steps).pairs.link? ⟨0, .second⟩ with
  | none =>
    rw [there] at ready
    exact absurd ready Bool.false_ne_true
  | some l =>
    rw [there] at ready
    obtain ⟨reads, some⟩ := of_decide_eq_true ready
    have heeded :=
      (told_iff_not_strayed tended aside found there reads some).mpr (by decide +kernel)
    exact decide_eq_true heeded.1

/-- The end hiccups while its queue has it set aside. Its fresh queue takes it for awake, and so
does the end itself: no signal comes, and the frame stays unread. -/
theorem forgotten_after_own_hiccup :
    let steps : List Step := [.floor (.build {}), .floor (.enter 2 ⟨0, .second⟩), .attach 2,
      .receive, .floor (.call ⟨0, .second⟩ .hiccup), .floor (.call ⟨0, .first⟩ .process),
      .floor (.call ⟨0, .first⟩ (.write {})), .floor (.call ⟨0, .first⟩ .flush)]
    let w := run {} steps
    ({} : Reception).Tended steps ∧ 2 ∈ w.queue.pipes.inactive ∧
      w.table.find? 2 = some ⟨0, .second⟩ ∧
      (w.pairs.link? ⟨0, .second⟩).any (fun l ↦ l.self.state = .active ∧
        l.inbound.readable = [.frame {}] ∧ .activateRead ∉ l.self.inbox.contents) = true ∧
      (w.queue.receive w.table w.pairs).1.isNone = true := by
  decide +kernel

end Reception

end Conduit.Net
