import Conduit.Proofs.Dispatch
import Mathlib.Data.List.Flatten

namespace Conduit.Net

open Pipe

namespace Dispatch

variable {ends : Place → Bool} {w w' : Dispatch} {b : LoadBalancer} {ps : Pairs} {id : Nat}
variable {p q : Place} {l : Link} {m : Message} {s : Sent} {c : Call}

/-- The first frames of a message that this end holds. -/
def part (w : Dispatch) (p : Place) : List Message :=
  if w.balancer.writing?.any (w.table.find? · = some p) = true then w.pending else []

def Live (w : Dispatch) (p : Place) : Prop :=
  (∀ e ∈ w.entered, e.2 ≠ p) ∨ ∃ id, w.table.find? id = some p

def Holds (ends : Place → Bool) (w : Dispatch) : Prop :=
  w.pairs.All fun p l ↦ l.Sound ∧ (ends p = true →
    l.Consigned (w.sentTo p) (w.part p) (w.readBy p.other) (w.Live p))

structure Keeps (ends : Place → Bool) (w : Dispatch) : Prop where
  holds : w.Holds ends
  noted : w.Noted
  pipes : w.balancer.pipes.Sound
  distinct : ∀ e ∈ w.entered, ∀ e' ∈ w.entered, e.1 = e'.1 ∨ e.2 = e'.2 → e = e'
  entries : ∀ e ∈ w.entered, ends e.2 = true ∧ (w.pairs.link? e.2).isSome
  readers : ∀ x ∈ w.taken, (w.pairs.link? x.1).isSome
  idle : w.balancer.more = false → w.balancer.dropping = false → w.pending = []
  begun : w.balancer.more = true → w.balancer.dropping = false →
    ∃ e ∈ w.entered, w.balancer.current? = some e.1

theorem part_of_idle (idle : w.balancer.writing? = none) (p : Place) : w.part p = [] := by
  simp [part, idle]

theorem part_of_writing (writing : w.balancer.writing? = some id) (p : Place) :
    w.part p = if w.table.find? id = some p then w.pending else [] := by
  simp [part, writing]

theorem part_congr (same : (w'.balancer, w'.pending) = (w.balancer, w.pending))
    (found : ∀ id, w.balancer.writing? = some id →
      (w'.table.find? id = some q ↔ w.table.find? id = some q)) : w'.part q = w.part q := by
  simp only [Prod.mk.injEq] at same
  rw [part, part, same.1, same.2]
  match writing : w.balancer.writing? with
  | none => rfl
  | some id => simp [found id writing]

theorem sentTo_concat {ms : List Message} {e : Option (Nat × Place)}
    (sent : w'.sent = w.sent ++ [(ms, e)]) (q : Place) :
    w'.sentTo q = w.sentTo q ++ if e.map Prod.snd = some q then ms else [] := by
  rw [sentTo, sent, List.filter_append, List.flatMap_append, ← sentTo]
  congr 1
  split <;> rename_i here
  · simp [here]
  · simp [here]

theorem sentTo_offer (unplaced : w.table.placed s = none) (q : Place) :
    (w.offer m (s, b, ps)).sentTo q = w.sentTo q := by
  by_cases answered : s = .refused .wouldBlock
  · rw [answered]
    rfl
  · cases more : m.more with
    | true =>
      rw [offer_more answered more]
      rfl
    | false =>
      rw [offer_last answered more, sentTo_concat (w := w) rfl, unplaced]
      exact List.append_nil _

theorem part_offer (idle : b.writing? = none) (q : Place) : (w.offer m (s, b, ps)).part q = [] := by
  apply part_of_idle
  rw [(w.offer_floor m _).2]
  exact idle

/-- The balancer makes an end that it writes to do these calls. -/
theorem Holds.put (h : w.Holds ends) (there : w.pairs.link? p = some l) (cs : List Call)
    (works : ∀ c ∈ cs, c ≠ .hiccup ∧ c ≠ .read)
    (pairs : w'.pairs = w.pairs.put p (cs.foldl Link.perform l))
    (same : (w'.table, w'.entered, w'.taken) = (w.table, w.entered, w.taken))
    (others : ∀ q ≠ p, w'.sentTo q = w.sentTo q ∧ w'.part q = w.part q)
    (own : l.Sound → l.Consigned (w.sentTo p) (w.part p) (w.readBy p.other) (w.Live p) →
      (cs.foldl Link.perform l).Consigned (w'.sentTo p) (w'.part p) (w.readBy p.other)
        (w.Live p)) : w'.Holds ends := by
  simp only [Prod.mk.injEq] at same
  obtain ⟨table, entered, taken⟩ := same
  have live : w'.Live = w.Live := by
    funext q
    simp only [Live, table, entered]
  have read : w'.readBy = w.readBy := by
    funext q
    simp only [readBy, taken]
  have beyond : w.pairs.link? p.other = some l.swap := by
    rw [Pairs.link?_other, there]
    rfl
  obtain ⟨before, mine⟩ := h p l there
  obtain ⟨-, theirs⟩ := h p.other _ beyond
  rw [Holds, pairs, live, read]
  refine Pairs.All.put_of h (there ▸ rfl) ?_ ?_ ?_
  · exact ⟨Link.Sound.performAll before cs, fun end' ↦ own before (mine end')⟩
  · refine ⟨(Link.Sound.performAll before cs).swap, fun end' ↦ ?_⟩
    obtain ⟨sent, part⟩ := others _ p.other_ne
    rw [sent, part]
    exact (theirs end').peer_works before works
  · intro q k own' _ kept
    obtain ⟨sent, part⟩ := others q own'
    rw [sent, part]
    exact kept

namespace Keeps

/-- The message that is being sent lies with the current end, as far as it was put anywhere. -/
theorem part_at (h : w.Keeps ends) (keeps : w.balancer.dropping = false)
    (current : w.balancer.current? = some id) (p : Place) :
    w.part p = if w.table.find? id = some p then w.pending else [] := by
  cases more : w.balancer.more with
  | false =>
    rw [part_of_idle (w.balancer.writing?_of_not_more more), h.idle more keeps, ite_self]
  | true =>
    apply part_of_writing
    rw [LoadBalancer.writing?, if_pos ⟨more, keeps⟩, current]

theorem live_at (found : w.table.find? id = some p) : w.Live p := .inr ⟨id, found⟩

/-- The balancer may come to think otherwise of ends that hold no part of a message. -/
theorem rebalance (h : w.Keeps ends) (pipes : b.pipes.Sound)
    (part : ∀ p l, w.pairs.link? p = some l → l.self.state = .active →
      { w with balancer := b }.part p = w.part p)
    (idle : b.more = false → b.dropping = false → w.pending = [])
    (begun : b.more = true → b.dropping = false → ∃ e ∈ w.entered, b.current? = some e.1) :
    { w with balancer := b }.Keeps ends := by
  have noted : { w with balancer := b }.Noted :=
    ⟨h.noted.messages, h.noted.pending, h.noted.accepted, h.noted.known⟩
  refine ⟨Pairs.All.imp h.holds ?_, noted, pipes, h.distinct, h.entries, h.readers, idle, begun⟩
  rintro p l there ⟨sound, held⟩
  refine ⟨sound, fun end' ↦ (held end').weaken ?_⟩
  intro live active
  exact ⟨live, part p l there active⟩

theorem deactivate (h : w.Keeps ends) (more : w.balancer.more = false)
    (current : w.balancer.current? = some id) :
    { w with balancer := w.balancer.deactivate }.Keeps ends := by
  have more' : w.balancer.deactivate.more = false := more
  apply h.rebalance
  · rw [LoadBalancer.pipes_deactivate]
    exact (h.pipes.deactivateAt current).1
  · intro p l _ _
    have idle := part_of_idle (w := { w with balancer := w.balancer.deactivate })
      (LoadBalancer.writing?_of_not_more more') p
    rw [idle, part_of_idle (LoadBalancer.writing?_of_not_more more)]
  · exact fun _ ↦ h.idle more
  · intro begun
    exact absurd (more'.symm.trans begun) Bool.false_ne_true

/-- What comes of a frame that is not refused for want of room. -/
theorem answer (h : w.Keeps ends) (plain : m.isCredential = false)
    (answered : s ≠ .refused .wouldBlock) (holds : (w.offer m (s, b, ps)).Holds ends)
    (isSome : ∀ q, (ps.link? q).isSome = (w.pairs.link? q).isSome) (pipes : b.pipes.Sound)
    (idle : b.more = false → b.dropping = false → m.more = false)
    (begun : b.more = true → b.dropping = false → ∃ e ∈ w.entered, b.current? = some e.1) :
    (w.offer m (s, b, ps)).Keeps ends := by
  have noted := h.noted.offer plain s b ps
  have entries : ∀ e ∈ w.entered, ends e.2 = true ∧ (ps.link? e.2).isSome := by
    intro e he
    rw [isSome]
    exact h.entries e he
  have readers : ∀ x ∈ w.taken, (ps.link? x.1).isSome := by
    intro x hx
    rw [isSome]
    exact h.readers x hx
  cases more : m.more with
  | true =>
    rw [offer_more answered more] at holds noted ⊢
    refine ⟨holds, noted, pipes, h.distinct, entries, readers, ?_, begun⟩
    intro done keeps
    exact absurd ((idle done keeps).symm.trans more) Bool.false_ne_true
  | false =>
    rw [offer_last answered more] at holds noted ⊢
    exact ⟨holds, noted, pipes, h.distinct, entries, readers, fun _ _ ↦ rfl, begun⟩

theorem wouldBlock (h : w.Keeps ends) (plain : m.isCredential = false) :
    (w.offer m (.refused .wouldBlock, w.balancer, w.pairs)).Keeps ends :=
  { h with noted := h.noted.offer plain _ _ _ }

theorem placed_more (h : w.Keeps ends) (plain : m.isCredential = false) (more : m.more = true)
    (keeps : w.balancer.dropping = false) (current : w.balancer.current? = some id)
    (found : w.table.find? id = some p) (there : w.pairs.link? p = some l)
    (accepted : (l.write m).1 = true) :
    (w.offer m (.placed id, { w.balancer with more := m.more },
      w.pairs.put p (l.write m).2)).Keeps ends := by
  have writing : { w.balancer with more := m.more }.writing? = some id := by
    rw [LoadBalancer.writing?, if_pos ⟨more, keeps⟩]
    exact current
  refine h.answer (s := .placed id) plain (by simp) ?_ ?_ h.pipes ?_ ?_
  · rw [offer_more (s := .placed id) (by simp) more]
    refine Holds.put h.holds there [.write m] (by simp) rfl rfl ?_ ?_
    · intro q other
      refine ⟨rfl, ?_⟩
      have apart : ¬w.table.find? id = some q := by
        rw [found]
        exact fun same ↦ other (Option.some.inj same).symm
      rw [part_of_writing writing, h.part_at keeps current, if_neg apart, if_neg apart]
    · intro sound held
      rw [part_of_writing writing, if_pos found]
      rw [h.part_at keeps current, if_pos found] at held
      have live : l.Consigned (w.sentTo p) w.pending (w.readBy p.other) True :=
        held.weaken fun _ _ ↦ ⟨live_at found, rfl⟩
      exact live.write_more sound accepted more
  · exact (w.pairs.isSome_link?_put p · _)
  · exact fun ended _ ↦ ended
  · exact fun _ _ ↦ ⟨_, h.noted.known id p found, current⟩

theorem placed_last (h : w.Keeps ends) (plain : m.isCredential = false) (last : m.more = false)
    (keeps : w.balancer.dropping = false) (current : w.balancer.current? = some id)
    (found : w.table.find? id = some p) (there : w.pairs.link? p = some l)
    (accepted : (l.write m).1 = true) :
    (w.offer m (.placed id, { w.balancer with more := m.more }.advance,
      w.pairs.put p (l.write m).2.flush)).Keeps ends := by
  have idle : { w.balancer with more := m.more }.advance.writing? = none :=
    LoadBalancer.writing?_of_not_more last
  refine h.answer (s := .placed id) plain nofun ?_ ?_ h.pipes ?_ ?_
  · rw [offer_last (s := .placed id) nofun last]
    have place : w.table.placed (.placed id) = some (id, p) := by
      rw [Table.placed, found]
      rfl
    refine Holds.put h.holds there [.write m, .flush] (by simp) rfl rfl ?_ ?_
    · intro q other
      refine ⟨?_, ?_⟩
      · rw [sentTo_concat (w := w) rfl, place]
        simp [Ne.symm other]
      · rw [part_of_idle idle, h.part_at keeps current, found, if_neg]
        exact fun same ↦ other (Option.some.inj same).symm
    · intro sound held
      rw [part_of_idle idle, sentTo_concat (w := w) rfl, place, Option.map_some, if_pos rfl]
      rw [h.part_at keeps current, if_pos found] at held
      have live : l.Consigned (w.sentTo p) w.pending (w.readBy p.other) True :=
        held.weaken fun _ _ ↦ ⟨live_at found, rfl⟩
      exact live.write_last sound accepted last
  · exact (w.pairs.isSome_link?_put p · _)
  · exact fun _ _ ↦ last
  · intro more
    exact absurd (last.symm.trans more) Bool.false_ne_true

/-- Nothing is left of a message whose end refuses to take more of it. -/
theorem aborted (h : w.Keeps ends) (plain : m.isCredential = false)
    (keeps : w.balancer.dropping = false) (current : w.balancer.current? = some id)
    (found : w.table.find? id = some p) (there : w.pairs.link? p = some l)
    (refused : (l.write m).1 = false) : (w.offer m (.refused .aborted, w.balancer.abort m,
      w.pairs.put p (l.write m).2.rollback)).Keeps ends := by
  have idle : (w.balancer.abort m).writing? = none := LoadBalancer.writing?_of_not_more rfl
  refine h.answer (s := .refused .aborted) plain nofun ?_ ?_ h.pipes ?_ ?_
  · refine Holds.put h.holds there [.write m, .rollback] (by simp) (w.offer_floor m _).1
      (w.offer_others m _) ?_ ?_
    · intro q other
      rw [sentTo_offer rfl, part_offer idle, h.part_at keeps current, found, if_neg]
      · exact ⟨rfl, rfl⟩
      · exact fun same ↦ other (Option.some.inj same).symm
    · intro sound held
      rw [sentTo_offer rfl, part_offer idle]
      have written := held.write_false sound refused
      have back := written.rollback (sound.perform (.write m))
      exact back.weaken fun _ _ ↦ ⟨trivial, rfl⟩
  · exact (w.pairs.isSome_link?_put p · _)
  · exact fun _ ended ↦ ended
  · exact nofun

/-- A frame that goes nowhere while no end holds a part of its message. -/
theorem unplaced (h : w.Keeps ends) (plain : m.isCredential = false)
    (answered : s ≠ .refused .wouldBlock) (nowhere : w.table.placed s = none)
    (part : ∀ q, w.part q = []) (pipes : b.pipes.Sound) (writing : b.writing? = none)
    (idle : b.more = false → b.dropping = false → m.more = false)
    (begun : b.more = true → b.dropping = true) : (w.offer m (s, b, w.pairs)).Keeps ends := by
  refine h.answer plain answered ?_ (fun _ ↦ rfl) pipes idle ?_
  · have others := w.offer_others m (s, b, w.pairs)
    simp only [Prod.mk.injEq] at others
    obtain ⟨table, entered, taken⟩ := others
    rw [Holds, (w.offer_floor m _).1]
    refine Pairs.All.imp h.holds ?_
    rintro q k - ⟨sound, held⟩
    refine ⟨sound, fun end' ↦ ?_⟩
    have kept := held end'
    rw [part] at kept
    simp only [sentTo_offer nowhere, part_offer writing, readBy, Live, table, entered, taken]
    exact kept
  · intro more keeps
    exact absurd (keeps.symm.trans (begun more)) Bool.false_ne_true

theorem gone (h : w.Keeps ends) (plain : m.isCredential = false)
    (keeps : w.balancer.dropping = false) (current : w.balancer.current? = some id)
    (absent : w.table.find? id = none) :
    (w.offer m (.refused .aborted, w.balancer.deactivate.abort m, w.pairs)).Keeps ends := by
  refine h.unplaced plain nofun rfl ?_ ?_ ?_ ?_ nofun
  · intro q
    rw [h.part_at keeps current, if_neg (by rw [absent]; nofun)]
  · have pipes : (w.balancer.deactivate.abort m).pipes = w.balancer.deactivate.pipes := rfl
    rw [pipes, LoadBalancer.pipes_deactivate]
    exact (h.pipes.deactivateAt current).1
  · exact LoadBalancer.writing?_of_not_more rfl
  · exact fun _ ended ↦ ended

theorem dropped (h : w.Keeps ends) (plain : m.isCredential = false)
    (dropping : w.balancer.dropping = true) : (w.offer m
      (.dropped, { w.balancer with more := m.more, dropping := m.more }, w.pairs)).Keeps ends := by
  refine h.unplaced plain nofun rfl ?_ h.pipes ?_ (fun ended _ ↦ ended) id
  · exact part_of_idle (LoadBalancer.writing?_of_dropping dropping)
  · cases more : m.more with
    | true => exact LoadBalancer.writing?_of_dropping rfl
    | false => exact LoadBalancer.writing?_of_not_more rfl

/-- What an end does for the balancer that leaves it with the same frames. -/
theorem put (h : w.Keeps ends) (there : w.pairs.link? p = some l)
    (works : c ≠ .hiccup ∧ c ≠ .read)
    (own : ∀ {done part given : List Message} {live : Prop}, l.Sound →
      l.Consigned done part given live → (l.perform c).Consigned done part given live) :
    { w with pairs := w.pairs.put p (l.perform c) }.Keeps ends := by
  have noted : { w with pairs := w.pairs.put p (l.perform c) }.Noted :=
    ⟨h.noted.messages, h.noted.pending, h.noted.accepted, h.noted.known⟩
  refine ⟨?_, noted, h.pipes, h.distinct, ?_, ?_, h.idle, h.begun⟩
  · exact h.holds.put there [c] (by simpa using works) rfl rfl (fun _ _ ↦ ⟨rfl, rfl⟩) own
  · intro e he
    rw [Pairs.isSome_link?_put]
    exact h.entries e he
  · intro x hx
    rw [Pairs.isSome_link?_put]
    exact h.readers x hx

/-- An end that is asked in vain goes back to where it was, and the next one has its turn. -/
theorem skip (h : w.Keeps ends) (first : w.balancer.more = false)
    (current : w.balancer.current? = some id) {f : Link → Bool × Link}
    (same : ∀ l, (f l).2 = l.perform c) (works : c ≠ .hiccup ∧ c ≠ .read)
    (refused : (w.table.act id f w.pairs).1 ≠ some true)
    (own : ∀ {l : Link} {done part given : List Message} {live : Prop}, (f l).1 = false → l.Sound →
      l.Consigned done part given live → (l.perform c).Consigned done part given live) :
    { w with
      balancer := w.balancer.deactivate
      pairs := (w.table.act id f w.pairs).2 }.Keeps ends := by
  match found : w.table.find? id with
  | none =>
    rw [Table.act_of_none found]
    exact h.deactivate first current
  | some p =>
    obtain ⟨l, there⟩ := Option.isSome_iff_exists.mp (h.entries _ (h.noted.known id p found)).2
    rw [Table.act_of_some found, Pairs.act_of_some there] at refused ⊢
    have asked : { w with pairs := w.pairs.put p (l.perform c) }.Keeps ends :=
      h.put there works fun sound held ↦ own (by simpa using refused) sound held
    rw [same]
    exact asked.deactivate first current

theorem puts {r : Sent × LoadBalancer × Pairs} (h : w.Keeps ends) (plain : m.isCredential = false)
    (keeps : w.balancer.dropping = false) (puts : w.balancer.Puts w.table m w.pairs r) :
    (w.offer m r).Keeps ends ∧ (r.1 = .refused .wouldBlock → w.pending = []) := by
  generalize table : w.table = t at puts
  generalize balancer : w.balancer = b at puts
  generalize pairs : w.pairs = ps at puts
  induction puts generalizing w with
  | rests idle =>
    subst table balancer pairs
    refine ⟨h.wouldBlock plain, fun _ ↦ h.idle ?_ keeps⟩
    by_contra begun
    obtain ⟨e, -, at_e⟩ := h.begun (by simpa using begun) keeps
    rw [idle] at at_e
    exact absurd at_e nofun
  | begins current accepted more =>
    subst table balancer pairs
    obtain ⟨p, l, found, there, wrote, put⟩ := Table.exists_of_act accepted
    rw [put, ← more]
    exact ⟨h.placed_more plain more keeps current found there wrote, nofun⟩
  | ends current accepted last =>
    subst table balancer pairs
    obtain ⟨p, l, found, there, wrote, put⟩ := Table.exists_of_act accepted
    rw [put, Table.act_put found there, ← last]
    exact ⟨h.placed_last plain last keeps current found there wrote, nofun⟩
  | aborts current refused =>
    subst table balancer pairs
    obtain ⟨p, l, found, there, wrote, put⟩ := Table.exists_of_act refused
    rw [put, Table.act_put found there]
    exact ⟨h.aborted plain keeps current found there wrote, nofun⟩
  | @loses b ps id current gone =>
    subst table balancer pairs
    have absent : w.table.find? id = none := by
      by_contra some
      obtain ⟨p, found⟩ := Option.ne_none_iff_exists'.mp some
      obtain ⟨l, there⟩ := Option.isSome_iff_exists.mp (h.entries _ (h.noted.known id p found)).2
      rw [Table.act_of_some found, Pairs.act_of_some there] at gone
      exact absurd gone nofun
    rw [Table.act_of_none absent]
    exact ⟨h.gone plain keeps current absent, nofun⟩
  | @skips b ps id r current refused first _ ih =>
    subst table balancer pairs
    have next := h.skip first current (c := .write m) (fun _ ↦ rfl) ⟨nofun, nofun⟩ refused
      fun closed sound held ↦ held.write_false sound closed
    have later := ih next keeps rfl rfl rfl
    exact later

/-- What comes of offering one frame. -/
theorem send (h : w.Keeps ends) (plain : m.isCredential = false) :
    (w.offer m (w.balancer.send m w.table w.pairs)).Keeps ends ∧
      ((w.balancer.send m w.table w.pairs).1 = .refused .wouldBlock → w.pending = []) := by
  cases dropping : w.balancer.dropping with
  | true =>
    rw [LoadBalancer.send_of_dropping w.table m w.pairs dropping]
    exact ⟨h.dropped plain dropping, nofun⟩
  | false => exact h.puts plain dropping (LoadBalancer.send_puts w.table m w.pairs dropping)

theorem looks {r : Bool × LoadBalancer × Pairs} (h : w.Keeps ends)
    (first : w.balancer.more = false) (looks : w.balancer.Looks w.table w.pairs r) :
    { w with balancer := r.2.1, pairs := r.2.2 }.Keeps ends := by
  generalize table : w.table = t at looks
  generalize balancer : w.balancer = b at looks
  generalize pairs : w.pairs = ps at looks
  induction looks generalizing w with
  | rests =>
    subst table balancer pairs
    exact h
  | sees current room =>
    subst table balancer pairs
    obtain ⟨p, l, found, there, -, put⟩ := Table.exists_of_act room
    rw [put]
    exact h.put (c := .checkWrite) there ⟨nofun, nofun⟩
      fun sound held ↦ held.perform sound nofun nofun
  | skips current full _ ih =>
    subst table balancer pairs
    have next := h.skip first current (c := .checkWrite) (fun _ ↦ rfl) ⟨nofun, nofun⟩ full
      fun _ sound held ↦ held.perform sound nofun nofun
    have later := ih next first rfl rfl rfl
    exact later

theorem recenter (h : w.Keeps ends) (pipes : b.pipes.Sound) (flags : b.more = w.balancer.more)
    (drops : b.dropping = w.balancer.dropping)
    (current : ∀ id, w.balancer.more = true → w.balancer.current? = some id →
      b.current? = some id) : { w with balancer := b }.Keeps ends := by
  have same : b.writing? = w.balancer.writing? := by
    simp only [LoadBalancer.writing?, flags, drops]
    split
    · rename_i writing
      obtain ⟨e, -, at_e⟩ := h.begun writing.1 writing.2
      rw [at_e, current _ writing.1 at_e]
    · rfl
  apply h.rebalance pipes
  · intro p _ _ _
    simp only [part, same]
  · rw [flags, drops]
    exact h.idle
  · rw [flags, drops]
    intro more keeps
    obtain ⟨e, he, at_e⟩ := h.begun more keeps
    exact ⟨e, he, current _ more at_e⟩

theorem terminated (h : w.Keeps ends) (ended : ∀ p l, w.table.find? id = some p →
      w.pairs.link? p = some l → l.self.state = .terminated) :
    { w with balancer := w.balancer.terminated id }.Keeps ends := by
  have pipes : (w.balancer.terminated id).pipes.Sound := by
    rw [LoadBalancer.pipes_terminated]
    exact (h.pipes.remove_active id).1
  obtain ⟨more', dropping'⟩ := w.balancer.flags_terminated id
  by_cases own : w.balancer.more = true ∧ w.balancer.current? = some id
  · -- the rest of the message is dropped, and its end takes nothing more
    obtain ⟨more, current⟩ := own
    have drops : (w.balancer.terminated id).dropping = true := by
      rw [dropping', more, current]
      simp
    apply h.rebalance pipes
    · intro p l there active
      rw [part_of_idle (LoadBalancer.writing?_of_dropping drops)]
      cases dropping : w.balancer.dropping with
      | true => exact (part_of_idle (LoadBalancer.writing?_of_dropping dropping) p).symm
      | false =>
        rw [h.part_at dropping current]
        split
        · rename_i found
          exact absurd (active.symm.trans (ended p l found there)) nofun
        · rfl
    · intro idle
      exact absurd (idle.symm.trans (more'.trans more)) Bool.false_ne_true
    · intro _ keeps
      exact absurd (keeps.symm.trans drops) Bool.false_ne_true
  · have drops : (w.balancer.terminated id).dropping = w.balancer.dropping := by
      rw [dropping']
      cases more : w.balancer.more with
      | true =>
        have other : ¬w.balancer.current? = some id := fun current ↦ own ⟨more, current⟩
        rw [decide_eq_false other, Bool.and_false, Bool.or_false]
      | false => rw [Bool.false_and, Bool.or_false]
    apply h.recenter pipes more' drops
    intro id' more current
    apply LoadBalancer.current?_terminated h.pipes more current
    rintro rfl
    exact own ⟨more, current⟩

theorem build (h : w.Keeps ends) (s : Settings) : (w.change (.build s)).Keeps ends := by
  simp only [change, Floor.change]
  split
  · rename_i pair made
    obtain ⟨rfl, pos⟩ := Pair.create_eq_ok made
    have new (side : Side) : w.pairs.link? ⟨w.pairs.list.size, side⟩ = none := by
      simp [Pairs.link?, Pairs.get?]
    have kept {r : Place} (there : (w.pairs.link? r).isSome) :
        ((Pairs.mk (w.pairs.list.push (Pair.ofSettings s))).link? r).isSome := by
      obtain ⟨l, there⟩ := Option.isSome_iff_exists.mp there
      rw [Pairs.link?_push there]
      rfl
    have noted : { w with pairs := ⟨w.pairs.list.push (Pair.ofSettings s)⟩ }.Noted :=
      ⟨h.noted.messages, h.noted.pending, h.noted.accepted, h.noted.known⟩
    have apart {r : Place} (there : (w.pairs.link? r).isSome) (side : Side) :
        r ≠ ⟨w.pairs.list.size, side⟩ := by
      rintro rfl
      rw [new] at there
      exact absurd there Bool.false_ne_true
    refine ⟨?_, noted, h.pipes, h.distinct, ?_, fun x hx ↦ kept (h.readers x hx), h.idle, h.begun⟩
    · refine Pairs.All.push h.holds fun side ↦ ⟨Pair.ofSettings_sound pos side, fun _ ↦ ?_⟩
      have unsent : w.sentTo ⟨w.pairs.list.size, side⟩ = [] := by
        simp only [sentTo, List.flatMap_eq_nil_iff, List.mem_filter, decide_eq_true_eq]
        rintro o ⟨ho, placed⟩
        obtain ⟨e, at_e, here⟩ := Option.map_eq_some_iff.mp placed
        exact absurd here (apart (h.entries e ((h.noted.messages o ho).2.2 e at_e)).2 side)
      have whole : w.part ⟨w.pairs.list.size, side⟩ = [] := by
        have unlisted (id : Nat) : w.table.find? id ≠ some ⟨w.pairs.list.size, side⟩ :=
          fun found ↦ apart (h.entries _ (h.noted.known id _ found)).2 side rfl
        simp [part, unlisted]
      have unread : w.readBy (Place.other ⟨w.pairs.list.size, side⟩) = [] := by
        simp only [readBy, List.map_eq_nil_iff, List.filter_eq_nil_iff, decide_eq_true_eq]
        intro x hx
        exact apart (h.readers x hx) side.other
      have start (live : Prop) : ((Pair.ofSettings s).link side).Consigned
          (w.sentTo ⟨w.pairs.list.size, side⟩) (w.part ⟨w.pairs.list.size, side⟩)
          (w.readBy (Place.other ⟨w.pairs.list.size, side⟩)) live := by
        rw [unsent, whole, unread]
        exact .ofSettings pos side
      exact start _
    · exact fun e he ↦ ⟨(h.entries e he).1, kept (h.entries e he).2⟩
  · exact h

theorem enter (h : w.Keeps ends) (end' : ends p = true) (there : (w.pairs.link? p).isSome)
    (fresh : ∀ e ∈ w.entered, e.1 ≠ id ∧ e.2 ≠ p) : (w.change (.enter id p)).Keeps ends := by
  have listed (id' : Nat) : (w.change (.enter id p)).table.find? id' =
      if id' = id then some p else w.table.find? id' := Table.find?_insert _ _ _ _
  have unlisted (id' : Nat) : w.table.find? id' ≠ some p :=
    fun found ↦ (fresh _ (h.noted.known id' p found)).2 rfl
  have beside (writing : w.balancer.writing? = some id) : False := by
    unfold LoadBalancer.writing? at writing
    split at writing
    · rename_i flags
      obtain ⟨e, he, at_e⟩ := h.begun flags.1 flags.2
      exact (fresh e he).1 (Option.some.inj (at_e.symm.trans writing))
    · contradiction
  refine ⟨?_, ?_, h.pipes, ?_, ?_, h.readers, h.idle, ?_⟩
  · refine Pairs.All.imp h.holds ?_
    rintro q k - ⟨sound, held⟩
    refine ⟨sound, fun end' ↦ (held end').weaken fun live _ ↦ ⟨?_, ?_⟩⟩
    · rcases live with outside | ⟨id', found⟩
      · exact .inl fun e he ↦ outside e (List.mem_append_left _ he)
      · rw [listed] at found
        split at found
        · obtain rfl := Option.some.inj found
          exact .inl fun e he ↦ (fresh e he).2
        · exact .inr ⟨id', found⟩
    · refine part_congr rfl fun id' writing ↦ ?_
      have other : id' ≠ id := by
        rintro rfl
        exact beside writing
      rw [listed, if_neg other]
  · refine ⟨?_, h.noted.pending, h.noted.accepted, ?_⟩
    · intro o ho
      obtain ⟨message, plain, placed⟩ := h.noted.messages o ho
      exact ⟨message, plain, fun e at_e ↦ List.mem_append_left _ (placed e at_e)⟩
    · intro id' q found
      rw [listed] at found
      split at found
      · rename_i same
        obtain rfl := Option.some.inj found
        rw [same]
        exact List.mem_append_right _ List.mem_cons_self
      · exact List.mem_append_left _ (h.noted.known id' q found)
  · intro e he e' he' same
    rcases List.mem_append.mp he with he | he <;> rcases List.mem_append.mp he' with he' | he'
    · exact h.distinct e he e' he' same
    · obtain rfl := List.mem_singleton.mp he'
      exact (same.elim (fresh e he).1 (fresh e he).2).elim
    · obtain rfl := List.mem_singleton.mp he
      exact (same.elim ((fresh e' he').1 ·.symm) ((fresh e' he').2 ·.symm)).elim
    · rw [List.mem_singleton.mp he, List.mem_singleton.mp he']
  · intro e he
    rcases List.mem_append.mp he with he | he
    · exact h.entries e he
    · obtain rfl := List.mem_singleton.mp he
      exact ⟨end', there⟩
  · intro more keeps
    obtain ⟨e, he, at_e⟩ := h.begun more keeps
    exact ⟨e, List.mem_append_left _ he, at_e⟩

theorem leave (h : w.Keeps ends) (id : Nat) : (w.change (.leave id)).Keeps ends := by
  have listed (id' : Nat) : (w.change (.leave id)).table.find? id' =
      if id' = id then none else w.table.find? id' := Table.find?_erase _ _ _
  refine ⟨?_, ?_, h.pipes, h.distinct, h.entries, h.readers, h.idle, h.begun⟩
  · refine Pairs.All.imp h.holds ?_
    rintro q k - ⟨sound, held⟩
    refine ⟨sound, fun end' ↦ (held end').weaken fun live _ ↦ ⟨?_, ?_⟩⟩
    · refine live.imp_right ?_
      rintro ⟨id', found⟩
      rw [listed] at found
      split at found
      · contradiction
      · exact ⟨id', found⟩
    · refine part_congr rfl fun id' _ ↦ ?_
      rw [listed]
      split
      · -- an end that still counts is not the one that left
        rename_i own
        refine iff_of_false nofun fun found ↦ ?_
        have known := h.noted.known id' q found
        rcases live with outside | ⟨id'', found'⟩
        · exact outside _ known rfl
        · rw [listed] at found'
          split at found'
          · contradiction
          · rename_i other
            have same := h.distinct _ known _ (h.noted.known id'' q found') (.inr rfl)
            exact other ((Prod.mk.inj same).1.symm.trans own)
      · exact Iff.rfl
  · refine ⟨h.noted.messages, h.noted.pending, h.noted.accepted, ?_⟩
    intro id' q found
    rw [listed] at found
    split at found
    · contradiction
    · exact h.noted.known id' q found

theorem call (h : w.Keeps ends) {c : Call}
    (own : ends p = true → (∀ m, c ≠ .write m) ∧ c ≠ .rollback)
    (peer : ends p.other = true → c ≠ .hiccup) : (w.change (.call p c)).Keeps ends := by
  match there : w.pairs.link? p with
  | none =>
    have same : w.change (.call p c) = w := by
      simp [change, Floor.change, Pairs.perform, Pairs.act_of_none there, there]
    rwa [same]
  | some l =>
    have pairs : (w.change (.call p c)).pairs = w.pairs.put p (l.perform c) := by
      simp [change, Floor.change, Pairs.perform, Pairs.act_of_some there]
    have taken : (w.change (.call p c)).taken = w.taken ++ (l.returns c).map (p, ·) := by
      simp [change, there]
    have read (r : Place) : (w.change (.call p c)).readBy r =
        w.readBy r ++ if p = r then l.returns c else [] := by
      rw [readBy, taken, List.filter_append, List.map_append, ← readBy]
      congr 1
      split <;> rename_i same
      · simp [List.filter_map, Function.comp_def, same]
      · simp [List.filter_map, Function.comp_def, same]
    have beyond : w.pairs.link? p.other = some l.swap := by
      rw [Pairs.link?_other, there]
      rfl
    obtain ⟨sound, mine⟩ := h.holds p l there
    obtain ⟨-, theirs⟩ := h.holds p.other _ beyond
    have sound' := sound.perform c
    have noted : (w.change (.call p c)).Noted :=
      ⟨h.noted.messages, h.noted.pending, h.noted.accepted, h.noted.known⟩
    refine ⟨?_, noted, h.pipes, h.distinct, ?_, ?_, h.idle, h.begun⟩
    · rw [Holds, pairs]
      refine Pairs.All.put_of h.holds (there ▸ rfl) ⟨sound', fun end' ↦ ?_⟩
        ⟨sound'.swap, fun end' ↦ ?_⟩ ?_
      · obtain ⟨writes, rolls⟩ := own end'
        have kept := (mine end').perform sound writes rolls
        rw [read, if_neg p.other_ne.symm, List.append_nil]
        exact kept
      · have given := (theirs end').peer_perform sound (peer end')
        rw [Place.other_other] at given
        rw [read, Place.other_other, if_pos rfl]
        exact given
      · rintro q k - apart ⟨sound, held⟩
        refine ⟨sound, fun end' ↦ ?_⟩
        have beside : p ≠ q.other := by
          rintro rfl
          exact apart (Place.other_other q).symm
        rw [read, if_neg beside, List.append_nil]
        exact held end'
    · intro e he
      rw [pairs, Pairs.isSome_link?_put]
      exact h.entries e he
    · intro x hx
      rw [pairs, Pairs.isSome_link?_put]
      rw [taken] at hx
      rcases List.mem_append.mp hx with hx | hx
      · exact h.readers x hx
      · obtain ⟨m, -, rfl⟩ := List.mem_map.mp hx
        rw [there]
        rfl

theorem step (h : w.Keeps ends) {s : Step} (permits : w.Permits ends s) :
    (w.step s).Keeps ends := by
  cases s with
  | floor c =>
    cases c with
    | build s => exact h.build s
    | enter id p =>
      obtain ⟨end', there, fresh⟩ := permits
      exact h.enter end' there fresh
    | leave id => exact h.leave id
    | call p c => exact h.call permits.1 permits.2
  | attach id =>
    refine h.recenter (h.pipes.sound_pushActive id) rfl rfl ?_
    intro id' _ current
    exact h.pipes.current?_pushActive current id
  | activated id =>
    refine h.recenter (h.pipes.activate id).1 rfl rfl ?_
    intro id' _ current
    exact h.pipes.current?_activate current id
  | terminated id => exact h.terminated permits
  | hasOut =>
    cases more : w.balancer.more with
    | true =>
      rw [Dispatch.step, LoadBalancer.hasOut_of_more w.table w.pairs more]
      exact h
    | false => exact h.looks more (LoadBalancer.hasOut_looks w.table w.pairs more)
  | send m => exact (h.send permits).1

theorem run (h : w.Keeps ends) {steps : List Step} (permitted : w.Permitted ends steps) :
    (w.run steps).Keeps ends := by
  induction steps generalizing w with
  | nil => exact h
  | cons s steps ih => exact ih (h.step permitted.1) permitted.2

theorem empty : ({} : Dispatch).Keeps ends where
  holds := fun _ _ there ↦ absurd there (by simp [Pairs.link?, Pairs.get?])
  noted := ⟨nofun, nofun, rfl, nofun⟩
  pipes := ActiveSet.sound_empty
  distinct := nofun
  entries := nofun
  readers := nofun
  idle := fun _ _ ↦ rfl
  begun := nofun

end Keeps

end Dispatch

end Conduit.Net
