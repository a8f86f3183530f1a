import Conduit.Proofs.Ledger
import Conduit.Proofs.ReadingOn

namespace Conduit.Pipe

def IsMessage (ms : List Message) : Prop :=
  ∃ init last, ms = init ++ [last] ∧ (∀ m ∈ init, m.more = true) ∧ last.more = false

/-- What a reader, seen by its end, is given of the frames in a ledger. -/
structure Delivers (l : Link) (k : Ledger) : Prop where
  /-- Frames are returned in order, and none is lost or returned twice. -/
  in_order : k.returned <+: ordinary k.log
  /-- Nothing is returned before the end of its message is published. -/
  published : k.returned <+: ordinary k.published
  /-- What is published are whole messages. -/
  whole : k.published <+: k.log ∧ wholeMessages k.published = k.published
  /-- Finding nothing, a reader that reads on was given all that is published. -/
  drained : l.read.1 = none → l.read.2.self.state.reads = true → k.returned = ordinary k.published
  /-- A reader finds the rest of a message that it was given a part of. -/
  unbroken : ∀ {before done rest after : List Message} {m : Message},
    k.log = before ++ (done ++ m :: rest) ++ after → IsMessage (done ++ m :: rest) →
    (∀ x ∈ done ++ m :: rest, x.isCredential = false) → m.more = true →
    k.returned = ordinary (before ++ (done ++ [m])) → l.self.state.reads = true →
    l.read.1 ≠ none

theorem IsMessage.rest_ne_nil {done rest : List Message} {m : Message}
    (h : IsMessage (done ++ m :: rest)) (more : m.more = true) : rest ≠ [] := by
  rintro rfl
  obtain ⟨init, last, split, -, ends⟩ := h
  obtain ⟨-, rfl⟩ := List.append_inj' split rfl |>.imp_right List.singleton_inj.mp
  exact absurd (more.symm.trans ends) nofun

/-- Up to credentials, frames are told apart by how many of them were read. -/
theorem eq_of_ordinary_eq {ms init rest : List Message} {m r : Message}
    (read : ms <+: init ++ [m] ++ r :: rest) (hm : m.isCredential = false)
    (hr : r.isCredential = false) (same : ordinary ms = ordinary (init ++ [m])) :
    ms = init ++ [m] := by
  obtain ⟨behind, split⟩ := read
  rcases List.append_eq_append_iff.mp split with ⟨more, fewer, -⟩ | ⟨more, further, left⟩
  · rw [fewer, ordinary_append, List.self_eq_append_right] at same
    cases more using List.reverseRecOn with
    | nil => rw [fewer, List.append_nil]
    | append_singleton more x =>
      rw [← List.append_assoc] at fewer
      obtain ⟨-, rfl⟩ := List.append_inj' fewer rfl |>.imp_right List.singleton_inj.mp
      simp [ordinary, hm] at same
  · rw [further, ordinary_append, List.append_right_eq_self] at same
    cases more with
    | nil => rw [further, List.append_nil]
    | cons x more =>
      obtain ⟨rfl, -⟩ := List.cons.inj left
      simp [ordinary, hr] at same

theorem Lane.Ordered.frames_eq_nil {items : List Item} (h : Ordered (.delimiter :: items)) :
    Item.frames items = [] := by
  apply List.filterMap_eq_nil_iff.mpr
  intro x hx
  rw [(List.pairwise_cons.mp h).1 x hx rfl]

section

variable {l : Link} {k : Ledger}

theorem Link.Sound.ordered (h : l.Sound) : Lane.Ordered l.inbound.readable := by
  match items : l.inbound.readable with
  | [] => exact .nil
  | x :: rest =>
    have all := h.peer.lane.holds.toList_eq
    rw [(h.still items).2, List.append_assoc] at all
    have kept : x :: rest <+: l.peer.lane.writing.queue.toList := all ▸ List.prefix_append _ _
    exact h.peer.lane.ordered.sublist kept.sublist

/-- A delimiter is the last item, so a frame that is readable is in front of it. -/
theorem Link.Sound.exists_front (h : l.Sound) {r : Message} {rest : List Message}
    (front : Item.frames l.inbound.readable = r :: rest) :
    ∃ others, l.inbound.readable = .frame r :: others := by
  match items : l.inbound.readable with
  | [] =>
    rw [items] at front
    exact absurd front nofun
  | .frame m :: others =>
    rw [items, Item.frames_cons_frame] at front
    obtain ⟨rfl, -⟩ := List.cons.inj front
    exact ⟨others, rfl⟩
  | .delimiter :: others =>
    have ordered := h.ordered
    rw [items] at ordered front
    rw [Item.frames_cons_delimiter, ordered.frames_eq_nil] at front
    exact absurd front nofun

theorem Link.Sound.read_eq_some (h : l.Sound) (reads : l.self.state.reads = true) {r : Message}
    {rest : List Message} (front : Item.frames l.inbound.readable = r :: rest)
    (hr : r.isCredential = false) : l.read.1 = some r := by
  obtain ⟨others, items⟩ := h.exists_front front
  rw [(h.read reads).1, items, Item.answer, if_neg (by simp [hr])]

theorem Ledger.Matches.readable (h : k.Matches l.peer.lane.stock) (still : l.peer.lane.fresh = []) :
    k.published = k.consumed ++ Item.frames l.inbound.readable := by
  rw [Link.inbound, Lane.reading_eq_writing still]
  exact h.published

theorem Ledger.Matches.drained (h : k.Matches l.peer.lane.stock) (sound : l.Sound)
    (still : l.peer.lane.fresh = []) (nothing : l.read.1 = none)
    (reads : l.read.2.self.state.reads = true) : k.returned = ordinary k.published := by
  have reads₀ : l.self.state.reads = true := by
    by_contra shut
    rw [Link.read_of_not_reads (by simpa using shut)] at reads
    exact shut reads
  obtain ⟨answer, moves⟩ := sound.read reads₀
  have none_left := (moves.read rfl).1 (answer ▸ nothing) reads
  have drawn := moves.matches_draw sound h
  rw [Deed.ordinary_taken_ofRead, ← answer, nothing] at drawn
  have still' := moves.peer_still sound
    (fun hd ↦ absurd (Deed.isRead_of_mem_ofRead hd) Bool.false_ne_true) still
  have published := drawn.readable still'
  have returned := drawn.returned
  rw [none_left, Item.frames_nil, List.append_nil] at published
  rw [← published] at returned
  simpa [Ledger.draw] using returned

theorem Ledger.Matches.unbroken (h : k.Matches l.peer.lane.stock) (sound : l.Sound)
    (still : l.peer.lane.fresh = []) {before done rest after : List Message} {m : Message}
    (split : k.log = before ++ (done ++ m :: rest) ++ after)
    (message : IsMessage (done ++ m :: rest))
    (plain : ∀ x ∈ done ++ m :: rest, x.isCredential = false) (more : m.more = true)
    (given : k.returned = ordinary (before ++ (done ++ [m]))) (reads : l.self.state.reads = true) :
    l.read.1 ≠ none := by
  obtain ⟨r, rest, rfl⟩ := List.exists_cons_of_ne_nil (message.rest_ne_nil more)
  have hm : m.isCredential = false := plain m (by simp)
  have hr : r.isCredential = false := plain r (by simp)
  have published := h.readable still
  have log := h.log
  rw [published, split] at log
  have read : k.consumed <+: before ++ done ++ [m] ++ r :: (rest ++ after) := by
    refine ⟨Item.frames l.inbound.readable ++ (Item.frames l.peer.lane.stock.awaiting ++
      Item.frames l.peer.lane.stock.unfinished), ?_⟩
    simpa using log.symm
  have consumed : k.consumed = before ++ done ++ [m] := by
    apply eq_of_ordinary_eq read hm hr
    rw [← h.returned, given, List.append_assoc]
  cases front : Item.frames l.inbound.readable with
  | nil =>
    -- what is published ends with its message, and `m` does not
    rw [front, consumed, List.append_nil] at published
    have whole := h.whole_published
    rw [published, wholeMessages, List.rdropWhile_eq_self_iff] at whole
    exact absurd more (by simpa using whole (by simp))
  | cons x others =>
    rw [consumed, front] at log
    have next : r = x := by
      simp only [List.append_assoc, List.cons_append, List.nil_append, List.append_cancel_left_eq,
        List.cons.injEq] at log
      exact log.2.1
    rw [sound.read_eq_some reads front (next ▸ hr)]
    exact Option.some_ne_none _

theorem Ledger.Matches.delivers (h : k.Matches l.peer.lane.stock) (sound : l.Sound)
    (still : l.peer.lane.fresh = []) : Delivers l k := by
  have consumed : k.consumed <+: k.published := ⟨_, h.published.symm⟩
  have published : k.published <+: k.log := by
    rw [h.log, List.append_assoc]
    exact List.prefix_append _ _
  refine ⟨?_, ?_, ⟨published, h.whole_published⟩, h.drained sound still, h.unbroken sound still⟩
  · rw [h.returned]
    exact (consumed.trans published).filter _
  · rw [h.returned]
    exact consumed.filter _

end

/-- A reader that never hiccups is given what was written to it, whatever both ends do otherwise. -/
theorem frames_delivered {s : Settings} {p : Pair} (made : Pair.create s = .ok p) (side : Side)
    {calls : List (Side × Call)} (still : ∀ c, (side.other, c) ∈ calls → c ≠ .hiccup) :
    Delivers ((p.run calls).link side.other) (p.watch bookkeeping side {} calls) := by
  obtain ⟨sound, matched⟩ := Pair.ledger_matches made side calls
  rw [Pair.link_other]
  exact matched.delivers sound.swap (Pair.still made side still)

theorem frames_delivered_within_message :
    let p := Pair.ofSettings {}
    let part : Message := { flags := Flag.more }
    let calls : List (Side × Call) := [(.first, .write part), (.first, .write {}), (.first, .flush),
      (.first, .write part), (.second, .read), (.first, .terminate true)]
    (p.watch bookkeeping .first {} calls).log = [part, {}] ∧
      (p.watch bookkeeping .first {} calls).returned = [part] ∧
      Delivers ((p.run calls).link .second) (p.watch bookkeeping .first {} calls) :=
  ⟨by decide +kernel, by decide +kernel,
    frames_delivered (s := {}) rfl .first (by simp [Side.other])⟩

end Conduit.Pipe
