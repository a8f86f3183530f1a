import Conduit.Proofs.Wiring
import Mathlib

namespace Conduit.Net

open Pipe

/-- A hub, with the frames that went in and those that came out, each beside its pipe. -/
structure Traffic where
  hub : Hub
  placed : List (Nat × Message) := []
  received : List (Nat × Message) := []

inductive Step where
  | send (m : Message)
  | receive
  /-- Each end is called once. -/
  | exchange (order : Order)

namespace Traffic

def step (t : Traffic) : Step → Traffic
  | .send m =>
    match t.hub.send m with
    | (.placed id, hub) => { t with hub, placed := t.placed ++ [(id, m)] }
    | (_, hub) => { t with hub }
  | .receive =>
    match t.hub.receive with
    | (some r, hub) => { t with hub, received := t.received ++ [(r.pipe, r.message)] }
    | (none, hub) => { t with hub }
  | .exchange order => { t with hub := t.hub.exchange order }

def run (t : Traffic) (steps : List Step) : Traffic := steps.foldl step t

def on (id : Nat) (frames : List (Nat × Message)) : List Message :=
  (frames.filter (·.1 = id)).map (·.2)

/-- The message that is being sent has more frames. -/
def midway (t : Traffic) : Bool := t.placed.getLast?.any (·.2.more)

inductive Drains : Traffic → Traffic → Prop
  | done {t : Traffic} : (t.hub.receive).1.isNone → Drains t (t.step .receive)
  | more {t t' : Traffic} : (t.hub.receive).1.isSome → Drains (t.step .receive) t' → Drains t t'

/-- Rounds of receiving until nothing comes and then hearing what there is to hear. -/
inductive Rounds : List Order → Traffic → Traffic → Prop
  | done (t : Traffic) : Rounds [] t t
  | more {order : Order} {orders : List Order} {t t' t'' : Traffic} :
      Drains t t' → Rounds orders (t'.step (.exchange order)) t'' → Rounds (order :: orders) t t''

theorem on_concat {h : Hub} {ss : List Settings} {lines : Nat → Line} (runs : h.Runs ss lines)
    (dir : Direction) {j k : Nat} {s s' : Settings} (hj : ss[j]? = some s) (hk : ss[k]? = some s')
    (frames : List (Nat × Message)) (m : Message) :
    on (dir.name s') (frames ++ [(dir.name s, m)]) =
      on (dir.name s') frames ++ if k = j then [m] else [] := by
  have same : dir.name s = dir.name s' ↔ k = j := by
    constructor
    · exact fun names ↦ (runs.eq_of_name dir hj hk names).symm
    · rintro rfl
      rw [Option.some.inj (hj.symm.trans hk)]
  unfold on
  split <;> simp [*]

/-- All frames went in and came out by the ends of one of the pipes. -/
def Within (t : Traffic) (ss : List Settings) : Prop :=
  (∀ f ∈ t.placed, ∃ s ∈ ss, f.1 = s.ids.1) ∧ ∀ f ∈ t.received, ∃ s ∈ ss, f.1 = s.ids.2

structure Matches (t : Traffic) (ss : List Settings) (lines : Nat → Line) : Prop where
  runs : t.hub.Runs ss lines
  placed : ∀ {j s}, ss[j]? = some s → on s.ids.1 t.placed = (lines j).placed
  received : ∀ {j s}, ss[j]? = some s → on s.ids.2 t.received = (lines j).returned
  known : t.Within ss
  more : t.hub.balancer.more = t.midway

namespace Matches

variable {t : Traffic} {ss : List Settings} {lines : Nat → Line}

theorem send (h : t.Matches ss lines) {m : Message} (plain : m.isCredential = false) :
    ∃ lines', (t.step (.send m)).Matches ss lines' := by
  have sends := h.runs.send plain
  rw [step]
  generalize t.hub.send m = r at sends
  cases sends with
  | @placed lines' j s hub there same runs next =>
    refine ⟨_, runs, fun {k s'} hk ↦ ?_, fun {k s'} hk ↦ ?_, ⟨?_, h.known.2⟩, ?_⟩
    · have kept : (lines' k).placed = (lines k).placed := (congrArg Line.placed (same k) :)
      refine (on_concat runs .outgoing there hk t.placed m).trans ?_
      rw [show on (Direction.outgoing.name s') t.placed = _ from h.placed hk, ← kept]
      by_cases here : k = j
      · subst here
        rw [if_pos rfl, Function.update_self, Line.placed_place]
      · rw [if_neg here, List.append_nil, Function.update_of_ne here]
    · rw [h.received hk]
      exact ((update_congr (f := Line.returned) (Line.place_returned m) k).trans
        (congrArg Line.returned (same k) :)).symm
    · intro f hf
      rcases List.mem_append.mp hf with old | new
      · exact h.known.1 f old
      · rw [List.mem_singleton.mp new]
        exact ⟨s, List.mem_of_getElem? there, rfl⟩
    · simpa [midway] using next
  | @blocked lines' hub same runs next =>
    refine ⟨_, runs, fun {k s'} hk ↦ ?_, fun {k s'} hk ↦ ?_, h.known, next.trans h.more⟩
    · exact (h.placed hk).trans (congrArg Line.placed (same k) :).symm
    · exact (h.received hk).trans (congrArg Line.returned (same k) :).symm

theorem exchange (h : t.Matches ss lines) {order : Order} (covers : order.Covers ss) :
    (t.step (.exchange order)).Matches ss fun j ↦ (lines j).resume.wake := by
  obtain ⟨runs, more⟩ := h.runs.exchange covers
  exact ⟨runs, h.placed, h.received, h.known, more.trans h.more⟩

def backlog (ss : List Settings) (lines : Nat → Line) : Nat :=
  ∑ j ∈ Finset.range ss.length, (lines j).ready.length

theorem backlog_read_lt {lines' : Nat → Line} (same : ∀ k, (lines' k).ready = (lines k).ready)
    {j : Nat} (hj : j < ss.length) {m : Message} {rest : List Message}
    (ready : (lines' j).ready = m :: rest) :
    backlog ss (Function.update lines' j (lines' j).read.2) < backlog ss lines := by
  have read : (lines' j).read.2.ready = rest := by rw [Line.read, ready]
  refine Finset.sum_lt_sum (fun k _ ↦ ?_) ⟨j, Finset.mem_range.mpr hj, ?_⟩
  · by_cases here : k = j
    · subst here
      rw [Function.update_self, read, ← same, ready, List.length_cons]
      exact Nat.le_succ _
    · rw [Function.update_of_ne here, same]
  · rw [Function.update_self, read, ← same, ready, List.length_cons]
    exact Nat.lt_succ_self _

/-- A frame is received, or no line has one that its reader was told of. -/
theorem receive (h : t.Matches ss lines) : ∃ lines', (t.step .receive).Matches ss lines' ∧
    (∀ k, (lines' k).wakeups = (lines k).wakeups) ∧ (t.step .receive).placed = t.placed ∧
    ((t.hub.receive).1.isSome ∧ backlog ss lines' < backlog ss lines ∨
      (t.hub.receive).1.isNone ∧ ∀ j < ss.length, (lines' j).inActive = false) := by
  have receives := h.runs.receive
  have more := h.more
  rw [step]
  generalize t.hub.balancer = b at receives more
  generalize t.hub.receive = r at receives
  cases receives with
  | @frame lines' j s m rest hub there same ready runs kept =>
    refine ⟨_, ⟨runs, fun {k s'} hk ↦ ?_, fun {k s'} hk ↦ ?_, ⟨h.known.1, ?_⟩, ?_⟩, fun k ↦ ?_, rfl,
      .inl ⟨rfl, ?_⟩⟩
    · rw [h.placed hk]
      exact ((update_congr (f := Line.placed) Line.placed_read k).trans
        (congrArg Line.placed (same k) :)).symm
    · have before : (lines' k).returned = (lines k).returned :=
        (congrArg Line.returned (same k) :)
      refine (on_concat runs .incoming there hk t.received m).trans ?_
      rw [show on (Direction.incoming.name s') t.received = _ from h.received hk, ← before]
      by_cases here : k = j
      · subst here
        rw [if_pos rfl, Function.update_self, Line.read, ready]
      · rw [if_neg here, List.append_nil, Function.update_of_ne here]
    · intro f hf
      rcases List.mem_append.mp hf with old | new
      · exact h.known.2 f old
      · rw [List.mem_singleton.mp new]
        exact ⟨s, List.mem_of_getElem? there, rfl⟩
    · rw [kept]
      exact more
    · exact (update_congr (f := Line.wakeups) Line.read_wakeups k).trans
        (congrArg Line.wakeups (same k) :)
    · obtain ⟨hlt, -⟩ := List.getElem?_eq_some_iff.mp there
      have before (k : Nat) : (lines' k).ready = (lines k).ready := (congrArg Line.ready (same k) :)
      exact backlog_read_lt before hlt ready
  | @nothing lines' hub same idle runs kept =>
    refine ⟨lines', ⟨runs, fun {k s'} hk ↦ ?_, fun {k s'} hk ↦ ?_, h.known, ?_⟩, fun k ↦ ?_, rfl,
      .inr ⟨rfl, idle⟩⟩
    · exact (h.placed hk).trans (congrArg Line.placed (same k) :).symm
    · exact (h.received hk).trans (congrArg Line.returned (same k) :).symm
    · rw [kept]
      exact more
    · exact (congrArg Line.wakeups (same k) :)

theorem drains (h : t.Matches ss lines) : ∃ t' lines', t.Drains t' ∧ t'.Matches ss lines' ∧
    (∀ k, (lines' k).wakeups = (lines k).wakeups) ∧ t'.placed = t.placed ∧
    ∀ j < ss.length, (lines' j).inActive = false := by
  induction size : backlog ss lines using Nat.strong_induction_on generalizing t lines with
  | _ size ih =>
    obtain ⟨lines', next, wakeups, placed, ⟨some, less⟩ | ⟨none, idle⟩⟩ := h.receive
    · obtain ⟨t', lines'', drains, last, wakeups', placed', idle⟩ := ih _ (size ▸ less) next rfl
      exact ⟨t', lines'', .more some drains, last, fun k ↦ (wakeups' k).trans (wakeups k),
        placed'.trans placed, idle⟩
    · exact ⟨_, lines', .done none, next, wakeups, placed, idle⟩

theorem rounds (h : t.Matches ss lines) {order order' : Order} (covers : order.Covers ss)
    (covers' : order'.Covers ss) : ∃ t' lines', Rounds [order, order'] t t' ∧
    t'.Matches ss lines' ∧ t'.placed = t.placed ∧
    ∀ j < ss.length, (lines' j).ready = [] ∧ (lines' j).outActive = true := by
  obtain ⟨t₁, lines₁, drains₁, matches₁, -, placed₁, -⟩ := h.drains
  obtain ⟨t₂, lines₂, drains₂, matches₂, heard, placed₂, idle⟩ := (matches₁.exchange covers).drains
  refine ⟨_, _, .more drains₁ (.more drains₂ (.done _)), matches₂.exchange covers',
    placed₂.trans placed₁,
    fun j hj ↦ ?_⟩
  have sound := matches₂.runs.carry.sound hj
  -- a reader that was idle with nothing more to hear slept, and it sleeps over no frame
  have read : (lines₂ j).ready = [] := sound.ready_eq_nil (idle j hj) (heard j)
  exact ⟨read, sound.outActive_resume read⟩

theorem part_eq_nil (h : t.Matches ss lines) (ended : t.midway = false) {j : Nat}
    (hj : j < ss.length) : (lines j).part = [] := by
  by_contra begun
  have named : (ss.map Direction.outgoing.name)[j]? = some (Direction.outgoing.name ss[j]) := by
    rw [List.getElem?_map, List.getElem?_eq_getElem hj, Option.map_some]
  have more := (h.runs.balancer.part named begun).1
  rw [h.more, ended] at more
  contradiction

theorem send_placed (h : t.Matches ss lines) (some : ss ≠ [])
    (free : ∀ j < ss.length, (lines j).ready = [] ∧ (lines j).outActive = true) (m : Message) :
    ∃ s ∈ ss, (t.hub.send m).1 = .placed s.ids.1 := by
  have first : 0 < ss.length := List.length_pos_iff.mpr some
  have named : (ss.map Direction.outgoing.name)[0]? =
      Option.some (Direction.outgoing.name ss[0]) := by
    rw [List.getElem?_map, List.getElem?_eq_getElem first, Option.map_some]
  have active := (h.runs.balancer.tracks.active named).mpr (free 0 first).2
  obtain ⟨id, known, placed⟩ := h.runs.balancer.send_placed
    (by rw [List.length_map]; exact h.runs.carry) (h.runs.lists .outgoing) ⟨_, active⟩
    (fun j hj ↦ Line.hasRoom_of_ready_nil (free j (by rwa [List.length_map] at hj)).1) m
  obtain ⟨s, hs, rfl⟩ := List.mem_map.mp known
  exact ⟨s, hs, placed⟩

theorem run (h : t.Matches ss lines) {steps : List Step}
    (plain : ∀ m, .send m ∈ steps → m.isCredential = false)
    (covers : ∀ order, .exchange order ∈ steps → order.Covers ss) :
    ∃ lines', (t.run steps).Matches ss lines' := by
  induction steps generalizing t lines with
  | nil => exact ⟨lines, h⟩
  | cons s steps ih =>
    have next : ∃ lines', (t.step s).Matches ss lines' := by
      cases s with
      | send m => exact h.send (plain m List.mem_cons_self)
      | receive => exact h.receive.imp fun _ received ↦ received.1
      | exchange order => exact ⟨_, h.exchange (covers order List.mem_cons_self)⟩
    obtain ⟨lines', h'⟩ := next
    exact ih h' (fun m hm ↦ plain m (List.mem_cons_of_mem _ hm))
      fun order next ↦ covers order (List.mem_cons_of_mem _ next)

end Matches

theorem matches_connectAll {ss : List Settings} {order : Order} {h : Hub}
    (covers : order.Covers ss) (distinct : ∀ dir : Direction, (ss.map dir.name).Nodup)
    (made : Hub.connectAll ss order = .ok h) :
    ∃ lines, ({ hub := h } : Traffic).Matches ss lines := by
  obtain ⟨lines, runs, blank, more⟩ := Hub.runs_connectAll covers distinct made
  refine ⟨lines, runs, fun {j s} hj ↦ ?_, fun {j s} hj ↦ ?_, ⟨nofun, nofun⟩, more⟩
  · obtain ⟨hlt, -⟩ := List.getElem?_eq_some_iff.mp hj
    exact (blank j hlt).symm
  · obtain ⟨hlt, -⟩ := List.getElem?_eq_some_iff.mp hj
    have none := (lines j).returned_prefix_placed
    rw [blank j hlt, List.prefix_nil] at none
    exact none.symm

end Traffic

/-- Frames come out of each pipe in the order in which they went in, and once no message is half
sent, two rounds bring out all of them and leave room on every pipe. -/
theorem delivered_after_two_rounds {ss : List Settings} {attached : Order} {h : Hub}
    (some : ss ≠ []) (distinct : (ss.map (·.ids.1)).Nodup ∧ (ss.map (·.ids.2)).Nodup)
    (covers : attached.Covers ss) (made : Hub.connectAll ss attached = .ok h) {steps : List Step}
    (plain : ∀ m, .send m ∈ steps → m.isCredential = false)
    (each : ∀ order, .exchange order ∈ steps → order.Covers ss) :
    let t := Traffic.run { hub := h } steps
    t.Within ss ∧ (∀ s ∈ ss, Traffic.on s.ids.2 t.received <+: Traffic.on s.ids.1 t.placed) ∧
      (∀ m, m.isCredential = false → (t.hub.send m).1 = .refused .wouldBlock ∨
        ∃ s ∈ ss, (t.hub.send m).1 = .placed s.ids.1) ∧
      (t.midway = false → ∀ order order' : Order, order.Covers ss → order'.Covers ss →
        ∃ t', Traffic.Rounds [order, order'] t t' ∧ t'.Within ss ∧ t'.placed = t.placed ∧
          (∀ s ∈ ss, Traffic.on s.ids.2 t'.received = Traffic.on s.ids.1 t'.placed) ∧
          ∀ m, ∃ s ∈ ss, (t'.hub.send m).1 = .placed s.ids.1) := by
  intro t
  obtain ⟨start, begun⟩ := Traffic.matches_connectAll covers
    (fun dir ↦ match dir with
      | .outgoing => distinct.1
      | .incoming => distinct.2) made
  obtain ⟨lines, now⟩ := begun.run plain each
  refine ⟨now.known, fun s hs ↦ ?_, fun m hm ↦ ?_, fun ended order order' first second ↦ ?_⟩
  · obtain ⟨j, hj⟩ := List.mem_iff_getElem?.mp hs
    rw [now.received hj, now.placed hj]
    exact (lines j).returned_prefix_placed
  · have sends := now.runs.send hm
    generalize t.hub.send m = r at sends
    cases sends with
    | placed there => exact .inr ⟨_, List.mem_of_getElem? there, rfl⟩
    | blocked => exact .inl rfl
  · obtain ⟨t', lines', rounds, last, placed, free⟩ := now.rounds first second
    have whole : t'.midway = false := by rw [Traffic.midway, placed]; exact ended
    refine ⟨t', rounds, last.known, placed, fun s hs ↦ ?_, last.send_placed some free⟩
    obtain ⟨j, hj⟩ := List.mem_iff_getElem?.mp hs
    obtain ⟨hlt, -⟩ := List.getElem?_eq_some_iff.mp hj
    rw [last.received hj, last.placed hj, Line.placed, (free j hlt).1, last.part_eq_nil whole hlt,
      List.append_nil, List.append_nil]

/-- The fifth frame finds both pipes full at first, and goes out after what was read is heard of. -/
theorem delivered_over_full_pipes :
    let ss : List Settings :=
      [{ highMarks := (1, 1), ids := (1, 2) }, { highMarks := (2, 0), ids := (3, 4) }]
    let rising : Order := fun dir ↦ ss.map dir.name
    let falling : Order := fun dir ↦ (rising dir).reverse
    let frame (n : UInt8) (flags : UInt8) : Message := { data := [n], flags }
    let steps : List Step :=
      [.send (frame 1 Flag.more), .send (frame 2 0), .send (frame 3 0), .send (frame 4 0),
        .send (frame 5 0), .receive, .receive, .exchange falling, .send (frame 5 0)]
    ∃ h, Hub.connectAll ss rising = .ok h ∧ ss ≠ [] ∧
      ((ss.map (·.ids.1)).Nodup ∧ (ss.map (·.ids.2)).Nodup) ∧ rising.Covers ss ∧
      (∀ m, .send m ∈ steps → m.isCredential = false) ∧
      (∀ order, .exchange order ∈ steps → order.Covers ss) ∧
      let t := Traffic.run { hub := h } steps
      t.midway = false ∧ t.placed.map (·.1) = [1, 1, 3, 3, 1] ∧
        ∃ t', Traffic.Rounds [rising, falling] t t' ∧ t'.Within ss ∧ t'.placed = t.placed ∧
          (∀ s ∈ ss, Traffic.on s.ids.2 t'.received = Traffic.on s.ids.1 t'.placed) ∧
          ∀ m, ∃ s ∈ ss, (t'.hub.send m).1 = .placed s.ids.1 := by
  intro ss rising falling frame steps
  have some : ss ≠ [] := by decide
  have distinct : (ss.map (·.ids.1)).Nodup ∧ (ss.map (·.ids.2)).Nodup := by decide
  have covers : rising.Covers ss := fun dir ↦ .refl _
  have covers' : falling.Covers ss := fun dir ↦ List.reverse_perm _
  have plain : ∀ m, .send m ∈ steps → m.isCredential = false := by
    intro m hm
    simp only [steps, List.mem_cons, Step.send.injEq, reduceCtorEq, List.not_mem_nil, or_false,
      false_or] at hm
    rcases hm with rfl | rfl | rfl | rfl | rfl | rfl <;> decide
  have each : ∀ order, .exchange order ∈ steps → order.Covers ss := by
    intro order next
    simp only [steps, List.mem_cons, Step.exchange.injEq, reduceCtorEq, List.not_mem_nil, or_false,
      false_or] at next
    rw [next]
    exact covers'
  refine ⟨_, rfl, some, distinct, covers, plain, each, ?_, ?_, ?_⟩
  · cbv
  · cbv
  · exact (delivered_after_two_rounds some distinct covers rfl plain each).2.2.2 (by cbv) rising
      falling covers covers'

end Conduit.Net
