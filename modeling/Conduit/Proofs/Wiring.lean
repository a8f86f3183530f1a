import Conduit.Proofs.Network
import Conduit.Proofs.PipeRun

namespace Conduit.Net

open Pipe

namespace Direction

def side : Direction → Side
  | outgoing => .first
  | incoming => .second

def name (dir : Direction) (s : Settings) : Nat :=
  match dir with
  | outgoing => s.ids.1
  | incoming => s.ids.2

end Direction

/-- An order of the ends in each table. -/
abbrev Order := Direction → List Nat

def Order.Covers (o : Order) (ss : List Settings) : Prop := ∀ dir, (o dir).Perm (ss.map dir.name)

namespace Hub

structure Runs (h : Hub) (ss : List Settings) (lines : Nat → Line) : Prop where
  carry : h.pairs.Carry ss.length lines
  lists : ∀ dir, (h.table dir).Lists (ss.map dir.name) dir.side
  balancer : h.balancer.Minds (ss.map Direction.outgoing.name) lines
  queue : h.queue.Minds (ss.map Direction.incoming.name) lines

variable {h h' : Hub} {ss : List Settings} {lines lines' : Nat → Line}

theorem Runs.update (runs : h.Runs ss lines) {ps : Pairs} {b : LoadBalancer} {q : FairQueue}
    (carry : ps.Carry ss.length lines') (balancer : b.Minds (ss.map Direction.outgoing.name) lines')
    (queue : q.Minds (ss.map Direction.incoming.name) lines') :
    ({ h with pairs := ps, balancer := b, queue := q } : Hub).Runs ss lines' := by
  refine ⟨carry, fun dir ↦ ?_, balancer, queue⟩
  have listed := runs.lists dir
  cases dir <;> exact listed

theorem Runs.eq_of_name (runs : h.Runs ss lines) (dir : Direction) {j k : Nat} {s s' : Settings}
    (hj : ss[j]? = some s) (hk : ss[k]? = some s') (same : dir.name s = dir.name s') : j = k := by
  have distinct : (ss.map dir.name).Nodup := by
    cases dir with
    | outgoing => exact runs.balancer.tracks.distinct
    | incoming => exact runs.queue.tracks.distinct
  obtain ⟨hlt, -⟩ := List.getElem?_eq_some_iff.mp hj
  apply (List.getElem?_inj (by rwa [List.length_map]) distinct).mp
  rw [List.getElem?_map, List.getElem?_map, hj, hk, Option.map_some, Option.map_some, same]

theorem insert_new (dir : Direction) {id : Nat} (new : (h.table dir).find? id = none) (p : Place) :
    h.insert dir id p = h.setTable dir ((h.table dir).insert id p) := by
  rw [insert, new]
  rfl

theorem connect_eq {s : Settings} (made : h.connect s false = .ok h')
    (new : ∀ dir, (h.table dir).find? (dir.name s) = none) :
    0 < s.chunkSize ∧ h' = { h with
      pairs := { list := h.pairs.list.push (Pair.ofSettings s) }
      outgoing := h.outgoing.insert s.ids.1 ⟨h.pairs.list.size, .first⟩
      incoming := h.incoming.insert s.ids.2 ⟨h.pairs.list.size, .second⟩ } := by
  unfold connect at made
  match created : Pair.create s with
  | .error e =>
    rw [created] at made
    nomatch made
  | .ok pair =>
    obtain ⟨rfl, pos⟩ := Pair.create_eq_ok created
    rw [created] at made
    let wired : Hub := { h with pairs := { list := h.pairs.list.push (Pair.ofSettings s) } }
    have first (p : Place) : wired.insert .outgoing s.ids.1 p =
        { wired with outgoing := h.outgoing.insert s.ids.1 p } :=
      insert_new (h := wired) .outgoing (new .outgoing) p
    have second (t : Table) (p : Place) :
        ({ wired with outgoing := t } : Hub).insert .incoming s.ids.2 p =
          { wired with outgoing := t, incoming := h.incoming.insert s.ids.2 p } :=
      insert_new (h := { wired with outgoing := t }) .incoming (new .incoming) p
    refine ⟨pos, ?_⟩
    have result := Except.ok.inj made
    rw [if_neg Bool.false_ne_true] at result
    exact result.symm.trans (by rw [first, second])

structure Wired (h : Hub) (ss : List Settings) (lines : Nat → Line) : Prop where
  carry : h.pairs.Carry ss.length lines
  lists : ∀ dir, (h.table dir).Lists (ss.map dir.name) dir.side
  blank : ∀ j < ss.length, ∃ high, lines j = { highMark := high }
  balancer : h.balancer = {}
  queue : h.queue = {}

theorem wired_empty (lines : Nat → Line) : ({} : Hub).Wired [] lines := by
  refine ⟨⟨rfl, nofun⟩, fun dir ↦ ?_, nofun, rfl, rfl⟩
  cases dir <;> exact fun id p ↦ ⟨nofun, nofun⟩

theorem Wired.connect (wired : h.Wired ss lines) {s : Settings} (made : h.connect s false = .ok h')
    (new : ∀ dir : Direction, dir.name s ∉ ss.map dir.name) :
    h'.Wired (ss ++ [s]) (Function.update lines ss.length { highMark := s.highMarks.1 }) := by
  obtain ⟨pos, rfl⟩ := connect_eq made fun dir ↦ (wired.lists dir).find?_eq_none_iff.mpr (new dir)
  refine ⟨?_, fun dir ↦ ?_, fun j hj ↦ ?_, wired.balancer, wired.queue⟩
  · rw [List.length_append]
    exact wired.carry.push (Pair.carries_ofSettings pos)
  · have listed := (wired.lists dir).insert (new dir)
    rw [List.length_map, ← wired.carry.size] at listed
    rw [List.map_append, List.map_singleton]
    cases dir <;> exact listed
  · by_cases last : j = ss.length
    · rw [last, Function.update_self]
      exact ⟨_, rfl⟩
    · rw [List.length_append, List.length_singleton] at hj
      rw [Function.update_of_ne last]
      exact wired.blank j (by omega)

theorem Wired.connectAll (wired : h.Wired ss lines) {ss' : List Settings}
    (made : ss'.foldlM (fun h s ↦ h.connect s false) h = .ok h')
    (distinct : ∀ dir : Direction, ((ss ++ ss').map dir.name).Nodup) :
    ∃ lines', h'.Wired (ss ++ ss') lines' := by
  induction ss' generalizing h ss lines with
  | nil =>
    obtain rfl := Except.ok.inj made
    rw [List.append_nil]
    exact ⟨lines, wired⟩
  | cons s ss' ih =>
    rw [List.foldlM_cons] at made
    match connected : h.connect s false with
    | .error e =>
      rw [connected] at made
      nomatch made
    | .ok next =>
      rw [connected] at made
      have new (dir : Direction) : dir.name s ∉ ss.map dir.name := by
        have apart := distinct dir
        rw [List.map_append, List.map_cons] at apart
        exact fun old ↦ (List.nodup_middle.mp apart).notMem (List.mem_append_left _ old)
      rw [List.append_cons] at distinct ⊢
      exact ih (wired.connect connected new) made distinct

def attachAll (h : Hub) (order : Order) : Hub :=
  { h with
    balancer := (order .outgoing).foldl LoadBalancer.attach h.balancer
    queue := (order .incoming).foldl FairQueue.attach h.queue }

/-- A hub with a pipe for each of the settings, attached to both schedulers. -/
def connectAll (ss : List Settings) (order : Order) : Except ChunkQueue.Error Hub :=
  (ss.foldlM (fun (h : Hub) s ↦ h.connect s false) {}).map (·.attachAll order)

theorem runs_connectAll {order : Order} (covers : order.Covers ss)
    (distinct : ∀ dir : Direction, (ss.map dir.name).Nodup)
    (made : connectAll ss order = .ok h) : ∃ lines, h.Runs ss lines ∧
      (∀ j < ss.length, (lines j).placed = []) ∧ h.balancer.more = false := by
  unfold connectAll at made
  match connected : ss.foldlM (fun h s ↦ h.connect s false) ({} : Hub) with
  | .error e =>
    rw [connected] at made
    nomatch made
  | .ok wired =>
    rw [connected] at made
    obtain rfl := Except.ok.inj made
    obtain ⟨lines, wires⟩ := (wired_empty fun _ ↦ { highMark := 0 }).connectAll connected distinct
    rw [List.nil_append] at wires
    have blank (dir : Direction) : ∀ j < (ss.map dir.name).length,
        ∃ high, lines j = { highMark := high } := by
      rw [List.length_map]
      exact wires.blank
    refine ⟨lines, ⟨wires.carry, fun dir ↦ ?_, ?_, ?_⟩, fun j hj ↦ ?_, ?_⟩
    · have listed := wires.lists dir
      cases dir <;> exact listed
    · simp only [attachAll, wires.balancer]
      exact LoadBalancer.minds_attachAll (covers .outgoing) (distinct .outgoing) (blank .outgoing)
    · simp only [attachAll, wires.queue]
      exact FairQueue.minds_attachAll (covers .incoming) (distinct .incoming) (blank .incoming)
    · obtain ⟨high, fresh⟩ := wires.blank j hj
      rw [fresh]
      rfl
    · simp only [attachAll, wires.balancer, LoadBalancer.foldl_attach]

inductive Sends (ss : List Settings) (m : Message) (lines : Nat → Line) (more : Bool) :
    Sent × Hub → Prop
  | placed {lines' : Nat → Line} {j : Nat} {s : Settings} {h : Hub} (there : ss[j]? = some s)
      (same : ∀ k, (lines' k).refuse = (lines k).refuse)
      (runs : h.Runs ss (Function.update lines' j ((lines' j).place m)))
      (next : h.balancer.more = m.more) : Sends ss m lines more (.placed s.ids.1, h)
  | blocked {lines' : Nat → Line} {h : Hub} (same : ∀ k, (lines' k).refuse = (lines k).refuse)
      (runs : h.Runs ss lines') (next : h.balancer.more = more) :
      Sends ss m lines more (.refused .wouldBlock, h)

theorem Runs.send (runs : h.Runs ss lines) {m : Message} (plain : m.isCredential = false) :
    Sends ss m lines h.balancer.more (h.send m) := by
  have sends : LoadBalancer.Sends _ m lines _ (h.balancer.send m h.outgoing h.pairs) :=
    runs.balancer.send (by rw [List.length_map]; exact runs.carry) (runs.lists .outgoing) plain
  rw [Hub.send]
  generalize h.balancer.send m h.outgoing h.pairs = r at sends
  cases sends with
  | @placed lines' j id b ps same named minds carry next =>
    rw [List.length_map] at carry
    rw [List.getElem?_map, Option.map_eq_some_iff] at named
    obtain ⟨s, there, rfl⟩ := named
    refine .placed there same (runs.update carry minds (runs.queue.congr fun k ↦ ?_)) next
    exact (update_congr (f := Line.inActive) (Line.place_inActive m) k).trans
      (congrArg Line.inActive (same k) :)
  | @blocked lines' b ps same minds carry next =>
    rw [List.length_map] at carry
    refine .blocked same (runs.update carry minds (runs.queue.congr fun k ↦ ?_)) next
    exact (congrArg Line.inActive (same k) :)

inductive Receives (ss : List Settings) (lines : Nat → Line) (b : LoadBalancer) :
    Option FairQueue.Received × Hub → Prop
  | frame {lines' : Nat → Line} {j : Nat} {s : Settings} {m : Message} {rest : List Message}
      {h : Hub} (there : ss[j]? = some s) (same : ∀ k, (lines' k).doze = (lines k).doze)
      (ready : (lines' j).ready = m :: rest)
      (runs : h.Runs ss (Function.update lines' j (lines' j).read.2)) (kept : h.balancer = b) :
      Receives ss lines b (some ⟨m, s.ids.2⟩, h)
  | nothing {lines' : Nat → Line} {h : Hub} (same : ∀ k, (lines' k).doze = (lines k).doze)
      (idle : ∀ j < ss.length, (lines' j).inActive = false) (runs : h.Runs ss lines')
      (kept : h.balancer = b) : Receives ss lines b (none, h)

theorem Runs.receive (runs : h.Runs ss lines) : Receives ss lines h.balancer h.receive := by
  have receives : FairQueue.Receives _ lines (h.queue.receive h.incoming h.pairs) :=
    runs.queue.receive (by rw [List.length_map]; exact runs.carry) (runs.lists .incoming)
  rw [Hub.receive]
  generalize h.queue.receive h.incoming h.pairs = r at receives
  cases receives with
  | @frame lines' j id m rest q ps same named ready minds carry =>
    rw [List.length_map] at carry
    rw [List.getElem?_map, Option.map_eq_some_iff] at named
    obtain ⟨s, there, rfl⟩ := named
    refine .frame there same ready (runs.update carry (runs.balancer.congr (fun k ↦ ?_)
      (fun k ↦ ?_) fun k room ↦ ?_) minds) rfl
    · exact (update_congr (f := Line.outActive) Line.read_outActive k).trans
        (congrArg Line.outActive (same k) :)
    · exact (update_congr (f := Line.part) Line.read_part k).trans
        (congrArg Line.part (same k) :)
    · have kept : (lines' k).hasRoom = true := (congrArg Line.hasRoom (same k) :).trans room
      by_cases here : k = j
      · subst here
        rw [Function.update_self]
        exact Line.hasRoom_read kept
      · rw [Function.update_of_ne here]
        exact kept
  | @nothing lines' q ps same idle minds carry =>
    rw [List.length_map] at carry idle
    refine .nothing same idle (runs.update carry (runs.balancer.congr (fun k ↦ ?_)
      (fun k ↦ ?_) fun k room ↦ ?_) minds) rfl
    · exact (congrArg Line.outActive (same k) :)
    · exact (congrArg Line.part (same k) :)
    · exact (congrArg Line.hasRoom (same k) :).trans room

theorem hear_update {names : List Nat} (distinct : names.Nodup) {side : Side} {j k id id' : Nat}
    (hj : names[j]? = some id) (hk : names[k]? = some id') (ids : List Nat) :
    (if id' ∈ id :: ids then (lines k).hear side else lines k) =
      let next := Function.update lines j ((lines j).hear side)
      if id' ∈ ids then (next k).hear side else next k := by
  by_cases same : k = j
  · -- if the end is called again, there is nothing new to hear
    subst same
    obtain rfl : id' = id := Option.some.inj (hk.symm.trans hj)
    simp [Line.hear_hear]
  · have other : id' ≠ id := by
      rintro rfl
      obtain ⟨hlt, -⟩ := List.getElem?_eq_some_iff.mp hk
      exact same ((List.getElem?_inj hlt distinct).mp (hk.trans hj.symm))
    simp [same, other]

theorem report_update {names : List Nat} (distinct : names.Nodup) {side : Side} {j id id' : Nat}
    (hj : names[j]? = some id) {ids : List Nat} {e : Event} :
    (id' = id ∧ e ∈ ((lines j).report side).events ∨ id' ∈ ids ∧ ∃ k, names[k]? = some id' ∧
      e ∈ ((Function.update lines j ((lines j).hear side) k).report side).events) ↔
    id' ∈ id :: ids ∧ ∃ k, names[k]? = some id' ∧ e ∈ ((lines k).report side).events := by
  obtain ⟨hlt, -⟩ := List.getElem?_eq_some_iff.mp hj
  have only {k : Nat} (hk : names[k]? = some id) : k = j :=
    ((List.getElem?_inj hlt distinct).mp (hj.trans hk.symm)).symm
  rw [List.mem_cons]
  by_cases same : id' = id
  · subst same
    have here : (∃ k, names[k]? = some id' ∧ e ∈ ((lines k).report side).events) ↔
        e ∈ ((lines j).report side).events :=
      ⟨fun ⟨k, hk, he⟩ ↦ only hk ▸ he, fun he ↦ ⟨j, hj, he⟩⟩
    simp only [here, true_and, true_or]
    refine or_iff_left_of_imp fun ⟨_, k, hk, he⟩ ↦ ?_
    rw [only hk, Function.update_self, Line.report_hear] at he
    nomatch he
  · simp only [same, false_and, false_or]
    refine and_congr_right' (exists_congr fun k ↦ and_congr_right fun hk ↦ ?_)
    have apart : k ≠ j := by
      rintro rfl
      exact same (Option.some.inj (hk.symm.trans hj))
    rw [Function.update_of_ne apart]

/-- Each end that is called hears what it was told, and its events come with its name. -/
theorem processEach_eq {dir : Direction} {names : List Nat} (distinct : names.Nodup)
    (carry : h.pairs.Carry names.length lines) (lists : (h.table dir).Lists names dir.side)
    (ids : List Nat) (known : ∀ id ∈ ids, id ∈ names)
    (heard : ∀ {j id}, names[j]? = some id →
      lines' j = if id ∈ ids then (lines j).hear dir.side else lines j) :
    ∃ r ps, processEach dir ids h = (r, { h with pairs := ps }) ∧ ps.Carry names.length lines' ∧
      ∀ e id, (e, id) ∈ r.events ↔ id ∈ ids ∧
        ∃ j, names[j]? = some id ∧ e ∈ ((lines j).report dir.side).events := by
  induction ids generalizing h lines with
  | nil =>
    refine ⟨{}, h.pairs, rfl, carry.congr fun j hj ↦ ?_, fun e id ↦ ?_⟩
    · simpa using heard (List.getElem?_eq_getElem hj)
    · exact iff_of_false nofun fun h ↦ nomatch h.1
  | cons id ids ih =>
    obtain ⟨j, hj⟩ := List.mem_iff_getElem?.mp (known id List.mem_cons_self)
    obtain ⟨hlt, -⟩ := List.getElem?_eq_some_iff.mp hj
    obtain ⟨ps, acted, carry'⟩ := carry.act hlt dir.side (f := Link.process)
      fun l seen ↦ Line.process_seenBy seen
    have acts : h.act dir id Link.process =
        (some ((lines j).report dir.side), { h with pairs := ps }) := by
      rw [act, lists.act hj, acted]
    have table : ({ h with pairs := ps } : Hub).table dir = h.table dir := by cases dir <;> rfl
    obtain ⟨r, ps', rest, carry'', events⟩ := ih (h := { h with pairs := ps }) carry'
      (table ▸ lists) (fun id' hid ↦ known id' (List.mem_cons_of_mem _ hid))
      fun hk ↦ (heard hk).trans (hear_update distinct hj hk ids)
    refine ⟨_, ps', by rw [processEach, acts]; dsimp only; rw [rest], carry'', fun e id' ↦ ?_⟩
    have mapped (es : List Event) : (e, id') ∈ es.map (·, id) ↔ id' = id ∧ e ∈ es := by
      simp [and_comm, eq_comm]
    rw [List.mem_append, events, Option.getD_some, mapped]
    exact report_update distinct hj

theorem processAll_eq (dir : Direction) {names : List Nat} (distinct : names.Nodup)
    (carry : h.pairs.Carry names.length lines) (lists : (h.table dir).Lists names dir.side)
    {ids : List Nat} (covers : ids.Perm names) :
    ∃ r ps, processEach dir ids h = (r, { h with pairs := ps }) ∧
      ps.Carry names.length (fun j ↦ (lines j).hear dir.side) ∧
      (∀ e id, (e, id) ∈ r.events → e = Line.resumption dir.side ∧ id ∈ names) ∧
      ∀ {j id}, names[j]? = some id → (id ∈ r.events.map (·.2) ↔
        ∃ e, e ∈ ((lines j).report dir.side).events) := by
  obtain ⟨r, ps, processed, carry', events⟩ := processEach_eq distinct carry lists ids
    (fun id ↦ covers.mem_iff.mp) fun {j id} hj ↦
      (if_pos (covers.mem_iff.mpr (List.mem_of_getElem? hj))).symm
  refine ⟨r, ps, processed, carry', fun e id he ↦ ?_, fun {j id} hj ↦ ?_⟩
  · obtain ⟨known, j, -, told⟩ := (events e id).mp he
    exact ⟨(Line.mem_report_iff.mp told).1, covers.mem_iff.mp known⟩
  · obtain ⟨hlt, -⟩ := List.getElem?_eq_some_iff.mp hj
    simp only [List.mem_map, Prod.exists, exists_eq_right, events]
    refine exists_congr fun e ↦ ⟨?_, fun told ↦ ?_⟩
    · rintro ⟨-, k, hk, told⟩
      exact (List.getElem?_inj hlt distinct).mp (hj.trans hk.symm) ▸ told
    · exact ⟨covers.mem_iff.mpr (List.mem_of_getElem? hj), j, hj, told⟩

def resumeAll (h : Hub) (dir : Direction) (ids : List Nat) : Hub :=
  match dir with
  | .outgoing =>
    { h with balancer := { h.balancer with
        pipes := ids.foldl (fun s id ↦ (s.activate id).2) h.balancer.pipes } }
  | .incoming =>
    { h with queue := { h.queue with
        pipes := ids.foldl (fun s id ↦ (s.activate id).2) h.queue.pipes } }

theorem routeAll_eq (h : Hub) (dir : Direction) {events : List (Event × Nat)}
    (only : ∀ e ∈ events, e.1 = Line.resumption dir.side) :
    h.routeAll dir events = h.resumeAll dir (events.map (·.2)) := by
  induction events generalizing h with
  | nil => cases dir <;> rfl
  | cons e events ih =>
    obtain ⟨event, id⟩ := e
    obtain rfl : event = Line.resumption dir.side := only _ List.mem_cons_self
    have rest := ih (route dir h (Line.resumption dir.side, id))
      fun e he ↦ only e (List.mem_cons_of_mem _ he)
    cases dir <;> exact rest

/-- Both tables obey what they were told, and then the schedulers learn who can go on. -/
def exchange (h : Hub) (order : Order) : Hub :=
  let (sent, h) := processEach .outgoing (order .outgoing) h
  let (received, h) := processEach .incoming (order .incoming) h
  (h.routeAll .outgoing sent.events).routeAll .incoming received.events

theorem Runs.exchange (runs : h.Runs ss lines) {order : Order} (covers : order.Covers ss) :
    (h.exchange order).Runs ss (fun j ↦ (lines j).resume.wake) ∧
      (h.exchange order).balancer.more = h.balancer.more := by
  obtain ⟨sent, ps, processed, carry, events, heard⟩ := processAll_eq .outgoing
    runs.balancer.tracks.distinct (by simpa using runs.carry) (runs.lists .outgoing)
    (covers .outgoing)
  obtain ⟨received, ps', processed', carry', events', heard'⟩ :=
    processAll_eq (h := { h with pairs := ps }) .incoming runs.queue.tracks.distinct
      (by simpa using carry) (runs.lists .incoming) (covers .incoming)
  rw [List.length_map] at carry'
  rw [Hub.exchange, processed]
  dsimp only
  rw [processed', routeAll_eq _ _ fun e he ↦ (events _ _ he).1,
    routeAll_eq _ _ fun e he ↦ (events' _ _ he).1]
  refine ⟨runs.update carry' ?_ ?_, rfl⟩
  · obtain ⟨le, kept⟩ := runs.balancer.tracks.sound.foldl_activate (sent.events.map (·.2))
    refine runs.balancer.grow (runs.balancer.tracks.foldl_activate (fun id hid ↦ ?_) ?_) le kept
      (fun hj room ↦ ⟨hj, room⟩) fun hj part ↦ ⟨hj, part⟩
    · obtain ⟨⟨e, id⟩, he, rfl⟩ := List.mem_map.mp hid
      exact (events e id he).2
    · intro j id hj
      rw [heard hj]
      exact Line.active_hear_iff .first (lines j)
  · obtain ⟨le, -⟩ := runs.queue.tracks.sound.foldl_activate (received.events.map (·.2))
    refine ⟨runs.queue.tracks.foldl_activate (fun id hid ↦ ?_) ?_, runs.queue.aims.mono le⟩
    · obtain ⟨⟨e, id⟩, he, rfl⟩ := List.mem_map.mp hid
      exact (events' e id he).2
    · intro j id hj
      rw [heard' hj]
      exact Line.active_hear_iff .second (lines j).resume

end Hub

end Conduit.Net
