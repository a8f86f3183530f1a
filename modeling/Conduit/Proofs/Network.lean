import Conduit.Net.Hub
import Conduit.Proofs.Line
import Conduit.Proofs.Schedulers
import Mathlib.Logic.Function.Basic

namespace Conduit.Net

open Pipe

/-- What a line keeps as it changes, all lines keep. -/
theorem update_congr {β : Type} {f : Line → β} {lines : Nat → Line} {j : Nat} {t : Line}
    (kept : f t = f (lines j)) (k : Nat) : f (Function.update lines j t k) = f (lines k) := by
  by_cases here : k = j
  · subst here
    rw [Function.update_self, kept]
  · rw [Function.update_of_ne here]

structure Pairs.Carry (ps : Pairs) (n : Nat) (lines : Nat → Line) : Prop where
  size : ps.list.size = n
  each : ∀ {j : Nat} {p : Pair}, ps.list[j]? = some p → (p.link .first).Carries (lines j)

theorem Pairs.act_eq {ρ : Type} {ps : Pairs} {p : Place} {pair : Pair}
    (there : ps.get? p = some pair) (f : Link → ρ × Link) :
    ps.act p f = (some (f (pair.link p.side)).1,
      { list := ps.list.setIfInBounds p.pair (pair.setLink p.side (f (pair.link p.side)).2) }) := by
  rw [Pairs.act, there]
  rfl

theorem Pairs.act_act {ρ σ : Type} {ps ps' : Pairs} {p : Place} {f : Link → ρ × Link}
    {r : ρ} (h : ps.act p f = (some r, ps')) (g : Link → σ × Link) :
    ps'.act p g = ps.act p fun l ↦ g (f l).2 := by
  match there : ps.get? p with
  | none => simp [Pairs.act, there] at h
  | some pair =>
    rw [Pairs.act_eq there] at h
    obtain ⟨-, rfl⟩ := Prod.mk.inj h
    obtain ⟨hp, -⟩ := Array.getElem?_eq_some_iff.mp there
    have again (q : Pair) : (Pairs.mk (ps.list.setIfInBounds p.pair q)).get? p = some q := by
      rw [Pairs.get?, Array.getElem?_setIfInBounds, if_pos rfl, if_pos hp]
    have link (l : Link) : (pair.setLink p.side l).link p.side = l := by cases p.side <;> rfl
    have set (l l' : Link) :
        (pair.setLink p.side l).setLink p.side l' = pair.setLink p.side l' := by
      cases p.side <;> rfl
    rw [Pairs.act_eq (again _), Pairs.act_eq there, link, set, Array.setIfInBounds_setIfInBounds]

namespace Pairs.Carry

variable {ρ : Type} {ps : Pairs} {n j : Nat} {lines lines' : Nat → Line}

theorem congr (h : ps.Carry n lines) (same : ∀ j < n, lines' j = lines j) : ps.Carry n lines' := by
  refine ⟨h.size, fun {j p} hp ↦ ?_⟩
  obtain ⟨hj, -⟩ := Array.getElem?_eq_some_iff.mp hp
  rw [same j (h.size ▸ hj)]
  exact h.each hp

theorem get? (h : ps.Carry n lines) (hj : j < n) (side : Side) :
    ∃ p, ps.get? ⟨j, side⟩ = some p ∧ (lines j).seenBy side (p.link side) := by
  have there := Array.getElem?_eq_getElem (show j < ps.list.size from h.size ▸ hj)
  exact ⟨_, there, Pair.link_seenBy (h.each there) side⟩

theorem push (h : ps.Carry n lines) {p : Pair} {t : Line} (carries : (p.link .first).Carries t) :
    (Pairs.mk (ps.list.push p)).Carry (n + 1) (Function.update lines n t) := by
  refine ⟨by simp [h.size], fun {j q} hq ↦ ?_⟩
  rw [Array.getElem?_push, h.size] at hq
  by_cases last : j = n
  · subst last
    rw [if_pos rfl] at hq
    rw [Function.update_self, ← Option.some.inj hq]
    exact carries
  · rw [if_neg last] at hq
    rw [Function.update_of_ne last]
    exact h.each hq

theorem sound (h : ps.Carry n lines) (hj : j < n) : (lines j).Sound := by
  obtain ⟨p, -, seen⟩ := h.get? hj .first
  exact seen.sound

/-- What an end does changes its own line. -/
theorem act (h : ps.Carry n lines) (hj : j < n) (side : Side) {f : Link → ρ × Link} {r : ρ}
    {t : Line} (call : ∀ l, (lines j).seenBy side l → (f l).1 = r ∧ t.seenBy side (f l).2) :
    ∃ ps', ps.act ⟨j, side⟩ f = (some r, ps') ∧ ps'.Carry n (Function.update lines j t) := by
  obtain ⟨p, there, seen⟩ := h.get? hj side
  obtain ⟨rfl, after⟩ := call _ seen
  refine ⟨_, Pairs.act_eq there f, by simp [h.size], fun {k q} hq ↦ ?_⟩
  rw [Array.getElem?_setIfInBounds] at hq
  by_cases hk : j = k
  · subst hk
    rw [if_pos rfl, if_pos (h.size ▸ hj)] at hq
    rw [Function.update_self, ← Option.some.inj hq]
    exact Pair.carries_setLink after
  · rw [if_neg hk] at hq
    rw [Function.update_of_ne (Ne.symm hk)]
    exact h.each hq

theorem act_act {σ : Type} (h : ps.Carry n lines) (hj : j < n) (side : Side) {f : Link → ρ × Link}
    {g : Link → σ × Link} {r : ρ} {t : Line}
    (calls : ∀ l, (lines j).seenBy side l → (f l).1 = r ∧ t.seenBy side (g (f l).2).2) :
    ∃ ps', ps.act ⟨j, side⟩ f = (some r, ps') ∧
      (ps'.act ⟨j, side⟩ g).2.Carry n (Function.update lines j t) := by
  obtain ⟨p, there, seen⟩ := h.get? hj side
  have first := Pairs.act_eq there f
  rw [(calls _ seen).1] at first
  obtain ⟨ps', acted, carry⟩ := h.act hj side (f := fun l ↦ ((), (g (f l).2).2))
    fun l seen ↦ ⟨rfl, (calls l seen).2⟩
  rw [Pairs.act_eq there] at acted
  obtain ⟨-, rfl⟩ := Prod.mk.inj acted
  refine ⟨_, first, ?_⟩
  rw [Pairs.act_act first, Pairs.act_eq there]
  exact carry

end Pairs.Carry

def Table.Lists (t : Table) (names : List Nat) (side : Side) : Prop :=
  ∀ id p, t.find? id = some p ↔ ∃ j, names[j]? = some id ∧ p = ⟨j, side⟩

namespace Table.Lists

variable {ρ : Type} {t : Table} {names : List Nat} {side : Side} {id j : Nat}

theorem act (h : t.Lists names side) (hj : names[j]? = some id) (f : Link → ρ × Link) (ps : Pairs) :
    t.act id f ps = ps.act ⟨j, side⟩ f := by
  rw [Table.act, (h id ⟨j, side⟩).mpr ⟨j, hj, rfl⟩]

theorem find?_eq_none_iff (h : t.Lists names side) : t.find? id = none ↔ id ∉ names := by
  rw [List.mem_iff_getElem?, Option.eq_none_iff_forall_ne_some]
  constructor
  · rintro none ⟨j, hj⟩
    exact none _ ((h id _).mpr ⟨j, hj, rfl⟩)
  · intro unknown p hp
    obtain ⟨j, hj, -⟩ := (h id p).mp hp
    exact unknown ⟨j, hj⟩

theorem insert (h : t.Lists names side) (new : id ∉ names) :
    (t.insert id ⟨names.length, side⟩).Lists (names ++ [id]) side := by
  have none : t.find? id = none := h.find?_eq_none_iff.mpr new
  have kept : (t.erase id).entries = t.entries := by
    refine List.filter_eq_self.mpr fun e he ↦ ?_
    have other := List.lookup_eq_none_iff.mp none e he
    simpa using Ne.symm (bne_iff_ne.mp other)
  have lookup (id' : Nat) : (t.insert id ⟨names.length, side⟩).find? id' =
      if id' = id then some ⟨names.length, side⟩ else t.find? id' := by
    rw [find?, Table.insert, kept, List.lookup_cons]
    split <;> simp_all [find?]
  intro id' p
  simp only [getElem?_concat_iff, lookup]
  split
  · rename_i same
    subst same
    constructor
    · rintro ⟨⟩
      exact ⟨_, .inr ⟨rfl, rfl⟩, rfl⟩
    · rintro ⟨j, hj | ⟨rfl, -⟩, rfl⟩
      · exact absurd (List.mem_of_getElem? hj) new
      · rfl
  · rename_i other
    rw [h]
    exact exists_congr fun j ↦ and_congr_left' (or_iff_left fun last ↦ other last.2).symm

end Table.Lists

namespace LoadBalancer

variable {b : LoadBalancer} {names : List Nat} {lines lines' : Nat → Line} {id j : Nat}

/-- The balancer knows the lines that have no room, and stays with a message that is begun. -/
structure Minds (b : LoadBalancer) (names : List Nat) (lines : Nat → Line) : Prop where
  tracks : b.pipes.Tracks names fun j ↦ (lines j).outActive
  aims : b.pipes.Aims b.current
  keeps : b.dropping = false
  begun : b.more = true →
    ∃ j id, names[j]? = some id ∧ b.current? = some id ∧ (lines j).hasRoom = true
  part : ∀ {j id}, names[j]? = some id → (lines j).part ≠ [] →
    b.more = true ∧ b.current? = some id

/-- The balancer may get to know more lines, and those that it knows may get more room. -/
theorem Minds.grow {pipes : ActiveSet Nat} {names' : List Nat} (h : b.Minds names lines)
    (tracks : pipes.Tracks names' fun j ↦ (lines' j).outActive)
    (le : b.pipes.activeLength ≤ pipes.activeLength)
    (kept : ∀ k < b.pipes.activeLength, pipes.current? k = b.pipes.current? k)
    (room : ∀ {j id}, names[j]? = some id → (lines j).hasRoom = true →
      names'[j]? = some id ∧ (lines' j).hasRoom = true)
    (part : ∀ {j id}, names'[j]? = some id → (lines' j).part ≠ [] →
      names[j]? = some id ∧ (lines j).part ≠ []) :
    { b with pipes }.Minds names' lines' := by
  have same {id : Nat} (current : b.current? = some id) : pipes.current? b.current = some id := by
    obtain ⟨hlt, -⟩ := ActiveSet.current?_eq_some_iff.mp current
    exact (kept _ hlt).trans current
  refine ⟨tracks, h.aims.mono le, h.keeps, fun more ↦ ?_, fun {j id} hj hpart ↦ ?_⟩
  · obtain ⟨j, id, hj, current, begun⟩ := h.begun more
    exact ⟨j, id, (room hj begun).1, same current, (room hj begun).2⟩
  · obtain ⟨named, begun⟩ := part hj hpart
    exact (h.part named begun).imp_right same

theorem Minds.congr (h : b.Minds names lines)
    (outActive : ∀ j, (lines' j).outActive = (lines j).outActive)
    (part : ∀ j, (lines' j).part = (lines j).part)
    (room : ∀ j, (lines j).hasRoom = true → (lines' j).hasRoom = true) : b.Minds names lines' :=
  h.grow (h.tracks.congr fun j _ ↦ outActive j) (Nat.le_refl _) (fun _ _ ↦ rfl)
    (fun {j _} hj begun ↦ ⟨hj, room j begun⟩) fun {j _} hj hpart ↦ ⟨hj, part j ▸ hpart⟩

theorem foldl_attach (b : LoadBalancer) (ids : List Nat) :
    ids.foldl attach b = { b with pipes := ids.foldl (fun s id ↦ (s.pushActive id).2) b.pipes } := by
  induction ids generalizing b with
  | nil => rfl
  | cons id ids ih => exact ih (b.attach id)

/-- At first the balancer knows all lines, in whatever order it got to know them. -/
theorem minds_attachAll {order : List Nat} (covers : order.Perm names) (distinct : names.Nodup)
    (blank : ∀ j < names.length, ∃ high, lines j = { highMark := high }) :
    (order.foldl attach {}).Minds names lines := by
  rw [foldl_attach]
  refine ⟨(ActiveSet.tracks_pushAll covers distinct).congr fun j hj ↦ ?_,
    .mono (s := .empty) (.inr ⟨rfl, rfl⟩) (Nat.zero_le _), rfl, nofun, fun {j id} hj part ↦ ?_⟩
  · obtain ⟨high, fresh⟩ := blank j hj
    rw [fresh]
  · obtain ⟨hlt, -⟩ := List.getElem?_eq_some_iff.mp hj
    obtain ⟨high, fresh⟩ := blank j hlt
    rw [fresh] at part
    contradiction

theorem Minds.exists_current (h : b.Minds names lines) (current : b.current? = some id) :
    ∃ j, names[j]? = some id ∧ (lines j).outActive = true := h.tracks.exists_current current

theorem Minds.more_eq_false (h : b.Minds names lines) (hj : names[j]? = some id)
    (current : b.current? = some id) (full : (lines j).hasRoom = false) : b.more = false := by
  refine Bool.eq_false_iff.mpr fun more ↦ ?_
  obtain ⟨k, id', hk, current', room⟩ := h.begun more
  obtain rfl : id' = id := Option.some.inj (current'.symm.trans current)
  rw [h.tracks.eq_of_getElem? hk hj, full] at room
  contradiction

theorem Minds.deactivate (h : b.Minds names lines) (hj : names[j]? = some id)
    (current : b.current? = some id) (ended : b.more = false) :
    b.deactivate.Minds names (Function.update lines j (lines j).refuse) := by
  refine ⟨?_, b.toRota.aims_deactivate, h.keeps, fun more ↦ ?_, fun {k id'} hk hpart ↦ ?_⟩
  · rw [pipes_deactivate]
    refine (h.tracks.deactivateAt current hj).congr fun k _ ↦ ?_
    exact Function.apply_update (fun _ ↦ Line.outActive) lines j _ k
  · exact absurd (ended.symm.trans more) nofun
  · have same := update_congr (f := Line.part) (Line.refuse_part (t := lines j)) k
    have more := (h.part hk (same ▸ hpart)).1
    rw [ended] at more
    contradiction

inductive Sends (names : List Nat) (m : Message) (lines : Nat → Line) (more : Bool) :
    Sent × LoadBalancer × Pairs → Prop
  | placed {lines' : Nat → Line} {j id : Nat} {b : LoadBalancer} {ps : Pairs}
      (same : ∀ k, (lines' k).refuse = (lines k).refuse) (named : names[j]? = some id)
      (minds : b.Minds names (Function.update lines' j ((lines' j).place m)))
      (carry : ps.Carry names.length (Function.update lines' j ((lines' j).place m)))
      (next : b.more = m.more) :
      Sends names m lines more (.placed id, b, ps)
  | blocked {lines' : Nat → Line} {b : LoadBalancer} {ps : Pairs}
      (same : ∀ k, (lines' k).refuse = (lines k).refuse) (minds : b.Minds names lines')
      (carry : ps.Carry names.length lines') (next : b.more = more) :
      Sends names m lines more (.refused .wouldBlock, b, ps)

theorem Sends.of_refuse {m : Message} {more : Bool} {r : Sent × LoadBalancer × Pairs}
    (h : Sends names m lines' more r) (same : ∀ k, (lines' k).refuse = (lines k).refuse) :
    Sends names m lines more r := by
  cases h with
  | placed same' named minds carry next =>
    exact .placed (fun k ↦ (same' k).trans (same k)) named minds carry next
  | blocked same' minds carry next =>
    exact .blocked (fun k ↦ (same' k).trans (same k)) minds carry next

variable {t : Table} {ps : Pairs} {m : Message}

theorem Minds.begin (h : b.Minds names lines) (hj : names[j]? = some id)
    (current : b.current? = some id) (room : (lines j).hasRoom = true) (more : m.more = true) :
    { b with more := true }.Minds names (Function.update lines j ((lines j).place m)) := by
  have outActive := update_congr (f := Line.outActive) (Line.place_outActive (t := lines j) m)
  refine ⟨h.tracks.congr fun k _ ↦ outActive k, h.aims, h.keeps, fun _ ↦ ?_,
    fun {k id'} hk hpart ↦ ?_⟩
  · refine ⟨j, id, hj, current, ?_⟩
    rw [Function.update_self, Line.place, if_pos more]
    exact room
  · refine ⟨rfl, ?_⟩
    by_cases same : k = j
    · subst same
      exact current.trans (hj.symm.trans hk)
    · rw [Function.update_of_ne same] at hpart
      exact (h.part hk hpart).2

theorem Minds.finish (h : b.Minds names lines) (hj : names[j]? = some id)
    (current : b.current? = some id) (ends : m.more = false) :
    { b with more := false }.advance.Minds names (Function.update lines j ((lines j).place m)) := by
  obtain ⟨hlt, -⟩ := ActiveSet.current?_eq_some_iff.mp current
  have outActive := update_congr (f := Line.outActive) (Line.place_outActive (t := lines j) m)
  refine ⟨h.tracks.congr fun k _ ↦ outActive k, .inl (Nat.mod_lt _ (Nat.zero_lt_of_lt hlt)),
    h.keeps, nofun, fun {k id'} hk hpart ↦ ?_⟩
  exfalso
  by_cases same : k = j
  · subst same
    rw [Function.update_self, Line.place, if_neg (by simp [ends])] at hpart
    exact hpart rfl
  · -- the message that the frame ends is the only one that was begun
    rw [Function.update_of_ne same] at hpart
    have other := (h.part hk hpart).2
    rw [current] at other
    exact same (h.tracks.eq_of_getElem? hk (Option.some.inj other ▸ hj))

theorem Minds.sendN (h : b.Minds names lines) (carry : ps.Carry names.length lines)
    (lists : t.Lists names .first) (plain : m.isCredential = false) {turns : Nat}
    (enough : b.pipes.activeLength < turns) :
    Sends names m lines b.more (LoadBalancer.sendN t m turns b ps) := by
  induction turns generalizing b lines ps with
  | zero => contradiction
  | succ turns ih =>
    rw [LoadBalancer.sendN]
    cases current : b.current? with
    | none => exact .blocked (fun _ ↦ rfl) h carry rfl
    | some id =>
      obtain ⟨j, hj, -⟩ := h.exists_current current
      obtain ⟨hlt, -⟩ := List.getElem?_eq_some_iff.mp hj
      dsimp only
      rw [lists.act hj]
      by_cases room : (lines j).hasRoom = true
      · cases ends : m.more with
        | true =>
          obtain ⟨ps', acted, carry'⟩ := carry.act hlt .first
            fun l seen ↦ seen.write_begun room plain ends
          rw [acted]
          exact .placed (fun _ ↦ rfl) hj (h.begin hj current room ends) carry' ends.symm
        | false =>
          -- between the write and the flush the frame is in no part of the line
          obtain ⟨ps', acted, carry'⟩ := carry.act_act hlt .first
            (g := fun l ↦ ((), l.flush)) fun l seen ↦ seen.write_ended room plain ends
          rw [acted]
          dsimp only
          rw [lists.act hj]
          exact .placed (fun _ ↦ rfl) hj (h.finish hj current ends) carry' ends.symm
      · have full : (lines j).hasRoom = false := Bool.eq_false_iff.mpr room
        have ended := h.more_eq_false hj current full
        obtain ⟨ps', acted, carry'⟩ := carry.act hlt .first
          fun l seen ↦ seen.write_full full m
        rw [acted]
        dsimp only
        rw [ended, if_neg (by simp)]
        -- the line is set aside, so that one active line fewer is left to try
        have next := ih (h.deactivate hj current ended) carry' ?_
        · have kept : b.deactivate.more = false := ended
          rw [kept] at next
          exact next.of_refuse fun k ↦ update_congr Line.refuse_refuse k
        · exact Rota.activeLength_deactivate_lt current enough

theorem Minds.send (h : b.Minds names lines) (carry : ps.Carry names.length lines)
    (lists : t.Lists names .first) (plain : m.isCredential = false) :
    Sends names m lines b.more (b.send m t ps) := by
  rw [LoadBalancer.send, if_neg (by simp [h.keeps])]
  exact h.sendN carry lists plain (Nat.lt_succ_self _)

/-- A balancer that knows of a line with room finds a place for any frame. -/
theorem Minds.send_placed (h : b.Minds names lines) (carry : ps.Carry names.length lines)
    (lists : t.Lists names .first) (some : ∃ id, id ∈ b.pipes.active)
    (room : ∀ j < names.length, (lines j).hasRoom = true) (m : Message) :
    ∃ id ∈ names, (b.send m t ps).1 = .placed id := by
  obtain ⟨x, active⟩ := some
  match current : b.current? with
  | none => exact absurd active (h.tracks.sound.notMem_active h.aims current x)
  | some id =>
    obtain ⟨j, hj, -⟩ := h.exists_current current
    obtain ⟨hlt, -⟩ := List.getElem?_eq_some_iff.mp hj
    obtain ⟨p, there, seen⟩ := carry.get? hlt .first
    have written := Pairs.act_eq there (·.write m)
    rw [show ((p.link .first).write m).1 = true by
      rw [Link.Carries.write_eq seen (room j hlt)]] at written
    refine ⟨id, List.mem_of_getElem? hj, ?_⟩
    rw [LoadBalancer.send, if_neg (by simp [h.keeps]), LoadBalancer.sendN, current]
    dsimp only
    rw [lists.act hj, written]
    dsimp only
    split <;> rfl

end LoadBalancer

namespace FairQueue

variable {q : FairQueue} {names : List Nat} {lines lines' : Nat → Line} {id j : Nat}

structure Minds (q : FairQueue) (names : List Nat) (lines : Nat → Line) : Prop where
  tracks : q.pipes.Tracks names fun j ↦ (lines j).inActive
  aims : q.pipes.Aims q.current

theorem Minds.congr (h : q.Minds names lines)
    (inActive : ∀ j, (lines' j).inActive = (lines j).inActive) : q.Minds names lines' :=
  ⟨h.tracks.congr fun j _ ↦ inActive j, h.aims⟩

theorem foldl_attach (q : FairQueue) (ids : List Nat) :
    ids.foldl attach q = { q with pipes := ids.foldl (fun s id ↦ (s.pushActive id).2) q.pipes } := by
  induction ids generalizing q with
  | nil => rfl
  | cons id ids ih => exact ih (q.attach id)

theorem minds_attachAll {order : List Nat} (covers : order.Perm names) (distinct : names.Nodup)
    (blank : ∀ j < names.length, ∃ high, lines j = { highMark := high }) :
    (order.foldl attach {}).Minds names lines := by
  rw [foldl_attach]
  refine ⟨(ActiveSet.tracks_pushAll covers distinct).congr fun j hj ↦ ?_,
    .mono (s := .empty) (.inr ⟨rfl, rfl⟩) (Nat.zero_le _)⟩
  obtain ⟨high, fresh⟩ := blank j hj
  rw [fresh]

theorem Minds.deactivate (h : q.Minds names lines) (hj : names[j]? = some id)
    (current : q.current? = some id) :
    { q with more := false }.deactivate.Minds names (Function.update lines j (lines j).doze) := by
  refine ⟨?_, q.toRota.aims_deactivate⟩
  rw [pipes_deactivate]
  refine (h.tracks.deactivateAt current hj).congr fun k _ ↦ ?_
  exact Function.apply_update (fun _ ↦ Line.inActive) lines j _ k

inductive Receives (names : List Nat) (lines : Nat → Line) :
    Option Received × FairQueue × Pairs → Prop
  | frame {lines' : Nat → Line} {j id : Nat} {m : Message} {rest : List Message} {q : FairQueue}
      {ps : Pairs} (same : ∀ k, (lines' k).doze = (lines k).doze) (named : names[j]? = some id)
      (ready : (lines' j).ready = m :: rest)
      (minds : q.Minds names (Function.update lines' j (lines' j).read.2))
      (carry : ps.Carry names.length (Function.update lines' j (lines' j).read.2)) :
      Receives names lines (some ⟨m, id⟩, q, ps)
  | nothing {lines' : Nat → Line} {q : FairQueue} {ps : Pairs}
      (same : ∀ k, (lines' k).doze = (lines k).doze)
      (idle : ∀ j < names.length, (lines' j).inActive = false) (minds : q.Minds names lines')
      (carry : ps.Carry names.length lines') :
      Receives names lines (none, q, ps)

theorem Receives.of_doze {r : Option Received × FairQueue × Pairs}
    (h : Receives names lines' r) (same : ∀ k, (lines' k).doze = (lines k).doze) :
    Receives names lines r := by
  cases h with
  | frame same' named ready minds carry =>
    exact .frame (fun k ↦ (same' k).trans (same k)) named ready minds carry
  | nothing same' idle minds carry =>
    exact .nothing (fun k ↦ (same' k).trans (same k)) idle minds carry

variable {t : Table} {ps : Pairs}

theorem Minds.take (h : q.Minds names lines) (current : q.current? = some id) {m : Message}
    {rest : List Message} (ready : (lines j).ready = m :: rest) :
    (if m.more then { q with more := m.more }
      else { { q with more := m.more } with lastIn := some id }.advance).Minds names
      (Function.update lines j (lines j).read.2) := by
  obtain ⟨hlt, -⟩ := ActiveSet.current?_eq_some_iff.mp current
  have kept : (lines j).read.2.inActive = (lines j).inActive := by rw [Line.read, ready]
  have tracks : q.pipes.Tracks names fun k ↦
      (Function.update lines j (lines j).read.2 k).inActive :=
    h.tracks.congr fun k _ ↦ update_congr (f := Line.inActive) kept k
  split
  · exact ⟨tracks, h.aims⟩
  · exact ⟨tracks, .inl (Nat.mod_lt _ (Nat.zero_lt_of_lt hlt))⟩

theorem Minds.receiveN (h : q.Minds names lines) (carry : ps.Carry names.length lines)
    (lists : t.Lists names .second) {turns : Nat} (enough : q.pipes.activeLength < turns) :
    Receives names lines (FairQueue.receiveN t turns q ps) := by
  induction turns generalizing q lines ps with
  | zero => contradiction
  | succ turns ih =>
    rw [FairQueue.receiveN]
    cases current : q.current? with
    | none =>
      refine .nothing (fun _ ↦ rfl) (fun j hj ↦ Bool.eq_false_iff.mpr fun active ↦ ?_) h carry
      have named := List.getElem?_eq_getElem hj
      exact h.tracks.sound.notMem_active h.aims current _ ((h.tracks.active named).mpr active)
    | some id =>
      obtain ⟨j, hj, -⟩ := h.tracks.exists_current current
      obtain ⟨hlt, -⟩ := List.getElem?_eq_some_iff.mp hj
      obtain ⟨ps', acted, carry'⟩ := carry.act hlt .second (f := Link.read)
        fun l seen ↦ seen.read_peer
      dsimp only
      rw [lists.act hj]
      cases ready : (lines j).ready with
      | cons m rest =>
        have read : (lines j).read.1 = some m := by rw [Line.read, ready]
        rw [read] at acted
        rw [acted]
        exact .frame (fun _ ↦ rfl) hj ready (h.take current ready) carry'
      | nil =>
        have read : (lines j).read = (none, (lines j).doze) := by rw [Line.read, ready]
        rw [read] at acted carry'
        rw [acted]
        refine (ih (h.deactivate hj current) carry' ?_).of_doze
          fun k ↦ update_congr Line.doze_doze k
        exact Rota.activeLength_deactivate_lt current enough

theorem Minds.receive (h : q.Minds names lines) (carry : ps.Carry names.length lines)
    (lists : t.Lists names .second) : Receives names lines (q.receive t ps) :=
  h.receiveN carry lists (Nat.lt_succ_self _)

end FairQueue

end Conduit.Net
