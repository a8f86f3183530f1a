import Conduit.Proofs.InboundEnd
import Mathlib.Data.Prod.Lex
import Mathlib.Order.WellFounded

namespace Conduit

namespace Pipe

theorem Link.Serves.returned_le {l : Link} {k : Ledger} (h : l.Serves k) :
    k.returned <+: ordinary k.published := by
  rw [h.books.returned, h.books.published, ordinary_append]
  exact List.prefix_append _ _

end Pipe

namespace Bridge

open Wire Pipe

def upTo (acts : ℕ → Act) (n : ℕ) : List Act := (List.range n).map acts

/-- The bytes that arrive with some acts. -/
def arrived (acts : List Act) : Bytes := acts.flatMap Act.bytes

/-- A schedule by which no more arrives than `bytes`, in any pieces, and no end before them. -/
structure Feeds (bytes : Bytes) (acts : ℕ → Act) : Prop where
  peaceful : ∀ n, (acts n).Peaceful
  arrives : ∀ n, arrived (upTo acts n) <+: bytes
  ends : ∀ n, acts n = .endInput → arrived (upTo acts n) = bytes

def later (bytes : Bytes) (acts : ℕ → Act) (n : ℕ) : Bytes :=
  bytes.drop (arrived (upTo acts n)).length

section

variable {bytes : Bytes} {acts : ℕ → Act}

theorem upTo_succ (acts : ℕ → Act) (n : ℕ) : upTo acts (n + 1) = upTo acts n ++ [acts n] := by
  simp [upTo, List.range_succ]

theorem arrived_upTo_succ (acts : ℕ → Act) (n : ℕ) :
    arrived (upTo acts (n + 1)) = arrived (upTo acts n) ++ (acts n).bytes := by
  simp [upTo_succ, arrived]

theorem later_eq_nil {n : ℕ} (whole : arrived (upTo acts n) = bytes) : later bytes acts n = [] := by
  rw [later, whole, List.drop_length]

theorem Feeds.later_eq (h : Feeds bytes acts) (n : ℕ) :
    later bytes acts n = (acts n).bytes ++ later bytes acts (n + 1) := by
  obtain ⟨rest, whole⟩ := h.arrives (n + 1)
  rw [later, later, ← whole, List.drop_left, arrived_upTo_succ, List.append_assoc, List.drop_left]

theorem Feeds.later_of_le (h : Feeds bytes acts) {m n : ℕ} (le : m ≤ n)
    (whole : later bytes acts m = []) : later bytes acts n = [] := by
  induction n, le using Nat.le_induction with
  | base => exact whole
  | succ n _ ih =>
    rw [h.later_eq] at ih
    exact (List.append_eq_nil_iff.mp ih).2

end

namespace Engine

variable {d : Dialect}

def after (e : Engine d) (acts : ℕ → Act) (n : ℕ) : Engine d := e.run (upTo acts n)

/-- The frames that its user was given by then. -/
def given (e : Engine d) (acts : ℕ → Act) (n : ℕ) : List Message := e.framesRead (upTo acts n)

theorem after_succ (e : Engine d) (acts : ℕ → Act) (n : ℕ) :
    e.after acts (n + 1) = (e.after acts n).act (acts n) := by
  rw [after, upTo_succ, run_concat]
  rfl

theorem given_succ (e : Engine d) (acts : ℕ → Act) (n : ℕ) :
    e.given acts (n + 1) = (e.after acts n).noteRead (acts n) (e.given acts n) := by
  rw [given, framesRead, upTo_succ, observe_concat]
  rfl

theorem after_add (e : Engine d) (acts : ℕ → Act) (n k : ℕ) :
    e.after acts (n + k) = (e.after acts n).run ((List.range k).map fun i ↦ acts (n + i)) := by
  induction k with
  | zero => rfl
  | succ k ih =>
    rw [← Nat.add_assoc, after_succ, ih, List.range_succ, List.map_append, run_append]
    rfl

theorem given_le (e : Engine d) (acts : ℕ → Act) {m n : ℕ} (le : m ≤ n) :
    e.given acts m <+: e.given acts n := by
  induction n, le using Nat.le_induction with
  | base => exact List.prefix_rfl
  | succ n _ ih =>
    rw [given_succ]
    refine ih.trans ?_
    unfold noteRead
    split
    · split
      · exact List.prefix_rfl
      · exact List.prefix_append _ _
    · exact List.prefix_rfl

end Engine

/-- Nobody stays idle. The bytes arrive, and their end too, unless they hold what is no frame. The
engine is let run again and again, and as long as the pipe is not ended for it, its user reads and
processes commands again and again. -/
structure Fair {d : Dialect} (e : Engine d) (parse : Parse) (bytes : Bytes) (acts : ℕ → Act) :
    Prop where
  whole : ∃ n, arrived (upTo acts n) = bytes ∧ (parse.error ≠ none ∨ ∃ m < n, acts m = .endInput)
  turns : ∀ n, ∃ m ≥ n, ∃ k ≥ 1, acts m = .turns k
  reads : ∀ n, (e.after acts n).user.self.state ≠ .terminated → ∃ m ≥ n, acts m = .user .read
  hears : ∀ n, (e.after acts n).user.self.state ≠ .terminated → ∃ m ≥ n, acts m = .user .process

def Engine.Looks {f : Framing} (e : Engine f.dialect) (a : Act) : Prop :=
  ∃ k j, a = .turns k ∧ j < k ∧ (Engine.turns j e).AtStream

/-- An engine whose end of the pipe stays active gets to its stream again and again. -/
def Engine.Attentive {f : Framing} (e : Engine f.dialect) (acts : ℕ → Act) : Prop :=
  ∀ n, (∀ m ≥ n, (e.after acts m).link.self.state = .active) →
    ∃ m ≥ n, (e.after acts m).Looks (acts m)

namespace Engine

variable {f : Framing} {s : Settings} {p : Pair} {parse : Parse} {bytes : Bytes} {acts : ℕ → Act}
  {e : Engine f.dialect} {i : Ledger} {m n : ℕ}

theorem ended_act (e : Engine f.dialect) (a : Act) (ended : e.stream.ended = true) :
    (e.act a).stream.ended = true := by
  cases a with
  | turns n =>
    have keep (e e' : Engine f.dialect) (ended : e.stream.ended = true)
        (next : e.turn = some e') : e'.stream.ended = true := by
      have same : e'.stream.ended = e.stream.ended := congrArg (·.2.2.1) (Works.turn next).outer
      exact same.trans ended
    exact turns_keep keep ended n
  | user c =>
    rw [act]
    split <;> exact ended
  | endInput => rfl
  | _ => exact ended

/-- What only the user and the stream do leaves an engine where it is in its loop. -/
theorem phase_act (e : Engine f.dialect) {a : Act} (still : ∀ k ≥ 1, a ≠ .turns k) :
    (e.act a).phase = e.phase := by
  cases a with
  | turns n =>
    cases n with
    | zero => rfl
    | succ n => exact absurd rfl (still (n + 1) (Nat.succ_pos n))
  | user c =>
    rw [act]
    split <;> rfl
  | _ => rfl

theorem ended_after (e : Engine f.dialect) (le : m < n) (shut : acts m = .endInput) :
    (e.after acts n).stream.ended = true := by
  induction n, le using Nat.le_induction with
  | base =>
    rw [after_succ, shut]
    rfl
  | succ n _ ih =>
    rw [after_succ]
    exact ended_act _ _ ih

section

variable (made : Pair.create s = .ok p) (plain : ∀ m ∈ parse.messages, m.isCredential = false)
  (modest : parse.Modest) (feeds : Feeds bytes acts) (start : Runs p parse bytes e {})
  (fair : Fair e parse bytes acts)

include made plain modest feeds start

theorem Runs.after (n : ℕ) :
    ∃ i, i.returned = e.given acts n ∧ Runs p parse (later bytes acts n) (e.after acts n) i := by
  induction n with
  | zero => exact ⟨{}, rfl, start⟩
  | succ n ih =>
    obtain ⟨i, returned, runs⟩ := ih
    obtain ⟨k, noted, runs', -⟩ := runs.act made plain modest (feeds.peaceful n) (feeds.later_eq n)
      fun shut ↦ feeds.later_of_le (Nat.le_succ n) (later_eq_nil (feeds.ends n shut))
    rw [after_succ, given_succ, ← returned]
    exact ⟨k, noted, runs'⟩

theorem Runs.closer (le : m ≤ n) :
    Closer (later bytes acts m) (e.after acts m) (later bytes acts n) (e.after acts n) := by
  induction n, le using Nat.le_induction with
  | base => exact .refl
  | succ n _ ih =>
    obtain ⟨i, -, runs⟩ := start.after made plain modest feeds n
    obtain ⟨-, -, -, closer⟩ := runs.act made plain modest (feeds.peaceful n) (feeds.later_eq n)
      fun shut ↦ feeds.later_of_le (Nat.le_succ n) (later_eq_nil (feeds.ends n shut))
    rw [after_succ]
    exact ih.trans closer

/-- A run comes to rest: from some act on, nothing brings it closer to its end. -/
theorem Runs.comes_to_rest : ∃ m, ∀ n ≥ m,
    (e.after acts n).rank (later bytes acts n) = (e.after acts m).rank (later bytes acts m) ∧
      (e.after acts n).undelivered = (e.after acts m).undelivered := by
  let left (n : ℕ) : ℕ ×ₗ ℕ :=
    toLex ((e.after acts n).rank (later bytes acts n), (e.after acts n).undelivered)
  refine ⟨Function.argmin left, fun n le ↦ ?_⟩
  have closer := start.closer made plain modest feeds le
  have least := Function.not_lt_argmin left n
  have no_less := fun less ↦ least (Prod.Lex.toLex_lt_toLex.mpr (.inl less))
  have rank := le_antisymm closer.rank_le (not_lt.mp no_less)
  refine ⟨rank, le_antisymm (closer.undelivered rank) (not_lt.mp fun less ↦ least ?_)⟩
  exact Prod.Lex.toLex_lt_toLex.mpr (.inr ⟨rank, less⟩)

/-- An engine that is let run four turns with nothing in between gets to its stream. -/
theorem Runs.attentive (turns : ∀ n, ∃ m ≥ n, ∃ k ≥ 4, acts m = .turns k) : e.Attentive acts := by
  intro n active
  obtain ⟨m, le, k, enough, next⟩ := turns n
  obtain ⟨i, -, runs⟩ := start.after made plain modest feeds m
  refine ⟨m, le, ?_⟩
  rcases runs.gets_to_stream made plain modest (active m le) ((toStream_le _).trans enough) with
    ⟨j, less, there⟩ | ended
  · exact ⟨k, j, next, less, there⟩
  · have still := active (m + 1) (le.trans (Nat.le_succ m))
    rw [after_succ, next] at still
    exact absurd still ended

structure Rests (p : Pair) (parse : Parse) (e : Engine f.dialect) (acts : ℕ → Act) (m : ℕ) :
    Prop where
  runs : ∀ n ≥ m, ∃ i, Runs p parse [] (e.after acts n) i
  shut : ∀ n ≥ m, (e.after acts n).stream.ended = true ∨ parse.error ≠ none
  rank : ∀ n ≥ m, (e.after acts n).rank [] = (e.after acts m).rank []
  self : ∀ n ≥ m, (e.after acts n).link.self.state = (e.after acts m).link.self.state
  peer : ∀ n ≥ m, (e.after acts n).link.peer.state = (e.after acts m).link.peer.state
  undelivered : ∀ n ≥ m, (e.after acts n).undelivered = (e.after acts m).undelivered

include fair in
theorem Runs.rests : ∃ m, Rests p parse e acts m := by
  obtain ⟨whole_at, arrives, shut⟩ := fair.whole
  obtain ⟨rest_at, rest⟩ := start.comes_to_rest made plain modest feeds
  let m := max whole_at rest_at
  have whole {n : ℕ} (le : m ≤ n) : later bytes acts n = [] :=
    feeds.later_of_le ((Nat.le_max_left _ _).trans le) (later_eq_nil arrives)
  have rest {n : ℕ} (le : m ≤ n) : (e.after acts n).rank [] = (e.after acts m).rank [] ∧
      (e.after acts n).undelivered = (e.after acts m).undelivered := by
    have now := rest n ((Nat.le_max_right _ _).trans le)
    have before := rest m (Nat.le_max_right _ _)
    rw [whole le] at now
    rw [whole le_rfl] at before
    exact ⟨now.1.trans before.1.symm, now.2.trans before.2.symm⟩
  have states {n : ℕ} (le : m ≤ n) :
      (e.after acts n).link.self.state = (e.after acts m).link.self.state ∧
        (e.after acts n).link.peer.state = (e.after acts m).link.peer.state := by
    have closer := start.closer made plain modest feeds le
    rw [whole le, whole le_rfl] at closer
    have rank := (rest le).1
    have toRead := closer.toRead
    have self := closer.self
    have peer := closer.peer
    simp only [Engine.rank] at rank
    exact ⟨State.remaining_inj (by omega), State.remaining_inj (by omega)⟩
  refine ⟨m, fun n le ↦ ?_, fun n le ↦ ?_, fun n le ↦ (rest le).1, fun n le ↦ (states le).1,
    fun n le ↦ (states le).2, fun n le ↦ (rest le).2⟩
  · obtain ⟨i, -, runs⟩ := start.after made plain modest feeds n
    rw [whole le] at runs
    exact ⟨i, runs⟩
  · refine shut.symm.imp_left ?_
    rintro ⟨k, less, ends⟩
    exact e.ended_after (less.trans_le ((Nat.le_max_left _ _).trans le)) ends

end

section

variable (made : Pair.create s = .ok p) (plain : ∀ m ∈ parse.messages, m.isCredential = false)
  (modest : parse.Modest) (h : Rests p parse e acts m) (fair : Fair e parse bytes acts)
  (attentive : e.Attentive acts)

include h

theorem Rests.not_less (le : m ≤ n) {a : Act} (next : acts n = a) :
    ¬((e.after acts n).act a).rank [] < (e.after acts n).rank [] := by
  have after := e.after_succ acts n
  rw [next] at after
  rw [← after, h.rank n le, h.rank (n + 1) (le.trans (Nat.le_succ n))]
  exact lt_irrefl _

include made plain modest fair

omit plain modest in
/-- At rest a user that reads has read all that there is, and the engine has more to come. -/
theorem Rests.read (reads : (e.after acts m).link.peer.state.reads = true) :
    (e.after acts m).undelivered = 0 ∧ (e.after acts m).link.self.state = .active := by
  have unended : (e.after acts m).user.self.state ≠ .terminated := by
    intro ended
    have ended : (e.after acts m).link.peer.state = .terminated := ended
    rw [ended] at reads
    cases reads
  obtain ⟨n, le, next⟩ := fair.reads m unended
  obtain ⟨i, runs⟩ := h.runs n le
  have nothing : ¬((e.after acts n).undelivered ≠ 0 ∨ Ends p parse (e.after acts n) i) := by
    intro some
    rcases runs.read_progress made (h.peer n le ▸ reads) some with less | less
    · exact h.not_less le next less
    · have after := e.after_succ acts n
      rw [next] at after
      rw [← after, h.undelivered n le, h.undelivered (n + 1) (le.trans (Nat.le_succ n))] at less
      exact lt_irrefl _ less
  rw [not_or, not_not] at nothing
  have flows := runs.way.resolve_right nothing.2
  exact ⟨(h.undelivered n le).symm.trans nothing.1, (h.self n le).symm.trans flows.active⟩

/-- An engine at rest has heard that its user agreed to end the pipe. -/
theorem Rests.unagreed (asked : (e.after acts m).link.self.state = .terminating) :
    (e.after acts m).link.peer.state ≠ .termAckSent := by
  intro agreed
  have turned {n : ℕ} (le : m ≤ n) {k : ℕ} (some : k ≥ 1) (next : acts n = .turns k) :
      (e.after acts n).phase ≠ .top ∧ (e.after acts (n + 1)).phase = .top := by
    obtain ⟨i, runs⟩ := h.runs n le
    obtain ⟨k, rfl⟩ := Nat.exists_eq_add_of_le' some
    have progress := runs.turns_agreed made plain modest ((h.self n le).trans asked)
      ((h.peer n le).trans agreed) k
    rw [after_succ, next]
    exact progress.resolve_left (h.not_less le next)
  obtain ⟨first, le, k, some, next⟩ := fair.turns m
  -- it stays at the top of its loop, where its next turn would take it further
  have top {n : ℕ} (le' : first + 1 ≤ n) : (e.after acts n).phase = .top := by
    induction n, le' using Nat.le_induction with
    | base => exact (turned le some next).2
    | succ n le' ih =>
      rw [after_succ, phase_act _ fun k some next ↦ ?_]
      · exact ih
      · exact (turned (by omega) some next).1 ih
  obtain ⟨second, le', k', some', next'⟩ := fair.turns (first + 1)
  exact (turned (by omega) some' next').1 (top le')

include attentive

theorem Rests.user_terminated : (e.after acts m).link.peer.state = .terminated := by
  by_contra unended
  obtain ⟨i, runs⟩ := h.runs m le_rfl
  cases reads : (e.after acts m).link.peer.state.reads with
  | true =>
    obtain ⟨read, active⟩ := h.read made fair reads
    obtain ⟨n, le, k, j, next, less, there⟩ := attentive m fun n le ↦ (h.self n le).trans active
    obtain ⟨k', runs'⟩ := h.runs n le
    have flows := runs'.way.resolve_right fun ends ↦ ends.asked ((h.self n le).trans active)
    have ripe : Ripe p parse (e.after acts n) k' :=
      ⟨runs', flows, (h.undelivered n le).trans read, h.shut n le⟩
    exact h.not_less le next (ripe.turns_progress made plain modest less there)
  | false =>
    have asked : (e.after acts m).link.self.state ≠ .active := by
      intro active
      have flows := runs.way.resolve_right fun ends ↦ ends.asked active
      rw [(flows.fed.running made active).peer] at reads
      cases reads
    obtain ⟨n, le', hears⟩ := fair.hears m unended
    obtain ⟨i', runs''⟩ := h.runs n le'
    have hear_less := h.not_less le' hears
    have leads := (runs.led.serves made).leads
    have leading := leads.self.resolve_left asked
    have heard (waiting : (e.after acts m).link.peer.state ≠ .waitingForDelimiter)
        (behind : (e.after acts m).link.peer.state.progress <
          min 3 ((e.after acts m).link.self.state.progress + 1)) : False := by
      rw [← h.self n le', ← h.peer n le'] at *
      exact hear_less (runs''.hear_progress made asked waiting behind)
    match peer : (e.after acts m).link.peer.state with
    | .active | .waitingForDelimiter =>
      rw [peer] at reads
      cases reads
    | .delimiterReceived =>
      rw [peer] at heard
      refine heard nofun ?_
      rcases leading with self | self <;> rw [self] <;> decide
    | .termAckSent =>
      rcases leading with self | self
      · exact h.unagreed made plain modest fair self peer
      · rw [peer, self] at heard
        exact heard nofun (by decide)
    | .terminating => exact leads.peer.1 peer
    | .doubleTerminated => exact leads.peer.2 peer
    | .terminated => exact unended peer

theorem Rests.terminated : (e.after acts m).link.self.state = .terminated := by
  obtain ⟨i, runs⟩ := h.runs m le_rfl
  have leads := (runs.led.serves made).leads
  have shaking := leads.shaking
  have shut := h.user_terminated made plain modest fair attentive
  rw [Link.Shaking, shut] at shaking
  generalize (e.after acts m).link.self.due = due at shaking
  generalize (e.after acts m).link.peer.due = due' at shaking
  rcases leads.self with self | self | self
  · rw [self] at shaking
    rcases shaking with stage | stage <;> cases stage
  · rw [self] at shaking
    rcases shaking with stage | stage
    · cases stage
    · cases stage with
      | asked unasked => exact absurd unasked (by decide)
  · exact self

end

section

variable (made : Pair.create s = .ok p) (plain : ∀ m ∈ parse.messages, m.isCredential = false)

include made plain

theorem Runs.given_le {later : Bytes} (h : Runs p parse later e i) :
    i.returned <+: wholeMessages parse.messages := by
  have whole_plain : ∀ m ∈ wholeMessages parse.messages, m.isCredential = false := fun m hm ↦
    plain m ((List.rdropWhile_prefix _ _).subset hm)
  have serves := h.led.serves made
  rw [← ordinary_of_plain whole_plain]
  rcases h.way with flows | ends
  · refine serves.returned_le.trans (List.IsPrefix.filter _ ?_)
    rw [flows.flushed, flows.carries.leads.messages, List.append_assoc]
    exact wholeMessages_le_append _ _
  · rw [← ends.log]
    exact serves.in_order

theorem Runs.given_eq {later : Bytes} (h : Runs p parse later e i) (delay : p.first.delay = true)
    (shut : e.link.peer.state = .terminated) : i.returned = wholeMessages parse.messages := by
  obtain ⟨o, reached⟩ := h.led
  obtain ⟨calls, link, books, -, users, -⟩ := reached.calls
  have stopped : ((p.run calls).link .second).peer.state.reads = false := by
    rw [link, shut]
    rfl
  obtain ⟨asked, given⟩ := @Pair.given s p .second calls made delay
    (fun c hc ↦ (users c hc).patient) stopped
  rw [link] at asked
  rw [books] at given
  have ends := h.way.resolve_left fun flows ↦ asked flows.active
  rw [given, ends.log, ordinary_of_plain]
  exact fun m hm ↦ plain m ((List.rdropWhile_prefix _ _).subset hm)

end

theorem runs_create (made : Pair.create s = .ok p) (bufferSize : ℕ) (limits : Limits)
    (bytes : Bytes) :
    Runs p (f.parse limits bytes) bytes (create f.dialect p {} bufferSize limits) {} := by
  have fresh : p.firstDropped = false ∧ p.second.inbox.closed = false ∧
      p.second.state = .active := by
    obtain ⟨rfl, -⟩ := Pair.create_eq_ok made
    exact ⟨rfl, rfl, rfl⟩
  obtain ⟨there, opened, active⟩ := fresh
  let decoder : Decoder f.dialect := { limits, allocator := .heap }
  have ahead : decoder.ahead bytes = f.parse limits bytes := Decoder.ahead_start rfl bytes
  have carries : (create f.dialect p {} bufferSize limits).inbound.Carries (f.parse limits bytes) []
      bytes := by
    refine ⟨Nat.lt_of_lt_of_le Nat.zero_lt_one (Nat.le_max_right bufferSize 1),
      Decoder.ready_start (Allocator.ample_of_supply trivial), ?_⟩
    have leads := Parse.Leads.refl (f.parse limits bytes)
    rwa [← ahead] at leads ⊢
  exact ⟨.inl ⟨.start p, active, rfl, nofun, rfl, carries⟩, ⟨there, opened, rfl, rfl, rfl, nofun⟩,
    .inl rfl⟩

end Engine

structure Act.Aside (a : Act) : Prop where
  peaceful : a.Peaceful
  bytes : a.bytes = []
  unended : a ≠ .endInput

theorem Act.aside_turns (n : ℕ) : (turns n).Aside := ⟨trivial, rfl, Act.noConfusion⟩

theorem Act.aside_user {c : Call} (allowed : talks c) : (user c).Aside :=
  ⟨allowed, rfl, Act.noConfusion⟩

/-- A schedule that feeds pieces and then the end to an engine, and goes on with others. -/
def feeding (pieces : List Bytes) (others : ℕ → Act) (n : ℕ) : Act :=
  match pieces[n]? with
  | some piece => .arrive piece
  | none => if n = pieces.length then .endInput else others (n - (pieces.length + 1))

section

variable (pieces : List Bytes) (others : ℕ → Act)

theorem feeding_behind (n : ℕ) : feeding pieces others (pieces.length + 1 + n) = others n := by
  have behind : pieces.length < pieces.length + 1 + n := by omega
  rw [feeding, List.getElem?_eq_none behind.le, if_neg behind.ne', Nat.add_sub_cancel_left]

theorem feeding_endInput : feeding pieces others pieces.length = .endInput := by
  rw [feeding, List.getElem?_eq_none le_rfl, if_pos rfl]

variable {others} (aside : ∀ n, (others n).Aside)

include aside

theorem arrived_feeding (n : ℕ) :
    arrived (upTo (feeding pieces others) n) = (pieces.take n).flatten := by
  induction n with
  | zero => rfl
  | succ n ih =>
    rw [arrived_upTo_succ, ih, List.take_add_one, List.flatten_append]
    congr 1
    rw [feeding]
    cases pieces[n]? with
    | some piece => exact (List.append_nil piece).symm
    | none =>
      dsimp only
      split
      · rfl
      · exact (aside _).bytes

theorem feeding_whole : ∃ n, arrived (upTo (feeding pieces others) n) = pieces.flatten ∧
    ∃ m < n, feeding pieces others m = .endInput := by
  refine ⟨pieces.length + 1, ?_, pieces.length, Nat.lt_succ_self _, feeding_endInput pieces others⟩
  rw [arrived_feeding pieces aside, List.take_of_length_le (Nat.le_succ _)]

theorem feeding_feeds : Feeds pieces.flatten (feeding pieces others) where
  peaceful n := by
    rw [feeding]
    split
    · trivial
    · split
      · trivial
      · exact (aside _).peaceful
  arrives n := by
    rw [arrived_feeding pieces aside]
    exact ⟨(pieces.drop n).flatten, by rw [← List.flatten_append, List.take_append_drop]⟩
  ends n shut := by
    rw [feeding] at shut
    split at shut
    · cases shut
    · split at shut
      · rename_i last
        rw [arrived_feeding pieces aside, last, List.take_length]
      · exact absurd shut (aside _).unended

end

def repeating (round : List Act) (n : ℕ) : Act := round.getD (n % round.length) (.turns 0)

theorem repeating_add (round : List Act) (n i : ℕ) :
    repeating round (round.length * n + i) = repeating round i := by
  rw [repeating, repeating, Nat.mul_add_mod]

theorem repeating_aside {round : List Act} (aside : ∀ a ∈ round, a.Aside) (n : ℕ) :
    (repeating round n).Aside := by
  rw [repeating, List.getD_eq_getElem?_getD]
  cases there : round[n % round.length]? with
  | none => exact Act.aside_turns 0
  | some a => exact aside a (List.mem_of_getElem? there)

theorem feeding_round (pieces : List Bytes) (round : List Act) (n : ℕ) :
    ((List.range round.length).map fun i ↦
      feeding pieces (repeating round) (pieces.length + 1 + round.length * n + i)) = round := by
  refine List.ext_getElem (by simp) fun i less less' ↦ ?_
  rw [List.getElem_map, List.getElem_range, Nat.add_assoc, feeding_behind, repeating_add, repeating,
    Nat.mod_eq_of_lt less', List.getD_eq_getElem?_getD, List.getElem?_eq_getElem less',
    Option.getD_some]

theorem feeding_again (pieces : List Bytes) {round : List Act} {a : Act} (there : a ∈ round)
    (n : ℕ) : ∃ m ≥ n, feeding pieces (repeating round) m = a := by
  obtain ⟨i, less, rfl⟩ := List.mem_iff_getElem.mp there
  have le := Nat.le_mul_of_pos_left n (Nat.zero_lt_of_lt less)
  refine ⟨pieces.length + 1 + (round.length * n + i), by omega, ?_⟩
  rw [feeding_behind, repeating_add, repeating, Nat.mod_eq_of_lt less,
    List.getD_eq_getElem?_getD, List.getElem?_eq_getElem less, Option.getD_some]

theorem feeding_fair {f : Framing} (e : Engine f.dialect) (parse : Parse) (pieces : List Bytes)
    {round : List Act} (aside : ∀ a ∈ round, a.Aside) {k : ℕ} (some : k ≥ 1)
    (turns : .turns k ∈ round) (reads : .user .read ∈ round) (hears : .user .process ∈ round) :
    Fair e parse pieces.flatten (feeding pieces (repeating round)) := by
  refine ⟨?_, fun n ↦ ?_, fun n _ ↦ feeding_again pieces reads n,
    fun n _ ↦ feeding_again pieces hears n⟩
  · obtain ⟨n, whole, shut⟩ := feeding_whole pieces (repeating_aside aside)
    exact ⟨n, whole, .inr shut⟩
  · obtain ⟨m, le, next⟩ := feeding_again pieces turns n
    exact ⟨m, le, k, some, next⟩

/-- The way in through an engine that is not stopped and whose stream fails no write. Its user waits
for it to end the pipe, and writes, flushes, reads and processes commands until then. However the
bytes of the stream are cut and whatever is done in between, the user is given the front of the
frames that they hold, up to their end or to the first that is none, without those of a last message
that is not complete. Where nobody stays idle, the user is given all of these frames and both ends of
the pipe come to their last state just if the engine gets to its stream as long as it reads on. -/
theorem Engine.inbound_delivered (f : Framing) {s : Settings} {p : Pair}
    (made : Pair.create s = .ok p) (delay : s.delays.1 = true) (bufferSize : ℕ) (limits : Limits)
    {bytes : Bytes} (modest : (f.parse limits bytes).Modest) {acts : ℕ → Act}
    (feeds : Feeds bytes acts) :
    let parse := f.parse limits bytes
    let e := create f.dialect p {} bufferSize limits
    (∀ n, e.given acts n <+: wholeMessages parse.messages) ∧
      (Fair e parse bytes acts → (e.Attentive acts ↔ ∃ m, ∀ n ≥ m,
        e.given acts n = wholeMessages parse.messages ∧
        (e.after acts n).link.self.state = .terminated ∧
        (e.after acts n).user.self.state = .terminated)) := by
  intro parse e
  have start : Runs p parse bytes e {} := runs_create made bufferSize limits bytes
  have plain := f.parse_plain limits bytes
  refine ⟨fun n ↦ ?_, fun fair ↦ ⟨fun attentive ↦ ?_, ?_⟩⟩
  · obtain ⟨i, given, runs⟩ := start.after made plain modest feeds n
    rw [← given]
    exact runs.given_le made plain
  · have waits : p.first.delay = true := by
      obtain ⟨rfl, -⟩ := Pair.create_eq_ok made
      exact delay
    obtain ⟨m, rest⟩ := start.rests made plain modest feeds fair
    have self := rest.terminated made plain modest fair attentive
    have peer := rest.user_terminated made plain modest fair attentive
    refine ⟨m, fun n le ↦ ⟨?_, (rest.self n le).trans self, (rest.peer n le).trans peer⟩⟩
    obtain ⟨i, given, runs⟩ := start.after made plain modest feeds n
    rw [← given]
    exact runs.given_eq made plain waits ((rest.peer n le).trans peer)
  · intro delivered n active
    obtain ⟨m, delivered⟩ := delivered
    have ended := (delivered (max m n) (Nat.le_max_left m n)).2.1
    rw [active (max m n) (Nat.le_max_right m n)] at ended
    cases ended

theorem Engine.inbound_delivered_unfinished :
    let pieces : List Bytes := [[1, 1, 5, 0], [1, 6, 1, 0]]
    let round : List Act := [.turns 4, .user .read, .user .process]
    let acts := feeding pieces (repeating round)
    let p := Pair.ofSettings {}
    let e := create flagsFirst p {} 2 {}
    Pair.create {} = .ok p ∧ Feeds pieces.flatten acts ∧
      Fair e (Framing.flagsFirst.parse {} pieces.flatten) pieces.flatten acts ∧
      Engine.Attentive (f := .flagsFirst) e acts ∧ ∃ m, ∀ n ≥ m,
        e.given acts n = [{ data := [5], flags := 1 }, { data := [6] }] ∧
        (e.after acts n).link.self.state = .terminated ∧
        (e.after acts n).user.self.state = .terminated := by
  intro pieces round acts p e
  have made : Pair.create {} = .ok p := rfl
  have aside : ∀ a ∈ round, a.Aside := by
    simp only [round, List.forall_mem_cons]
    exact ⟨Act.aside_turns 4, Act.aside_user trivial, Act.aside_user trivial, nofun⟩
  have feeds : Feeds pieces.flatten acts := feeding_feeds pieces (repeating_aside aside)
  have fair : Fair e (Framing.flagsFirst.parse {} pieces.flatten) pieces.flatten acts :=
    feeding_fair (f := .flagsFirst) e _ pieces aside (k := 4) (by decide) (by simp [round])
      (by simp [round]) (by simp [round])
  have turns (n : ℕ) : ∃ m ≥ n, ∃ k ≥ 4, acts m = .turns k := by
    obtain ⟨m, le, next⟩ := feeding_again pieces (List.mem_cons_self : .turns 4 ∈ round) n
    exact ⟨m, le, 4, le_rfl, next⟩
  have modest :
      ∀ size ∈ (Framing.flagsFirst.parse {} pieces.flatten).sizes, size < Storage.limit := by
    decide +kernel
  have whole : wholeMessages (Framing.flagsFirst.parse {} pieces.flatten).messages =
      [{ data := [5], flags := 1 }, { data := [6] }] := by
    decide +kernel
  have start := runs_create (f := .flagsFirst) made 2 {} pieces.flatten
  have attentive : Engine.Attentive (f := .flagsFirst) e acts :=
    start.attentive made (Framing.flagsFirst.parse_plain {} pieces.flatten) modest feeds turns
  have delivered := ((inbound_delivered .flagsFirst made rfl 2 {} modest feeds).2 fair).mp attentive
  rw [whole] at delivered
  exact ⟨made, feeds, fair, attentive, delivered⟩

end Bridge

end Conduit
