import Conduit.Proofs.Decoding
import Conduit.Proofs.Feed

namespace Conduit

namespace Wire

theorem and_flags_credential (flags : UInt8) :
    (flags &&& Flag.more ||| flags >>> 1 &&& Flag.command) &&& Flag.credential = 0 ∧
      (flags &&& Flag.more) &&& Flag.credential = 0 := by
  have all : ∀ n : Fin 256, let flags := UInt8.ofNat n
      (flags &&& Flag.more ||| flags >>> 1 &&& Flag.command) &&& Flag.credential = 0 ∧
        (flags &&& Flag.more) &&& Flag.credential = 0 := by
    decide +kernel
  have this := all ⟨flags.toNat, flags.toNat_lt⟩
  simpa only [UInt8.ofNat_toNat] using this

theorem SizeFirst.flags_of_headBehind {l : Limits} {n size : Nat} {flags : UInt8}
    {bytes rest : Bytes} (h : headBehind l n bytes = .whole size flags rest) :
    flags &&& Flag.credential = 0 := by
  unfold headBehind at h
  split at h
  · cases h
  · split at h <;> cases h
    exact (and_flags_credential _).2

theorem FlagsFirst.flags_of_headBehind {l : Limits} {width size : Nat} {known flags : UInt8}
    {bytes rest : Bytes} (h : headBehind l known width bytes = .whole size flags rest) :
    flags = known := by
  unfold headBehind at h
  split at h
  · cases h
  · dsimp only at h
    split at h <;> cases h
    rfl

namespace Framing

variable {f : Framing} {l : Limits}

theorem flags_of_head {bytes rest : Bytes} {size : Nat} {flags : UInt8}
    (h : f.head l bytes = .whole size flags rest) : flags &&& Flag.credential = 0 := by
  cases f with
  | sizeFirst =>
    have h : SizeFirst.head l bytes = .whole size flags rest := h
    unfold SizeFirst.head at h
    split at h
    · cases h
    · split at h
      · exact SizeFirst.flags_of_headBehind h
      · split at h
        · cases h
        · exact SizeFirst.flags_of_headBehind h
  | flagsFirst =>
    have h : FlagsFirst.head l bytes = .whole size flags rest := h
    unfold FlagsFirst.head at h
    split at h
    · cases h
    · rw [FlagsFirst.flags_of_headBehind h]
      exact (and_flags_credential _).1

theorem parse_plain (f : Framing) (l : Limits) (bytes : Bytes) :
    ∀ m ∈ (f.parse l bytes).messages, m.isCredential = false := by
  rw [parse]
  split
  · exact nofun
  · exact nofun
  · rename_i size flags rest head
    have shorter := length_of_head head
    have others := parse_plain f l (rest.drop size)
    rw [Parse.announce]
    split
    · exact nofun
    · intro m hm
      rcases List.mem_cons.mp hm with rfl | hm
      · rw [Message.isCredential, Message.has, flags_of_head head]
        rfl
      · exact others m hm
termination_by bytes.length
decreasing_by
  rw [List.length_drop]
  omega

end Framing

end Wire

namespace Bridge

open Wire Pipe

namespace Inbound

variable {f : Framing} {i : Inbound f.dialect} {parse : Parse} {log : List Message} {behind : Bytes}

structure Carries (i : Inbound f.dialect) (parse : Parse) (log : List Message) (behind : Bytes) :
    Prop where
  bufferSize : 0 < i.bufferSize
  ready : i.decoder.Ready
  leads : parse.Leads (log ++ i.stalled.toList) (i.decoder.ahead (i.buffered ++ behind))

structure Settled (i : Inbound f.dialect) (l : Link) : Prop where
  stalled : i.buffered ≠ [] → i.stalled ≠ none
  refused : i.stalled ≠ none → l.self.outActive = false

theorem Carries.mem_of_stalled (h : i.Carries parse log behind) {m : Message}
    (stalled : i.stalled = some m) : m ∈ parse.messages := by
  rw [h.leads.messages, stalled]
  simp

theorem Carries.written (h : i.Carries parse log behind) {m : Message}
    (stalled : i.stalled = some m) :
    Carries { i with stalled := none } parse (log ++ [m]) behind := by
  refine ⟨h.bufferSize, h.ready, ?_⟩
  have leads := h.leads
  rw [stalled] at leads
  simpa using leads

theorem Carries.decode (h : i.Carries parse log behind) (none : i.stalled = none)
    (modest : parse.Modest) :
    match i.decoder.decode i.buffered with
    | .ok out =>
      Carries { i with
        decoder := out.decoder
        buffered := out.rest
        stalled := out.delivery.map Delivery.message } parse log behind
    | .error e => parse.messages = log ∧ parse.error.map .malformed = some e := by
  have leads := h.leads
  rw [none, Option.toList_none, List.append_nil] at leads
  have decoded := h.ready.decode (leads.modest modest)
  match found : i.decoder.decode i.buffered with
  | .ok out =>
    rw [found] at decoded
    obtain ⟨ready, -, next⟩ := decoded
    exact ⟨h.bufferSize, ready, leads.trans next⟩
  | .error e =>
    rw [found] at decoded
    obtain ⟨nothing, error⟩ := decoded
    exact ⟨by rw [leads.messages, nothing, List.append_nil], leads.error ▸ error⟩

theorem wantsInput_iff {i : Inbound f.dialect} :
    i.wantsInput = true ↔ i.stalled = none ∧ i.buffered = [] := by
  simp [wantsInput]

theorem room_of_direct (straight : i.direct = true) : i.room = i.decoder.room := if_pos straight

theorem Carries.room_pos (h : i.Carries parse log behind) : 0 < i.room := by
  unfold room
  split
  · exact h.ready.room
  · exact h.bufferSize

def weight (i : Inbound f.dialect) : Nat := 2 * i.buffered.length + i.stalled.toList.length

theorem weight_deliverN (i : Inbound f.dialect) (turns count : Nat) (l : Link) :
    let out := deliverN turns count i l
    out.inbound.weight ≤ i.weight ∧
      (out.inbound.weight = i.weight → out.failure = none → out.count = count) := by
  induction turns generalizing count i l with
  | zero => exact ⟨le_rfl, fun _ _ ↦ rfl⟩
  | succ turns ih =>
    have decoded (count : Nat) (i : Inbound f.dialect) (l : Link) (none : i.stalled = none) :
        let out := decodeOn turns count i l
        out.inbound.weight ≤ i.weight ∧
          (out.inbound.weight = i.weight → out.failure = Option.none → out.count = count) := by
      unfold decodeOn
      split
      · exact ⟨le_rfl, fun _ _ ↦ rfl⟩
      · rename_i left
        have left : i.buffered ≠ [] := fun used ↦ left (List.isEmpty_iff.mpr used)
        have some_left := List.length_pos_iff.mpr left
        split
        · exact ⟨le_rfl, fun _ ↦ nofun⟩
        · rename_i out found
          have shorter := Decoder.length_rest_decode found
          have lighter : weight { i with
              decoder := out.decoder
              buffered := out.rest
              stalled := out.delivery.map Delivery.message } < i.weight := by
            have few : (out.delivery.map Delivery.message).toList.length ≤ 1 := by
              cases out.delivery <;> simp
            simp only [weight]
            omega
          have less := (ih { i with
              decoder := out.decoder
              buffered := out.rest
              stalled := out.delivery.map Delivery.message } count l).1.trans_lt lighter
          exact ⟨less.le, fun same ↦ absurd same less.ne⟩
    match stalled : i.stalled with
    | none =>
      rw [deliverN_none stalled]
      exact decoded count i l stalled
    | some m =>
      rw [deliverN_some stalled]
      split
      · have written : weight { i with stalled := none } < i.weight := by
          simp only [weight, stalled, Option.toList_none, Option.toList_some, List.length_nil,
            List.length_singleton]
          omega
        have less := (decoded (count + 1) { i with stalled := none } (l.write m).2 rfl).1.trans_lt
          written
        exact ⟨less.le, fun same ↦ absurd same less.ne⟩
      · exact ⟨le_rfl, fun _ _ ↦ rfl⟩

theorem weight_deliver (i : Inbound f.dialect) (l : Link) :
    (i.deliver l).inbound.weight ≤ i.weight := by
  have same : (i.deliver l).inbound = (deliverN (i.buffered.length + 1) 0 i l).inbound := by
    unfold deliver
    dsimp only
    split <;> rfl
  rw [same]
  exact (i.weight_deliverN (i.buffered.length + 1) 0 l).1

structure Conveyed (p : Pair) (parse : Parse) (behind : Bytes) (k : Ledger) (count : Nat)
    (out : Delivered f.dialect) (log : List Message) : Prop where
  fed : Fed p out.link { k with log }
  active : out.link.self.state = .active
  goes_on : out.failure = none →
    out.inbound.Carries parse log behind ∧ out.inbound.Settled out.link
  counts : out.failure = none → count ≤ out.count ∧ (out.count = count → log = k.log)
  fails : ∀ x, out.failure = some x → parse.messages = log ∧ parse.error.map .malformed = some x

/-- Bytes that were read go straight to the decoder, or to it through the buffer. -/
theorem Carries.accept {bytes : Bytes} {direct : Bool}
    (h : i.Carries parse log (bytes ++ behind)) (modest : parse.Modest)
    (wants : i.wantsInput = true) (fits : direct = true → bytes.length ≤ i.decoder.room) :
    match i.accept bytes direct with
    | .ok i' => i'.Carries parse log behind ∧ (bytes ≠ [] → i'.weight < 3 * bytes.length)
    | .error x => parse.messages = log ∧ parse.error.map .malformed = some x := by
  obtain ⟨none, empty⟩ := wantsInput_iff.mp wants
  have leads := h.leads
  rw [none, empty, Option.toList_none, List.append_nil, List.nil_append] at leads
  unfold Inbound.accept
  cases direct with
  | false =>
    refine ⟨⟨h.bufferSize, h.ready, ?_⟩, fun some ↦ ?_⟩
    · simpa [none] using leads
    · have pos := List.length_pos_iff.mpr some
      simp only [weight, none, Option.toList_none, List.length_nil]
      omega
  | true =>
    have committed := h.ready.commit (fits rfl) (leads.modest modest)
    rw [if_pos rfl]
    match found : i.decoder.commit bytes with
    | .error x =>
      rw [found] at committed
      obtain ⟨nothing, error⟩ := committed
      exact ⟨by rw [leads.messages, nothing, List.append_nil], leads.error ▸ error⟩
    | .ok (m, decoder) =>
      rw [found] at committed
      obtain ⟨ready, -, next⟩ := committed
      refine ⟨⟨h.bufferSize, ready, ?_⟩, fun some ↦ ?_⟩
      · simpa [empty] using leads.trans next
      · have pos := List.length_pos_iff.mpr some
        have few : (m.map Delivery.message).toList.length ≤ 1 := by cases m <;> simp
        simp only [weight, empty, List.length_nil]
        omega

theorem Carries.messages_eq (h : i.Carries parse log []) (wants : i.wantsInput = true) :
    parse.messages = log ∧ parse.error = none := by
  obtain ⟨none, empty⟩ := wantsInput_iff.mp wants
  have leads := h.leads
  rw [none, empty, Option.toList_none, List.append_nil, List.append_nil, h.ready.ahead_nil] at leads
  exact ⟨leads.messages.trans (List.append_nil _), leads.error⟩

section

variable {s : Settings} {p : Pair} (made : Pair.create s = .ok p)
  (plain : ∀ m ∈ parse.messages, m.isCredential = false)

include made plain

theorem Carries.conveyed (modest : parse.Modest) {turns count : Nat} {l : Link} {k : Ledger}
    (h : i.Carries parse k.log behind) (fed : Fed p l k) (active : l.self.state = .active)
    (enough : i.buffered.length < turns) :
    ∃ log, Conveyed p parse behind k count (deliverN turns count i l) log := by
  induction turns generalizing count i l k with
  | zero => contradiction
  | succ turns ih =>
    have decoded {count : Nat} {i : Inbound f.dialect} {l : Link} {k : Ledger}
        (h : i.Carries parse k.log behind) (none : i.stalled = none) (fed : Fed p l k)
        (active : l.self.state = .active) (enough : i.buffered.length < turns + 1) :
        ∃ log, Conveyed p parse behind k count (decodeOn turns count i l) log := by
      have next := h.decode none modest
      unfold decodeOn
      split
      · rename_i used
        have used := List.isEmpty_iff.mp used
        exact ⟨k.log, fed, active, fun _ ↦ ⟨h, fun left ↦ absurd used left, absurd none⟩,
          fun _ ↦ ⟨le_rfl, fun _ ↦ rfl⟩, nofun⟩
      · rename_i left
        have left : i.buffered ≠ [] := fun used ↦ left (List.isEmpty_iff.mpr used)
        have some_left := List.length_pos_iff.mpr left
        split
        · rename_i x found
          rw [found] at next
          refine ⟨k.log, fed, active, nofun, nofun, ?_⟩
          rintro _ ⟨⟩
          exact next
        · rename_i out found
          rw [found] at next
          have shorter := Decoder.length_rest_decode found
          exact ih next fed active (by dsimp only; omega)
    match stalled : i.stalled with
    | none =>
      rw [deliverN_none stalled]
      exact decoded h stalled fed active enough
    | some m =>
      have accepted := Fed.write made fed active (plain m (h.mem_of_stalled stalled))
      obtain ⟨active', answer, fed', full⟩ := accepted
      rw [deliverN_some stalled, answer]
      by_cases room : l.checkWrite.1 = true
      · rw [if_pos room] at fed' ⊢
        obtain ⟨log, out⟩ := @decoded (count + 1) { i with stalled := none } _
          { k with log := k.log ++ [m] } (h.written stalled) rfl fed' active' enough
        refine ⟨log, out.fed, out.active, out.goes_on, fun whole ↦ ?_, out.fails⟩
        obtain ⟨more, -⟩ := out.counts whole
        exact ⟨by omega, fun same ↦ by omega⟩
      · rw [if_neg room] at fed' ⊢
        refine ⟨k.log, fed', active', fun _ ↦ ⟨h, fun _ ↦ ?_, fun _ ↦ full (by simpa using room)⟩,
          fun _ ↦ ⟨le_rfl, fun _ ↦ rfl⟩, nofun⟩
        rw [stalled]
        nofun

theorem Carries.delivers (modest : parse.Modest) {l : Link} {k : Ledger}
    (h : i.Carries parse k.log behind) (fed : Fed p l k) (active : l.self.state = .active)
    (flushed : k.published = wholeMessages k.log) :
    let out := i.deliver l
    ∃ log published, Fed p out.link { k with log, published } ∧ out.link.self.state = .active ∧
      (out.failure = none → published = wholeMessages log ∧
        out.inbound.Carries parse log behind ∧ out.inbound.Settled out.link ∧
        (out.inbound.weight = i.weight → log = k.log)) ∧
      ∀ x, out.failure = some x → parse.messages = log ∧ parse.error.map .malformed = some x := by
  have enough : i.buffered.length < i.buffered.length + 1 := Nat.lt_succ_self _
  have conveyed : ∃ log, Conveyed p parse behind k 0 (deliverN (i.buffered.length + 1) 0 i l) log :=
    h.conveyed made plain modest fed active enough
  obtain ⟨log, out⟩ := conveyed
  have ⟨lighter, idle⟩ := i.weight_deliverN (i.buffered.length + 1) 0 l
  unfold deliver
  dsimp only
  generalize deliverN (i.buffered.length + 1) 0 i l = d at out lighter idle ⊢
  split
  · obtain ⟨flushed', active'⟩ := Fed.flush made out.fed out.active
    refine ⟨log, wholeMessages log, flushed', active', fun whole ↦ ?_, out.fails⟩
    obtain ⟨carries, settled⟩ := out.goes_on whole
    refine ⟨rfl, carries, ⟨settled.stalled, fun left ↦ ?_⟩, fun same ↦ ?_⟩
    · exact (Link.Rests.perform d.link (c := .flush) rfl).outActive.trans (settled.refused left)
    · exact (out.counts whole).2 (idle same whole)
  · rename_i none_written
    refine ⟨log, k.published, out.fed, out.active, fun whole ↦ ?_, out.fails⟩
    obtain ⟨carries, settled⟩ := out.goes_on whole
    have same := (out.counts whole).2 (Nat.eq_zero_of_not_pos none_written)
    exact ⟨same ▸ flushed, carries, settled, fun _ ↦ same⟩

end

end Inbound

end Bridge

end Conduit
