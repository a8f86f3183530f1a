import Conduit.Proofs.Decoding
import Conduit.Proofs.Encoding

namespace Conduit.Wire

theorem cutN_flatten {sizes : List Nat} (positive : ∀ size ∈ sizes, 0 < size) {turns : Nat}
    {due : List Nat} (suffix : due ⊆ sizes) {bytes : Bytes} (enough : bytes.length ≤ turns) :
    (cutN sizes turns due bytes).flatten = bytes := by
  induction turns generalizing due bytes with
  | zero =>
    obtain rfl : bytes = [] := List.length_eq_zero_iff.mp (Nat.le_zero.mp enough)
    rfl
  | succ turns ih =>
    have slice {size : Nat} {later : List Nat} (hsize : 0 < size) (hlater : later ⊆ sizes)
        (b : UInt8) (rest : Bytes) (enough : (b :: rest).length ≤ turns + 1) :
        ((b :: rest).take size :: cutN sizes turns later ((b :: rest).drop size)).flatten =
          b :: rest := by
      rw [List.flatten_cons, ih hlater, List.take_append_drop]
      rw [List.length_drop]
      omega
    cases bytes with
    | nil => cases due <;> rfl
    | cons b rest =>
      match due with
      | size :: due =>
        have hsize := positive size (suffix List.mem_cons_self)
        exact slice hsize (fun x hx ↦ suffix (List.mem_cons_of_mem _ hx)) b rest enough
      | [] =>
        match h : sizes with
        | [] => simp [cutN]
        | size :: due =>
          have hsize := positive size List.mem_cons_self
          exact slice hsize (List.subset_cons_self _ _) b rest enough

theorem cut_flatten (sizes : List Nat) (bytes : Bytes) : (cut sizes bytes).flatten = bytes := by
  apply cutN_flatten _ (List.nil_subset _) (Nat.le_refl _)
  intro size hsize
  have kept := (List.mem_filter.mp hsize).2
  simpa [Nat.pos_iff_ne_zero] using kept

namespace Intake

variable {f : Framing} {i : Intake f.dialect}

theorem length_rest_decode {d : Dialect} {i i' : Intake d} {bytes rest : Bytes} {hold : Bool}
    {m : Option Message} (h : i.decode bytes hold = .ok (m, rest, i')) :
    rest.length ≤ bytes.length - 1 := by
  unfold Intake.decode at h
  match decoded : i.decoder.decode bytes with
  | .error e =>
    rw [decoded] at h
    contradiction
  | .ok ⟨none, _, _⟩ | .ok ⟨some _, _, _⟩ =>
    rw [decoded] at h
    cases h
    exact Decoder.length_rest_decode decoded

def Reads (p : Parse) (behind : Bytes) (before after : Array Message) :
    Except Failure (Intake f.dialect) → Prop
  | .ok i => ∃ ms : List Message, after.toList = before.toList ++ ms ∧
      i.decoder.Ready ∧ p.Leads ms (i.decoder.ahead behind)
  | .error e => after.toList = before.toList ++ p.messages ∧ p.error.map .malformed = some e

theorem Reads.of_leads {p q : Parse} {behind : Bytes} {before middle after : Array Message}
    {ms : List Message} {outcome : Except Failure (Intake f.dialect)} (leads : p.Leads ms q)
    (read : middle.toList = before.toList ++ ms) (h : Reads q behind middle after outcome) :
    Reads p behind before after outcome := by
  cases outcome with
  | error e =>
    obtain ⟨messages, error⟩ := h
    refine ⟨?_, leads.error ▸ error⟩
    rw [messages, read, leads.messages, List.append_assoc]
  | ok i =>
    obtain ⟨more, messages, ready, leads'⟩ := h
    refine ⟨ms ++ more, ?_, ready, leads.trans leads'⟩
    rw [messages, read, List.append_assoc]

theorem sliceN_reads (h : i.decoder.Ready) {turns : Nat} {bytes behind : Bytes}
    (enough : bytes.length ≤ turns) (modest : (i.decoder.ahead (bytes ++ behind)).Modest)
    (messages : Array Message) :
    Reads (i.decoder.ahead (bytes ++ behind)) behind messages
      (sliceN turns messages i bytes).1 (sliceN turns messages i bytes).2.2 := by
  induction turns generalizing i bytes messages with
  | zero =>
    obtain rfl : bytes = [] := List.length_eq_zero_iff.mp (Nat.le_zero.mp enough)
    exact ⟨[], (List.append_nil _).symm, h, .refl _⟩
  | succ turns ih =>
    cases bytes with
    | nil => exact ⟨[], (List.append_nil _).symm, h, .refl _⟩
    | cons b bytes =>
      have answers := decode_answers h false modest
      match decoded : i.decode (b :: bytes) false with
      | .error e =>
        rw [decoded] at answers
        obtain ⟨none, error⟩ := answers
        simp only [sliceN, decoded]
        refine ⟨?_, error⟩
        rw [none, List.append_nil]
      | .ok (m, rest, i') =>
        rw [decoded] at answers
        obtain ⟨ready, -, leads⟩ := answers
        have shorter := length_rest_decode decoded
        rw [List.length_cons] at enough shorter
        have enough : rest.length ≤ turns := by omega
        cases m with
        | none =>
          simp only [sliceN, decoded]
          exact .of_leads leads (List.append_nil _).symm (ih ready enough (leads.modest modest) _)
        | some m =>
          simp only [sliceN, decoded]
          exact .of_leads leads Array.toList_push (ih ready enough (leads.modest modest) _)

theorem slices_reads (h : i.decoder.Ready) {parts : List Bytes}
    (modest : (i.decoder.ahead parts.flatten).Modest) (messages : Array Message) (used : Nat) :
    (slices messages used i parts).messages =
        messages.toList ++ (i.decoder.ahead parts.flatten).messages ∧
      match (slices messages used i parts).outcome with
      | .ok _ => (i.decoder.ahead parts.flatten).error = none
      | .error e => (i.decoder.ahead parts.flatten).error.map .malformed = some e := by
  induction parts generalizing i messages used with
  | nil =>
    rw [List.flatten_nil, h.ahead_nil]
    exact ⟨(List.append_nil _).symm, rfl⟩
  | cons part parts ih =>
    rw [List.flatten_cons] at modest ⊢
    have reads := sliceN_reads h (Nat.le_refl _) modest messages
    match sliced : sliceN part.length messages i part with
    | (after, rest, .error e) =>
      simp only [slices, sliced]
      rw [sliced] at reads
      exact reads
    | (after, rest, .ok i') =>
      rw [sliced] at reads
      obtain ⟨ms, read, ready, leads⟩ := reads
      simp only [slices, sliced]
      rw [leads.messages, leads.error, ← List.append_assoc, ← read]
      exact ih ready (leads.modest modest) _ _

theorem feed_reads (h : i.decoder.Ready) {bytes : Bytes} (modest : (i.decoder.ahead bytes).Modest)
    (sizes : List Nat) :
    (i.feed bytes sizes).messages = (i.decoder.ahead bytes).messages ∧
      match (i.feed bytes sizes).outcome with
      | .ok _ => (i.decoder.ahead bytes).error = none
      | .error e => (i.decoder.ahead bytes).error.map .malformed = some e := by
  rw [← cut_flatten sizes bytes] at modest
  have reads := slices_reads h modest #[] 0
  rw [cut_flatten, List.nil_append] at reads
  exact reads

end Intake

namespace Passage

variable {f : Framing} {bufferSize : Nat} {limits : Limits} {messages : List Message}

theorem run_eq (buffered : bufferSize < Storage.limit)
    (fit : ∀ m ∈ messages, m.size < Storage.limit)
    (admitted : ∀ max ∈ limits.maxSize, ∀ m ∈ messages, m.size ≤ max) (sizes : List Nat) :
    ∃ chunks : List Bytes,
      run f.dialect bufferSize limits messages sizes =
        .ok { chunks, messages := messages.map f.carried, failure := none } ∧
      (Encoder.ofBufferSize f.dialect bufferSize).Emits messages chunks ∧
      chunks.flatten = f.dialect.wire messages := by
  have created : Encoder.create f.dialect bufferSize =
      .ok (Encoder.ofBufferSize f.dialect bufferSize) := by
    have reserved : Storage.reserve bufferSize = .ok () := if_pos buffered
    rw [Encoder.create, reserved]
    rfl
  have idle : (Encoder.ofBufferSize f.dialect bufferSize).isIdle = true := rfl
  obtain ⟨emits, wire⟩ := Encoder.drain_emits (Encoder.sound_of_isIdle idle)
    (Nat.le_max_right bufferSize 1) messages
  rw [Encoder.due_of_isIdle idle, List.nil_append] at wire
  have parsed := f.parse_wire fit
    (fun m hm ↦ Limits.objection?_eq_none.mpr fun max hmax ↦ admitted max hmax m hm)
  let start : Intake f.dialect := { decoder := { limits, allocator := .heap } }
  have ahead : start.decoder.ahead (f.dialect.wire messages) =
      { messages := messages.map f.carried, sizes := messages.map Message.size } := by
    rw [← parsed]
    exact Decoder.ahead_start rfl _
  have modest : (start.decoder.ahead (f.dialect.wire messages)).Modest := by
    rw [ahead]
    intro size hsize
    obtain ⟨m, hm, rfl⟩ := List.mem_map.mp hsize
    exact fit m hm
  have ready : start.decoder.Ready := Decoder.ready_start (Allocator.ample_of_supply trivial)
  obtain ⟨read, outcome⟩ := Intake.feed_reads ready modest sizes
  rw [ahead] at read outcome
  refine ⟨_, ?_, emits, wire⟩
  rw [run, created]
  simp only [bind, Except.bind, pure, Except.pure, wire, Except.ok.injEq, mk.injEq, true_and]
  refine ⟨read, ?_⟩
  split
  · rename_i failed
    rw [failed] at outcome
    contradiction
  · rfl

end Passage

/-- Messages come back as they went out, as far as they travel, and go out again as the same
bytes. -/
theorem round_trip (f : Framing) {bufferSize : Nat} (buffered : bufferSize < Storage.limit)
    {limits : Limits} {messages : List Message} (fit : ∀ m ∈ messages, m.size < Storage.limit)
    (admitted : ∀ max ∈ limits.maxSize, ∀ m ∈ messages, m.size ≤ max) (sizes : List Nat) :
    ∃ p again : Passage,
      Passage.run f.dialect bufferSize limits messages sizes = .ok p ∧
      (Encoder.ofBufferSize f.dialect bufferSize).Emits messages p.chunks ∧
      p.failure = none ∧ p.messages = messages.map f.carried ∧
      Passage.run f.dialect bufferSize limits p.messages sizes = .ok again ∧
      again.wire = p.wire := by
  have fit' : ∀ m ∈ messages.map f.carried, m.size < Storage.limit := by
    intro _ hcarried
    obtain ⟨m, hm, rfl⟩ := List.mem_map.mp hcarried
    exact fit m hm
  have admitted' : ∀ max ∈ limits.maxSize, ∀ m ∈ messages.map f.carried, m.size ≤ max := by
    intro max hmax _ hcarried
    obtain ⟨m, hm, rfl⟩ := List.mem_map.mp hcarried
    exact admitted max hmax m hm
  obtain ⟨chunks, ran, emits, wire⟩ := Passage.run_eq (f := f) buffered fit admitted sizes
  obtain ⟨chunks', ran', -, wire'⟩ := Passage.run_eq (f := f) buffered fit' admitted' sizes
  refine ⟨_, _, ran, emits, rfl, rfl, ran', ?_⟩
  rw [Passage.wire, Passage.wire, wire, wire', f.wire_carried]

theorem round_trip_in_slices :
    let messages : List Message :=
      [{ data := [1, 2], flags := 0x23, routingId := some 7 }, { flags := 0x40, group := some "g" }]
    ∃ p again : Passage,
      Passage.run flagsFirst 3 ⟨some 2⟩ messages [1, 2] = .ok p ∧
      (Encoder.ofBufferSize flagsFirst 3).Emits messages p.chunks ∧
      p.failure = none ∧ p.messages = [{ data := [1, 2], flags := 0x03 }, {}] ∧
      Passage.run flagsFirst 3 ⟨some 2⟩ p.messages [1, 2] = .ok again ∧ again.wire = p.wire := by
  have buffered : 3 < Storage.limit := by decide
  exact round_trip .flagsFirst buffered (by decide) (by decide) [1, 2]

end Conduit.Wire
