import Conduit.Proofs.Grammar
import Conduit.Proofs.Providers
import Conduit.Wire.Intake

namespace Conduit

namespace Wire

theorem Limits.bodySize_eq (l : Limits) (size : Nat) :
    l.bodySize size = match l.objection? size with
      | some e => .error e
      | none => .ok size := by
  unfold bodySize objection?
  cases l.maxSize with
  | none => rfl
  | some max =>
    dsimp only
    split <;> rfl

theorem Limits.objection?_eq_none {l : Limits} {size : Nat} :
    l.objection? size = none ↔ ∀ max ∈ l.maxSize, size ≤ max := by
  unfold objection?
  cases l.maxSize with
  | none => simp
  | some max => simp

def SizeFirst.headAt (l : Limits) : Step → Bytes → Head
  | .shortSize, bytes => head l bytes
  | .longSize, bytes =>
    if bytes.length < 8 then .short else headBehind l (ofBigEndian (bytes.take 8)) (bytes.drop 8)
  | .flags _, [] => .short
  | .flags size, flags :: rest => .whole size (flags &&& Flag.more) rest

def FlagsFirst.headAt (l : Limits) : Step → Bytes → Head
  | .flags, bytes => head l bytes
  | .shortSize flags, bytes => headBehind l flags 1 bytes
  | .longSize flags, bytes => headBehind l flags 8 bytes

namespace Framing

def headAt : (f : Framing) → Limits → f.dialect.Step → Bytes → Head
  | sizeFirst => SizeFirst.headAt
  | flagsFirst => FlagsFirst.headAt

theorem headAt_start (f : Framing) (l : Limits) : f.headAt l f.dialect.start = f.head l := by
  cases f <;> rfl

end Framing

def Transition.head {Step : Type} (headAt : Step → Bytes → Head) (rest : Bytes) :
    Except DecodeError (Transition Step) → Head
  | .error e => .refused e
  | .ok (.header step) => headAt step rest
  | .ok (.body size flags) => .whole size flags rest

def Transition.size? {Step : Type} : Except DecodeError (Transition Step) → Option Nat
  | .ok (.body size _) => some size
  | .ok (.header _) | .error _ => none

namespace SizeFirst

theorem headBehind_eq (l : Limits) (size : Nat) (rest : Bytes) :
    headBehind l size rest = Transition.head (headAt l) rest (sized l size) := by
  cases size with
  | zero => rfl
  | succ size =>
    simp only [headBehind, sized, Limits.bodySize_eq, Nat.add_sub_cancel, Nat.succ_ne_zero,
      if_false]
    cases l.objection? size with
    | some e => rfl
    | none => cases rest <;> rfl

theorem headAt_append (l : Limits) {step : Step} {field : Bytes}
    (h : field.length = headerLength step) (rest : Bytes) :
    headAt l step (field ++ rest) = Transition.head (headAt l) rest (next step field l) := by
  cases step with
  | shortSize =>
    obtain ⟨size, rfl⟩ := List.length_eq_one_iff.mp h
    have goes : next .shortSize [size] l =
        if size = 0xff then .ok (.header .longSize) else sized l size.toNat := rfl
    rw [goes, headAt, List.singleton_append, head]
    by_cases escaped : size = 0xff
    · rw [if_neg (not_not_intro escaped), if_pos escaped]
      rfl
    · rw [if_pos escaped, if_neg escaped]
      exact headBehind_eq _ _ _
  | longSize =>
    have h : field.length = 8 := h
    have enough : ¬(field ++ rest).length < 8 := by simp [h]
    rw [headAt, if_neg enough, ← h, List.take_left, List.drop_left]
    exact headBehind_eq _ _ _
  | flags size =>
    obtain ⟨flags, rfl⟩ := List.length_eq_one_iff.mp h
    rfl

theorem headAt_short (l : Limits) {step : Step} {bytes : Bytes}
    (h : bytes.length < headerLength step) : headAt l step bytes = .short := by
  cases step with
  | longSize => exact if_pos h
  | shortSize | flags =>
    obtain rfl : bytes = [] := List.length_eq_zero_iff.mp (Nat.lt_one_iff.mp h)
    rfl

end SizeFirst

namespace FlagsFirst

theorem flagsOf_eq (bits : UInt8) :
    flagsOf bits = bits &&& Flag.more ||| bits >>> 1 &&& Flag.command := by
  have all : ∀ n : Fin 256, flagsOf (UInt8.ofNat n) =
      UInt8.ofNat n &&& Flag.more ||| UInt8.ofNat n >>> 1 &&& Flag.command := by
    decide +kernel
  simpa using all ⟨bits.toNat, bits.toNat_lt⟩

theorem headBehind_eq (l : Limits) (flags : UInt8) {width : Nat} {bytes : Bytes}
    (enough : ¬bytes.length < width) :
    headBehind l flags width bytes = Transition.head (headAt l) (bytes.drop width)
      ((l.bodySize (ofBigEndian (bytes.take width))).map (.body · flags)) := by
  rw [headBehind, if_neg enough, Limits.bodySize_eq]
  dsimp only
  cases l.objection? (ofBigEndian (bytes.take width)) <;> rfl

theorem headAt_append (l : Limits) {step : Step} {field : Bytes}
    (h : field.length = headerLength step) (rest : Bytes) :
    headAt l step (field ++ rest) = Transition.head (headAt l) rest (next step field l) := by
  cases step with
  | flags =>
    obtain ⟨bits, rfl⟩ := List.length_eq_one_iff.mp h
    have goes : next .flags [bits] l = .ok (.header
        (if bits &&& 0x02 != 0 then .longSize (flagsOf bits) else .shortSize (flagsOf bits))) := rfl
    rw [goes, headAt, List.singleton_append, head, flagsOf_eq]
    by_cases short : bits &&& 0x02 = 0
    · simp only [short, if_true, bne_self_eq_false, Bool.false_eq_true, if_false]
      rfl
    · simp only [short, if_false, bne_iff_ne, ne_eq, not_false_eq_true, if_true]
      rfl
  | shortSize flags =>
    obtain ⟨size, rfl⟩ := List.length_eq_one_iff.mp h
    have number : ofBigEndian [size] = size.toNat := by simp [ofBigEndian]
    rw [headAt, headBehind_eq l flags (by simp), List.singleton_append, List.take_succ_cons,
      List.take_zero, number]
    rfl
  | longSize flags =>
    have h : field.length = 8 := h
    rw [headAt, headBehind_eq l flags (by simp [h]), ← h, List.take_left, List.drop_left]
    rfl

theorem headAt_short (l : Limits) {step : Step} {bytes : Bytes}
    (h : bytes.length < headerLength step) : headAt l step bytes = .short := by
  cases step with
  | flags =>
    obtain rfl : bytes = [] := List.length_eq_zero_iff.mp (Nat.lt_one_iff.mp h)
    rfl
  | shortSize | longSize => exact if_pos h

end FlagsFirst

namespace Framing

variable {f : Framing}

theorem headerLength_pos (step : f.dialect.Step) : 0 < f.dialect.headerLength step := by
  cases f <;> cases step <;> exact Nat.succ_pos _

theorem headerLength_le (step : f.dialect.Step) : f.dialect.headerLength step ≤ scratchSize := by
  cases f <;> cases step <;> exact Nat.le_of_ble_eq_true rfl

theorem headAt_append (l : Limits) {step : f.dialect.Step} {field : Bytes}
    (h : field.length = f.dialect.headerLength step) (rest : Bytes) :
    f.headAt l step (field ++ rest) =
      Transition.head (f.headAt l) rest (f.dialect.next step field l) := by
  cases f with
  | sizeFirst => exact SizeFirst.headAt_append l h rest
  | flagsFirst => exact FlagsFirst.headAt_append l h rest

theorem headAt_short (l : Limits) {step : f.dialect.Step} {bytes : Bytes}
    (h : bytes.length < f.dialect.headerLength step) : f.headAt l step bytes = .short := by
  cases f with
  | sizeFirst => exact SizeFirst.headAt_short l h
  | flagsFirst => exact FlagsFirst.headAt_short l h

end Framing

namespace Parse

structure Leads (p : Parse) (ms : List Message) (q : Parse) : Prop where
  messages : p.messages = ms ++ q.messages
  error : p.error = q.error
  sizes : q.sizes ⊆ p.sizes

theorem Leads.refl (p : Parse) : p.Leads [] p := ⟨rfl, rfl, List.Subset.refl _⟩

theorem Leads.trans {p q r : Parse} {ms others : List Message} (h : p.Leads ms q)
    (next : q.Leads others r) : p.Leads (ms ++ others) r := by
  refine ⟨?_, h.error.trans next.error, List.Subset.trans next.sizes h.sizes⟩
  rw [h.messages, next.messages, List.append_assoc]

theorem Leads.announce {p q : Parse} {ms : List Message} (h : p.Leads ms q) (size : Nat) :
    (p.announce size).Leads ms q :=
  ⟨h.messages, h.error, List.subset_cons_of_subset _ h.sizes⟩

theorem deliver_leads (m : Message) (p : Parse) : (p.deliver m).Leads [m] p :=
  ⟨rfl, rfl, List.Subset.refl _⟩

def Fails (p : Parse) (e : Failure) : Prop := p.messages = [] ∧ p.error.map .malformed = some e

/-- No body is announced that there is no storage for. -/
def Modest (p : Parse) : Prop := ∀ size ∈ p.sizes, size < Storage.limit

theorem Leads.modest {p q : Parse} {ms : List Message} (h : p.Leads ms q) (modest : p.Modest) :
    q.Modest := fun size hsize ↦ modest size (h.sizes hsize)

end Parse

namespace Decoder

variable {f : Framing} {A : Type}

def ahead (c : Decoder f.dialect A) (bytes : Bytes) : Parse :=
  match c.stage with
  | .header step filled =>
    f.parseHead c.limits (f.headAt c.limits step (c.scratch.take filled ++ bytes))
  | .body body flags => f.parseBody c.limits body.size flags (body.written.reverse ++ bytes)

def headAhead (c : Decoder f.dialect A) (bytes : Bytes) : Head :=
  match c.stage with
  | .header step filled => f.headAt c.limits step (c.scratch.take filled ++ bytes)
  | .body _ _ => .short

def asks? {d : Dialect} (c : Decoder d A) : Option Nat :=
  match c.stage with
  | .body _ _ => none
  | .header step _ =>
    if c.room ≠ 0 then none
    else Transition.size? (d.next step (c.scratch.take (d.headerLength step)) c.limits)

/-- A decoder in the middle of a part, or at its end, whatever its allocator has to give. -/
structure Laid (c : Decoder f.dialect A) : Prop where
  scratch : c.scratch.length = scratchSize
  filled : ∀ step filled, c.stage = .header step filled → filled ≤ f.dialect.headerLength step

structure Waits (c : Decoder f.dialect A) : Prop extends c.Laid where
  room : 0 < c.room

variable {c : Decoder f.dialect A}

theorem waits_start {limits : Limits} {allocator : A} :
    ({ limits, allocator } : Decoder f.dialect A).Waits where
  scratch := List.length_replicate
  filled := by
    rintro step filled ⟨⟩
    exact Nat.zero_le _
  room := Framing.headerLength_pos _

theorem ahead_start (stage : c.stage = .header f.dialect.start 0) (bytes : Bytes) :
    c.ahead bytes = f.parse c.limits bytes := by
  rw [ahead, stage, f.parse_eq, ← f.headAt_start]
  rfl

theorem settings_write {d : Dialect} (c : Decoder d A) (b : UInt8) :
    (c.write b).limits = c.limits ∧ (c.write b).allocator = c.allocator := by
  unfold Decoder.write
  split <;> exact ⟨rfl, rfl⟩

theorem ahead_header {step : f.dialect.Step} {filled : Nat} (stage : c.stage = .header step filled)
    (bytes : Bytes) : c.ahead bytes = f.parseHead c.limits (c.headAhead bytes) := by
  rw [ahead, headAhead, stage]

theorem Waits.write_header (h : c.Waits) {step : f.dialect.Step} {filled : Nat}
    (stage : c.stage = .header step filled) (b : UInt8) :
    (c.write b).stage = .header step (filled + 1) ∧
      ∀ rest, (c.write b).headAhead rest = c.headAhead (b :: rest) := by
  have room := h.room
  have written : c.write b = { c with
      scratch := c.scratch.set filled b, stage := .header step (filled + 1) } := by
    simp [Decoder.write, stage]
  simp only [Decoder.room, stage] at room
  have field : (c.scratch.set filled b).take (filled + 1) = c.scratch.take filled ++ [b] := by
    have := f.headerLength_le step
    have inside : filled < c.scratch.length := by
      rw [h.scratch]
      omega
    rw [List.take_succ_eq_append_getElem (by simpa using inside), List.getElem_set_self,
      List.take_set_of_le (Nat.le_refl _)]
  rw [written]
  refine ⟨rfl, fun rest ↦ ?_⟩
  simp [headAhead, stage, field]

theorem Waits.write (h : c.Waits) (b : UInt8) :
    (c.write b).Laid ∧ (c.write b).room = c.room - 1 ∧
      ∀ rest, (c.write b).ahead rest = c.ahead (b :: rest) := by
  have room := h.room
  cases stage : c.stage with
  | header step filled =>
    obtain ⟨stage', heads⟩ := h.write_header stage b
    have scratch : (c.write b).scratch.length = c.scratch.length := by
      simp [Decoder.write, stage]
    simp only [Decoder.room, stage] at room
    refine ⟨⟨scratch.trans h.scratch, ?_⟩, ?_, fun rest ↦ ?_⟩
    · intro step' filled' same
      obtain ⟨rfl, rfl⟩ := Stage.header.inj (stage'.symm.trans same)
      omega
    · simp [Decoder.room, stage, stage', Nat.sub_sub]
    · rw [ahead_header stage', ahead_header stage, heads, (c.settings_write b).1]
  | body body flags =>
    have written : c.write b = { c with stage := .body (body.push b) flags } := by
      simp [Decoder.write, stage]
    simp only [Decoder.room, stage] at room
    have size : (body.push b).size = body.size := by
      simp only [Body.size, Body.push, List.length_cons]
      omega
    rw [written]
    refine ⟨⟨h.scratch, fun _ _ header ↦ by cases header⟩, ?_, ?_⟩
    · simp [Decoder.room, stage, Body.push]
    · intro rest
      simp only [ahead, stage, size]
      simp [Body.push]

theorem Laid.deliver (h : c.Laid) {body : Body} (full : body.room = 0) (flags : UInt8)
    (rest : Bytes) :
    (c.deliver body flags).2.Waits ∧
      (f.parseBody c.limits body.size flags (body.written.reverse ++ rest)).Leads
        [(c.deliver body flags).1.message] ((c.deliver body flags).2.ahead rest) := by
  have waits : (c.deliver body flags).2.Waits := by
    refine ⟨⟨h.scratch, ?_⟩, Framing.headerLength_pos _⟩
    rintro _ _ ⟨⟩
    exact Nat.zero_le _
  have size : body.size = body.written.reverse.length := by
    rw [Body.size, full, List.length_reverse, Nat.add_zero]
  have bytes : body.bytes = body.written.reverse := by simp [Body.bytes, full]
  have short : ¬(body.written.reverse ++ rest).length < body.written.reverse.length := by simp
  refine ⟨waits, ?_⟩
  rw [ahead_start rfl, size, Framing.parseBody, if_neg short, List.take_left, List.drop_left,
    Decoder.deliver, bytes]
  exact Parse.deliver_leads _ _

theorem Laid.head_complete (h : c.Laid) {step : f.dialect.Step} {filled : Nat}
    (stage : c.stage = .header step filled) (complete : c.room = 0) (rest : Bytes) :
    c.headAhead rest = Transition.head (f.headAt c.limits) rest
      (f.dialect.next step (c.scratch.take (f.dialect.headerLength step)) c.limits) := by
  have filled_le := h.filled step filled stage
  rw [Decoder.room, stage] at complete
  obtain rfl : filled = f.dialect.headerLength step := by
    dsimp only at complete
    omega
  have field : (c.scratch.take (f.dialect.headerLength step)).length =
      f.dialect.headerLength step := by
    rw [List.length_take, h.scratch]
    exact Nat.min_eq_left (f.headerLength_le step)
  simp only [headAhead, stage, f.headAt_append c.limits field]

theorem Laid.ahead_complete (h : c.Laid) {step : f.dialect.Step} {filled : Nat}
    (stage : c.stage = .header step filled) (complete : c.room = 0) (rest : Bytes) :
    c.ahead rest = f.parseHead c.limits (Transition.head (f.headAt c.limits) rest
      (f.dialect.next step (c.scratch.take (f.dialect.headerLength step)) c.limits)) := by
  rw [ahead_header stage, h.head_complete stage complete]

theorem Laid.announced (h : c.Laid) {size : Nat} (asks : c.asks? = some size) (rest : Bytes) :
    size ∈ (c.ahead rest).sizes := by
  unfold asks? at asks
  cases stage : c.stage with
  | body => simp [stage] at asks
  | header step filled =>
    rw [stage] at asks
    dsimp only at asks
    by_cases complete : c.room = 0
    · rw [if_neg (not_not_intro complete)] at asks
      rw [h.ahead_complete stage complete rest]
      cases next : f.dialect.next step (c.scratch.take (f.dialect.headerLength step)) c.limits with
      | error => simp [next, Transition.size?] at asks
      | ok transition =>
        cases transition with
        | header => simp [next, Transition.size?] at asks
        | body size' flags =>
          rw [next, Transition.size?, Option.some_inj] at asks
          subst asks
          exact List.mem_cons_self
    · rw [if_pos complete] at asks
      contradiction

theorem Waits.head_nil (h : c.Waits) : c.headAhead [] = .short := by
  have room := h.room
  unfold headAhead
  split
  · rename_i step filled stage
    simp only [Decoder.room, stage] at room
    apply f.headAt_short
    rw [List.append_nil, List.length_take]
    omega
  · rfl

theorem Waits.ahead_nil (h : c.Waits) : c.ahead [] = {} := by
  match stage : c.stage with
  | .header step filled =>
    rw [ahead_header stage, h.head_nil]
    rfl
  | .body body flags =>
    have room := h.room
    simp only [Decoder.room, stage] at room
    simp only [ahead, stage]
    rw [Framing.parseBody, if_pos]
    rw [List.append_nil, List.length_reverse, Body.size]
    omega

section

variable [Provider A]

structure Sound (c : Decoder f.dialect A) : Prop where
  ample : Provider.Ample c.allocator
  scratch : c.scratch.length = scratchSize
  filled : ∀ step filled, c.stage = .header step filled → filled ≤ f.dialect.headerLength step

structure Ready (c : Decoder f.dialect A) : Prop extends c.Sound where
  room : 0 < c.room

/-- What the way to the next part comes to with these bytes behind it. It may break down only where
it asks for a body. -/
inductive Passes (c : Decoder f.dialect A) (rest : Bytes) :
    Except Failure (Option Delivery × Decoder f.dialect A) → Prop where
  | goes {m : Option Delivery} {c' : Decoder f.dialect A} (waits : c'.Waits)
    (limits : c'.limits = c.limits)
    (leads : (c.ahead rest).Leads (m.map Delivery.message).toList (c'.ahead rest))
    (allocator : c'.allocator = c.allocator ∨ ∃ size body,
      c.asks? = some size ∧ Provider.allocate size c.allocator = .ok (body, c'.allocator))
    (body : ∀ body flags, c'.stage = .body body flags →
      c.stage = .body body flags ∨ c.asks? = some body.size) : Passes c rest (.ok (m, c'))
  | refuses {e : DecodeError} (fails : (c.ahead rest).Fails (.malformed e)) :
    Passes c rest (.error (.malformed e))
  | breaks {size : Nat} {x : AllocationError} (asks : c.asks? = some size)
    (lacking : Provider.allocate size c.allocator = .error x) :
    Passes c rest (.error (.allocation x))

theorem Sound.laid (h : c.Sound) : c.Laid := ⟨h.scratch, h.filled⟩

theorem Ready.waits (h : c.Ready) : c.Waits := ⟨h.laid, h.room⟩

theorem Waits.ready (h : c.Waits) (ample : Provider.Ample c.allocator) : c.Ready :=
  ⟨⟨ample, h.scratch, h.filled⟩, h.room⟩

theorem ready_start {limits : Limits} {allocator : A} (ample : Provider.Ample allocator) :
    ({ limits, allocator } : Decoder f.dialect A).Ready := waits_start.ready ample

theorem Ready.ahead_nil (h : c.Ready) : c.ahead [] = {} := h.waits.ahead_nil

theorem Ready.recycle (h : c.Ready) (m : Delivery) :
    (c.recycle m).Ready ∧ (c.recycle m).limits = c.limits ∧ (c.recycle m).ahead = c.ahead := by
  unfold Decoder.recycle
  split
  · exact ⟨h, rfl, rfl⟩
  · exact ⟨⟨⟨h.ample.recycle _ _, h.scratch, h.filled⟩, h.room⟩, rfl, rfl⟩

end

variable [Provider A] [LawfulProvider A]

theorem Laid.advance (h : c.Laid) (rest : Bytes) : c.Passes rest c.advance := by
  unfold Decoder.advance
  by_cases room : c.room = 0
  case neg =>
    rw [if_pos room]
    exact .goes ⟨h, Nat.pos_of_ne_zero room⟩ rfl (.refl _) (.inl rfl) fun _ _ same ↦ .inl same
  rw [if_neg (not_not_intro room)]
  match stage : c.stage with
  | .body body flags =>
    have full : body.room = 0 := by rwa [Decoder.room, stage] at room
    obtain ⟨waits, leads⟩ := h.deliver full flags rest
    refine .goes waits rfl ?_ (.inl rfl) nofun
    rw [ahead, stage]
    exact leads
  | .header step filled =>
    have found := h.ahead_complete stage room rest
    have asks : c.asks? = Transition.size? (f.dialect.next step
        (c.scratch.take (f.dialect.headerLength step)) c.limits) := by
      rw [asks?, stage]
      exact if_neg (not_not_intro room)
    dsimp only
    match next : f.dialect.next step (c.scratch.take (f.dialect.headerLength step)) c.limits with
    | .error e =>
      refine .refuses ?_
      rw [found, next]
      exact ⟨rfl, rfl⟩
    | .ok (.header step') =>
      refine .goes ⟨⟨h.scratch, ?_⟩, Framing.headerLength_pos _⟩ rfl ?_ (.inl rfl) nofun
      · rintro _ _ ⟨⟩
        exact Nat.zero_le _
      · rw [found, next]
        exact .refl _
    | .ok (.body size flags) =>
      rw [next] at asks found
      dsimp only
      match allocated : Provider.allocate size c.allocator with
      | .error x => exact .breaks asks allocated
      | .ok (body, allocator) =>
        have blank := Provider.rewind_of_allocate allocated
        dsimp only
        generalize body.rewind = fresh at blank ⊢
        have laid : { c with allocator }.Laid := ⟨h.scratch, h.filled⟩
        have size_eq : fresh.size = size := by
          rw [blank]
          exact Nat.zero_add _
        have written : fresh.written = [] := by rw [blank]
        have ahead_body : c.ahead rest = .announce size
            (f.parseBody c.limits fresh.size flags (fresh.written.reverse ++ rest)) := by
          rw [found, size_eq, written]
          rfl
        by_cases full : fresh.room = 0
        · obtain ⟨waits, leads⟩ := laid.deliver full flags rest
          rw [if_pos full]
          refine .goes waits rfl ?_ (.inr ⟨size, body, asks, allocated⟩) nofun
          rw [ahead_body]
          exact leads.announce size
        · rw [if_neg full]
          refine .goes ⟨⟨h.scratch, nofun⟩, Nat.pos_of_ne_zero full⟩ rfl ?_
            (.inr ⟨size, body, asks, allocated⟩) ?_
          · rw [ahead_body]
            exact (Parse.Leads.refl _).announce size
          · rintro _ _ ⟨⟩
            rw [size_eq]
            exact .inr asks

theorem Sound.advance (h : c.Sound) {rest : Bytes} (modest : (c.ahead rest).Modest) :
    match c.advance with
    | .ok (m, c') =>
      c'.Ready ∧ c'.limits = c.limits ∧
        (c.ahead rest).Leads (m.map Delivery.message).toList (c'.ahead rest)
    | .error e => (c.ahead rest).Fails e := by
  have passes := h.laid.advance rest
  generalize c.advance = out at passes ⊢
  cases passes with
  | @goes m c' waits limits leads allocator =>
    refine ⟨waits.ready ?_, limits, leads⟩
    rcases allocator with same | ⟨size, body, asks, allocated⟩
    · rw [same]
      exact h.ample
    · obtain ⟨home, a', allocated', ample⟩ :=
        h.ample.allocate (modest size (h.laid.announced asks rest))
      rw [allocated'] at allocated
      cases allocated
      exact ample
  | refuses fails => exact fails
  | breaks asks lacking =>
    obtain ⟨home, a', allocated, -⟩ := h.ample.allocate (modest _ (h.laid.announced asks rest))
    rw [allocated] at lacking
    cases lacking

theorem Ready.feed (h : c.Ready) {b : UInt8} {rest : Bytes}
    (modest : (c.ahead (b :: rest)).Modest) :
    match c.feed b with
    | .ok (m, c') =>
      c'.Ready ∧ c'.limits = c.limits ∧
        (c.ahead (b :: rest)).Leads (m.map Delivery.message).toList (c'.ahead rest)
    | .error e => (c.ahead (b :: rest)).Fails e := by
  obtain ⟨laid, -, ahead⟩ := h.waits.write b
  obtain ⟨limits, allocator⟩ := c.settings_write b
  have sound : (c.write b).Sound := ⟨allocator ▸ h.ample, laid.scratch, laid.filled⟩
  rw [← ahead] at modest
  have advanced := sound.advance modest
  rw [← ahead, ← limits]
  exact advanced

/-- Decoding a slice leaves what is ahead: the rest of the slice and what comes behind it. -/
theorem Ready.decode (h : c.Ready) {bytes behind : Bytes}
    (modest : (c.ahead (bytes ++ behind)).Modest) :
    match c.decode bytes with
    | .ok out =>
      out.decoder.Ready ∧ out.decoder.limits = c.limits ∧
        (c.ahead (bytes ++ behind)).Leads (out.delivery.map Delivery.message).toList
          (out.decoder.ahead (out.rest ++ behind))
    | .error e => (c.ahead (bytes ++ behind)).Fails e := by
  induction bytes generalizing c with
  | nil => exact ⟨h, rfl, .refl _⟩
  | cons b rest ih =>
    have fed := h.feed modest
    rw [List.cons_append, Decoder.decode]
    match result : c.feed b with
    | .error e =>
      rw [result] at fed
      exact fed
    | .ok (some m, c') =>
      rw [result] at fed
      exact fed
    | .ok (none, c') =>
      rw [result] at fed
      obtain ⟨ready, limits, leads⟩ := fed
      have decoded := ih ready (leads.modest modest)
      dsimp only
      match result : c'.decode rest with
      | .error e =>
        rw [result] at decoded
        exact ⟨leads.messages.trans decoded.1, leads.error ▸ decoded.2⟩
      | .ok out =>
        rw [result] at decoded
        obtain ⟨ready, limits', leads'⟩ := decoded
        exact ⟨ready, limits'.trans limits, leads.trans leads'⟩

theorem length_rest_decode {d : Dialect} {A : Type} [Provider A] {c : Decoder d A} {bytes : Bytes}
    {out : Decoded d A} (h : c.decode bytes = .ok out) : out.rest.length ≤ bytes.length - 1 := by
  induction bytes generalizing c with
  | nil =>
    obtain rfl := Except.ok.inj h
    exact Nat.le_refl 0
  | cons b rest ih =>
    rw [decode] at h
    rw [List.length_cons, Nat.add_sub_cancel]
    split at h
    · contradiction
    · obtain rfl := Except.ok.inj h
      exact Nat.le_refl _
    · exact Nat.le_trans (ih h) (Nat.sub_le _ _)

/-- Bytes that fit into the part being read complete no more than that part. -/
theorem Ready.commit (h : c.Ready) {bytes behind : Bytes} (fits : bytes.length ≤ c.room)
    (modest : (c.ahead (bytes ++ behind)).Modest) :
    match c.commit bytes with
    | .ok (m, c') =>
      c'.Ready ∧ c'.limits = c.limits ∧
        (c.ahead (bytes ++ behind)).Leads (m.map Delivery.message).toList (c'.ahead behind)
    | .error e => (c.ahead (bytes ++ behind)).Fails e := by
  induction bytes generalizing c with
  | nil => exact ⟨h, rfl, .refl _⟩
  | cons b rest ih =>
    have fed := h.feed modest
    rw [List.cons_append, Decoder.commit]
    cases rest with
    | nil =>
      match result : c.feed b with
      | .error e | .ok (some m, c') | .ok (none, c') =>
        rw [result] at fed
        exact fed
    | cons b' rest =>
      -- there is room for more bytes, so that nothing is complete yet
      obtain ⟨-, room, -⟩ := h.waits.write b
      rw [List.length_cons, List.length_cons] at fits
      have unfinished : c.feed b = .ok (none, c.write b) := if_pos (by omega)
      rw [unfinished] at fed ⊢
      obtain ⟨ready, limits, leads⟩ := fed
      have committed := ih ready (by rw [List.length_cons]; omega) (leads.modest modest)
      dsimp only
      match result : (c.write b).commit (b' :: rest) with
      | .error e =>
        rw [result] at committed
        exact ⟨leads.messages.trans committed.1, leads.error ▸ committed.2⟩
      | .ok (m, c') =>
        rw [result] at committed
        obtain ⟨ready, limits', leads'⟩ := committed
        exact ⟨ready, limits'.trans limits, leads.trans leads'⟩

end Decoder

namespace Intake

variable {f : Framing} {A : Type} [Provider A] {i : Intake f.dialect A}

theorem settle_ready (h : i.decoder.Ready) (hold : Bool) (m : Delivery) :
    (i.settle hold m).decoder.Ready ∧ (i.settle hold m).decoder.limits = i.decoder.limits ∧
      (i.settle hold m).decoder.ahead = i.decoder.ahead := by
  unfold settle
  split
  · exact ⟨h, rfl, rfl⟩
  · exact h.recycle m

theorem release_ready (h : i.decoder.Ready) :
    i.release.decoder.Ready ∧ i.release.decoder.limits = i.decoder.limits ∧
      i.release.decoder.ahead = i.decoder.ahead := by
  have all (ms : List Delivery) {c : Decoder f.dialect A} (h : c.Ready) :
      (ms.foldl Decoder.recycle c).Ready ∧ (ms.foldl Decoder.recycle c).limits = c.limits ∧
        (ms.foldl Decoder.recycle c).ahead = c.ahead := by
    induction ms generalizing c with
    | nil => exact ⟨h, rfl, rfl⟩
    | cons m ms ih =>
      obtain ⟨ready, limits, ahead⟩ := h.recycle m
      obtain ⟨ready', limits', ahead'⟩ := ih ready
      exact ⟨ready', limits'.trans limits, ahead'.trans ahead⟩
  exact all i.held h

variable [LawfulProvider A]

/-- What a call comes to whose answer leaves some bytes for later calls. -/
def Answers (i : Intake f.dialect A) (p : Parse) :
    Except Failure (Option Message × Bytes × Intake f.dialect A) → Prop
  | .ok (m, rest, i') =>
    i'.decoder.Ready ∧ i'.decoder.limits = i.decoder.limits ∧
      p.Leads m.toList (i'.decoder.ahead rest)
  | .error e => p.Fails e

theorem decode_answers (h : i.decoder.Ready) {bytes behind : Bytes} (hold : Bool)
    (modest : (i.decoder.ahead (bytes ++ behind)).Modest) :
    i.Answers (i.decoder.ahead (bytes ++ behind))
      ((i.decode bytes hold).map fun (m, rest, i) ↦ (m, rest ++ behind, i)) := by
  have decoded := h.decode modest
  unfold Intake.decode
  match result : i.decoder.decode bytes with
  | .error e =>
    rw [result] at decoded
    exact decoded
  | .ok ⟨none, rest, c⟩ =>
    rw [result] at decoded
    exact decoded
  | .ok ⟨some m, rest, c⟩ =>
    rw [result] at decoded
    obtain ⟨ready, limits, leads⟩ := decoded
    obtain ⟨ready', limits', ahead⟩ := settle_ready (i := { i with decoder := c }) ready hold m
    refine ⟨ready', limits'.trans limits, ?_⟩
    rw [ahead]
    exact leads

theorem commit_answers (h : i.decoder.Ready) {bytes behind : Bytes}
    (fits : bytes.length ≤ i.decoder.room)
    (modest : (i.decoder.ahead (bytes ++ behind)).Modest) :
    i.Answers (i.decoder.ahead (bytes ++ behind))
      ((i.commit bytes).map fun (m, i) ↦ (m, behind, i)) := by
  have committed := h.commit fits modest
  unfold Intake.commit
  match result : i.decoder.commit bytes with
  | .error e =>
    rw [result] at committed
    exact committed
  | .ok (none, c) =>
    rw [result] at committed
    exact committed
  | .ok (some m, c) =>
    rw [result] at committed
    obtain ⟨ready, limits, leads⟩ := committed
    obtain ⟨ready', limits', ahead⟩ := settle_ready (i := { i with decoder := c }) ready false m
    refine ⟨ready', limits'.trans limits, ?_⟩
    rw [ahead]
    exact leads

inductive Handing where
  /-- A slice of that length is decoded. Bytes of it that come behind a message are handed over
  again. -/
  | slice (length : Nat) (hold : Bool)
  /-- So many bytes are put straight into the part being read, as far as they fit. -/
  | fill (length : Nat)
  /-- The messages held are dropped. -/
  | release

def hand {d : Dialect} (i : Intake d A) (bytes : Bytes) :
    Handing → Except Failure (Option Message × Bytes × Intake d A)
  | .slice length hold =>
    (i.decode (bytes.take length) hold).map fun (m, rest, i) ↦ (m, rest ++ bytes.drop length, i)
  | .fill length =>
    let length := min length i.decoder.room
    (i.commit (bytes.take length)).map fun (m, i) ↦ (m, bytes.drop length, i)
  | .release => .ok (none, bytes, i.release)

/-- The messages of some handings, and the bytes left behind them unless one of them failed. -/
def handAll {d : Dialect} (i : Intake d A) (bytes : Bytes) :
    List Handing → List Message × Except Failure Bytes
  | [] => ([], .ok bytes)
  | handing :: more =>
    match i.hand bytes handing with
    | .error e => ([], .error e)
    | .ok (m, bytes, i) =>
      let (ms, left) := i.handAll bytes more
      (m.toList ++ ms, left)

theorem hand_answers (h : i.decoder.Ready) {bytes : Bytes} (modest : (i.decoder.ahead bytes).Modest)
    (handing : Handing) : i.Answers (i.decoder.ahead bytes) (i.hand bytes handing) := by
  cases handing with
  | slice length hold =>
    rw [← List.take_append_drop length bytes] at modest
    have answers := decode_answers h hold modest
    rwa [List.take_append_drop] at answers
  | fill length =>
    rw [← List.take_append_drop (min length i.decoder.room) bytes] at modest
    have fits : (bytes.take (min length i.decoder.room)).length ≤ i.decoder.room := by
      rw [List.length_take]
      omega
    have answers := commit_answers h fits modest
    rwa [List.take_append_drop] at answers
  | release =>
    obtain ⟨ready, limits, ahead⟩ := release_ready h
    refine ⟨ready, limits, ?_⟩
    rw [ahead]
    exact .refl _

theorem handAll_answers (h : i.decoder.Ready) {bytes : Bytes}
    (modest : (i.decoder.ahead bytes).Modest) (handings : List Handing) :
    match i.handAll bytes handings with
    | (ms, .ok left) => ∃ c : Decoder f.dialect A, c.Ready ∧
        (i.decoder.ahead bytes).Leads ms (c.ahead left)
    | (ms, .error e) =>
      (i.decoder.ahead bytes).messages = ms ∧
        (i.decoder.ahead bytes).error.map .malformed = some e := by
  induction handings generalizing i bytes with
  | nil => exact ⟨i.decoder, h, .refl _⟩
  | cons handing more ih =>
    have answers := hand_answers h modest handing
    rw [handAll]
    match result : i.hand bytes handing with
    | .error e =>
      rw [result] at answers
      exact answers
    | .ok (m, rest, i') =>
      rw [result] at answers
      obtain ⟨ready, -, leads⟩ := answers
      have others := ih ready (leads.modest modest)
      dsimp only
      match result : i'.handAll rest more with
      | (ms, .ok left) =>
        rw [result] at others
        obtain ⟨c, ready, leads'⟩ := others
        exact ⟨c, ready, leads.trans leads'⟩
      | (ms, .error e) =>
        rw [result] at others
        exact ⟨by rw [leads.messages, others.1], leads.error ▸ others.2⟩

end Intake

/-- However its bytes are handed over, a decoder finds in them what they parse as, and ends as the
parse does: in the same error, or in want of more bytes. -/
theorem handed_as_parsed {A : Type} [Provider A] [LawfulProvider A] (f : Framing) (limits : Limits)
    {allocator : A} (ample : Provider.Ample allocator) {bytes : Bytes}
    (modest : ∀ size ∈ (f.parse limits bytes).sizes, size < Storage.limit)
    {handings : List Intake.Handing} {ms : List Message} {left : Except Failure Bytes}
    (handed : Intake.handAll { decoder := ({ limits, allocator } : Decoder f.dialect A) } bytes
      handings = (ms, left))
    (wholly : ∀ rest, left = .ok rest → rest = []) :
    ms = (f.parse limits bytes).messages ∧
      left = match (f.parse limits bytes).error with
        | some e => .error (.malformed e)
        | none => .ok [] := by
  let start : Intake f.dialect A := { decoder := { limits, allocator } }
  have ready : start.decoder.Ready := Decoder.ready_start ample
  have ahead : start.decoder.ahead bytes = f.parse limits bytes := Decoder.ahead_start rfl bytes
  rw [← ahead] at modest ⊢
  have answers := Intake.handAll_answers ready modest handings
  rw [handed] at answers
  match left with
  | .ok rest =>
    obtain ⟨c, ready, leads⟩ := answers
    obtain rfl := wholly rest rfl
    rw [ready.ahead_nil] at leads
    rw [leads.messages, leads.error, List.append_nil]
    exact ⟨rfl, rfl⟩
  | .error e =>
    obtain ⟨messages, error⟩ := answers
    obtain ⟨cause, herror, rfl⟩ := Option.map_eq_some_iff.mp error
    rw [messages, herror]
    exact ⟨rfl, rfl⟩

theorem handed_as_parsed_to_failure :
    let bytes : Bytes := [0x07, 0, 0, 0, 0, 0, 0, 0, 1, 9, 0x01, 0, 0, 4, 5, 5, 5, 5]
    let handings : List Intake.Handing :=
      [.slice 4 true, .fill 3, .release, .slice 20 false, .fill 7, .slice 20 true,
        .slice 20 true]
    let ms : List Message := [{ data := [9], flags := 3 }, { flags := 1 }]
    let refusal : DecodeError := .tooLarge 4 3
    let decoder : Decoder flagsFirst := { limits := ⟨some 3⟩, allocator := .heap }
    Intake.handAll { decoder } bytes handings = (ms, .error (.malformed refusal)) ∧
      ms = (Framing.flagsFirst.parse ⟨some 3⟩ bytes).messages := by
  intro bytes handings ms refusal decoder
  have handed : Intake.handAll { decoder } bytes handings = (ms, .error (.malformed refusal)) := by
    cbv
  refine ⟨handed, ?_⟩
  have ample : Provider.Ample Allocator.heap := Allocator.ample_of_supply trivial
  exact (handed_as_parsed .flagsFirst ⟨some 3⟩ ample (by decide +kernel) handed (by simp)).1

end Wire

end Conduit
