import Conduit.Proofs.Encoding

namespace Conduit.Wire

namespace Framing

/-- The layout of a frame. A size of more than one byte is announced, by an escape where the size
comes first and counts the flags, and by a flag where the flags come first. -/
def frame (f : Framing) (m : Message) : Bytes :=
  match f with
  | sizeFirst =>
    let size := m.size + 1
    (if size < 255 then bigEndian 1 size else 255 :: bigEndian 8 size) ++
      (if m.more then 1 else 0) :: m.data
  | flagsFirst =>
    let large : Prop := 255 < m.size
    let flags : UInt8 :=
      (if m.more then 1 else 0) + (if large then 2 else 0) + (if m.isCommand then 4 else 0)
    flags :: bigEndian (if large then 8 else 1) m.size ++ m.data

def frames (f : Framing) (ms : List Message) : Bytes := (ms.map f.frame).flatten

theorem bigEndian_one (n : Nat) : bigEndian 1 n = [UInt8.ofNat n] := by
  simp [bigEndian]

theorem and_more (flags : UInt8) :
    flags &&& Flag.more = if (flags &&& Flag.more != 0) = true then 1 else 0 := by
  have all : ∀ n : Fin 256, UInt8.ofNat n &&& Flag.more =
      if (UInt8.ofNat n &&& Flag.more != 0) = true then 1 else 0 := by
    decide +kernel
  have this := all ⟨flags.toNat, flags.toNat_lt⟩
  simpa only [UInt8.ofNat_toNat] using this

theorem encode_sizeFirst (m : Message) : SizeFirst.header m ++ m.data = sizeFirst.frame m := by
  have more : m.flags &&& Flag.more = if m.more then 1 else 0 := and_more m.flags
  have limit : SizeFirst.escape.toNat = 255 := rfl
  simp only [SizeFirst.header, frame, more, limit, bigEndian_one]
  split
  · rfl
  · rw [SizeFirst.escape, List.append_assoc, List.singleton_append]

theorem encode_flagsFirst (m : Message) : FlagsFirst.header m ++ m.data = flagsFirst.frame m := by
  simp only [FlagsFirst.header, FlagsFirst.bitsOf, frame]
  by_cases large : 255 < m.size
  · simp only [gt_iff_lt, large, if_true]
    cases m.more <;> cases m.isCommand <;> rfl
  · simp only [gt_iff_lt, large, if_false, bigEndian_one]
    cases m.more <;> cases m.isCommand <;> rfl

theorem encode_eq_frame (f : Framing) (m : Message) : f.dialect.encode m = f.frame m := by
  cases f with
  | sizeFirst => exact encode_sizeFirst m
  | flagsFirst => exact encode_flagsFirst m

theorem wire_eq_frames (f : Framing) (ms : List Message) : f.dialect.wire ms = f.frames ms := by
  rw [Dialect.wire, frames, List.map_congr_left fun m _ ↦ encode_eq_frame f m]

theorem frames_append (f : Framing) (ms others : List Message) :
    f.frames (ms ++ others) = f.frames ms ++ f.frames others := by
  simp [frames]

theorem frames_eq_nil_iff (f : Framing) (ms : List Message) : f.frames ms = [] ↔ ms = [] := by
  refine ⟨fun nothing ↦ ?_, fun none ↦ none ▸ rfl⟩
  cases ms with
  | nil => rfl
  | cons m ms =>
    rw [← wire_eq_frames, Dialect.wire_cons] at nothing
    exact absurd (List.append_eq_nil_iff.mp nothing).1 (f.header_ne_nil m)

end Framing

namespace Encoder

def offer {d : Dialect} (e : Encoder d) (m : Message) : Except Message (Encoder d) :=
  match e.load m with
  | some e => .ok e
  | none => .error m

/-- What the owner of an encoder does. -/
inductive Use where
  /-- It puts messages into the queue that the encoder pulls from. -/
  | queue (ms : List Message)
  | offer (m : Message)
  | encode
  | encodeInto (room : Nat)
  | takeBody (least : Nat)

inductive Entry where
  | loaded (m : Message)
  | pulled (m : Message)

def Entry.message : Entry → Message
  | loaded m | pulled m => m

def Entry.pulled? : Entry → Option Message
  | loaded _ => none
  | pulled m => some m

/-- An encoder and its queue, with what went in and what came out. -/
structure Output (d : Dialect) where
  encoder : Encoder d
  queue : List Message := []
  /-- All that was put into the queue. -/
  queued : List Message := []
  /-- The messages that the encoder took on, in that order. -/
  begun : List Entry := []
  handed : Bytes := []

namespace Output

variable {d : Dialect}

def note (o : Output d) (bytes : Bytes) (queue : List Message) (encoder : Encoder d) : Output d :=
  let pulled := o.queue.take (o.queue.length - queue.length)
  { o with encoder, queue, begun := o.begun ++ pulled.map .pulled, handed := o.handed ++ bytes }

def noteLoaded (o : Output d) (m : Message) (encoder : Encoder d) : Output d :=
  { o with encoder, begun := o.begun ++ [.loaded m] }

def use (o : Output d) : Use → Output d
  | .queue ms => { o with queue := o.queue ++ ms, queued := o.queued ++ ms }
  | .offer m =>
    match o.encoder.offer m with
    | .ok encoder => o.noteLoaded m encoder
    | .error _ => o
  | .encode =>
    let (bytes, queue, encoder) := o.encoder.encode Source.ofList o.queue
    o.note bytes queue encoder
  | .encodeInto room =>
    let (bytes, queue, encoder) := o.encoder.encodeInto Source.ofList o.queue room
    o.note bytes queue encoder
  | .takeBody least =>
    let (body, encoder) := o.encoder.takeBody least
    o.note (body.getD []) o.queue encoder

def messages (o : Output d) : List Message := o.begun.map Entry.message

def pulled (o : Output d) : List Message := o.begun.filterMap Entry.pulled?

end Output

section Drawn

variable {d : Dialect} {e e' e'' : Encoder d} {queue queue' queue'' : List Message} {m : Message}

def message? (e : Encoder d) : Option Message :=
  match e.part with
  | .idle => none
  | .header m | .body m => some m

def Latest (e : Encoder d) (ms : List Message) : Prop :=
  ∀ m, e.message? = some m → ms.getLast? = some m

/-- What leaves a queue leaves it in front, and the one in progress is the last that left. -/
def Draws (e : Encoder d) (queue queue' : List Message) (e' : Encoder d) : Prop :=
  ∃ gone, gone ++ queue' = queue ∧ ∀ ms, e.Latest ms → e'.Latest (ms ++ gone)

theorem Draws.none (kept : ∀ m, e'.message? = some m → e.message? = some m) :
    e.Draws queue queue e' := by
  refine ⟨[], rfl, fun ms latest m current ↦ ?_⟩
  rw [List.append_nil]
  exact latest m (kept m current)

theorem Draws.refl (e : Encoder d) (queue : List Message) : e.Draws queue queue e :=
  .none fun _ current ↦ current

theorem Draws.trans (h : e.Draws queue queue' e') (next : e'.Draws queue' queue'' e'') :
    e.Draws queue queue'' e'' := by
  obtain ⟨gone, split, latest⟩ := h
  obtain ⟨others, rest, later⟩ := next
  refine ⟨gone ++ others, ?_, fun ms before ↦ ?_⟩
  · rw [List.append_assoc, rest, split]
  · rw [← List.append_assoc]
    exact later _ (latest ms before)

theorem message?_of_advance (current : e.advance.message? = some m) : e.message? = some m := by
  cases part : e.part with
  | idle | body _ =>
    simp only [advance, part, message?] at current
    contradiction
  | header sent =>
    simp only [advance, part, message?] at current ⊢
    by_cases filled : sent.size > 0
    · simpa only [if_pos filled] using current
    · simp only [if_neg filled] at current
      contradiction

theorem message?_of_emit {room : Nat} (current : (e.emit room).2.message? = some m) :
    e.message? = some m := by
  unfold emit at current
  dsimp only at current
  split at current
  · exact message?_of_advance current
  · exact current

theorem takeBody_draws (e : Encoder d) (queue : List Message) (least : Nat) :
    e.Draws queue queue (e.takeBody least).2 := by
  rcases e.takeBody_eq least with kept | ⟨-, taken⟩
  · rw [kept]
    exact .refl e queue
  · rw [taken]
    exact .none fun _ ↦ message?_of_advance

theorem refill_draws (e : Encoder d) (queue : List Message) :
    e.Draws queue (e.refill Source.ofList queue).1 (e.refill Source.ofList queue).2 := by
  unfold refill
  split
  · cases queue with
    | nil => exact .refl e []
    | cons m queue =>
      refine ⟨[m], rfl, fun ms _ other current ↦ ?_⟩
      rw [List.getLast?_concat]
      exact current
  · exact .refl e queue

theorem fill_draws (e : Encoder d) (queue : List Message) (turns room : Nat) :
    e.Draws queue (fill Source.ofList turns queue e room).2.1
      (fill Source.ofList turns queue e room).2.2 := by
  induction turns generalizing e queue room with
  | zero => exact .refl e queue
  | succ turns ih =>
    have refilled := e.refill_draws queue
    rw [fill]
    generalize e.refill Source.ofList queue = r at refilled ⊢
    split
    · exact .refl e queue
    · dsimp only
      split
      · exact refilled
      · have emitted : r.2.Draws r.1 r.1 (r.2.emit room).2 := .none fun _ ↦ message?_of_emit
        exact (refilled.trans emitted).trans (ih _ _ _)

theorem encode_draws (e : Encoder d) (queue : List Message) :
    e.Draws queue (e.encode Source.ofList queue).2.1 (e.encode Source.ofList queue).2.2 := by
  have taken := e.takeBody_draws queue e.bufferSize
  unfold encode
  split
  · rename_i body
    rwa [body] at taken
  · rename_i none
    rw [none] at taken
    exact taken.trans (fill_draws _ _ _ _)

end Drawn

theorem offer_eq {d : Dialect} (e : Encoder d) (m : Message) :
    e.offer m = if e.isIdle then .ok { e with part := .header m, pos := 0 } else .error m := by
  unfold offer load
  split <;> rename_i h
  · split at h
    · rw [if_pos ‹_›, Option.some_inj.mp h]
    · contradiction
  · split at h
    · contradiction
    · rw [if_neg ‹_›]

variable {f : Framing} {e e' : Encoder f.dialect} {queue queue' : List Message} {bytes : Bytes}

theorem takeBody_handsOut (sound : e.Sound) (queue : List Message) (least : Nat) :
    e.HandsOut queue ((e.takeBody least).1.getD []) queue (e.takeBody least).2 := by
  rcases e.takeBody_eq least with kept | ⟨-, taken⟩
  · rw [kept]
    exact .none sound
  · rw [taken]
    exact e.advance_handsOut

theorem Sound.isIdle_iff (sound : e.Sound) : e.isIdle = true ↔ e.due = [] := by
  refine ⟨due_of_isIdle, fun nothing ↦ ?_⟩
  by_contra busy
  apply sound (by simpa using busy)
  unfold due at nothing
  split at nothing
  · exact (List.append_eq_nil_iff.mp nothing).1
  · exact nothing

namespace Output

/-- What was given out, and what of the last message is still to be, are the frames of all that the
encoder took on. -/
structure Sound (o : Output f.dialect) : Prop where
  encoder : o.encoder.Sound
  bufferSize : 0 < o.encoder.bufferSize
  frames : o.handed ++ o.encoder.due = f.frames o.messages
  latest : o.encoder.Latest o.messages
  queued : o.queued = o.pulled ++ o.queue

variable {o : Output f.dialect}

theorem messages_note (o : Output f.dialect) {gone : List Message}
    (split : gone ++ queue = o.queue) (bytes : Bytes) (e : Encoder f.dialect) :
    (o.note bytes queue e).messages = o.messages ++ gone ∧
      (o.note bytes queue e).pulled = o.pulled ++ gone := by
  have pulled : o.queue.take (o.queue.length - queue.length) = gone := by
    rw [← split, List.length_append, Nat.add_sub_cancel, List.take_left]
  constructor
  · simp [Output.note, messages, pulled, Function.comp_def, Entry.message]
  · have kept : (gone.map Entry.pulled).filterMap Entry.pulled? = gone := by
      rw [List.filterMap_map]
      exact List.filterMap_some
    simp only [Output.note, Output.pulled, pulled, List.filterMap_append, kept]

theorem Sound.note (h : o.Sound) (hands : o.encoder.HandsOut o.queue bytes queue e)
    (draws : o.encoder.Draws o.queue queue e) : (o.note bytes queue e).Sound := by
  obtain ⟨gone, split, latest⟩ := draws
  obtain ⟨messages, pulled⟩ := o.messages_note split bytes e
  have due : o.encoder.due ++ f.frames gone = bytes ++ e.due := by
    have all := hands.bytes
    rw [f.wire_eq_frames, f.wire_eq_frames, ← split, f.frames_append, ← List.append_assoc,
      ← List.append_assoc] at all
    exact List.append_cancel_right all
  refine ⟨hands.sound, hands.bufferSize ▸ h.bufferSize, ?frames, ?latest, ?queued⟩
  case frames =>
    calc o.handed ++ bytes ++ e.due
        = o.handed ++ (o.encoder.due ++ f.frames gone) := by rw [List.append_assoc, due]
      _ = f.frames o.messages ++ f.frames gone := by rw [← List.append_assoc, h.frames]
      _ = f.frames (o.note bytes queue e).messages := by rw [messages, f.frames_append]
  case latest =>
    rw [messages]
    exact latest _ h.latest
  case queued => rw [pulled, List.append_assoc, Output.note, split, h.queued]

theorem Sound.load (h : o.Sound) (idle : o.encoder.isIdle = true) (m : Message) :
    (o.noteLoaded m { o.encoder with part := .header m, pos := 0 }).Sound := by
  have messages : (o.noteLoaded m { o.encoder with part := .header m, pos := 0 }).messages =
      o.messages ++ [m] := by
    simp [noteLoaded, Output.messages, Entry.message]
  refine ⟨fun _ ↦ f.header_ne_nil m, h.bufferSize, ?frames, ?latest, ?queued⟩
  case frames =>
    have before := h.frames
    rw [due_of_isIdle idle, List.append_nil] at before
    have frame : f.dialect.header m ++ m.data = f.frames [m] := by
      rw [← f.wire_eq_frames, Dialect.wire_cons, Dialect.wire, List.map_nil, List.flatten_nil,
        List.append_nil]
    rw [messages, f.frames_append, ← before, ← frame]
    rfl
  case latest =>
    intro other current
    rw [messages, List.getLast?_concat]
    exact current
  case queued =>
    have pulled : (o.noteLoaded m { o.encoder with part := .header m, pos := 0 }).pulled =
        o.pulled := by
      rw [Output.pulled, noteLoaded, List.filterMap_append]
      exact List.append_nil _
    rw [pulled]
    exact h.queued

theorem Sound.use (h : o.Sound) (u : Use) : (o.use u).Sound := by
  cases u with
  | queue ms =>
    refine ⟨h.encoder, h.bufferSize, h.frames, h.latest, ?_⟩
    rw [Output.use, h.queued, List.append_assoc]
    rfl
  | offer m =>
    rw [Output.use, offer_eq]
    by_cases idle : o.encoder.isIdle = true
    · rw [if_pos idle]
      exact h.load idle m
    · rw [if_neg idle]
      exact h
  | encode =>
    exact h.note (encode_handsOut h.encoder h.bufferSize).1 (encode_draws _ _)
  | encodeInto room =>
    exact h.note (fill_handsOut h.encoder le_rfl).1 (fill_draws _ _ _ _)
  | takeBody least =>
    exact h.note (takeBody_handsOut h.encoder _ _) (takeBody_draws _ _ _)

theorem Sound.start (f : Framing) (size : Nat) :
    Sound (f := f) { encoder := ofBufferSize f.dialect size } :=
  ⟨sound_of_isIdle rfl, Nat.le_max_right _ _, rfl, nofun, rfl⟩

theorem Sound.run (h : o.Sound) (uses : List Use) : (uses.foldl Output.use o).Sound := by
  induction uses generalizing o with
  | nil => exact h
  | cons u uses ih => exact ih (h.use u)

theorem Sound.isIdle_iff (h : o.Sound) :
    o.encoder.isIdle = true ↔ o.handed = f.frames o.messages := by
  rw [h.encoder.isIdle_iff, ← h.frames, List.self_eq_append_right]

theorem Sound.encode_eq_nil_iff (h : o.Sound) :
    (o.encoder.encode Source.ofList o.queue).1 = [] ↔
      o.encoder.isIdle = true ∧ o.queue = [] := by
  have encoded := @encode_handsOut f o.encoder o.queue h.encoder h.bufferSize
  generalize encode Source.ofList o.queue o.encoder = piece at encoded ⊢
  obtain ⟨chunk, queue, e⟩ := piece
  obtain ⟨hands, last⟩ := encoded
  have bytes := hands.bytes
  simp only [f.wire_eq_frames] at bytes
  constructor
  · rintro (rfl : chunk = [])
    obtain ⟨idle, none⟩ := last rfl
    rw [due_of_isIdle idle, none] at bytes
    obtain ⟨due, frames⟩ := List.append_eq_nil_iff.mp bytes
    exact ⟨h.encoder.isIdle_iff.mpr due, (f.frames_eq_nil_iff _).mp frames⟩
  · rintro ⟨idle, none⟩
    rw [due_of_isIdle idle, none] at bytes
    exact (List.append_eq_nil_iff.mp bytes.symm).1

theorem Sound.takeBody_eq_some_iff (h : o.Sound) (least : Nat) (bytes : Bytes) :
    (o.encoder.takeBody least).1 = some bytes ↔
      o.handed ++ bytes = f.frames o.messages ∧ max least 1 ≤ bytes.length ∧
        ∃ m, o.messages.getLast? = some m ∧ bytes <:+ m.data := by
  rw [← h.frames, List.append_cancel_left_eq]
  have latest := h.latest
  cases part : o.encoder.part with
  | idle =>
    simp only [takeBody, due, rest, part, reduceCtorEq, false_iff]
    rintro ⟨rfl, long, -⟩
    exact absurd (le_of_max_le_right long) (by decide)
  | header m =>
    -- What is due begins with a byte of the header, so that it is longer than the body.
    have more := List.length_pos_iff.mpr (h.encoder (by simp only [isIdle, part]))
    simp only [takeBody, due, part, reduceCtorEq, false_iff]
    rintro ⟨rfl, -, last, same, suffix⟩
    rw [latest m (by simp only [message?, part]), Option.some_inj] at same
    have short := (same ▸ suffix).length_le
    rw [List.length_append] at short
    omega
  | body m =>
    have size : o.encoder.rest.length = m.size - o.encoder.pos := by
      simp only [rest, part, List.length_drop, Message.size]
    simp only [takeBody, due, part]
    split
    · rename_i short
      refine iff_of_false (Option.some_ne_none bytes).symm ?_
      rintro ⟨rfl, long, -⟩
      omega
    · rename_i long
      rw [Option.some_inj]
      refine ⟨?_, fun given ↦ given.1.symm⟩
      rintro rfl
      refine ⟨rfl, by omega, m, latest m (by simp only [message?, part]), ?_⟩
      simp only [rest, part]
      exact List.drop_suffix _ _

/-- How what came out of an encoder stands to what went in. -/
structure Faithful (o : Output f.dialect) : Prop where
  /-- The frames come out in the order in which their messages were taken on. -/
  in_order : o.handed <+: f.frames o.messages
  /-- Each message that left the queue was taken on, once and in order. -/
  kept : o.queued = o.pulled ++ o.queue
  /-- A message is taken on between two frames, and given back within one. -/
  accepts : ∀ m, (∃ e, o.encoder.offer m = .ok e) ↔ o.handed = f.frames o.messages
  refuses : ∀ m, o.handed ≠ f.frames o.messages → o.encoder.offer m = .error m
  /-- The rest of a body is handed out where all else of its frame was, exactly if it is as long as
  was asked for and not empty. -/
  bodies : ∀ least bytes, (o.encoder.takeBody least).1 = some bytes ↔
    o.handed ++ bytes = f.frames o.messages ∧ max least 1 ≤ bytes.length ∧
      ∃ m, o.messages.getLast? = some m ∧ bytes <:+ m.data
  /-- An empty piece tells that nothing is left, in the encoder or in its queue. -/
  ends : (o.encoder.encode Source.ofList o.queue).1 = [] ↔
    o.encoder.isIdle = true ∧ o.queue = []
  whole : (o.encoder.encode Source.ofList o.queue).1 = [] →
    o.handed = f.frames o.messages ∧ o.pulled = o.queued

end Output

/-- An encoder gives out the frames of its messages however it is asked for them, whatever size its
buffer has. -/
theorem frames_given_out (f : Framing) (size : Nat) (uses : List Use) :
    (uses.foldl Output.use { encoder := ofBufferSize f.dialect size }).Faithful := by
  have sound := (Output.Sound.start f size).run uses
  generalize uses.foldl Output.use _ = o at sound
  refine ⟨⟨_, sound.frames⟩, sound.queued, ?accepts, ?refuses, sound.takeBody_eq_some_iff,
    sound.encode_eq_nil_iff, ?whole⟩
  case accepts =>
    intro m
    rw [offer_eq, ← sound.isIdle_iff]
    cases o.encoder.isIdle <;> simp
  case refuses =>
    intro m unfinished
    rw [offer_eq, if_neg (mt sound.isIdle_iff.mp unfinished)]
  case whole =>
    intro empty
    obtain ⟨idle, none⟩ := sound.encode_eq_nil_iff.mp empty
    refine ⟨sound.isIdle_iff.mp idle, ?_⟩
    rw [sound.queued, none, List.append_nil]

end Encoder

end Conduit.Wire
