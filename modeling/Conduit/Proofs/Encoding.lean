import Conduit.Proofs.Grammar
import Conduit.Wire.Encoder
import Mathlib.Tactic.Ring

namespace Conduit

theorem foldl_bigEndian (width n before : Nat) :
    (bigEndian width n).foldl (fun n b ↦ n * 256 + b.toNat) before =
      before * 256 ^ width + n % 256 ^ width := by
  induction width generalizing before with
  | zero => simp [bigEndian, Nat.mod_one]
  | succ width ih =>
    have digit : (UInt8.ofNat (n >>> (8 * width))).toNat = n / 256 ^ width % 256 := by
      rw [UInt8.toNat_ofNat', Nat.shiftRight_eq_div_pow, Nat.pow_mul]
    rw [bigEndian, List.foldl_cons, ih, digit, Nat.mod_pow_succ, Nat.add_mul, Nat.pow_succ]
    ring

theorem ofBigEndian_bigEndian {width n : Nat} (h : n < 256 ^ width) :
    ofBigEndian (bigEndian width n) = n := by
  rw [ofBigEndian, foldl_bigEndian, Nat.zero_mul, Nat.zero_add, Nat.mod_eq_of_lt h]

namespace Wire

/-- The bytes of some messages, frame after frame. -/
def Dialect.wire (d : Dialect) (ms : List Message) : Bytes := (ms.map d.encode).flatten

theorem Dialect.wire_cons (d : Dialect) (m : Message) (ms : List Message) :
    d.wire (m :: ms) = d.header m ++ (m.data ++ d.wire ms) := by
  rw [wire, List.map_cons, List.flatten_cons, encode, List.append_assoc, wire]

namespace Framing

def flags : Framing → UInt8
  | sizeFirst => Flag.more
  | flagsFirst => Flag.more ||| Flag.command

def carried (f : Framing) (m : Message) : Message := { data := m.data, flags := m.flags &&& f.flags }

end Framing

namespace SizeFirst

theorem headBehind_of_admitted {l : Limits} {size : Nat} (admitted : l.objection? size = none)
    (flags : UInt8) (rest : Bytes) :
    headBehind l (size + 1) (flags :: rest) = .whole size (flags &&& Flag.more) rest := by
  simp only [headBehind, Nat.succ_ne_zero, if_false, Nat.add_sub_cancel, admitted]

theorem head_header {l : Limits} {m : Message} (fits : m.size < Storage.limit)
    (admitted : l.objection? m.size = none) (rest : Bytes) :
    head l (header m ++ rest) = .whole m.size (m.flags &&& Flag.more) rest := by
  have behind := headBehind_of_admitted admitted (m.flags &&& Flag.more) rest
  rw [UInt8.and_assoc, UInt8.and_self] at behind
  rw [← behind]
  unfold header
  split
  · rename_i short
    have short : m.size + 1 < 255 := short
    have size : (UInt8.ofNat (m.size + 1)).toNat = m.size + 1 :=
      UInt8.toNat_ofNat_of_lt' (by simp [UInt8.size]; omega)
    have unescaped : UInt8.ofNat (m.size + 1) ≠ 0xff := by
      intro escaped
      rw [escaped] at size
      have : (0xff : UInt8).toNat = 255 := rfl
      omega
    rw [List.cons_append, head, if_pos unescaped, size]
    rfl
  · have fits : m.size + 1 < 256 ^ 8 := by
      rw [Storage.limit] at fits
      omega
    have width := bigEndian_length 8 (m.size + 1)
    have escaped : ¬escape ≠ 0xff := not_not_intro rfl
    have enough : ¬(bigEndian 8 (m.size + 1) ++ (m.flags &&& Flag.more) :: rest).length < 8 := by
      simp [width]
    rw [List.cons_append, List.cons_append, List.append_assoc, List.singleton_append, head,
      if_neg escaped, if_neg enough, List.take_left' width, List.drop_left' width,
      ofBigEndian_bigEndian fits]

theorem header_carried (m : Message) : header (Framing.sizeFirst.carried m) = header m := by
  have flags : m.flags &&& Flag.more &&& Flag.more = m.flags &&& Flag.more := by
    rw [UInt8.and_assoc, UInt8.and_self]
  simp only [header, Framing.carried, Framing.flags, flags, Message.size]
  rfl

theorem header_ne_nil (m : Message) : header m ≠ [] := by
  unfold header
  split <;> exact List.cons_ne_nil _ _

end SizeFirst

namespace FlagsFirst

theorem bits_bitsOf (m : Message) :
    (bitsOf m &&& Flag.more ||| bitsOf m >>> 1 &&& Flag.command) =
        m.flags &&& Framing.flagsFirst.flags ∧
      ((bitsOf m ||| largeBit) &&& Flag.more ||| (bitsOf m ||| largeBit) >>> 1 &&& Flag.command) =
        m.flags &&& Framing.flagsFirst.flags ∧
      bitsOf m &&& 0x02 = 0 ∧ (bitsOf m ||| largeBit) &&& 0x02 ≠ 0 := by
  have all : ∀ n : Fin 256, let bits := bitsOf { flags := UInt8.ofNat n }
      (bits &&& Flag.more ||| bits >>> 1 &&& Flag.command) =
          UInt8.ofNat n &&& Framing.flagsFirst.flags ∧
        ((bits ||| largeBit) &&& Flag.more ||| (bits ||| largeBit) >>> 1 &&& Flag.command) =
          UInt8.ofNat n &&& Framing.flagsFirst.flags ∧
        bits &&& 0x02 = 0 ∧ (bits ||| largeBit) &&& 0x02 ≠ 0 := by
    decide +kernel
  have this := all ⟨m.flags.toNat, m.flags.toNat_lt⟩
  simp only [UInt8.ofNat_toNat] at this
  exact this

theorem bitsOf_carried (m : Message) : bitsOf (Framing.flagsFirst.carried m) = bitsOf m := by
  have all : ∀ n : Fin 256, bitsOf { flags := UInt8.ofNat n &&& Framing.flagsFirst.flags } =
      bitsOf { flags := UInt8.ofNat n } := by
    decide +kernel
  have this := all ⟨m.flags.toNat, m.flags.toNat_lt⟩
  simp only [UInt8.ofNat_toNat] at this
  exact this

theorem head_header {l : Limits} {m : Message} (fits : m.size < Storage.limit)
    (admitted : l.objection? m.size = none) (rest : Bytes) :
    head l (header m ++ rest) = .whole m.size (m.flags &&& Framing.flagsFirst.flags) rest := by
  obtain ⟨shortFlags, longFlags, short, long⟩ := bits_bitsOf m
  unfold header
  split
  · have fits : m.size < 256 ^ 8 := by
      rw [Storage.limit] at fits
      omega
    have width := bigEndian_length 8 m.size
    have enough : ¬(bigEndian 8 m.size ++ rest).length < 8 := by simp [width]
    rw [List.cons_append, head, if_neg long, longFlags, headBehind, if_neg enough,
      List.take_left' width, List.drop_left' width, ofBigEndian_bigEndian fits]
    simp only [admitted]
  · have size : ofBigEndian [UInt8.ofNat m.size] = m.size := by
      have digit : (UInt8.ofNat m.size).toNat = m.size :=
        UInt8.toNat_ofNat_of_lt' (by simp [UInt8.size]; omega)
      simp [ofBigEndian, digit]
    rw [List.cons_append, head, if_pos short, shortFlags, headBehind, if_neg (by simp),
      List.singleton_append, List.take_succ_cons, List.take_zero, size]
    simp only [admitted]
    rfl

theorem header_carried (m : Message) : header (Framing.flagsFirst.carried m) = header m := by
  have size : (Framing.flagsFirst.carried m).size = m.size := rfl
  rw [header, header, size, bitsOf_carried]

theorem header_ne_nil (m : Message) : header m ≠ [] := by
  unfold header
  split <;> exact List.cons_ne_nil _ _

end FlagsFirst

namespace Framing

variable {f : Framing} {l : Limits}

theorem head_header {m : Message} (fits : m.size < Storage.limit)
    (admitted : l.objection? m.size = none) (rest : Bytes) :
    f.head l (f.dialect.header m ++ rest) = .whole m.size (m.flags &&& f.flags) rest := by
  cases f with
  | sizeFirst => exact SizeFirst.head_header fits admitted rest
  | flagsFirst => exact FlagsFirst.head_header fits admitted rest

theorem encode_carried (m : Message) : f.dialect.encode (f.carried m) = f.dialect.encode m := by
  cases f with
  | sizeFirst => exact congrArg (· ++ m.data) (SizeFirst.header_carried m)
  | flagsFirst => exact congrArg (· ++ m.data) (FlagsFirst.header_carried m)

theorem header_ne_nil (m : Message) : f.dialect.header m ≠ [] := by
  cases f with
  | sizeFirst => exact SizeFirst.header_ne_nil m
  | flagsFirst => exact FlagsFirst.header_ne_nil m

theorem wire_carried (ms : List Message) :
    f.dialect.wire (ms.map f.carried) = f.dialect.wire ms := by
  simp [Dialect.wire, Function.comp_def, encode_carried]

theorem parse_wire {ms : List Message} (fits : ∀ m ∈ ms, m.size < Storage.limit)
    (admitted : ∀ m ∈ ms, l.objection? m.size = none) :
    f.parse l (f.dialect.wire ms) =
      { messages := ms.map f.carried, sizes := ms.map Message.size } := by
  induction ms with
  | nil =>
    rw [parse_eq]
    cases f <;> rfl
  | cons m ms ih =>
    have others := ih (fun x hx ↦ fits x (List.mem_cons_of_mem _ hx))
      (fun x hx ↦ admitted x (List.mem_cons_of_mem _ hx))
    have whole : ¬(m.data ++ f.dialect.wire ms).length < m.data.length := by simp
    rw [parse_eq, Dialect.wire_cons,
      head_header (fits m List.mem_cons_self) (admitted m List.mem_cons_self), parseHead, parseBody,
      Message.size, if_neg whole, List.take_left, List.drop_left, others]
    rfl

end Framing

namespace Encoder

variable {f : Framing} {e e' e'' : Encoder f.dialect} {queue queue' queue'' : List Message}

def due {d : Dialect} (e : Encoder d) : Bytes :=
  match e.part with
  | .header m => e.rest ++ m.data
  | _ => e.rest

def Sound {d : Dialect} (e : Encoder d) : Prop := e.isIdle = false → e.rest ≠ []

theorem due_of_isIdle {d : Dialect} {e : Encoder d} (idle : e.isIdle = true) : e.due = [] := by
  unfold isIdle at idle
  split at idle
  · rename_i part
    simp only [due, rest, part]
  · contradiction

theorem sound_of_isIdle {d : Dialect} {e : Encoder d} (idle : e.isIdle = true) : e.Sound :=
  fun busy ↦ absurd (idle.symm.trans busy) nofun

structure HandsOut (e : Encoder f.dialect) (queue : List Message) (bytes : Bytes)
    (queue' : List Message) (e' : Encoder f.dialect) : Prop where
  sound : e'.Sound
  bytes : e.due ++ f.dialect.wire queue = bytes ++ (e'.due ++ f.dialect.wire queue')
  bufferSize : e'.bufferSize = e.bufferSize

theorem HandsOut.none (sound : e.Sound) : e.HandsOut queue [] queue e := ⟨sound, rfl, rfl⟩

theorem HandsOut.trans {bytes more : Bytes} (h : e.HandsOut queue bytes queue' e')
    (next : e'.HandsOut queue' more queue'' e'') : e.HandsOut queue (bytes ++ more) queue'' e'' := by
  refine ⟨next.sound, ?_, next.bufferSize.trans h.bufferSize⟩
  rw [h.bytes, next.bytes, List.append_assoc]

theorem HandsOut.of_due {bytes : Bytes} (sound : e'.Sound) (due : e.due = bytes ++ e'.due)
    (bufferSize : e'.bufferSize = e.bufferSize) : e.HandsOut queue bytes queue e' := by
  refine ⟨sound, ?_, bufferSize⟩
  rw [due, List.append_assoc]

theorem advance_handsOut (e : Encoder f.dialect) : e.HandsOut queue e.rest queue e.advance := by
  match part : e.part with
  | .idle | .body m =>
    apply HandsOut.of_due <;> simp [advance, Sound, isIdle, due, rest, part]
  | .header m =>
    by_cases empty : m.data = []
    · apply HandsOut.of_due <;> simp [advance, Sound, isIdle, due, rest, part, Message.size, empty]
    · have size : m.data.length > 0 := List.length_pos_iff.mpr empty
      apply HandsOut.of_due <;>
        simp [advance, Sound, isIdle, due, rest, part, Message.size, size, empty]

theorem rest_move {d : Dialect} (e : Encoder d) (n : Nat) :
    @rest d { e with pos := e.pos + n } = e.rest.drop n := by
  unfold rest
  dsimp only
  split <;> simp

theorem emit_handsOut (e : Encoder f.dialect) (queue : List Message) (room : Nat) :
    e.HandsOut queue (e.emit room).1 queue (e.emit room).2 ∧
      (e.emit room).1.length = min e.rest.length room := by
  by_cases fits : e.rest.length ≤ room
  · have whole : e.emit room = (e.rest, e.advance) := if_pos fits
    rw [whole]
    exact ⟨e.advance_handsOut, (Nat.min_eq_left fits).symm⟩
  · have part : e.emit room = (e.rest.take room, { e with pos := e.pos + room }) := if_neg fits
    have rest := e.rest_move room
    have left := List.take_append_drop room e.rest
    rw [← rest] at left
    rw [part]
    refine ⟨.of_due ?sound ?due rfl, ?length⟩
    case sound =>
      intro _
      rw [rest, Ne, List.drop_eq_nil_iff]
      omega
    case due =>
      unfold due
      dsimp only
      split
      · rw [← List.append_assoc, left]
      · exact left.symm
    case length => rw [List.length_take, Nat.min_comm]

theorem takeBody_eq {d : Dialect} (e : Encoder d) (least : Nat) :
    e.takeBody least = (none, e) ∨
      e.isIdle = false ∧ e.takeBody least = (some e.rest, e.advance) := by
  match part : e.part with
  | .idle | .header m =>
    left
    simp only [takeBody, part]
  | .body m =>
    simp only [takeBody, isIdle, part, true_and]
    split
    · exact .inl rfl
    · exact .inr rfl

theorem refill_handsOut (sound : e.Sound) (queue : List Message) :
    e.HandsOut queue [] (e.refill Source.ofList queue).1 (e.refill Source.ofList queue).2 ∧
      ((e.refill Source.ofList queue).2.isIdle = true →
        (e.refill Source.ofList queue).1 = []) := by
  by_cases idle : e.isIdle = true
  · unfold refill
    rw [if_pos idle]
    cases queue with
    | nil => exact ⟨.none sound, fun _ ↦ rfl⟩
    | cons m queue =>
      refine ⟨⟨fun _ ↦ f.header_ne_nil m, ?_, rfl⟩, nofun⟩
      rw [due_of_isIdle idle, Dialect.wire_cons, List.nil_append, List.nil_append,
        ← List.append_assoc]
      rfl
  · unfold refill
    rw [if_neg idle]
    exact ⟨.none sound, fun still ↦ absurd still idle⟩

theorem fill_handsOut (sound : e.Sound) {turns room : Nat} (enough : room ≤ turns) :
    let (bytes, queue', e') := fill Source.ofList turns queue e room
    e.HandsOut queue bytes queue' e' ∧ bytes.length ≤ room ∧
      (bytes.length < room → e'.isIdle = true ∧ queue' = []) := by
  induction turns generalizing queue e room with
  | zero =>
    obtain rfl : room = 0 := Nat.le_zero.mp enough
    exact ⟨.none sound, Nat.zero_le _, nofun⟩
  | succ turns ih =>
    obtain ⟨refilled, last⟩ := refill_handsOut sound queue
    rw [fill]
    by_cases none : room = 0
    · rw [if_pos none]
      exact ⟨.none sound, Nat.zero_le _, fun unfilled ↦ absurd unfilled (by simp [none])⟩
    · rw [if_neg none]
      generalize e.refill Source.ofList queue = r at refilled last ⊢
      obtain ⟨queue', e'⟩ := r
      dsimp only at refilled last ⊢
      by_cases idle : e'.isIdle = true
      · rw [if_pos idle]
        exact ⟨refilled, Nat.zero_le _, fun _ ↦ ⟨idle, last idle⟩⟩
      · rw [if_neg idle]
        have rest := List.length_pos_iff.mpr (refilled.sound (by simpa using idle))
        obtain ⟨emitted, length⟩ := emit_handsOut e' queue' room
        have others := @ih (e'.emit room).2 queue' emitted.sound
          (room - (e'.emit room).1.length) (by omega)
        dsimp only at others ⊢
        obtain ⟨filled, le, unfilled⟩ := others
        refine ⟨refilled.trans (emitted.trans filled), ?_, ?_⟩
        · rw [List.length_append]
          omega
        · rw [List.length_append]
          intro short
          exact unfilled (by omega)

theorem encode_handsOut (sound : e.Sound) (buffered : 0 < e.bufferSize) :
    let (chunk, queue', e') := encode Source.ofList queue e
    e.HandsOut queue chunk queue' e' ∧ (chunk = [] → e'.isIdle = true ∧ queue' = []) := by
  unfold encode
  rcases e.takeBody_eq e.bufferSize with kept | ⟨busy, taken⟩
  · obtain ⟨filled, -, last⟩ := @fill_handsOut f e queue sound _ _ (Nat.le_refl e.bufferSize)
    rw [kept]
    exact ⟨filled, fun empty ↦ last (by rw [empty]; exact buffered)⟩
  · rw [taken]
    exact ⟨e.advance_handsOut, fun empty ↦ absurd empty (sound busy)⟩

/-- Some pieces are what an encoder gives until an empty one comes. -/
inductive Emits {d : Dialect} : Encoder d → List Message → List Bytes → Prop where
  | last {e e' : Encoder d} {queue queue' : List Message}
      (empty : e.encode Source.ofList queue = ([], queue', e')) : Emits e queue []
  | piece {e e' : Encoder d} {queue queue' : List Message} {chunk : Bytes} {chunks : List Bytes}
      (full : chunk ≠ []) (next : e.encode Source.ofList queue = (chunk, queue', e'))
      (others : Emits e' queue' chunks) : Emits e queue (chunk :: chunks)

theorem drainN_emits (sound : e.Sound) (buffered : 0 < e.bufferSize) {turns : Nat}
    (enough : (e.due ++ f.dialect.wire queue).length < turns) :
    e.Emits queue (e.drainN Source.ofList turns queue).1 ∧
      (e.drainN Source.ofList turns queue).1.flatten = e.due ++ f.dialect.wire queue := by
  induction turns generalizing e queue with
  | zero => contradiction
  | succ turns ih =>
    have encoded := @encode_handsOut f e queue sound buffered
    match next : e.encode Source.ofList queue with
    | ([], queue', e') =>
      simp only [next] at encoded
      obtain ⟨handed, last⟩ := encoded
      obtain ⟨idle, rfl⟩ := last trivial
      have nothing : e.due ++ f.dialect.wire queue = [] := by
        rw [handed.bytes, due_of_isIdle idle]
        rfl
      simp only [drainN, next]
      exact ⟨.last next, nothing.symm⟩
    | (b :: chunk, queue', e') =>
      simp only [next] at encoded
      obtain ⟨handed, -⟩ := encoded
      have enough : (e'.due ++ f.dialect.wire queue').length < turns := by
        rw [handed.bytes, List.length_append, List.length_cons] at enough
        omega
      obtain ⟨emits, flatten⟩ := ih handed.sound (handed.bufferSize ▸ buffered) enough
      simp only [drainN, next]
      refine ⟨.piece (List.cons_ne_nil _ _) next emits, ?_⟩
      rw [List.flatten_cons, flatten, handed.bytes]

theorem drain_emits (sound : e.Sound) (buffered : 0 < e.bufferSize) (queue : List Message) :
    e.Emits queue (e.drain queue).1 ∧
      (e.drain queue).1.flatten = e.due ++ f.dialect.wire queue := by
  apply drainN_emits sound buffered
  rw [List.length_append, Dialect.wire, due]
  match e.part with
  | .header m =>
    simp only [List.length_append, Message.size]
    omega
  | .idle | .body m =>
    dsimp only
    omega

end Encoder

end Wire

end Conduit
