import Conduit.Proofs.Announcements
import Conduit.Proofs.Decoding
import Conduit.Proofs.WordSizes

namespace Conduit.Wire

namespace Decoder

variable {A : Type} {f : Framing} {c c₁ c₂ c' : Decoder f.dialect A}

def Fits (m : Nat) {d : Dialect} (c : Decoder d A) : Prop :=
  ∀ body flags, c.stage = .body body flags → body.size ≤ m

theorem Fits.write {m : Nat} (h : c.Fits m) (waits : c.Waits) (b : UInt8) : (c.write b).Fits m := by
  rintro body flags stage
  have room := waits.room
  unfold Decoder.write at stage
  cases before : c.stage with
  | header => simp [before] at stage
  | body body' flags' =>
    have size := h body' flags' before
    simp only [Decoder.room, before] at room
    simp only [before, Stage.body.injEq] at stage
    obtain ⟨rfl, rfl⟩ := stage
    unfold Body.size at size ⊢
    rw [Body.push, List.length_cons]
    dsimp only
    omega

variable [Provider A]

/-- The sizes of the bodies asked for while bytes are read up to the end of a message. -/
def asked {d : Dialect} (c : Decoder d A) : Bytes → List Nat
  | [] => []
  | b :: rest =>
    (c.write b).asks?.toList ++
      match c.feed b with
      | .ok (none, c) => c.asked rest
      | .ok (some _, _) | .error _ => []

/-- A decoder takes bytes, asks for bodies of these sizes and gives these messages. In between, its
allocator may come to have more or less to give. -/
inductive Takes : Decoder f.dialect A → Bytes → List Nat → List Message → Decoder f.dialect A →
    Prop where
  | nil {c : Decoder f.dialect A} : Takes c [] [] [] c
  | byte {c c₁ c' : Decoder f.dialect A} {b : UInt8} {m : Option Delivery} {bytes : Bytes}
    {sizes : List Nat} {ms : List Message} (fed : c.feed b = .ok (m, c₁))
    (later : Takes c₁ bytes sizes ms c') :
    Takes c (b :: bytes) ((c.write b).asks?.toList ++ sizes)
      ((m.map Delivery.message).toList ++ ms) c'
  | supply {c c' : Decoder f.dialect A} {bytes : Bytes} {sizes : List Nat} {ms : List Message}
    (a : A) (later : Takes { c with allocator := a } bytes sizes ms c') :
    Takes c bytes sizes ms c'

def Balks (c : Decoder f.dialect A) (bytes : Bytes) (sizes : List Nat) (ms : List Message)
    (e : Failure) : Prop :=
  ∃ taken b unread before c', bytes = taken ++ b :: unread ∧ Takes c taken before ms c' ∧
    c'.feed b = .error e ∧ sizes = before ++ (c'.write b).asks?.toList

namespace Takes

variable {bytes others : Bytes} {sizes sizes' : List Nat} {ms ms' : List Message}

theorem trans (h : Takes c bytes sizes ms c₁) (h' : Takes c₁ others sizes' ms' c₂) :
    Takes c (bytes ++ others) (sizes ++ sizes') (ms ++ ms') c₂ := by
  induction h with
  | nil => exact h'
  | byte fed _ ih =>
    rw [List.cons_append, List.append_assoc, List.append_assoc]
    exact .byte fed (ih h')
  | supply a _ ih => exact .supply a (ih h')

structure Keeps (c : Decoder f.dialect A) (bytes : Bytes) (sizes : List Nat) (ms : List Message)
    (c' : Decoder f.dialect A) : Prop where
  waits : c'.Waits
  limits : c'.limits = c.limits
  leads : ∀ behind, (c.ahead (bytes ++ behind)).Leads ms (c'.ahead behind)
  announced : ∀ behind, sizes ⊆ (c.ahead (bytes ++ behind)).sizes

theorem keeps [LawfulProvider A] (h : Takes c bytes sizes ms c') (waits : c.Waits) :
    Keeps c bytes sizes ms c' := by
  induction h with
  | nil => exact ⟨waits, rfl, fun _ ↦ .refl _, fun _ ↦ List.nil_subset _⟩
  | @byte c c₁ c' b m bytes sizes ms fed _ ih =>
    obtain ⟨laid, -, ahead⟩ := waits.write b
    have passes (rest : Bytes) : (c.write b).Passes rest (.ok (m, c₁)) := by
      rw [← fed]
      exact laid.advance rest
    cases passes [] with
    | goes waits₁ limits =>
      obtain ⟨waits', limits', leads, announced⟩ := ih waits₁
      have first (rest : Bytes) :
          (c.ahead (b :: rest)).Leads (m.map Delivery.message).toList (c₁.ahead rest) := by
        rw [← ahead]
        cases passes rest with
        | goes _ _ leads => exact leads
      refine ⟨waits', limits'.trans (limits.trans (c.settings_write b).1),
        fun behind ↦ (first _).trans (leads behind), fun behind size asked ↦ ?_⟩
      rcases List.mem_append.mp asked with here | later
      · rw [List.cons_append, ← ahead]
        exact laid.announced (Option.mem_toList.mp here) _
      · exact (first _).sizes (announced behind later)
  | supply a _ ih =>
    obtain ⟨waits', limits, leads, announced⟩ := ih ⟨⟨waits.scratch, waits.filled⟩, waits.room⟩
    exact ⟨waits', limits, leads, announced⟩

end Takes

theorem Takes.balks {bytes others : Bytes} {sizes sizes' : List Nat} {ms ms' : List Message}
    {e : Failure} (h : Takes c bytes sizes ms c₁) (h' : c₁.Balks others sizes' ms' e) :
    c.Balks (bytes ++ others) (sizes ++ sizes') (ms ++ ms') e := by
  obtain ⟨taken, b, unread, before, c', rfl, takes, fails, rfl⟩ := h'
  exact ⟨bytes ++ taken, b, unread, sizes ++ before, c', by simp, h.trans takes, fails, by simp⟩

/-- Reading up to the end of a message takes bytes, or fails at one of them. -/
theorem decode_takes (c : Decoder f.dialect A) (bytes : Bytes) :
    match c.decode bytes with
    | .ok out => ∃ taken, bytes = taken ++ out.rest ∧
        Takes c taken (c.asked bytes) (out.delivery.map Delivery.message).toList out.decoder
    | .error e => c.Balks bytes (c.asked bytes) [] e := by
  induction bytes generalizing c with
  | nil => exact ⟨[], rfl, .nil⟩
  | cons b rest ih =>
    rw [decode, asked]
    cases fed : c.feed b with
    | error e => exact ⟨[], b, rest, [], c, rfl, .nil, fed, by simp⟩
    | ok out =>
      obtain ⟨m, c₁⟩ := out
      have first := Takes.byte fed .nil
      cases m with
      | some m => exact ⟨[b], rfl, first⟩
      | none =>
        have others := ih c₁
        dsimp only
        cases decoded : c₁.decode rest with
        | error e =>
          rw [decoded] at others
          rw [← List.append_nil (c.write b).asks?.toList]
          exact first.balks others
        | ok out =>
          rw [decoded] at others
          obtain ⟨taken, split, takes⟩ := others
          refine ⟨b :: taken, by rw [split]; rfl, ?_⟩
          rw [← List.append_nil (c.write b).asks?.toList]
          exact first.trans takes

/-- Bytes that are put straight into the part being read are taken as others are. -/
theorem commit_eq {d : Dialect} (c : Decoder d A) (bytes : Bytes) :
    c.commit bytes = (c.decode bytes).map fun out ↦ (out.delivery, out.decoder) := by
  induction bytes generalizing c with
  | nil => rfl
  | cons b rest ih =>
    rw [commit, decode]
    cases c.feed b with
    | error e => rfl
    | ok out =>
      obtain ⟨m, c₁⟩ := out
      cases m with
      | some m => rfl
      | none => exact ih c₁

theorem Waits.rest_of_fits (h : c.Waits) {bytes : Bytes} (fits : bytes.length ≤ c.room)
    {out : Decoded f.dialect A} (decoded : c.decode bytes = .ok out) : out.rest = [] := by
  induction bytes generalizing c with
  | nil =>
    cases decoded
    rfl
  | cons b rest ih =>
    obtain ⟨laid, room, -⟩ := h.write b
    rw [List.length_cons] at fits
    rw [decode] at decoded
    by_cases last : rest = []
    · subst last
      cases fed : c.feed b with
      | error e =>
        rw [fed] at decoded
        cases decoded
      | ok fed_out =>
        obtain ⟨m, c₁⟩ := fed_out
        rw [fed] at decoded
        cases m <;> cases decoded <;> rfl
    · have more := List.length_pos_iff.mpr last
      have unfinished : c.feed b = .ok (none, c.write b) := if_pos (by omega)
      rw [unfinished] at decoded
      exact ih ⟨laid, by omega⟩ (by omega) decoded

theorem commit_takes (waits : c.Waits) {bytes : Bytes} (fits : bytes.length ≤ c.room) :
    match c.commit bytes with
    | .ok (m, c') => Takes c bytes (c.asked bytes) (m.map Delivery.message).toList c'
    | .error e => c.Balks bytes (c.asked bytes) [] e := by
  have takes := c.decode_takes bytes
  rw [commit_eq]
  cases decoded : c.decode bytes with
  | error e =>
    rw [decoded] at takes
    exact takes
  | ok out =>
    rw [decoded] at takes
    obtain ⟨taken, split, takes⟩ := takes
    rw [waits.rest_of_fits fits decoded, List.append_nil] at split
    subst split
    exact takes

theorem Takes.fits [LawfulProvider A] {bytes : Bytes} {sizes : List Nat} {ms : List Message}
    {m : Nat} (h : Takes c bytes sizes ms c') (waits : c.Waits) (fits : c.Fits m)
    (within : ∀ size ∈ sizes, size ≤ m) : c'.Fits m := by
  induction h with
  | nil => exact fits
  | @byte c c₁ c' b m' bytes sizes ms fed _ ih =>
    have passes : (c.write b).Passes [] (.ok (m', c₁)) := by
      rw [← fed]
      exact (waits.write b).1.advance []
    cases passes with
    | goes waits₁ _ _ _ stage =>
      refine ih waits₁ ?_ fun size later ↦ within size (List.mem_append_right _ later)
      intro body flags here
      rcases stage body flags here with same | asks
      · exact fits.write waits b body flags same
      · exact within _ (List.mem_append_left _ (Option.mem_toList.mpr asks))
  | supply a _ ih => exact ih ⟨⟨waits.scratch, waits.filled⟩, waits.room⟩ fits within

end Decoder

namespace Intake

variable {A : Type} [Provider A] {f : Framing} {i : Intake f.dialect A}

def asked {d : Dialect} (i : Intake d A) (bytes : Bytes) : Handing → List Nat
  | .slice length _ => i.decoder.asked (bytes.take length)
  | .fill length => i.decoder.asked (bytes.take (min length i.decoder.room))
  | .release => []

def behind {d : Dialect} (i : Intake d A) (bytes : Bytes) : Handing → Bytes
  | .slice length _ => bytes.drop length
  | .fill length => bytes.drop (min length i.decoder.room)
  | .release => bytes

theorem recycle_eq {d : Dialect} (c : Decoder d A) (m : Delivery) :
    ∃ a, c.recycle m = { c with allocator := a } := by
  unfold Decoder.recycle
  split
  · exact ⟨c.allocator, rfl⟩
  · exact ⟨_, rfl⟩

theorem settle_eq {d : Dialect} (i : Intake d A) (hold : Bool) (m : Delivery) :
    ∃ a, (i.settle hold m).decoder = { i.decoder with allocator := a } := by
  unfold settle
  split
  · exact ⟨i.decoder.allocator, rfl⟩
  · exact recycle_eq i.decoder m

/-- What the owner of a decoder does. -/
inductive Use (A : Type) where
  | hand (h : Handing)
  /-- From now on there is more or less storage to be had, or another allocator. -/
  | supply (a : A)

structure Account (d : Dialect) (A : Type) where
  /-- The sizes of all bodies that were asked for. -/
  asked : List Nat := []
  messages : List Message := []
  /-- The bytes that were not handed over, not even in a call that failed. -/
  left : Bytes
  outcome : Except Failure (Intake d A)

def account {d : Dialect} (i : Intake d A) (bytes : Bytes) : List (Use A) → Account d A
  | [] => { left := bytes, outcome := .ok i }
  | .supply a :: uses => { i with decoder := { i.decoder with allocator := a } }.account bytes uses
  | .hand h :: uses =>
    match i.hand bytes h with
    | .error e =>
      { asked := i.asked bytes h, left := i.behind bytes h, outcome := .error e }
    | .ok (m, left, i') =>
      let later := i'.account left uses
      { later with
        asked := i.asked bytes h ++ later.asked
        messages := m.toList ++ later.messages }

def Account.Traces (a : Account f.dialect A) (c : Decoder f.dialect A) (handed : Bytes) : Prop :=
  match a.outcome with
  | .ok i => c.Takes handed a.asked a.messages i.decoder
  | .error e => c.Balks handed a.asked a.messages e

theorem Account.Traces.after {a : Account f.dialect A} {c c₁ : Decoder f.dialect A}
    {taken given : Bytes} {sizes : List Nat} {ms : List Message} (traces : a.Traces c₁ given)
    (takes : c.Takes taken sizes ms c₁) :
    Account.Traces { a with asked := sizes ++ a.asked, messages := ms ++ a.messages } c
      (taken ++ given) := by
  unfold Account.Traces at traces ⊢
  cases outcome : a.outcome with
  | error e =>
    rw [outcome] at traces
    exact takes.balks traces
  | ok i =>
    rw [outcome] at traces
    exact takes.trans traces

end Intake

end Conduit.Wire
