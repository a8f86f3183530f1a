import Conduit.Payload.View
import Mathlib.Data.List.Basic

namespace Conduit

inductive WordBound where
  | included (n : UInt64)
  | excluded (n : UInt64)
  | unbounded
deriving DecidableEq

namespace WordBound

def largest : UInt64 := 0xFFFFFFFFFFFFFFFF

def toBound : WordBound → Bound
  | included n => .included n.toNat
  | excluded n => .excluded n.toNat
  | unbounded => .unbounded

def after? (n : UInt64) : Option UInt64 := if n = largest then none else some (n + 1)

def first? : WordBound → Option UInt64
  | included n => some n
  | excluded n => after? n
  | unbounded => some 0

def stop? (length : UInt64) : WordBound → Option UInt64
  | included n => after? n
  | excluded n => some n
  | unbounded => some length

theorem after?_toNat (n : UInt64) : (after? n).map UInt64.toNat = Bound.after? n.toNat := by
  have below := n.toNat_lt
  rw [after?, Bound.after?]
  by_cases last : n = largest
  · have reached : n.toNat + 1 = wordLimit := by
      rw [last]
      rfl
    rw [if_pos last, if_neg (by omega)]
    rfl
  · have before : n.toNat ≠ largest.toNat := mt UInt64.toNat_inj.mp last
    have last_nat : largest.toNat + 1 = wordLimit := rfl
    have limit : wordLimit = 2 ^ 64 := rfl
    have one : UInt64.toNat 1 = 1 := rfl
    rw [if_neg last, if_pos (by omega), Option.map_some, UInt64.toNat_add, one,
      Nat.mod_eq_of_lt (by omega)]

theorem first?_toNat (b : WordBound) : b.first?.map UInt64.toNat = b.toBound.first? := by
  cases b with
  | included n => rfl
  | excluded n => exact after?_toNat n
  | unbounded => rfl

theorem stop?_toNat (b : WordBound) (length : UInt64) :
    (b.stop? length).map UInt64.toNat = b.toBound.stop? length.toNat := by
  cases b with
  | included n => exact after?_toNat n
  | excluded n => rfl
  | unbounded => rfl

end WordBound

/-- A range as it is asked for. -/
structure Window where
  lower : WordBound
  upper : WordBound
deriving DecidableEq

namespace Window

def start (w : Window) : Nat :=
  match w.lower with
  | .included n => n.toNat
  | .excluded n => n.toNat + 1
  | .unbounded => 0

/-- Where the range stops among `length` bytes. This number may be past the largest word. -/
def stop (w : Window) (length : Nat) : Nat :=
  match w.upper with
  | .included n => n.toNat + 1
  | .excluded n => n.toNat
  | .unbounded => length

/-- A range that cannot be had of `length` bytes. -/
def Refused (w : Window) (length : Nat) : Prop :=
  w.stop length < w.start ∨ length < w.stop length ∨
    w.lower = .excluded WordBound.largest ∨ w.upper = .included WordBound.largest

instance (w : Window) (length : Nat) : Decidable (w.Refused length) :=
  inferInstanceAs (Decidable (_ ∨ _ ∨ _ ∨ _))

def cut (w : Window) (bytes : Bytes) : Bytes :=
  (bytes.drop w.start).take (w.stop bytes.length - w.start)

theorem after?_eq (n : UInt64) :
    Bound.after? n.toNat = if n = WordBound.largest then none else some (n.toNat + 1) := by
  have below := n.toNat_lt
  have limit : wordLimit = 2 ^ 64 := rfl
  rw [Bound.after?]
  by_cases last : n = WordBound.largest
  · have reached : n.toNat + 1 = wordLimit := by
      rw [last]
      rfl
    rw [if_pos last, if_neg (by omega)]
  · have before : n.toNat ≠ WordBound.largest.toNat := mt UInt64.toNat_inj.mp last
    have last_number : WordBound.largest.toNat + 1 = wordLimit := rfl
    rw [if_neg last, if_pos (by omega)]

theorem first?_eq (w : Window) : w.lower.toBound.first? =
    if w.lower = .excluded WordBound.largest then none else some w.start := by
  unfold start
  cases w.lower with
  | included n => rfl
  | excluded n =>
    change Bound.after? n.toNat = _
    simp only [after?_eq, WordBound.excluded.injEq]
  | unbounded => rfl

theorem stop?_eq (w : Window) (length : Nat) : w.upper.toBound.stop? length =
    if w.upper = .included WordBound.largest then none else some (w.stop length) := by
  unfold stop
  cases w.upper with
  | included n =>
    change Bound.after? n.toNat = _
    simp only [after?_eq, WordBound.included.injEq]
  | excluded n => rfl
  | unbounded => rfl

theorem resolve?_eq (w : Window) (length : Nat) :
    Span.resolve? w.lower.toBound w.upper.toBound length =
      if w.Refused length then none else some ⟨w.start, w.stop length⟩ := by
  rw [Span.resolve?, first?_eq, stop?_eq]
  by_cases lower : w.lower = .excluded WordBound.largest
  · have refused : w.Refused length := .inr (.inr (.inl lower))
    rw [if_pos lower, if_pos refused]
  · rw [if_neg lower]
    by_cases upper : w.upper = .included WordBound.largest
    · have refused : w.Refused length := .inr (.inr (.inr upper))
      rw [if_pos upper, if_pos refused]
    · have fits : w.start ≤ w.stop length ∧ w.stop length ≤ length ↔ ¬w.Refused length := by
        unfold Refused
        rw [or_iff_left upper, or_iff_left lower, not_or, Nat.not_lt, Nat.not_lt]
      rw [if_neg upper]
      dsimp only
      rw [if_congr fits rfl rfl, ite_not]

theorem start_le (w : Window) {length : Nat} (had : ¬w.Refused length) :
    w.start ≤ w.stop length ∧ w.stop length ≤ length := by
  unfold Refused at had
  omega

end Window

namespace Span

theorem length_slice {α : Type} {s : Span} {xs : List α} (inside : s.stop ≤ xs.length) :
    (s.slice xs).length = s.length := by
  rw [slice, List.length_take, List.length_drop, length]
  omega

theorem slice_within {α : Type} {inner outer : Span} (xs : List α)
    (inside : inner.stop ≤ outer.length) :
    (inner.within outer).slice xs = inner.slice (outer.slice xs) := by
  have width : (inner.within outer).length = inner.length := by
    simp only [within, length]
    omega
  have shorter : inner.length ≤ outer.length - inner.start := Nat.sub_le_sub_right inside _
  rw [slice, slice, slice, width, List.drop_take, List.drop_drop, List.take_take,
    Nat.min_eq_left shorter]
  rfl

end Span

/-- What a payload takes for granted: a buffer gives the same bytes whenever it is asked. -/
def Backing.Steady {β : Type} [Backing β] (b : β) : Prop := ∀ n m, bytesAt b n = bytesAt b m

theorem Buffer.steady {Label : Type} (b : Buffer Label) : Backing.Steady b := fun _ _ ↦ rfl

namespace View

variable {β : Type} {v v' : View β}

def viewAll? : View β → List Window → Option (View β)
  | v, [] => some v
  | v, w :: ws => (v.view? w.lower.toBound w.upper.toBound).bind (·.viewAll? ws)

theorem view?_eq (v : View β) (w : Window) : v.view? w.lower.toBound w.upper.toBound =
    if w.Refused v.length then none
    else some { v with span := Span.within ⟨w.start, w.stop v.length⟩ v.span } := by
  rw [view?, Window.resolve?_eq]
  split <;> rfl

theorem view?_eq_none (v : View β) (w : Window) :
    v.view? w.lower.toBound w.upper.toBound = none ↔ w.Refused v.length := by
  rw [view?_eq]
  split
  · exact iff_of_true rfl ‹_›
  · exact iff_of_false (Option.some_ne_none _) ‹_›

variable [Backing β] {b : β} {n : ℕ}

/-- The range of a view lies in what the buffer gives at a look. -/
structure Within (v : View β) (b : β) (n : ℕ) : Prop where
  buffer : v.buffer = b
  start_le : v.span.start ≤ v.span.stop
  stop_le : v.span.stop ≤ (Backing.bytesAt b n).length

namespace Within

theorem length_slice (h : v.Within b n) :
    (v.span.slice (Backing.bytesAt b n)).length = v.length :=
  Span.length_slice h.stop_le

theorem bytes?_eq (h : v.Within b n) : v.bytes? n = some (v.span.slice (Backing.bytesAt b n)) := by
  rw [bytes?, h.buffer]
  exact if_pos ⟨h.start_le, h.stop_le⟩

theorem view? (h : v.Within b n) {w : Window}
    (viewed : v.view? w.lower.toBound w.upper.toBound = some v') :
    v'.Within b n ∧ v'.span.slice (Backing.bytesAt b n) =
      w.cut (v.span.slice (Backing.bytesAt b n)) := by
  rw [view?_eq] at viewed
  by_cases refused : w.Refused v.length
  · rw [if_pos refused] at viewed
    contradiction
  · rw [if_neg refused] at viewed
    obtain rfl := Option.some.inj viewed
    obtain ⟨start_le, stop_le⟩ := w.start_le refused
    have le := h.start_le
    have le' := h.stop_le
    have length : v.length = v.span.stop - v.span.start := rfl
    refine ⟨⟨h.buffer, ?_, ?_⟩, ?_⟩
    · exact Nat.add_le_add_left start_le _
    · simp only [Span.within]
      omega
    · rw [Window.cut, h.length_slice]
      exact Span.slice_within _ stop_le

theorem viewAll? (h : v.Within b n) {ws : List Window} (viewed : v.viewAll? ws = some v') :
    v'.Within b n ∧ v'.span.slice (Backing.bytesAt b n) =
      ws.foldl (fun bytes w ↦ w.cut bytes) (v.span.slice (Backing.bytesAt b n)) := by
  induction ws generalizing v with
  | nil =>
    obtain rfl := Option.some.inj viewed
    exact ⟨h, rfl⟩
  | cons w ws ih =>
    obtain ⟨q, first, rest⟩ := Option.bind_eq_some_iff.mp viewed
    obtain ⟨within, slice⟩ := h.view? first
    rw [List.foldl_cons, ← slice]
    exact ih within rest

end Within

theorem create?_eq (b : β) (n : ℕ) (w : Window) : create? b n w.lower.toBound w.upper.toBound =
    if w.Refused (Backing.bytesAt b n).length then none
    else some ⟨b, w.start, w.stop (Backing.bytesAt b n).length⟩ := by
  rw [create?, Window.resolve?_eq]
  split <;> rfl

theorem within_of_create? {w : Window}
    (created : create? b n w.lower.toBound w.upper.toBound = some v) :
    v.Within b n ∧ v.span.slice (Backing.bytesAt b n) = w.cut (Backing.bytesAt b n) := by
  rw [create?_eq] at created
  by_cases refused : w.Refused (Backing.bytesAt b n).length
  · rw [if_pos refused] at created
    contradiction
  · rw [if_neg refused] at created
    obtain rfl := Option.some.inj created
    obtain ⟨start_le, stop_le⟩ := w.start_le refused
    exact ⟨⟨rfl, start_le, stop_le⟩, rfl⟩

/-- A view in a chain of views, the first one over the buffer itself. -/
def chain? (b : β) (n : ℕ) (first : Window) (ws : List Window) : Option (View β) :=
  (create? b n first.lower.toBound first.upper.toBound).bind (·.viewAll? ws)

theorem within_of_chain? {first : Window} {ws : List Window}
    (shown : chain? b n first ws = some v) :
    v.Within b n ∧ v.span.slice (Backing.bytesAt b n) =
      ws.foldl (fun bytes w ↦ w.cut bytes) (first.cut (Backing.bytesAt b n)) := by
  obtain ⟨v₀, created, viewed⟩ := Option.bind_eq_some_iff.mp shown
  obtain ⟨within, slice⟩ := within_of_create? created
  rw [← slice]
  exact within.viewAll? viewed

/-- Without a promise of the buffer, views made at one look are sure to lie within what it gives at
another just if that is not less. -/
theorem chains_lie_within_iff (b : β) (n m : ℕ) :
    (∀ first ws v, chain? b n first ws = some v → (v.bytes? m).isSome = true) ↔
      (Backing.bytesAt b n).length ≤ (Backing.bytesAt b m).length := by
  constructor
  · intro lie
    have had : ¬(⟨.unbounded, .unbounded⟩ : Window).Refused (Backing.bytesAt b n).length := by
      simp [Window.Refused, Window.start, Window.stop]
    have whole : chain? b n ⟨.unbounded, .unbounded⟩ [] =
        some ⟨b, 0, (Backing.bytesAt b n).length⟩ := by
      rw [chain?, create?_eq, if_neg had]
      rfl
    have there := lie _ _ _ whole
    rw [bytes?] at there
    by_contra shrunk
    rw [if_neg fun inside ↦ shrunk inside.2] at there
    contradiction
  · intro grown first ws v shown
    have within := (within_of_chain? shown).1
    have later : v.Within b m :=
      ⟨within.buffer, within.start_le, Nat.le_trans within.stop_le grown⟩
    rw [later.bytes?_eq]
    rfl

end View

structure WordSpan where
  start : UInt64
  stop : UInt64
deriving DecidableEq

namespace WordSpan

def toSpan (s : WordSpan) : Span := ⟨s.start.toNat, s.stop.toNat⟩

def length (s : WordSpan) : UInt64 := if s.start < s.stop then s.stop - s.start else 0

def resolve? (w : Window) (length : UInt64) : Option WordSpan :=
  match w.lower.first?, w.upper.stop? length with
  | some start, some stop => if start ≤ stop ∧ stop ≤ length then some ⟨start, stop⟩ else none
  | _, _ => none

def add? (n m : UInt64) : Option UInt64 :=
  if n.toNat + m.toNat < wordLimit then some (n + m) else none

def within? (inner outer : WordSpan) : Option WordSpan := do
  let start ← add? outer.start inner.start
  let stop ← add? outer.start inner.stop
  return ⟨start, stop⟩

/-- A view, or none where it is refused. -/
def view? (s : WordSpan) (w : Window) : Option (Option WordSpan) :=
  match resolve? w s.length with
  | some inner => (inner.within? s).map some
  | none => some none

def viewAll? : WordSpan → List Window → Option (Option WordSpan)
  | s, [] => some (some s)
  | s, w :: ws => (s.view? w).bind fun
    | some s => s.viewAll? ws
    | none => some none

def show? (s : WordSpan) (bytes : Bytes) : Option Bytes :=
  if s.start ≤ s.stop ∧ s.stop.toNat ≤ bytes.length then some (s.toSpan.slice bytes) else none

theorem resolve?_toSpan (w : Window) (length : UInt64) : (resolve? w length).map toSpan =
    Span.resolve? w.lower.toBound w.upper.toBound length.toNat := by
  rw [resolve?, Span.resolve?, ← WordBound.first?_toNat, ← WordBound.stop?_toNat]
  cases w.lower.first? with
  | none => rfl
  | some start =>
    cases w.upper.stop? length with
    | none => rfl
    | some stop =>
      have fits : start ≤ stop ∧ stop ≤ length ↔
          start.toNat ≤ stop.toNat ∧ stop.toNat ≤ length.toNat :=
        and_congr UInt64.le_iff_toNat_le UInt64.le_iff_toNat_le
      dsimp only [Option.map_some]
      rw [← if_congr fits rfl rfl]
      split <;> rfl

theorem length_toNat (s : WordSpan) : s.length.toNat = s.toSpan.length := by
  rw [length, Span.length]
  by_cases before : s.start < s.stop
  · rw [if_pos before]
    exact UInt64.toNat_sub_of_le _ _ (UInt64.le_of_lt before)
  · have le : s.stop.toNat ≤ s.start.toNat :=
      UInt64.le_iff_toNat_le.mp (UInt64.not_lt.mp before)
    rw [if_neg before]
    exact (Nat.sub_eq_zero_of_le le).symm

theorem add?_eq {n m : UInt64} (fits : n.toNat + m.toNat < wordLimit) :
    ∃ k, add? n m = some k ∧ k.toNat = n.toNat + m.toNat := by
  refine ⟨n + m, if_pos fits, ?_⟩
  rw [UInt64.toNat_add]
  exact Nat.mod_eq_of_lt fits

theorem within?_eq (inner outer : WordSpan)
    (first : outer.start.toNat + inner.start.toNat < wordLimit)
    (last : outer.start.toNat + inner.stop.toNat < wordLimit) :
    ∃ s, inner.within? outer = some s ∧ s.toSpan = inner.toSpan.within outer.toSpan := by
  obtain ⟨start, added, start_eq⟩ := add?_eq first
  obtain ⟨stop, added', stop_eq⟩ := add?_eq last
  refine ⟨⟨start, stop⟩, ?_, ?_⟩
  · rw [within?, added, added']
    rfl
  · exact congrArg₂ Span.mk start_eq stop_eq

variable {β : Type} [Backing β] {v : View β} {b : β} {n : ℕ} {s : WordSpan}

/-- A view is had in words as on numbers, and no sum is past the largest word. -/
theorem view?_eq (h : v.Within b n) (fits : (Backing.bytesAt b n).length < wordLimit)
    (same : s.toSpan = v.span) (w : Window) : ∃ r, s.view? w = some r ∧
      r.map toSpan = (v.view? w.lower.toBound w.upper.toBound).map View.span := by
  have length : s.length.toNat = v.length := by
    rw [length_toNat, same]
    rfl
  have resolved := resolve?_toSpan w s.length
  rw [length, Window.resolve?_eq] at resolved
  rw [view?, View.view?_eq]
  by_cases refused : w.Refused v.length
  · rw [if_pos refused] at resolved ⊢
    rw [Option.map_eq_none_iff.mp resolved]
    exact ⟨none, rfl, rfl⟩
  · rw [if_neg refused] at resolved ⊢
    obtain ⟨inner, found, inner_eq⟩ := Option.map_eq_some_iff.mp resolved
    obtain ⟨start_le, stop_le⟩ := w.start_le refused
    have le := h.start_le
    have le' := h.stop_le
    have width : v.length = v.span.stop - v.span.start := rfl
    have from_start : s.start.toNat = v.span.start := congrArg Span.start same
    have first : inner.start.toNat = w.start := congrArg Span.start inner_eq
    have last : inner.stop.toNat = w.stop v.length := congrArg Span.stop inner_eq
    obtain ⟨r, narrowed, r_eq⟩ := within?_eq inner s (by omega) (by omega)
    rw [found]
    dsimp only
    rw [narrowed]
    refine ⟨some r, rfl, ?_⟩
    rw [Option.map_some, r_eq, inner_eq, same]
    rfl

theorem viewAll?_eq (h : v.Within b n) (fits : (Backing.bytesAt b n).length < wordLimit)
    (same : s.toSpan = v.span) (ws : List Window) : ∃ r, s.viewAll? ws = some r ∧
      r.map toSpan = (v.viewAll? ws).map View.span := by
  induction ws generalizing v s with
  | nil => exact ⟨some s, rfl, congrArg some same⟩
  | cons w ws ih =>
    obtain ⟨r, viewed, r_eq⟩ := view?_eq h fits same w
    rw [viewAll?, viewed, View.viewAll?]
    cases narrowed : v.view? w.lower.toBound w.upper.toBound with
    | none =>
      rw [narrowed] at r_eq
      rw [Option.map_eq_none_iff.mp r_eq]
      exact ⟨none, rfl, rfl⟩
    | some q =>
      rw [narrowed] at r_eq
      obtain ⟨s', rfl, same'⟩ := Option.map_eq_some_iff.mp r_eq
      exact ih (h.view? narrowed).1 same'

theorem show?_eq (h : v.Within b n) (same : s.toSpan = v.span) :
    s.show? (Backing.bytesAt b n) = some (v.span.slice (Backing.bytesAt b n)) := by
  have start : s.start.toNat = v.span.start := congrArg Span.start same
  have stop : s.stop.toNat = v.span.stop := congrArg Span.stop same
  have inside : s.start ≤ s.stop ∧ s.stop.toNat ≤ (Backing.bytesAt b n).length := by
    rw [UInt64.le_iff_toNat_le, start, stop]
    exact ⟨h.start_le, h.stop_le⟩
  rw [show?, if_pos inside, same]

end WordSpan

namespace View

/-- A chain of views of a buffer that keeps its bytes shows the nested slices at every look, and its
range lies in the buffer. A view is refused just where the numbers asked for go down, go past the
end of the one before, or are past the largest word. In words all comes out the same: no sum is too
large, and the bytes shown are in the buffer. -/
theorem views_nested {β : Type} [Backing β] (b : β) (steady : Backing.Steady b) (n : ℕ)
    (fits : (Backing.bytesAt b n).length < wordLimit) (first : Window) :
    let given := Backing.bytesAt b n
    (create? b n first.lower.toBound first.upper.toBound = none ↔ first.Refused given.length) ∧
    ∀ ws (v : View β), chain? b n first ws = some v →
      let shown := ws.foldl (fun bytes w ↦ w.cut bytes) (first.cut given)
      v.buffer = b ∧ v.span.start ≤ v.span.stop ∧ v.span.stop ≤ given.length ∧
      (∀ m, v.bytes? m = some shown) ∧
      (∀ w : Window, v.view? w.lower.toBound w.upper.toBound = none ↔ w.Refused shown.length) ∧
      ∃ s₀ s, WordSpan.resolve? first (.ofNat given.length) = some s₀ ∧
        s₀.viewAll? ws = some (some s) ∧ s.toSpan = v.span ∧
        (∀ m, s.show? (Backing.bytesAt b m) = some shown) ∧
        ∀ w : Window, ∃ r, s.view? w = some r ∧
          r.map WordSpan.toSpan = (v.view? w.lower.toBound w.upper.toBound).map span := by
  intro given
  refine ⟨?_, ?_⟩
  · rw [create?_eq]
    split
    · exact iff_of_true rfl ‹_›
    · exact iff_of_false (Option.some_ne_none _) ‹_›
  · intro ws v chained shown
    obtain ⟨within, slice⟩ := within_of_chain? chained
    obtain ⟨v₀, created, viewed⟩ := Option.bind_eq_some_iff.mp chained
    have within₀ := (within_of_create? created).1
    have length : (UInt64.ofNat given.length).toNat = given.length := UInt64.toNat_ofNat_of_lt fits
    have resolved := WordSpan.resolve?_toSpan first (.ofNat given.length)
    obtain ⟨span, found, rfl⟩ := Option.map_eq_some_iff.mp created
    rw [length, found] at resolved
    obtain ⟨s₀, found₀, same₀⟩ := Option.map_eq_some_iff.mp resolved
    obtain ⟨r, ran, r_eq⟩ := WordSpan.viewAll?_eq within₀ fits same₀ ws
    rw [viewed] at r_eq
    obtain ⟨s, rfl, same⟩ := Option.map_eq_some_iff.mp r_eq
    have looks (m : ℕ) : v.Within b m :=
      ⟨within.buffer, within.start_le, steady n m ▸ within.stop_le⟩
    refine ⟨within.buffer, within.start_le, within.stop_le, ?_, ?_, s₀, s, found₀, ran, same, ?_,
      WordSpan.view?_eq within fits same⟩
    · intro m
      rw [(looks m).bytes?_eq, steady m n, slice]
    · intro w
      rw [view?_eq_none, ← within.length_slice, slice]
    · intro m
      rw [WordSpan.show?_eq (looks m) same, steady m n, slice]

/-- The third of three nested ranges, and ranges that it does not have: past its end, downwards, and
from behind the largest word. -/
theorem views_nested_three_deep :
    let b : Buffer Unit := .vector [0, 1, 2, 3, 4, 5, 6, 7, 8, 9]
    let first : Window := ⟨.included 2, .excluded 8⟩
    let ws : List Window := [⟨.excluded 0, .unbounded⟩, ⟨.included 1, .included 3⟩]
    Backing.Steady b ∧ (Backing.bytesAt b 0).length < wordLimit ∧ ∃ v,
      chain? b 0 first ws = some v ∧ (∀ m, v.bytes? m = some [4, 5, 6]) ∧ v.span = ⟨4, 7⟩ ∧
      v.view? .unbounded (.included 3) = none ∧ v.view? (.included 2) (.excluded 1) = none ∧
      v.view? (.excluded 0xFFFFFFFFFFFFFFFF) .unbounded = none ∧
      ∃ s₀ s, WordSpan.resolve? first 10 = some s₀ ∧ s₀.viewAll? ws = some (some s) ∧
        ∀ m, s.show? (Backing.bytesAt b m) = some [4, 5, 6] := by
  intro b first ws
  have fits : (Backing.bytesAt b 0).length < wordLimit := by decide
  let v : View (Buffer Unit) := ⟨b, 4, 7⟩
  have chained : chain? b 0 first ws = some v := rfl
  obtain ⟨-, -, -, shown, refused, s₀, s, found, ran, -, given, -⟩ :=
    (views_nested b b.steady 0 fits first).2 ws v chained
  refine ⟨b.steady, fits, v, chained, shown, rfl, ?_, ?_, ?_, s₀, s, found, ran, given⟩
  · exact (refused ⟨.unbounded, .included 3⟩).mpr (by decide)
  · exact (refused ⟨.included 2, .excluded 1⟩).mpr (by decide)
  · exact (refused ⟨.excluded WordBound.largest, .unbounded⟩).mpr (by decide)

end View

end Conduit
