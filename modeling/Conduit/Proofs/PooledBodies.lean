import Conduit.Body.Slots
import Conduit.Proofs.NestedViews
import Conduit.Proofs.SharedPools

namespace Conduit

section Rows

variable {α : Type}

theorem join_getElem?_push (xs : Array (Option α)) (x : Option α) (i : Nat) :
    ((xs.push x)[i]?).join = if i = xs.size then x else (xs[i]?).join := by
  rw [Array.getElem?_push]
  split <;> rfl

theorem join_getElem?_set {xs : Array (Option α)} {place : Nat} (inside : place < xs.size)
    (x : Option α) (i : Nat) :
    ((xs.setIfInBounds place x)[i]?).join = if i = place then x else (xs[i]?).join := by
  rw [Array.getElem?_setIfInBounds]
  by_cases same : place = i
  · rw [if_pos same, if_pos same.symm, if_pos inside]
    rfl
  · rw [if_neg same, if_neg (Ne.symm same)]

theorem join_getElem?_clear (xs : Array (Option α)) (place i : Nat) :
    ((xs.setIfInBounds place none)[i]?).join = if i = place then none else (xs[i]?).join := by
  by_cases inside : place < xs.size
  · exact join_getElem?_set inside none i
  · rw [Array.setIfInBounds_eq_of_size_le (Nat.not_lt.mp inside)]
    split
    · rw [Array.getElem?_eq_none (by omega)]
      rfl
    · rfl

theorem lt_size_of_join {xs : Array (Option α)} {i : Nat} {x : α}
    (there : (xs[i]?).join = some x) : i < xs.size := by
  by_contra outside
  rw [Array.getElem?_eq_none (Nat.not_lt.mp outside)] at there
  contradiction

end Rows

namespace Body

theorem bytes_fill (b : Body) (data : Bytes) :
    (b.fill data).bytes = data.take b.bytes.length ++ b.bytes.drop data.length := by
  have size : b.size = b.written.length + b.room := rfl
  have kept : b.written.reverse.drop (data.take b.size).length =
      b.written.reverse.drop data.length := by
    rw [List.length_take]
    by_cases fits : data.length ≤ b.size
    · rw [Nat.min_eq_right fits]
    · rw [List.drop_eq_nil_of_le, List.drop_eq_nil_of_le] <;> rw [List.length_reverse] <;> omega
  rw [length_bytes, fill, bytes, bytes, List.reverse_reverse, List.append_assoc, List.drop_append,
    List.drop_replicate, kept]
  congr 3
  simp only [List.length_reverse, List.length_append, List.length_take, List.length_drop]
  omega

end Body

namespace Shelf

variable {Label : Type} (s : Shelf Label)

theorem share?_put (share : Option (Share Label)) (i : Nat) :
    (s.put share).share? i = if i = s.places.size then share else s.share? i :=
  join_getElem?_push s.places share i

theorem share?_setNew {place : Nat} (inside : place < s.places.size) (p : Payload Label) (i : Nat) :
    (s.setNew place p).share? i = if i = place then some ⟨s.buffers, p⟩ else s.share? i :=
  join_getElem?_set inside _ i

theorem share?_drop (place i : Nat) :
    (s.drop place).2.share? i = if i = place then none else s.share? i := by
  unfold drop
  cases there : s.share? place with
  | none =>
    by_cases same : i = place
    · rw [if_pos same, same, there]
    · rw [if_neg same]
  | some share => exact join_getElem?_clear s.places place i

theorem size_drop (place : Nat) : (s.drop place).2.places.size = s.places.size := by
  unfold drop
  cases s.share? place with
  | none => rfl
  | some share => exact Array.size_setIfInBounds

theorem buffers_drop (place : Nat) : (s.drop place).2.buffers = s.buffers := by
  unfold drop
  cases s.share? place <;> rfl

theorem shows_iff (buffer : Nat) :
    s.shows buffer = true ↔ ∃ i share, s.share? i = some share ∧ share.buffer = buffer := by
  rw [shows, Array.any_eq_true]
  constructor
  · intro found
    obtain ⟨i, inside, same⟩ := found
    cases there : s.places[i] with
    | none =>
      rw [there] at same
      contradiction
    | some share =>
      rw [there] at same
      refine ⟨i, share, ?_, beq_iff_eq.mp same⟩
      rw [share?, Array.getElem?_eq_getElem inside, there]
      rfl
  · intro found
    obtain ⟨i, share, there, same⟩ := found
    have inside := lt_size_of_join there
    rw [share?, Array.getElem?_eq_getElem inside] at there
    have there : s.places[i] = some share := there
    refine ⟨i, inside, ?_⟩
    rw [there]
    exact beq_iff_eq.mpr same

variable {s} {place : Nat} {share : Share Label}

theorem report_of_empty (empty : s.share? place = none) : (s.drop place).1 = none := by
  rw [drop, empty]

theorem report_of_last (there : s.share? place = some share)
    (last : ∀ i share', s.share? i = some share' → share'.buffer = share.buffer → i = place) :
    (s.drop place).1 = share.payload.buffer.report? := by
  have gone (i : Nat) := s.share?_drop place i
  have hidden : (s.drop place).2.shows share.buffer = false := by
    rw [Bool.eq_false_iff]
    intro shown
    obtain ⟨i, share', there', same⟩ := ((s.drop place).2.shows_iff _).mp shown
    rw [gone] at there'
    by_cases here : i = place
    · rw [if_pos here] at there'
      contradiction
    · rw [if_neg here] at there'
      exact here (last i share' there' same)
  rw [drop, there] at hidden ⊢
  exact if_neg (Bool.eq_false_iff.mp hidden)

theorem report_of_other (there : s.share? place = some share) {i : Nat} {share' : Share Label}
    (other : i ≠ place) (there' : s.share? i = some share')
    (same : share'.buffer = share.buffer) : (s.drop place).1 = none := by
  have kept := s.share?_drop place i
  rw [if_neg other, there'] at kept
  have shown : (s.drop place).2.shows share.buffer = true :=
    ((s.drop place).2.shows_iff _).mpr ⟨i, share', kept, same⟩
  rw [drop, there] at shown ⊢
  exact if_pos shown

end Shelf

theorem Payload.bytes_whole {Label : Type} (b : Buffer Label) : (whole b).bytes = b.bytes :=
  List.take_length

namespace Slots

inductive Use where
  | allocate (supply : Supply) (size : Nat)
  | write (place : Nat) (data : Bytes)
  | freeze (place : Nat)
  | clone (place : Nat)
  | view (place : Nat) (w : Window)
  | drop (place : Nat)

def use (s : Slots) : Use → Except AllocationError (Option Bytes × Slots)
  | .allocate supply size => (s.allocateFrom supply size).map fun (b, s) ↦ (some b.bytes, s)
  | .write place data =>
    let (b, s) := s.fill place data
    .ok (b.map Body.bytes, s)
  | .freeze place =>
    let (p, s) := s.freeze place
    .ok (p.map Payload.bytes, s)
  | .clone place =>
    let (p, s) := s.view place .unbounded .unbounded
    .ok (p.map Payload.bytes, s)
  | .view place w =>
    let (p, s) := s.view place w.lower.toBound w.upper.toBound
    .ok (p.map Payload.bytes, s)
  | .drop place => .ok (none, s.drop place)

def useAll (s : Slots) : List Use → Except AllocationError Slots
  | [] => .ok s
  | u :: us => do
    let (_, s) ← s.use u
    s.useAll us

def shown? (s : Slots) (place : Nat) : Option Bytes :=
  ((s.body? place).map Body.bytes).or ((s.frozen? place).map Payload.bytes)

/-- What was put at a place, and the number of the pool that the body came from. A payload is over
the body that was frozen at its origin. -/
inductive Holding where
  | nothing
  | body (home : Option Nat) (bytes : Bytes)
  | payload (origin : Nat) (home : Option Nat) (bytes : Bytes)
deriving DecidableEq

namespace Holding

def bytes? : Holding → Option Bytes
  | nothing => none
  | body _ bytes | payload _ _ bytes => some bytes

def origin? : Holding → Option Nat
  | payload origin _ _ => some origin
  | _ => none

def write (data : Bytes) : Holding → Holding
  | body home bytes => body home (data.take bytes.length ++ bytes.drop data.length)
  | h => h

def freeze (place : Nat) : Holding → Holding
  | body home bytes => payload place home bytes
  | h => h

def clone : Holding → Holding
  | payload origin home bytes => payload origin home bytes
  | _ => nothing

def view (w : Window) : Holding → Holding
  | payload origin home bytes =>
    if w.Refused bytes.length then nothing else payload origin home (w.cut bytes)
  | _ => nothing

theorem view_whole (h : Holding) : h.view ⟨.unbounded, .unbounded⟩ = h.clone := by
  cases h with
  | nothing => rfl
  | body home bytes => rfl
  | payload origin home bytes =>
    have had : ¬(⟨.unbounded, .unbounded⟩ : Window).Refused bytes.length := by
      simp [Window.Refused, Window.start, Window.stop]
    have whole : (⟨.unbounded, .unbounded⟩ : Window).cut bytes = bytes := List.take_length
    rw [view, if_neg had, whole]
    rfl

theorem origin?_write (data : Bytes) (h : Holding) : (h.write data).origin? = h.origin? := by
  cases h <;> rfl

theorem write_eq_self {h : Holding} (frozen : ∀ home bytes, h ≠ body home bytes) (data : Bytes) :
    h.write data = h := by
  cases h with
  | nothing => rfl
  | body home bytes => exact absurd rfl (frozen home bytes)
  | payload origin home bytes => rfl

theorem freeze_eq_self {h : Holding} (frozen : ∀ home bytes, h ≠ body home bytes) (place : Nat) :
    h.freeze place = h := by
  cases h with
  | nothing => rfl
  | body home bytes => exact absurd rfl (frozen home bytes)
  | payload origin home bytes => rfl

theorem origin?_view {h : Holding} {w : Window} {origin : Nat}
    (there : (h.view w).origin? = some origin) : h.origin? = some origin := by
  cases h with
  | nothing => exact there
  | body home bytes => contradiction
  | payload origin' home bytes =>
    rw [view] at there
    by_cases refused : w.Refused bytes.length
    · rw [if_pos refused] at there
      contradiction
    · rw [if_neg refused] at there
      exact there

end Holding

def held (hs : List Holding) (place : Nat) : Holding := hs.getD place .nothing

def Use.noted (hs : List Holding) : Use → List Holding
  | .allocate supply size => hs ++ [.body (supply.poolFor size) (List.replicate size 0)]
  | .write place data => hs.modify place (Holding.write data)
  | .freeze place => hs.modify place (Holding.freeze place)
  | .clone place => hs ++ [(held hs place).clone]
  | .view place w => hs ++ [(held hs place).view w]
  | .drop place => hs.modify place fun _ ↦ .nothing

def account (us : List Use) : List Holding := us.foldl Use.noted []

theorem held_append (hs : List Holding) (h : Holding) (i : Nat) :
    held (hs ++ [h]) i = if i = hs.length then h else held hs i := by
  unfold held
  rw [List.getD_eq_getElem?_getD, List.getD_eq_getElem?_getD, List.getElem?_append]
  by_cases before : i < hs.length
  · rw [if_pos before, if_neg (Nat.ne_of_lt before)]
  · rw [if_neg before]
    by_cases last : i = hs.length
    · rw [if_pos last, last, Nat.sub_self]
      rfl
    · rw [if_neg last, List.getElem?_eq_none (by simp; omega), List.getElem?_eq_none (by omega)]

theorem held_modify {f : Holding → Holding} (nothing : f .nothing = .nothing) (hs : List Holding)
    (place i : Nat) :
    held (hs.modify place f) i = if i = place then f (held hs i) else held hs i := by
  unfold held
  rw [List.getD_eq_getElem?_getD, List.getD_eq_getElem?_getD, List.getElem?_modify]
  cases hs[i]? with
  | none =>
    have empty : (none : Option Holding).getD .nothing = .nothing := rfl
    rw [Option.map_eq_map, Option.map_none, empty, nothing, ite_self]
  | some h =>
    rw [Option.map_eq_map, Option.map_some]
    by_cases same : i = place
    · rw [if_pos same, if_pos same.symm]
      rfl
    · rw [if_neg same, if_neg (Ne.symm same)]

theorem modify_freeze {hs : List Holding} {place : Nat}
    (frozen : ∀ home bytes, held hs place ≠ .body home bytes) :
    hs.modify place (Holding.freeze place) = hs := by
  apply List.ext_getElem?
  intro i
  rw [List.getElem?_modify]
  cases there : hs[i]? with
  | none => rfl
  | some h =>
    rw [Option.map_eq_map, Option.map_some]
    by_cases here : place = i
    · have same : held hs place = h := by
        rw [held, here, List.getD_eq_getElem?_getD, there]
        rfl
      rw [if_pos here, Holding.freeze_eq_self (same ▸ frozen)]
    · rw [if_neg here]

theorem bytes_bufferOf (b : Body) : (bufferOf b).bytes = b.bytes := by
  unfold bufferOf
  cases b.home <;> rfl

theorem report?_bufferOf (b : Body) : (bufferOf b).report?.map Prod.fst = b.home := by
  unfold bufferOf
  cases b.home <;> rfl

/-- A place holds what the account says. Payloads from one origin share the buffer that `number`
gives it. -/
inductive Kept (number : Nat → Nat) : Option Body → Option (Share Nat) → Holding → Prop where
  | nothing : Kept number none none .nothing
  | body {b : Body} {bytes : Bytes} (shows : b.bytes = bytes) :
    Kept number (some b) none (.body b.home bytes)
  | payload {share : Share Nat} {origin : Nat} {bytes : Bytes}
    (within : share.payload.Within share.payload.buffer 0) (shows : share.payload.bytes = bytes)
    (buffer : share.buffer = number origin) :
    Kept number none (some share)
      (.payload origin (share.payload.buffer.report?.map Prod.fst) bytes)

namespace Kept

variable {number number' : Nat → Nat} {b : Option Body} {share : Option (Share Nat)} {h : Holding}

theorem ne_body (kept : Kept number none share h) (home : Option Nat) (bytes : Bytes) :
    h ≠ .body home bytes := by
  cases kept with
  | nothing => exact Holding.noConfusion
  | payload within shows buffer => exact Holding.noConfusion

theorem of_body {b : Body} (kept : Kept number (some b) share h) : h = .body b.home b.bytes := by
  cases kept with
  | body shows => exact congrArg _ shows.symm

theorem of_share {share : Share Nat} (kept : Kept number b (some share) h) :
    ∃ origin bytes, h = .payload origin (share.payload.buffer.report?.map Prod.fst) bytes := by
  cases kept with
  | payload within shows buffer => exact ⟨_, _, rfl⟩

theorem origin? (kept : Kept number b share h) :
    share.map Share.buffer = h.origin?.map number := by
  cases kept with
  | nothing => rfl
  | body shows => rfl
  | payload within shows buffer => exact congrArg some buffer

theorem bytes? (kept : Kept number b share h) :
    (b.map Body.bytes).or ((share.map Share.payload).map Payload.bytes) = h.bytes? := by
  cases kept with
  | nothing => rfl
  | body shows => exact congrArg some shows
  | payload within shows buffer => exact congrArg some shows

theorem renumber (kept : Kept number b share h)
    (same : ∀ origin, h.origin? = some origin → number' origin = number origin) :
    Kept number' b share h := by
  cases kept with
  | nothing => exact .nothing
  | body shows => exact .body shows
  | payload within shows buffer =>
    exact .payload within shows (buffer.trans (same _ rfl).symm)

/-- A body that is written to stays the body it was, with other bytes. -/
theorem write (kept : Kept number b share h) (data : Bytes) :
    Kept number (b.map (·.fill data)) share (h.write data) := by
  cases kept with
  | nothing => exact .nothing
  | payload within shows buffer => exact .payload within shows buffer
  | @body b bytes shows =>
    refine .body (b := b.fill data) ?_
    rw [Body.bytes_fill, shows]

/-- A frozen body is a payload over a buffer of its own. -/
theorem freeze {b : Body} (kept : Kept number (some b) share h) {place buffer : Nat}
    (numbered : buffer = number place) :
    Kept number none (some ⟨buffer, .whole (bufferOf b)⟩) (h.freeze place) := by
  cases kept with
  | @body _ bytes shows =>
    rw [Holding.freeze, ← report?_bufferOf b]
    refine .payload ⟨rfl, Nat.zero_le _, Nat.le_refl _⟩ ?_ numbered
    rw [Payload.bytes_whole, bytes_bufferOf, shows]

/-- A payload's view is over the same body. -/
theorem view (kept : Kept number b share h) (w : Window) :
    Kept number none (share.bind fun share ↦
      (share.payload.view? w.lower.toBound w.upper.toBound).map fun p ↦ { share with payload := p })
      (h.view w) := by
  cases kept with
  | nothing => exact .nothing
  | body shows => exact .nothing
  | @payload share origin bytes within shows buffer =>
    have refused := share.payload.view?_eq_none w
    have length : share.payload.length = bytes.length := by
      rw [← shows]
      exact within.length_slice.symm
    rw [length] at refused
    rw [Holding.view, Option.bind_some]
    cases viewed : share.payload.view? w.lower.toBound w.upper.toBound with
    | none =>
      rw [if_pos (refused.mp viewed)]
      exact .nothing
    | some p =>
      obtain ⟨within', bytes'⟩ := within.view? viewed
      have same := within'.buffer
      rw [if_neg (mt refused.mpr (viewed ▸ Option.some_ne_none p)), ← same]
      refine @payload _ { share with payload := p } _ _ ?_ ?_ buffer
      · rw [same]
        exact within'
      · rw [← shows, Payload.bytes, same]
        exact bytes'

end Kept

def Live (hs : List Holding) (origin : Nat) : Prop := ∃ i, (held hs i).origin? = some origin

theorem Live.of_append {hs : List Holding} {h : Holding} {origin : Nat}
    (live : Live (hs ++ [h]) origin) : h.origin? = some origin ∨ Live hs origin := by
  obtain ⟨i, there⟩ := live
  rw [held_append] at there
  by_cases last : i = hs.length
  · rw [if_pos last] at there
    exact .inl there
  · rw [if_neg last] at there
    exact .inr ⟨i, there⟩

theorem Live.of_modify {hs : List Holding} {f : Holding → Holding}
    (nothing : f .nothing = .nothing) {place origin : Nat} (live : Live (hs.modify place f) origin) :
    (f (held hs place)).origin? = some origin ∨ Live hs origin := by
  obtain ⟨i, there⟩ := live
  rw [held_modify nothing] at there
  by_cases here : i = place
  · rw [if_pos here, here] at there
    exact .inl there
  · rw [if_neg here] at there
    exact .inr ⟨i, there⟩

theorem Live.of_freeze {hs : List Holding} {place origin : Nat} {home : Option Nat} {bytes : Bytes}
    (written : held hs place = .body home bytes)
    (live : Live (hs.modify place (Holding.freeze place)) origin) :
    origin = place ∨ Live hs origin := by
  refine (live.of_modify rfl).imp_left fun here ↦ ?_
  rw [written] at here
  exact (Option.some.inj here).symm

/-- The places hold what the account says. Different origins have different buffers, and nothing is
written any more where a payload comes from. -/
structure Accounts (pools : List Pool) (number : Nat → Nat) (s : Slots) (hs : List Holding) :
    Prop where
  serve : Pool.Serve pools s.allocator.stock
  writable : s.writable.size = hs.length
  places : s.shelf.places.size = hs.length
  kept : ∀ i, Kept number (s.body? i) (s.shelf.share? i) (held hs i)
  numbered : ∀ origin, Live hs origin → number origin < s.shelf.buffers
  inside : ∀ origin, Live hs origin → origin < hs.length
  frozen : ∀ origin, Live hs origin → ∀ home bytes, held hs origin ≠ .body home bytes
  apart : ∀ origin origin', Live hs origin → Live hs origin' →
    number origin = number origin' → origin = origin'

theorem body?_fill (s : Slots) (place : Nat) (data : Bytes) (i : Nat) :
    (s.fill place data).2.body? i =
      if i = place then (s.body? i).map (·.fill data) else s.body? i := by
  unfold fill
  cases there : s.body? place with
  | none =>
    by_cases here : i = place
    · rw [if_pos here, here, there]
      rfl
    · rw [if_neg here]
  | some b =>
    have placed := join_getElem?_set (lt_size_of_join there) (some (b.fill data)) i
    by_cases here : i = place
    · rw [if_pos here] at placed ⊢
      rw [here, there]
      rw [here] at placed
      exact placed
    · rw [if_neg here] at placed ⊢
      exact placed

theorem size_fill (s : Slots) (place : Nat) (data : Bytes) :
    (s.fill place data).2.writable.size = s.writable.size := by
  unfold fill
  cases s.body? place with
  | none => rfl
  | some b => exact Array.size_setIfInBounds

theorem shelf_fill (s : Slots) (place : Nat) (data : Bytes) :
    (s.fill place data).2.shelf = s.shelf ∧ (s.fill place data).2.allocator = s.allocator := by
  unfold fill
  cases s.body? place <;> exact ⟨rfl, rfl⟩

theorem body?_freeze (s : Slots) (place i : Nat) :
    (s.freeze place).2.body? i = if i = place then none else s.body? i := by
  unfold freeze
  cases there : s.body? place with
  | none =>
    by_cases here : i = place
    · rw [if_pos here, here]
      exact there
    · rw [if_neg here]
  | some b => exact join_getElem?_clear s.writable place i

theorem size_freeze (s : Slots) (place : Nat) :
    (s.freeze place).2.writable.size = s.writable.size := by
  unfold freeze
  cases s.body? place with
  | none => rfl
  | some b => exact Array.size_setIfInBounds

theorem allocator_freeze (s : Slots) (place : Nat) :
    (s.freeze place).2.allocator = s.allocator := by
  unfold freeze
  cases s.body? place <;> rfl

theorem shelf_freeze {s : Slots} {place : Nat} {b : Body} (there : s.body? place = some b) :
    (s.freeze place).2.shelf = s.shelf.setNew place (.whole (bufferOf b)) := by
  rw [freeze, there]

theorem body?_drop (s : Slots) (place i : Nat) :
    (s.drop place).body? i = if i = place then none else s.body? i :=
  join_getElem?_clear s.writable place i

theorem shelf_drop (s : Slots) (place : Nat) : (s.drop place).shelf = (s.shelf.drop place).2 := rfl

theorem allocator_drop (s : Slots) (place : Nat) : (s.drop place).allocator =
    (s.shelf.drop place).1.elim s.allocator fun r ↦ s.allocator.recycle r.2 r.1 := by
  rw [drop]
  dsimp only
  cases (s.shelf.drop place).1 <;> rfl

namespace Accounts

variable {pools : List Pool} {number : Nat → Nat} {s s' : Slots} {hs hs' : List Holding}

theorem start {a : Allocator} (within : ∀ p ∈ a.stock, p.idle.length ≤ p.capacity) :
    Accounts a.stock number { allocator := a } [] := by
  have dead (origin : Nat) : ¬Live [] origin := by
    intro live
    obtain ⟨i, there⟩ := live
    contradiction
  exact ⟨Pool.serve_refl within, rfl, rfl, fun _ ↦ .nothing, fun _ live ↦ absurd live (dead _),
    fun _ live ↦ absurd live (dead _), fun _ live ↦ absurd live (dead _),
    fun _ _ live ↦ absurd live (dead _)⟩

theorem restock (h : Accounts pools number s hs) {stock : List Pool}
    (serve : Pool.Serve pools stock) :
    Accounts pools number { s with allocator.stock := stock } hs :=
  ⟨serve, h.writable, h.places, h.kept, h.numbered, h.inside, h.frozen, h.apart⟩

theorem shown? (h : Accounts pools number s hs) (i : Nat) : s.shown? i = (held hs i).bytes? :=
  (h.kept i).bytes?

/-- As long as no body is frozen, payloads have the origins they had. -/
theorem later (h : Accounts pools number s hs) (serve : Pool.Serve pools s'.allocator.stock)
    (writable : s'.writable.size = hs'.length) (places : s'.shelf.places.size = hs'.length)
    (buffers : s'.shelf.buffers = s.shelf.buffers)
    (kept : ∀ i, Kept number (s'.body? i) (s'.shelf.share? i) (held hs' i))
    (longer : hs.length ≤ hs'.length) (live : ∀ origin, Live hs' origin → Live hs origin)
    (frozen : ∀ origin, Live hs origin → ∀ home bytes, held hs' origin ≠ .body home bytes) :
    Accounts pools number s' hs' where
  serve := serve
  writable := writable
  places := places
  kept := kept
  numbered := fun origin there ↦ buffers ▸ h.numbered origin (live origin there)
  inside := fun origin there ↦ Nat.lt_of_lt_of_le (h.inside origin (live origin there)) longer
  frozen := fun origin there ↦ frozen origin (live origin there)
  apart := fun origin origin' there there' ↦
    h.apart origin origin' (live origin there) (live origin' there')

theorem push (h : Accounts pools number s hs) {b : Option Body} {share : Option (Share Nat)}
    {g : Holding} (kept : Kept number b share g)
    (live : ∀ origin, g.origin? = some origin → Live hs origin) :
    Accounts pools number { s with writable := s.writable.push b, shelf := s.shelf.put share }
      (hs ++ [g]) := by
  refine h.later h.serve ?writable ?places rfl ?kept ?longer ?live ?frozen
  case writable => rw [Array.size_push, h.writable, List.length_append, List.length_singleton]
  case places => rw [Shelf.put, Array.size_push, h.places, List.length_append, List.length_singleton]
  case kept =>
    intro i
    rw [body?, join_getElem?_push, Shelf.share?_put, held_append, h.writable, h.places]
    by_cases last : i = hs.length
    · rw [if_pos last, if_pos last, if_pos last]
      exact kept
    · rw [if_neg last, if_neg last, if_neg last]
      exact h.kept i
  case longer =>
    rw [List.length_append]
    omega
  case live =>
    intro origin there
    exact there.of_append.elim (live origin) id
  case frozen =>
    intro origin there home bytes
    rw [held_append, if_neg (Nat.ne_of_lt (h.inside origin there))]
    exact h.frozen origin there home bytes

theorem allocate (h : Accounts pools number s hs) (supply : Supply) (size : Nat) :
    Accounts pools number
      (({ s with allocator.stock := supply.drawn size s.allocator.stock } : Slots).add
        (some { room := size, home := supply.poolFor size }))
      (hs ++ [.body (supply.poolFor size) (List.replicate size 0)]) := by
  refine (h.restock (h.serve.drawn supply size)).push (.body rfl) ?_
  intro origin there
  contradiction

theorem write (h : Accounts pools number s hs) (place : Nat) (data : Bytes) :
    Accounts pools number (s.fill place data).2 (hs.modify place (Holding.write data)) := by
  have shelf := s.shelf_fill place data
  have nothing : Holding.write data .nothing = .nothing := rfl
  refine h.later ?serve ?writable ?places ?buffers ?kept ?longer ?live ?frozen
  case serve =>
    rw [shelf.2]
    exact h.serve
  case writable => rw [size_fill, List.length_modify, h.writable]
  case places => rw [shelf.1, List.length_modify, h.places]
  case buffers => rw [shelf.1]
  case kept =>
    intro i
    rw [shelf.1, body?_fill, held_modify nothing]
    by_cases here : i = place
    · rw [if_pos here, if_pos here]
      exact (h.kept i).write data
    · rw [if_neg here, if_neg here]
      exact h.kept i
  case longer => exact Nat.le_of_eq (List.length_modify ..).symm
  case live =>
    intro origin there
    rcases there.of_modify nothing with here | there
    · rw [Holding.origin?_write] at here
      exact ⟨place, here⟩
    · exact there
  case frozen =>
    intro origin there home bytes
    have was := h.frozen origin there
    rw [held_modify nothing, Holding.write_eq_self was, ite_self]
    exact was home bytes

theorem exists_number (h : Accounts pools number s hs) {place : Nat} (dead : ¬Live hs place) :
    ∃ number' : Nat → Nat, number' place = s.shelf.buffers ∧
      (∀ origin, Live hs origin → number' origin = number origin) ∧
      ∀ origin origin', origin = place ∨ Live hs origin → origin' = place ∨ Live hs origin' →
        number' origin = number' origin' → origin = origin' := by
  let number' := Function.update number place s.shelf.buffers
  have here : number' place = s.shelf.buffers := Function.update_self ..
  have others (origin : Nat) (live : Live hs origin) : number' origin = number origin := by
    refine Function.update_of_ne ?_ ..
    intro same
    exact dead (same ▸ live)
  have fresh (origin : Nat) (live : Live hs origin) : number' origin ≠ number' place := by
    rw [others origin live, here]
    exact Nat.ne_of_lt (h.numbered origin live)
  refine ⟨number', here, others, ?_⟩
  intro origin origin' known known' same
  rcases known with first | live
  · rcases known' with first' | live'
    · rw [first, first']
    · exact absurd (first ▸ same.symm) (fresh origin' live')
  · rcases known' with first' | live'
    · exact absurd (first' ▸ same) (fresh origin live)
    · rw [others origin live, others origin' live'] at same
      exact h.apart origin origin' live live' same

theorem freeze_body (h : Accounts pools number s hs) {place : Nat} {b : Body}
    (there : s.body? place = some b) :
    ∃ number',
      Accounts pools number' (s.freeze place).2 (hs.modify place (Holding.freeze place)) := by
  have nothing : Holding.freeze place .nothing = .nothing := rfl
  have kept := h.kept place
  rw [there] at kept
  have written := kept.of_body
  have inside : place < hs.length := by
    rw [← h.writable]
    exact lt_size_of_join there
  have dead : ¬Live hs place := fun live ↦ h.frozen place live b.home b.bytes written
  obtain ⟨number', here, others, apart⟩ := h.exists_number dead
  have shelf := shelf_freeze there
  refine ⟨number', ?serve, ?writable, ?places, ?kept, ?numbered, ?inside, ?frozen, ?apart⟩
  case serve =>
    rw [allocator_freeze]
    exact h.serve
  case writable => rw [size_freeze, List.length_modify, h.writable]
  case places =>
    rw [shelf, List.length_modify, ← h.places]
    exact Array.size_setIfInBounds
  case kept =>
    intro i
    rw [body?_freeze, shelf, s.shelf.share?_setNew (h.places ▸ inside), held_modify nothing]
    by_cases same : i = place
    · rw [if_pos same, if_pos same, if_pos same, same]
      exact (kept.renumber fun origin live ↦ others origin ⟨place, live⟩).freeze here.symm
    · rw [if_neg same, if_neg same, if_neg same]
      exact (h.kept i).renumber fun origin there ↦ others origin ⟨i, there⟩
  case numbered =>
    intro origin live
    rw [shelf]
    refine Nat.lt_succ_of_le ?_
    rcases live.of_freeze written with rfl | live
    · exact Nat.le_of_eq here
    · rw [others origin live]
      exact Nat.le_of_lt (h.numbered origin live)
  case inside =>
    intro origin live
    rw [List.length_modify]
    rcases live.of_freeze written with rfl | live
    · exact inside
    · exact h.inside origin live
  case frozen =>
    intro origin live home bytes
    rw [held_modify nothing]
    by_cases same : origin = place
    · rw [if_pos same, same, written]
      exact Holding.noConfusion
    · rw [if_neg same]
      exact h.frozen origin ((live.of_freeze written).resolve_left same) home bytes
  case apart =>
    intro origin origin' live live'
    exact apart origin origin' (live.of_freeze written) (live'.of_freeze written)

/-- The buffer of a frozen body gets the next number. -/
theorem freeze (h : Accounts pools number s hs) (place : Nat) :
    ∃ number',
      Accounts pools number' (s.freeze place).2 (hs.modify place (Holding.freeze place)) := by
  cases there : s.body? place with
  | none =>
    have kept := h.kept place
    rw [there] at kept
    have unchanged : (s.freeze place).2 = s := by
      rw [Slots.freeze, there]
    rw [unchanged, modify_freeze kept.ne_body]
    exact ⟨number, h⟩
  | some b => exact h.freeze_body there

/-- What is at a place goes, whatever comes of the storage. -/
theorem drop (h : Accounts pools number s hs) (place : Nat)
    (serve : Pool.Serve pools (s.drop place).allocator.stock) :
    Accounts pools number (s.drop place) (hs.modify place fun _ ↦ .nothing) := by
  refine h.later serve ?writable ?places ?buffers ?kept ?longer ?live ?frozen
  case writable =>
    rw [List.length_modify, ← h.writable]
    exact Array.size_setIfInBounds
  case places => rw [shelf_drop, Shelf.size_drop, List.length_modify, h.places]
  case buffers => rw [shelf_drop, Shelf.buffers_drop]
  case kept =>
    intro i
    rw [body?_drop, shelf_drop, Shelf.share?_drop, held_modify rfl]
    by_cases here : i = place
    · rw [if_pos here, if_pos here, if_pos here]
      exact .nothing
    · rw [if_neg here, if_neg here, if_neg here]
      exact h.kept i
  case longer => exact Nat.le_of_eq (List.length_modify ..).symm
  case live =>
    intro origin there
    rcases there.of_modify rfl with here | there
    · contradiction
    · exact there
  case frozen =>
    intro origin there home bytes
    rw [held_modify rfl]
    by_cases here : origin = place
    · rw [if_pos here]
      exact Holding.noConfusion
    · rw [if_neg here]
      exact h.frozen origin there home bytes

theorem view (h : Accounts pools number s hs) (place : Nat) (w : Window) :
    Accounts pools number (s.view place w.lower.toBound w.upper.toBound).2
      (hs ++ [(held hs place).view w]) :=
  h.push ((h.kept place).view w) fun _ there ↦ ⟨place, Holding.origin?_view there⟩

end Accounts

end Slots

end Conduit
