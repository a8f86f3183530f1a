import Conduit.Body.Allocator
import Mathlib.Data.List.Basic

namespace Conduit

namespace Body

theorem length_bytes (b : Body) : b.bytes.length = b.size := by
  rw [bytes, List.length_append, List.length_reverse, List.length_replicate, size]

end Body

/-- What a provider promises: a body has exactly the size that was asked for, and is all zero. -/
class LawfulProvider (A : Type) [Provider A] : Prop where
  bytes_of_allocate {size : ℕ} {a a' : A} {body : Body} :
    Provider.allocate size a = .ok (body, a') → body.bytes = List.replicate size 0

namespace Provider

variable {A : Type} [Provider A] {a a₁ a₂ : A} {size : ℕ} {body : Body}

theorem rewind_of_allocate [LawfulProvider A] (given : allocate size a = .ok (body, a₁)) :
    body.rewind = { room := size, home := body.home } := by
  have bytes := congrArg List.length (LawfulProvider.bytes_of_allocate given)
  rw [body.length_bytes, List.length_replicate] at bytes
  rw [Body.rewind, bytes]

inductive Later (a : A) : A → Prop where
  | refl : Later a a
  | allocate {a₁ a₂ : A} {size : ℕ} {body : Body} (later : Later a a₁)
    (given : Provider.allocate size a₁ = .ok (body, a₂)) : Later a a₂
  | recycle {a₁ : A} (later : Later a a₁) (storage : Bytes) (number : ℕ) :
    Later a (Provider.recycle storage number a₁)

/-- From now on, bodies of every size below the limit can be had. -/
def Ample (a : A) : Prop :=
  ∀ a', Later a a' → ∀ size < Storage.limit, ∃ given, allocate size a' = .ok given

theorem Later.trans (h : Later a a₁) (h' : Later a₁ a₂) : Later a a₂ := by
  induction h' with
  | refl => exact h
  | allocate _ given ih => exact .allocate ih given
  | recycle _ storage number ih => exact .recycle ih storage number

theorem Ample.later (h : Ample a) (later : Later a a₁) : Ample a₁ :=
  fun a₂ later' ↦ h a₂ (later.trans later')

theorem Ample.allocate (h : Ample a) (fits : size < Storage.limit) :
    ∃ body a', Provider.allocate size a = .ok (body, a') ∧ Ample a' := by
  obtain ⟨given, allocated⟩ := h a .refl size fits
  exact ⟨given.1, given.2, allocated, h.later (.allocate .refl allocated)⟩

theorem Ample.recycle (h : Ample a) (storage : Bytes) (number : ℕ) :
    Ample (Provider.recycle storage number a) := h.later (.recycle .refl storage number)

end Provider

namespace Supply

/-- Storage of each pool's largest size can be had. -/
def Ample : Supply → Prop
  | heap => True
  | pool maxSize _ => maxSize < Storage.limit
  | threshold _ small large => small.Ample ∧ large.Ample

def poolFor (size : ℕ) : Supply → Option ℕ
  | heap => none
  | pool maxSize number => if size ≤ maxSize then some number else none
  | threshold limit small large =>
    if size < limit then small.poolFor size else large.poolFor size

def drawn (s : Supply) (size : ℕ) (pools : List Pool) : List Pool :=
  (s.poolFor size).elim pools (pools.modify · Pool.leave)

/-- A body is blank and from the pool that serves its size. There is always one to be had if the
supply and the size allow it. -/
theorem allocate_eq (s : Supply) (size : ℕ) (pools : List Pool) :
    s.allocate size pools = .ok ({ room := size, home := s.poolFor size }, s.drawn size pools) ∨
      (∃ e, s.allocate size pools = .error e) ∧ ¬(s.Ample ∧ size < Storage.limit) := by
  have reserves (size : ℕ) : Storage.reserve size = .ok () ∨
      (∃ e, Storage.reserve size = .error e) ∧ ¬size < Storage.limit := by
    unfold Storage.reserve
    split
    · exact .inl rfl
    · exact .inr ⟨⟨_, rfl⟩, ‹_›⟩
  induction s with
  | heap =>
    rw [allocate]
    rcases reserves size with had | ⟨⟨e, lacking⟩, large⟩
    · rw [had]
      exact .inl rfl
    · rw [lacking]
      exact .inr ⟨⟨e, rfl⟩, fun allowed ↦ large allowed.2⟩
  | pool maxSize number =>
    rw [allocate, drawn, poolFor]
    by_cases large : size > maxSize
    · rw [if_pos large, if_neg (Nat.not_le.mpr large)]
      rcases reserves size with had | ⟨⟨e, lacking⟩, large⟩
      · rw [had]
        exact .inl rfl
      · rw [lacking]
        exact .inr ⟨⟨e, rfl⟩, fun allowed ↦ large allowed.2⟩
    · rw [if_neg large, if_pos (Nat.not_lt.mp large)]
      cases pools[number]?.bind Pool.newest? with
      | some storage => exact .inl rfl
      | none =>
        rcases reserves maxSize with had | ⟨⟨e, lacking⟩, large⟩
        · rw [had]
          exact .inl rfl
        · rw [lacking]
          exact .inr ⟨⟨e, rfl⟩, fun allowed ↦ large allowed.1⟩
  | threshold limit small large ihSmall ihLarge =>
    rw [allocate, drawn, poolFor]
    by_cases below : size < limit
    · rw [if_pos below, if_pos below]
      exact ihSmall.imp_right fun ⟨lacking, why⟩ ↦
        ⟨lacking, fun allowed ↦ why ⟨allowed.1.1, allowed.2⟩⟩
    · rw [if_neg below, if_neg below]
      exact ihLarge.imp_right fun ⟨lacking, why⟩ ↦
        ⟨lacking, fun allowed ↦ why ⟨allowed.1.2, allowed.2⟩⟩

theorem Ample.allocate {s : Supply} (h : s.Ample) {size : ℕ} (fits : size < Storage.limit)
    (pools : List Pool) :
    s.allocate size pools = .ok ({ room := size, home := s.poolFor size }, s.drawn size pools) :=
  (s.allocate_eq size pools).resolve_right fun lacks ↦ lacks.2 ⟨h, fits⟩

end Supply

namespace Allocator

theorem allocate_eq (a : Allocator) (size : ℕ) : Provider.allocate size a =
    (a.supply.allocate size a.stock).map fun given ↦ (given.1, { a with stock := given.2 }) := by
  change Allocator.allocate size a = _
  rw [Allocator.allocate]
  cases a.supply.allocate size a.stock <;> rfl

instance : LawfulProvider Allocator where
  bytes_of_allocate {size a a' body} given := by
    rw [allocate_eq] at given
    rcases a.supply.allocate_eq size a.stock with had | ⟨⟨e, lacking⟩, -⟩
    · rw [had] at given
      cases given
      exact List.nil_append _
    · rw [lacking] at given
      cases given

theorem supply_of_later {a a' : Allocator} (later : Provider.Later a a') :
    a'.supply = a.supply := by
  induction later with
  | refl => rfl
  | @allocate a₁ a₂ size body _ given ih =>
    rw [allocate_eq] at given
    cases allocated : a₁.supply.allocate size a₁.stock with
    | error e =>
      rw [allocated] at given
      cases given
    | ok r =>
      rw [allocated] at given
      cases given
      exact ih
  | recycle _ storage number ih => exact ih

theorem ample_of_supply {a : Allocator} (ample : a.supply.Ample) : Provider.Ample a := by
  intro a' later size fits
  rw [allocate_eq, supply_of_later later, ample.allocate fits]
  exact ⟨_, rfl⟩

end Allocator

end Conduit
