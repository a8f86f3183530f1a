import Conduit.Bytes

namespace Conduit

inductive Bound where
  | included (n : Nat)
  | excluded (n : Nat)
  | unbounded
deriving DecidableEq

namespace Bound

def after? (n : Nat) : Option Nat := if n + 1 < wordLimit then some (n + 1) else none

def first? : Bound → Option Nat
  | included n => some n
  | excluded n => after? n
  | unbounded => some 0

def stop? (length : Nat) : Bound → Option Nat
  | included n => after? n
  | excluded n => some n
  | unbounded => some length

end Bound

structure Span where
  start : Nat
  stop : Nat
deriving DecidableEq

namespace Span

def length (s : Span) : Nat := s.stop - s.start

/-- The range between two bounds, `none` unless it lies within `length` positions. -/
def resolve? (lower upper : Bound) (length : Nat) : Option Span :=
  match lower.first?, upper.stop? length with
  | some start, some stop => if start ≤ stop ∧ stop ≤ length then some ⟨start, stop⟩ else none
  | _, _ => none

/-- A span within `outer`, counted from where `outer` starts. -/
def within (inner outer : Span) : Span := ⟨outer.start + inner.start, outer.start + inner.stop⟩

def slice {α : Type} (s : Span) (xs : List α) : List α := (xs.drop s.start).take s.length

end Span

end Conduit
