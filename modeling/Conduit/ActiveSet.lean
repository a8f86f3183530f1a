import Conduit.Text.Record

namespace Conduit

/-- Distinct handles, the active ones first. -/
structure ActiveSet (α : Type) where
  items : Array α := #[]
  activeLength : Nat := 0

namespace ActiveSet

variable {α : Type}

def empty : ActiveSet α := {}

def length (s : ActiveSet α) : Nat := s.items.size

def isEmpty (s : ActiveSet α) : Bool := s.items.isEmpty

def active (s : ActiveSet α) : List α := s.items.toList.take s.activeLength

def inactive (s : ActiveSet α) : List α := s.items.toList.drop s.activeLength

def current? (s : ActiveSet α) (i : Nat) : Option α :=
  if i < s.activeLength then s.items[i]? else none

def swap (s : ActiveSet α) (i j : Nat) : ActiveSet α :=
  { s with items := s.items.swapIfInBounds i j }

/-- Moves the handle at `i` behind the last active one, where the active ones then end. -/
def promote (s : ActiveSet α) (i : Nat) : ActiveSet α :=
  { s.swap i s.activeLength with activeLength := s.activeLength + 1 }

/-- Exchanges the active handle at `i` with the last active one, which then counts as inactive. -/
def deactivateAt (s : ActiveSet α) (i : Nat) : ActiveSet α :=
  { s.swap i (s.activeLength - 1) with activeLength := s.activeLength - 1 }

def eraseAt (s : ActiveSet α) (i : Nat) : ActiveSet α :=
  let s := s.swap i (s.items.size - 1)
  { s with items := s.items.pop }

variable [DecidableEq α]

def indexOf? (s : ActiveSet α) (h : α) : Option Nat := s.items.idxOf? h

def contains (s : ActiveSet α) (h : α) : Bool := (s.indexOf? h).isSome

def activeIndex? (s : ActiveSet α) (h : α) : Option Nat :=
  (s.indexOf? h).filter (· < s.activeLength)

def isActive (s : ActiveSet α) (h : α) : Bool := (s.activeIndex? h).isSome

/-- Whether `h` was new. -/
def pushInactive (s : ActiveSet α) (h : α) : Bool × ActiveSet α :=
  if s.contains h then (false, s) else (true, { s with items := s.items.push h })

def pushActive (s : ActiveSet α) (h : α) : Bool × ActiveSet α :=
  match s.pushInactive h with
  | (false, s) => (false, s)
  | (true, s) => (true, s.promote (s.items.size - 1))

/-- Whether `h` was inactive. -/
def activate (s : ActiveSet α) (h : α) : Bool × ActiveSet α :=
  match s.indexOf? h with
  | some i => if s.activeLength ≤ i then (true, s.promote i) else (false, s)
  | none => (false, s)

/-- Whether `h` was active, or `none` for an unknown handle. -/
def remove (s : ActiveSet α) (h : α) : Option Bool × ActiveSet α :=
  match s.indexOf? h with
  | none => (none, s)
  | some i =>
    if i < s.activeLength then (some true, (s.deactivateAt i).eraseAt (s.activeLength - 1))
    else (some false, s.eraseAt i)

def describe (s : ActiveSet α) (render : α → String) : String :=
  Text.record "ActiveSet" [("active", Text.listed (s.active.map render)),
    ("inactive", Text.listed (s.inactive.map render))]

end ActiveSet

end Conduit
