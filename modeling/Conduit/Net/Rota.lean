import Conduit.ActiveSet

namespace Conduit.Net

/-- Pipes of which the active ones take turns, and the position of the one whose turn it is. -/
structure Rota where
  pipes : ActiveSet Nat := .empty
  current : Nat := 0

namespace Rota

def attach (r : Rota) (id : Nat) : Rota := { r with pipes := (r.pipes.pushActive id).2 }

def activated (r : Rota) (id : Nat) : Rota := { r with pipes := (r.pipes.activate id).2 }

def current? (r : Rota) : Option Nat := r.pipes.current? r.current

/-- Starts over if the cursor left the active pipes. -/
def wrap (r : Rota) : Rota :=
  if r.current ≥ r.pipes.activeLength then { r with current := 0 } else r

/-- Sets the current pipe aside. Another active one takes its position. -/
def deactivate (r : Rota) : Rota := { r with pipes := r.pipes.deactivateAt r.current }.wrap

def advance (r : Rota) : Rota := { r with current := (r.current + 1) % r.pipes.activeLength }

def seek (r : Rota) (id : Nat) : Rota :=
  match r.pipes.activeIndex? id with
  | some i => { r with current := i }
  | none => r

def forget (r : Rota) (id : Nat) : Rota :=
  match r.pipes.remove id with
  | (some true, pipes) => { r with pipes }.wrap
  | (_, pipes) => { r with pipes }

/-- Forgets a pipe, and stays with the one that is in the middle of a message. -/
def forgetBeside (r : Rota) (id : Nat) (midst : Option Nat) : Rota :=
  let r := r.forget id
  match midst with
  | some p => r.seek p
  | none => r

end Rota

end Conduit.Net
