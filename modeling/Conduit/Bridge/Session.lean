import Conduit.Bridge.Engine

namespace Conduit.Bridge

open Wire Pipe

inductive SetupError where
  | pipe (e : ChunkQueue.Error)
  | buffer (e : AllocationError)
deriving DecidableEq

def SetupError.message : SetupError → String
  | .pipe e => e.message
  | .buffer e => e.message

inductive Grip where
  | task
  | promise
  | released
deriving DecidableEq

/-- What asking for the outcome comes to. -/
inductive Answer where
  | running
  | outcome (o : Outcome)
  | gone

/-- An engine, its owner, and a user at the first end of its pipe. -/
structure Session (d : Dialect) where
  engine : Engine d
  grip : Grip := .task

namespace Session

variable {d : Dialect}

def create (d : Dialect) (settings : Settings) (stream : Stream) (bufferSize : Nat)
    (limits : Limits) : Except SetupError (Session d) :=
  match Pair.create settings, Storage.reserve bufferSize with
  | .error e, _ => .error (.pipe e)
  | .ok _, .error e => .error (.buffer e)
  | .ok pair, .ok _ => .ok { engine := Engine.create d pair stream bufferSize limits }

def settle (s : Session d) : Session d := { s with engine := s.engine.settle }

def setStream (s : Session d) (f : Stream → Stream) : Session d :=
  { s with engine := { s.engine with stream := f s.engine.stream } }

def act {ρ : Type} (s : Session d) (f : Link → ρ × Link) : Option ρ × Session d :=
  if s.engine.pair.firstDropped then (none, s)
  else
    let (r, pair) := s.engine.pair.act .first f
    (some r, { s with engine := { s.engine with pair } })

def dropUser (s : Session d) : Session d :=
  { s with engine := { s.engine with pair := s.engine.pair.drop .first } }

def join (s : Session d) : Session d :=
  if s.grip = .task then { s with grip := .promise } else s

def stop (s : Session d) : Session d :=
  if s.grip = .task then
    { engine := { s.engine with stopRequested := true }, grip := .promise }
  else s

def stats? (s : Session d) : Option Stats :=
  if s.grip = .task then some s.engine.stats else none

def result (s : Session d) : Answer × Session d :=
  if s.grip = .released then (.gone, s)
  else
    match s.engine.outcome? with
    | some o => (.outcome o, { s with grip := .released })
    | none => (.running, { s with grip := .promise })

def finished (s : Session d) : Bool := s.grip = .released || s.engine.outcome?.isSome

def collect (s : Session d) : Bytes × Session d :=
  (s.engine.stream.output, s.setStream ({ · with written := [] }))

end Session

end Conduit.Bridge
