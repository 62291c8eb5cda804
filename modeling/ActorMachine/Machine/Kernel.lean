import ActorMachine.Actor.Basic

/-!
# The world of a running actor

A `Kernel` is what a running actor can do to the rest of the system: send copies of values to
other processes, start processes and ask them to end. The running actor itself is not reached
through it. A `Session` is an actor together with its world.
-/

namespace ActorMachine

/-- The rest of the system, as a running actor reaches it. What fails keeps its effects. -/
class Kernel (κ : Type) where
  /-- The pid of the running actor. -/
  self : κ → Pid
  /-- Delivers a copy of a message that lives in `source`. -/
  send (target : Pid) (message : Value) (source : Heap) : EStateM Fault κ Unit
  /-- Starts a process; arguments that live in `source` are copied. -/
  spawn (callee : Value) (args : List Value) (source : Heap) : EStateM Fault κ Pid
  /-- Asks a process to end. -/
  kill (target : Pid) : EStateM Fault κ Unit

/-- An actor and its world. -/
structure Session (κ : Type) where
  actor : Actor
  kernel : κ

/-- What a running actor does. Its effects stand even when it fails. -/
abbrev Exec (κ : Type) := EStateM Fault (Session κ)

namespace Exec

variable {κ : Type}

/-- What concerns the actor alone. -/
def onActor (m : ActorM α) : Exec κ α := fun s =>
  let kernel := s.kernel
  match m s.actor with
  | .ok x actor => .ok x { actor, kernel }
  | .error e actor => .error e { actor, kernel }

instance : MonadLift ActorM (Exec κ) := ⟨onActor⟩

/-- What concerns the world; the actor's heap can be read. -/
def onKernel (m : Heap → EStateM Fault κ α) : Exec κ α := fun s =>
  let actor := s.actor
  match m actor.heap s.kernel with
  | .ok x kernel => .ok x { actor, kernel }
  | .error e kernel => .error e { actor, kernel }

/-- The running actor. -/
def actor : Exec κ Actor :=
  return (← get).actor

/-- The pid of the running actor. -/
def self [Kernel κ] : Exec κ Pid :=
  return Kernel.self (← get).kernel

end Exec

/-- A world with nobody else in it: no pid but the actor's own is valid, and nothing can be
started. -/
structure Solitude where
  self : Pid
deriving Repr, DecidableEq, Inhabited

instance : Kernel Solitude where
  self k := k.self
  send target _ _ := throw (.invalidPid target)
  spawn _ _ _ := throw .processTableFull
  kill target := throw (.invalidPid target)

end ActorMachine
