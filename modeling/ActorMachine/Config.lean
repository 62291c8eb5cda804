import ActorMachine.Pid

/-!
# Limits

The limits and settings of a process, and the settings of a scheduler. Settings are checked before
use: the first heap may not exceed the greatest, and the pid widths must form a layout.
-/

namespace ActorMachine

/-- The limits that a process keeps checking. -/
structure ActorLimits where
  /-- The greatest number of values on the stack. -/
  maxStack : Nat := 65536
  /-- The greatest number of calls under way. -/
  maxFrames : Nat := 1024
  /-- The greatest number of messages waiting. -/
  maxMailbox : Nat := 65536
deriving Repr, DecidableEq, Inhabited

/-- The settings of a process: its limits, and the sizes that its heap is made with. -/
structure ActorConfig extends ActorLimits where
  /-- The first capacity of the heap, in bytes. -/
  initialHeap : Nat := 4096
  /-- The greatest capacity of the heap, in bytes. -/
  maxHeap : Nat := 67108864
deriving Repr, DecidableEq, Inhabited

/-- The settings of a scheduler. -/
structure Config where
  indexBits : Nat := 16
  generationBits : Nat := 16
  /-- The settings of each process. -/
  actor : ActorConfig := {}
deriving Repr, DecidableEq, Inhabited

/-- A reason to refuse settings. -/
inductive ConfigError where
  | pidLayout (indexBits generationBits : Nat)
  | heapLimits (initial max : Nat)
deriving Repr, DecidableEq

/-- The text of a settings error. -/
def ConfigError.message : ConfigError → String
  | pidLayout indexBits generationBits =>
    s!"invalid pid layout: {indexBits} index bits, {generationBits} generation bits"
  | heapLimits initial max => s!"initial heap {initial} exceeds max heap {max}"

/-- The pid layout of settings that pass the checks; the heap limits are checked first. -/
def Config.validate (c : Config) : Except ConfigError PidLayout :=
  if c.actor.maxHeap < c.actor.initialHeap then
    .error (.heapLimits c.actor.initialHeap c.actor.maxHeap)
  else
    match PidLayout.make? c.indexBits c.generationBits with
    | some layout => .ok layout
    | none => .error (.pidLayout c.indexBits c.generationBits)

end ActorMachine
