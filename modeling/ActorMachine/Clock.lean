/-!
# Clocks

A clock shows a time in microseconds that moves only when it is told to; one that goes by itself is
told to before it is asked. It remembers the time at which it was last asked how far it has moved.
Times do not go beyond the greatest number of 64 bits.
-/

namespace ActorMachine

/-- The latest time. -/
def endOfTime : Nat := UInt64.size - 1

/-- The time `usecs` microseconds later, or the latest one. -/
def laterBy (time usecs : Nat) : Nat :=
  min (time + usecs) endOfTime

/-- A clock. -/
structure Clock where
  now : Nat
  /-- The time at which the clock was last asked. -/
  asked : Nat
deriving Repr, DecidableEq

namespace Clock

/-- A clock at its beginning. -/
def start : Clock :=
  ⟨0, 0⟩

instance : Inhabited Clock := ⟨start⟩

/-- Moves the clock. -/
def advance (c : Clock) (usecs : Nat) : Clock :=
  { c with now := laterBy c.now usecs }

/-- The microseconds by which the clock has moved since it was last asked. -/
def elapsed (c : Clock) : Nat × Clock :=
  (c.now - c.asked, { c with asked := c.now })

end Clock

end ActorMachine
