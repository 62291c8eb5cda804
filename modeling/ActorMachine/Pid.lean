import ActorMachine.Text.Hex

/-!
# Process identifiers

A pid is a 32-bit word: the index of a process slot in its top bits, the slot's generation in the
bits below, and zeros in the rest. A `PidLayout` says how many bits each part has. The generation
changes whenever a slot is used again, so the pid of a dead process matches no later one until the
generations have come round.
-/

namespace ActorMachine

/-- A process identifier. -/
structure Pid where
  word : UInt32
deriving Repr, DecidableEq, Inhabited

/-- A pid as messages show it: eight hexadecimal digits in angle brackets. -/
def Pid.text (p : Pid) : String :=
  "<" ++ Text.hexPadded 8 p.word.toNat ++ ">"

/-- The number of bits of a pid's index and of its generation. -/
structure PidLayout where
  indexBits : Nat
  generationBits : Nat
  indexBits_pos : 0 < indexBits
  generationBits_pos : 0 < generationBits
  bits_le : indexBits + generationBits ≤ 32
deriving Repr, DecidableEq

namespace PidLayout

/-- The layout with the given widths: each at least one, and no more than 32 bits in all. -/
def make? (indexBits generationBits : Nat) : Option PidLayout :=
  if h : 0 < indexBits ∧ 0 < generationBits ∧ indexBits + generationBits ≤ 32 then
    some ⟨indexBits, generationBits, h.1, h.2.1, h.2.2⟩
  else
    none

instance : Inhabited PidLayout := ⟨16, 16, by decide, by decide, by decide⟩

variable (l : PidLayout)

/-- The position of the index in the word. -/
def indexShift : Nat := 32 - l.indexBits

/-- The position of the generation in the word. -/
def generationShift : Nat := 32 - l.indexBits - l.generationBits

/-- The number of indices. -/
def maxProcesses : Nat := 1 <<< l.indexBits

/-- The number of generations. -/
def generations : Nat := 1 <<< l.generationBits

/-- The pid of a slot index and a generation, each taken modulo its number of values. -/
def pid (index generation : Nat) : Pid :=
  ⟨UInt32.ofNat ((index % l.maxProcesses) <<< l.indexShift
    + (generation % l.generations) <<< l.generationShift)⟩

/-- The slot index of a pid. -/
def index (p : Pid) : Nat :=
  p.word.toNat >>> l.indexShift

/-- The generation of a pid. -/
def generation (p : Pid) : Nat :=
  p.word.toNat >>> l.generationShift % l.generations

/-- The generation after a given one; zero follows the last. -/
def nextGeneration (generation : Nat) : Nat :=
  (generation + 1) % l.generations

end PidLayout

end ActorMachine
