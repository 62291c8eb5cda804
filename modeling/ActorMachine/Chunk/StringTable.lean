import ActorMachine.Chunk.Error
import ActorMachine.Text.Utf8

/-!
# String tables

A prototype record refers to its strings by their offsets in a table of terminated strings. Offset
zero is the empty string. The table of a record holds each other string once, in the order of its
first use; a string ends at the first NUL after its offset.
-/

namespace ActorMachine

/-- The distinct nonempty strings of a record, in table order. -/
abbrev StringTable := List String

namespace StringTable

/-- The table for strings used in the given order. -/
def ofStrings (strings : List String) : StringTable :=
  (strings.filter (· ≠ "")).eraseDups

/-- A string with its terminator. -/
def terminated (s : String) : List UInt8 :=
  Text.encode s ++ [0]

/-- The bytes of a table. -/
def bytes (t : StringTable) : List UInt8 :=
  0 :: t.flatMap terminated

/-- The reference to a string: zero for the empty one, else its offset. -/
def ref (t : StringTable) (s : String) : Nat :=
  if s = "" then
    0
  else
    1 + ((t.takeWhile (· ≠ s)).flatMap terminated).length

/-- The string that a reference into the bytes of a table names. -/
def lookup (table : List UInt8) (ref : Int) : Except ChunkError String :=
  if ref = 0 then
    .ok ""
  else if ref < 0 ∨ (table.length : Int) ≤ ref then
    .error (.badStringRef ref)
  else
    let tail := table.drop ref.toNat
    if tail.contains 0 then
      match Text.decode? (tail.takeWhile (· ≠ 0)) with
      | some s => .ok s
      | none => .error .badText
    else
      .error (.badStringRef ref)

end StringTable

end ActorMachine
