import ActorMachine.Chunk.Prototype
import ActorMachine.Chunk.StringTable
import ActorMachine.Word.LittleEndian

/-!
# Reading chunks

A `Reader` stands somewhere in a list of bytes; each read takes a field from the front of what is
left and fails, taking nothing, when too few bytes are left. `Prototype.read` reads one record
with the records nested in it, and `Chunk.decode` a whole chunk, after which nothing may be left.
-/

namespace ActorMachine

/-- A position in the bytes of an input. -/
structure Reader where
  /-- The number of bytes of the whole input. -/
  size : Nat
  /-- The bytes after the position. -/
  rest : List UInt8
deriving Repr

/-- A computation that reads from the front of the input. -/
abbrev Read := StateT Reader (Except ChunkError)

namespace Reader

/-- The start of an input. -/
def ofBytes (bytes : List UInt8) : Reader :=
  ⟨bytes.length, bytes⟩

/-- The number of bytes left. -/
def remaining (r : Reader) : Nat :=
  r.rest.length

/-- The next `count` bytes. -/
def bytes (count : Nat) : Read (List UInt8) := fun r =>
  let taken := r.rest.take count
  if taken.length < count then
    .error (.unexpectedEnd r.size)
  else
    .ok (taken, { r with rest := r.rest.drop count })

/-- Passes over `count` bytes. -/
def skip (count : Nat) : Read Unit :=
  discard (bytes count)

/-- The next byte. -/
def byte : Read UInt8 :=
  return UInt8.ofNat (Word.ofLittleEndian (← bytes 1))

/-- The next number of four bytes. -/
def word32 : Read UInt32 :=
  return UInt32.ofNat (Word.ofLittleEndian (← bytes 4))

/-- The next number of eight bytes. -/
def word64 : Read UInt64 :=
  return UInt64.ofNat (Word.ofLittleEndian (← bytes 8))

/-- The next signed number of eight bytes. -/
def int64 : Read Int64 :=
  return (← word64).toInt64

/-- The next floating point number. -/
def real : Read Binary64 :=
  return ⟨← word64⟩

/-- The results of `count` reads of the same kind. -/
def times (count : Nat) (read : Read α) : Read (List α) :=
  match count with
  | 0 => return []
  | count + 1 => return (← read) :: (← times count read)

/-- A count of elements of at least `elementSize` bytes each. What is left of the input must be able
to hold that many. -/
def count (field : CountField) (elementSize : Nat) : Read Nat := do
  let n := (← int64).toInt
  if 0 ≤ n ∧ n.toNat * elementSize ≤ (← get).remaining then
    return n.toNat
  else
    throw (.badCount field n)

end Reader

namespace Constant

/-- Reads a constant; strings are looked up in `table`. -/
def read (table : List UInt8) : Read Constant := do
  let tag ← Reader.word32
  Reader.skip 4
  let integer ← Reader.int64
  let ref ← Reader.int64
  let real ← Reader.real
  match tag with
  | 0 => return .integer integer
  | 1 => return .text (← StringTable.lookup table ref.toInt)
  | 2 => return .real real
  | tag => throw (.unknownConstantTag tag.toNat)

end Constant

/-- Reads an import; its names are looked up in `table`. -/
def Import.read (table : List UInt8) : Read Import := do
  let module ← StringTable.lookup table (← Reader.int64).toInt
  let name ← StringTable.lookup table (← Reader.int64).toInt
  return ⟨module, name⟩

namespace Prototype

/-- The number of bytes of a record's seven numbers. -/
def recordWidth : Nat := 56

/-- Reads a record. Each level of nesting takes at least `recordWidth` bytes, so an input has no
more than `depth` levels when it has no more than `depth` bytes; one that asks for another level
ends there. -/
def read : (depth : Nat) → Read Prototype
  | 0 => do throw (.unexpectedEnd (← get).size)
  | depth + 1 => do
    let start ← get
    if (start.rest.take recordWidth).length < recordWidth then
      throw (.unexpectedEnd start.size)
    let sourceRef ← Reader.int64
    let symbolRef ← Reader.int64
    let tableSize ← Reader.count .stringTable 1
    let codeCount ← Reader.count .instruction 4
    let nestedCount ← Reader.count .nested recordWidth
    let constantCount ← Reader.count .constant 32
    let importCount ← Reader.count .linkage 16
    let table ← Reader.bytes tableSize
    let source ← StringTable.lookup table sourceRef.toInt
    let symbol ← StringTable.lookup table symbolRef.toInt
    let code ← Reader.times codeCount Reader.word32
    let constants ← Reader.times constantCount (Constant.read table)
    let imports ← Reader.times importCount (Import.read table)
    let nested ← Reader.times nestedCount (read depth)
    return { source, symbol, code := code.map Instruction.mk, constants, imports, nested }

end Prototype

/-- Reads a chunk: a header that suits this machine, one record, and nothing after it. -/
def Chunk.decode (bytes : List UInt8) : Except ChunkError Chunk := do
  let header ← Header.decode bytes
  header.checkHost
  let read : Read Prototype := do
    Reader.skip Header.width
    let module ← Prototype.read bytes.length
    match (← get).remaining with
    | 0 => return module
    | n => throw (.trailingBytes n)
  return ⟨header, ← read.run' (Reader.ofBytes bytes)⟩

end ActorMachine
