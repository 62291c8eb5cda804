import ActorMachine.Heap.Basic

/-!
# String objects

The payload of a string is its hash and its length, four bytes each, and then its bytes, which need
not be text. Strings do not change.
-/

namespace ActorMachine

/-- The hash of a string after one more byte. -/
def hashStep (h : UInt32) (b : UInt8) : UInt32 :=
  h ^^^ ((h <<< 5) + (h >>> 2) + b.toUInt32)

/-- Hashes `count` bytes from an offset on. -/
def hashFrom (bytes : ByteArray) (h : UInt32) (i : Nat) : (count : Nat) → UInt32
  | 0 => h
  | count + 1 => hashFrom bytes (hashStep h (Memory.byte bytes i)) (i + 1) count

/-- The hash of a string: its length, mixed with each byte in turn. -/
def hashBytes (bytes : ByteArray) : UInt32 :=
  hashFrom bytes (UInt32.ofNat bytes.size) 0 bytes.size

namespace Heap

/-- The size of a string's payload. -/
def stringSize (length : Nat) : Nat :=
  8 + length

/-- The bytes of a string. -/
def stringBytes (h : Heap) (r : Ref) : Except HeapError ByteArray := do
  let header ← h.expect r (.object .string)
  let start := payloadOffset r
  return h.memory.extract (start + 8) (start + header.size)

/-- The number of bytes of a string. -/
def stringLength (h : Heap) (r : Ref) : Except HeapError Nat :=
  return (← h.stringBytes r).size

/-- The hash recorded in a string. -/
def stringHash (h : Heap) (r : Ref) : Except HeapError UInt32 := do
  let _ ← h.expect r (.object .string)
  return UInt32.ofNat (h.memory.word (payloadOffset r) 4)

end Heap

/-- Fills a new string with its bytes. The object must be of the right size. -/
def HeapM.initString (r : Ref) (bytes : ByteArray) : HeapM Unit := do
  let header ← read (·.expect r (.object .string))
  if header.size ≠ Heap.stringSize bytes.size then
    throw (.invalidRef r)
  let start := Heap.payloadOffset r
  write fun m =>
    ((m.store start 4 (hashBytes bytes).toNat).store (start + 4) 4 bytes.size).storeBytes
      (start + 8) bytes

end ActorMachine
