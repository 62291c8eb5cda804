import ActorMachine.Heap.Basic

/-!
# Tuple objects

The payload of a tuple is its length in eight bytes and then one slot for each element. A new tuple
holds nils.
-/

namespace ActorMachine

/-- A length as an index. Indices are signed numbers of 64 bits, so a length that a forged object
claims may become a negative index. -/
def indexOfLength (length : Nat) : Int :=
  (Int64.ofNat length).toInt

namespace Heap

/-- The size of a tuple's payload. -/
def tupleSize (length : Nat) : Nat :=
  8 + length * slotWidth

/-- The greatest length of a tuple whose bytes are counted by a number of 64 bits. -/
def maxTupleLength : Nat := UInt64.size / slotWidth - 2

/-- The number of elements of a tuple. -/
def tupleLength (h : Heap) (r : Ref) : Except HeapError Nat := do
  let _ ← h.expect r (.object .tuple)
  return h.memory.word (payloadOffset r) 8

/-- The offset of an element's slot. -/
def tupleSlot (h : Heap) (r : Ref) (index : Int) : Except HeapError Nat := do
  let length ← h.tupleLength r
  if 0 ≤ index ∧ index < length then
    return Memory.slotOffset r.start index.toNat
  else
    throw (.indexOutOfBounds index length)

/-- An element of a tuple. -/
def tupleGet (h : Heap) (r : Ref) (index : Int) : Except HeapError Value :=
  return h.memory.value (← h.tupleSlot r index)

end Heap

namespace HeapM

/-- Records the length of a new tuple. The object must be of the right size. -/
def initTuple (r : Ref) (length : Nat) : HeapM Unit := do
  let header ← read (·.expect r (.object .tuple))
  if header.size ≠ Heap.tupleSize length then
    throw (.invalidRef r)
  write (·.store (Heap.payloadOffset r) 8 length)

/-- Replaces an element of a tuple. -/
def tupleSet (r : Ref) (index : Int) (v : Value) : HeapM Unit := do
  let offset ← read (·.tupleSlot r index)
  write (·.storeValue offset v)

end HeapM

end ActorMachine
