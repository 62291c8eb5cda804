import ActorMachine.Heap.Tuples

/-!
# Array objects

An array is its length in eight bytes and one slot for its store, a tuple that holds the elements
and room for more. An array that has never held an element has no store: the slot is nil. An array
whose store is full does not grow by itself.
-/

namespace ActorMachine

namespace Heap

/-- The size of the payload of an array or a table. -/
def containerSize : Nat :=
  8 + slotWidth

/-- The number of elements of an array. -/
def arrayLength (h : Heap) (r : Ref) : Except HeapError Nat := do
  let _ ← h.expect r (.object .array)
  return h.memory.word (payloadOffset r) 8

/-- The store of an array. -/
def arrayStore (h : Heap) (r : Ref) : Except HeapError (Option Ref) := do
  let _ ← h.expect r (.object .array)
  return (h.memory.value (Memory.slotOffset r.start 0)).ref?

/-- The number of elements that the store of an array can hold. -/
def arrayCapacity (h : Heap) (r : Ref) : Except HeapError Nat := do
  match ← h.arrayStore r with
  | some store => h.tupleLength store
  | none => return 0

/-- The store of an array that has an element with a given index. -/
def arrayStoreAt (h : Heap) (r : Ref) (index : Int) : Except HeapError Ref := do
  let length ← h.arrayLength r
  if index < 0 ∨ (length : Int) ≤ index then
    throw (.indexOutOfBounds index length)
  match ← h.arrayStore r with
  | some store => return store
  | none => throw (.invalidRef r)

/-- An element of an array. -/
def arrayGet (h : Heap) (r : Ref) (index : Int) : Except HeapError Value := do
  h.tupleGet (← h.arrayStoreAt r index) index

end Heap

namespace HeapM

/-- Records the length of an array. -/
def setArrayLength (r : Ref) (length : Nat) : HeapM Unit := do
  let _ ← read (·.expect r (.object .array))
  write (·.store (Heap.payloadOffset r) 8 length)

/-- Gives an array a store. -/
def setArrayStore (r store : Ref) : HeapM Unit := do
  let _ ← read (·.expect r (.object .array))
  let _ ← read (·.expect store (.object .tuple))
  write (·.storeValue (Memory.slotOffset r.start 0) (.object .tuple store))

/-- Replaces an element of an array. -/
def arraySet (r : Ref) (index : Int) (v : Value) : HeapM Unit := do
  tupleSet (← read (·.arrayStoreAt r index)) index v

/-- Appends an element to an array whose store has room for it. -/
def arrayPush (r : Ref) (v : Value) : HeapM Unit := do
  let length ← read (·.arrayLength r)
  let capacity ← read (·.arrayCapacity r)
  if capacity ≤ length then
    throw (.indexOutOfBounds (indexOfLength length) capacity)
  setArrayLength r (length + 1)
  arraySet r (indexOfLength length) v

end HeapM

end ActorMachine
