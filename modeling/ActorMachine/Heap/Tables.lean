import ActorMachine.Heap.Arrays
import ActorMachine.Heap.Equality

/-!
# Table objects

A table is its number of entries in eight bytes and one slot for its store, a tuple in which each
entry is a key and the value after it. An entry is found by comparing the keys in turn. A table
whose store is full does not grow by itself.
-/

namespace ActorMachine

namespace Heap

/-- The number of entries of a table. -/
def tableLength (h : Heap) (r : Ref) : Except HeapError Nat := do
  let _ ← h.expect r (.object .table)
  return h.memory.word (payloadOffset r) 8

/-- The store of a table. -/
def tableStore (h : Heap) (r : Ref) : Except HeapError (Option Ref) := do
  let _ ← h.expect r (.object .table)
  return (h.memory.value (Memory.slotOffset r.start 0)).ref?

/-- The number of entries that the store of a table can hold. -/
def tableCapacity (h : Heap) (r : Ref) : Except HeapError Nat := do
  match ← h.tableStore r with
  | some store => return (← h.tupleLength store) / 2
  | none => return 0

/-- The number of the first of `count` entries, from number `entry` on, whose key is equal to a
given one. -/
def findEntry (h : Heap) (store : Ref) (key : Value) (entry : Nat) :
    (count : Nat) → Except HeapError (Option Nat)
  | 0 => return none
  | count + 1 => do
    if ← h.equal (← h.tupleGet store (entry * 2 : Nat)) key then
      return some entry
    else
      h.findEntry store key (entry + 1) count

/-- The store of a table and the number of the entry with a given key. -/
def tableFind (h : Heap) (r : Ref) (key : Value) : Except HeapError (Option (Ref × Nat)) := do
  let length ← h.tableLength r
  match ← h.tableStore r with
  | none => return none
  | some store => return (← h.findEntry store key 0 (indexOfLength length).toNat).map (store, ·)

/-- The value of a key, or nil. -/
def tableGet (h : Heap) (r : Ref) (key : Value) : Except HeapError Value := do
  match ← h.tableFind r key with
  | some (store, entry) => h.tupleGet store (entry * 2 + 1 : Nat)
  | none => return .nil

end Heap

namespace HeapM

/-- Copies `count` elements of one tuple to another, from an index on. -/
def copySlots (source target : Ref) (index : Nat) : (count : Nat) → HeapM Unit
  | 0 => return
  | count + 1 => do
    tupleSet target index (← read (·.tupleGet source index))
    copySlots source target (index + 1) count

/-- Moves the entries of a table to another store, which must have room for them. -/
def setTableStore (r store : Ref) : HeapM Unit := do
  let length ← read (·.tableLength r)
  let room ← read (·.tupleLength store)
  if room < length * 2 then
    throw (.indexOutOfBounds (indexOfLength (length * 2)) room)
  match ← read (·.tableStore r) with
  | some old => copySlots old store 0 (indexOfLength (length * 2)).toNat
  | none => pure ()
  write (·.storeValue (Memory.slotOffset r.start 0) (.object .tuple store))

/-- Replaces the value of a key, or adds an entry for it if the store has room. Answers whether it
did either. -/
def tableTrySet (r : Ref) (key v : Value) : HeapM Bool := do
  match ← read (·.tableFind r key) with
  | some (store, entry) =>
    tupleSet store (entry * 2 + 1 : Nat) v
    return true
  | none =>
    let length ← read (·.tableLength r)
    if (← read (·.tableCapacity r)) ≤ length then
      return false
    match ← read (·.tableStore r) with
    | none => throw (.invalidRef r)
    | some store =>
      tupleSet store (indexOfLength (length * 2)) key
      tupleSet store (indexOfLength (length * 2 + 1)) v
      write (·.store (Heap.payloadOffset r) 8 (length + 1))
      return true

end HeapM

end ActorMachine
