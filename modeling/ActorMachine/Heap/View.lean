import ActorMachine.Heap.Reachable
import ActorMachine.Heap.Tables

/-!
# Looking at a heap

`Heap.view` reads an object without regard to how it is laid out in memory, and `Heap.survey` does
so for every object that some values reach, in the order of their places.
-/

namespace ActorMachine

/-- The content of a heap object. -/
inductive ObjectView where
  | string (bytes : ByteArray) (hash : UInt32)
  | tuple (elements : List Value)
  | array (length : Nat) (store : Option Ref)
  | table (length : Nat) (store : Option Ref)

namespace Heap

/-- The content of an object. -/
def view (h : Heap) (r : Ref) : Except HeapError ObjectView := do
  let header ← h.header r
  match header.kind with
  | .object .string => return .string (← h.stringBytes r) (← h.stringHash r)
  | .object .tuple => return .tuple (← h.slots r)
  | .object .array => return .array (← h.arrayLength r) (← h.arrayStore r)
  | .object .table => return .table (← h.tableLength r) (← h.tableStore r)
  | _ => throw (.invalidRef r)

/-- The objects that some values reach, with their contents, in the order of their places. -/
def survey (h : Heap) (roots : Array Value) : Except HeapError (List (Ref × ObjectView)) := do
  let refs ← h.reachable (roots.toList.filterMap Value.ref?)
  let refs := refs.toList.mergeSort fun r s => r.start ≤ s.start
  refs.mapM fun r => return (r, ← h.view r)

end Heap

end ActorMachine
