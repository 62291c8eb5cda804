import ActorMachine.Heap.Strings

/-!
# Equality of values

Strings are equal when their bytes are; other objects only to themselves; inline values by value.
The hashes recorded in two strings are compared before their bytes.
-/

namespace ActorMachine.Heap

/-- Whether two values of a heap are equal. -/
def equal (h : Heap) (v w : Value) : Except HeapError Bool :=
  match v, w with
  | .object .string r, .object .string s => do
    if r = s then
      return true
    if (← h.stringHash r) ≠ (← h.stringHash s) then
      return false
    return (← h.stringBytes r).data = (← h.stringBytes s).data
  | v, w => return v.agrees w

end ActorMachine.Heap
