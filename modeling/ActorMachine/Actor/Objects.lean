import ActorMachine.Actor.Basic
import ActorMachine.Heap.Strings
import ActorMachine.Heap.Tuples

/-!
# New objects of an actor

Allocation may collect, and a collection moves every object, so values that are to survive it must
be on the stack or in the mailbox while it happens.
-/

namespace ActorMachine.ActorM

/-- A new string. -/
def newString (bytes : ByteArray) : ActorM Value := do
  let r ← alloc (.object .string) (Heap.stringSize bytes.size)
  onHeap (HeapM.initString r bytes)
  return .object .string r

/-- A new tuple of nils, by reference. -/
def newTupleRef (length : Nat) : ActorM Ref := do
  let r ← alloc (.object .tuple) (Heap.tupleSize length)
  onHeap (HeapM.initTuple r length)
  return r

/-- A new tuple of nils. -/
def newTuple (length : Nat) : ActorM Value :=
  return .object .tuple (← newTupleRef length)

/-- Takes the top of the stack, whatever it belongs to; nil if there is none. -/
def popRaw : ActorM Value := do
  let v := (← get).top?.getD .nil
  modify fun a => { a with stack := a.stack.pop }
  return v

/-- A new pair of a value and the top of the stack, which is taken away. It is taken away even if
the pair cannot be allocated. -/
def pairWithTop (first : Value) : ActorM Value := fun a =>
  match newTupleRef 2 a with
  | .error e a => (do let _ ← popRaw; throw e : ActorM Value) a
  | .ok r a =>
    (do
      let second ← popRaw
      onHeap (HeapM.tupleSet r 0 first)
      onHeap (HeapM.tupleSet r 1 second)
      return .object .tuple r : ActorM Value) a

/-- The bytes of a string value. -/
def stringBytes (v : Value) : ActorM ByteArray :=
  match v with
  | .object .string r => readHeap (·.stringBytes r)
  | v => throw (.mismatch (.object .string) v)

end ActorMachine.ActorM
