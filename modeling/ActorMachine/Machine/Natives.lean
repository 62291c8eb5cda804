import ActorMachine.Actor.Call
import ActorMachine.Heap.Tables
import ActorMachine.Machine.Kernel
import ActorMachine.Native.Registry
import ActorMachine.Text.Utf8

/-!
# The builtin library

What the natives do. The arguments of a native call stay on the stack until it has answered, so they
keep their objects alive, and are read again after everything that may collect.
-/

namespace ActorMachine

/-- The answer of a native. -/
inductive Answer where
  | value (v : Value)
  /-- Answers nil and gives up the turn. -/
  | giveTurn
  /-- Answers nil and ends the process. -/
  | exit
deriving Repr, DecidableEq, Inhabited

/-- The value that takes the place of the arguments. -/
def Answer.result : Answer → Value
  | value v => v
  | giveTurn | exit => .nil

/-- The arguments of a native call, as the native reads them. -/
structure Arguments where
  count : Nat
  /-- Argument `i` of those that are given. -/
  read : (i : Nat) → ActorM Value

namespace Arguments

/-- The `count` values below a height of the stack, the first one on top. -/
def below (height count : Nat) : Arguments where
  count
  read i := return (← get).stack.getD (height - 1 - i) .nil

variable (args : Arguments)

/-- An argument; nil if it is not given. -/
def get (i : Nat) : ActorM Value :=
  if i < args.count then args.read i else return .nil

/-- The arguments from one on. -/
def rest (first : Nat) : ActorM (List Value) :=
  (List.range' first (args.count - first)).mapM args.get

/-- Refuses a call with too few arguments. -/
def atLeast (n : Nat) : ActorM Unit :=
  if args.count < n then throw (.arity n args.count) else return

/-- An argument that must be an integer. -/
def integer (i : Nat) : ActorM Int := do
  match ← args.get i with
  | .integer n => return n.toInt
  | v => throw (.mismatch .integer v)

/-- An argument that must be a pid. -/
def pid (i : Nat) : ActorM Pid := do
  match ← args.get i with
  | .pid p => return p
  | v => throw (.mismatch .pid v)

/-- An argument that must be an object of a given shape. -/
def object (shape : Shape) (i : Nat) : ActorM Ref := do
  match ← args.get i with
  | .object found r =>
    if found = shape then return r else throw (.typeMismatch (.object shape) (.object found))
  | v => throw (.mismatch (.object shape) v)

/-- An argument that must be a number of elements. -/
def elementCount (i : Nat) : ActorM Nat := do
  let n ← args.integer i
  if n < 0 then throw (.invalidIndex .count n) else return n.toNat

end Arguments

namespace Native

open ActorM (readHeap onHeap)

/-- An integer value. -/
def ofNat (n : Nat) : Value :=
  .integer (Int64.ofNat n)

/-- The least number of elements or entries that a new store holds. -/
def minCapacity : Nat := 4

/-- The number of elements or entries that a store has room for after it has grown. -/
def grownCapacity (capacity : Nat) : Nat :=
  max (capacity * 2) minCapacity

/-- Raises a fault with the text of the first argument: a string's own, `error` for nil, else the
value as messages show it. -/
def raise (args : Arguments) : ActorM Value := do
  let text ← match ← args.get 0 with
    | v@(.object .string _) =>
      let bytes ← ActorM.stringBytes v
      pure (Text.decodeLossy bytes.data.toList)
    | .nil => pure "error"
    | v => pure v.text
  throw (.raised text)

/-- The number of bytes of a string. -/
def stringLength (args : Arguments) : ActorM Value := do
  let r ← args.object .string 0
  return ofNat (← readHeap (·.stringLength r))

/-- Appends the bytes of `count` arguments, from one on. -/
def appendStrings (args : Arguments) (bytes : ByteArray) (i : Nat) :
    (count : Nat) → ActorM ByteArray
  | 0 => return bytes
  | count + 1 => do
    let r ← args.object .string i
    let more ← readHeap (·.stringBytes r)
    appendStrings args (bytes ++ more) (i + 1) count

/-- All arguments, which must be strings, as one. -/
def stringConcat (args : Arguments) : ActorM Value := do
  ActorM.newString (← appendStrings args ByteArray.empty 0 args.count)

/-- Whether two values are equal. -/
def stringEqual (args : Arguments) : ActorM Value := do
  args.atLeast 2
  let v ← args.get 0
  let w ← args.get 1
  return .boolean (← readHeap (·.equal v w))

/-- A tuple of nils of a given length. A length whose bytes no number of 64 bits counts is taken for
the greatest one whose bytes it does: no heap has room for either. -/
def tupleNew (args : Arguments) : ActorM Value := do
  ActorM.newTuple (min (← args.elementCount 0) Heap.maxTupleLength)

/-- An element of a tuple. -/
def tupleGet (args : Arguments) : ActorM Value := do
  let r ← args.object .tuple 0
  let index ← args.integer 1
  readHeap (·.tupleGet r index)

/-- Replaces an element of a tuple. -/
def tupleSet (args : Arguments) : ActorM Value := do
  let r ← args.object .tuple 0
  let index ← args.integer 1
  onHeap (HeapM.tupleSet r index (← args.get 2))
  return .nil

/-- The number of elements of a tuple. -/
def tupleLength (args : Arguments) : ActorM Value := do
  let r ← args.object .tuple 0
  return ofNat (← readHeap (·.tupleLength r))

/-- An array without elements. -/
def arrayNew : ActorM Value :=
  return .object .array (← ActorM.alloc (.object .array) Heap.containerSize)

/-- Gives the array in the first argument a greater store. -/
def growArray (args : Arguments) : ActorM Unit := do
  let r ← args.object .array 0
  let capacity ← readHeap (·.arrayCapacity r)
  let store ← ActorM.newTupleRef (grownCapacity capacity)
  let r ← args.object .array 0
  match ← readHeap (·.arrayStore r) with
  | some old =>
    let length ← readHeap (·.arrayLength r)
    onHeap (HeapM.copySlots old store 0 (indexOfLength length).toNat)
  | none => pure ()
  onHeap (HeapM.setArrayStore r store)

/-- Appends an element to an array and answers its new length. -/
def arrayPush (args : Arguments) : ActorM Value := do
  args.atLeast 2
  let r ← args.object .array 0
  if (← readHeap (·.arrayCapacity r)) ≤ (← readHeap (·.arrayLength r)) then
    growArray args
  let r ← args.object .array 0
  onHeap (HeapM.arrayPush r (← args.get 1))
  return ofNat (← readHeap (·.arrayLength r))

/-- An element of an array. -/
def arrayGet (args : Arguments) : ActorM Value := do
  let r ← args.object .array 0
  let index ← args.integer 1
  readHeap (·.arrayGet r index)

/-- Replaces an element of an array. -/
def arraySet (args : Arguments) : ActorM Value := do
  let r ← args.object .array 0
  let index ← args.integer 1
  onHeap (HeapM.arraySet r index (← args.get 2))
  return .nil

/-- The number of elements of an array. -/
def arrayLength (args : Arguments) : ActorM Value := do
  let r ← args.object .array 0
  return ofNat (← readHeap (·.arrayLength r))

/-- A table without entries. -/
def tableNew : ActorM Value :=
  return .object .table (← ActorM.alloc (.object .table) Heap.containerSize)

/-- The value of a key, or nil. -/
def tableGet (args : Arguments) : ActorM Value := do
  let r ← args.object .table 0
  let key ← args.get 1
  readHeap (·.tableGet r key)

/-- Sets the value of a key. A table without room for a new entry gets a greater store. -/
def tableSet (args : Arguments) : ActorM Value := do
  args.atLeast 3
  let r ← args.object .table 0
  if ← onHeap (HeapM.tableTrySet r (← args.get 1) (← args.get 2)) then
    return .nil
  let capacity ← readHeap (·.tableCapacity r)
  let store ← ActorM.newTupleRef (grownCapacity capacity * 2)
  let r ← args.object .table 0
  let key ← args.get 1
  let v ← args.get 2
  onHeap (HeapM.setTableStore r store)
  let _ ← onHeap (HeapM.tableTrySet r key v)
  return .nil

/-- The number of entries of a table. -/
def tableLength (args : Arguments) : ActorM Value := do
  let r ← args.object .table 0
  return ofNat (← readHeap (·.tableLength r))

variable {κ : Type} [Kernel κ]

/-- Starts a process that calls the first argument with the others. -/
def spawn (args : Arguments) : Exec κ Value := do
  args.atLeast 1
  let callee ← args.get 0
  let rest ← args.rest 1
  return .pid (← Exec.onKernel (Kernel.spawn callee rest))

/-- Asks a process to end. Asking oneself ends at once. -/
def kill (args : Arguments) : Exec κ Answer := do
  let target ← args.pid 0
  if target = (← Exec.self) then
    return .exit
  Exec.onKernel fun _ => Kernel.kill target
  return .value .nil

end Native

/-- What an operation of the library does. -/
def Operation.run {κ : Type} [Kernel κ] (op : Operation) (args : Arguments) : Exec κ Answer :=
  match op with
  | .selfPid => return .value (.pid (← Exec.self))
  | .spawn => return .value (← Native.spawn args)
  | .giveTurn => return .giveTurn
  | .exit => return .exit
  | .raise => return .value (← Native.raise args)
  | .kill => Native.kill args
  | .stringLength => return .value (← Native.stringLength args)
  | .stringConcat => return .value (← Native.stringConcat args)
  | .stringEqual => return .value (← Native.stringEqual args)
  | .tupleNew => return .value (← Native.tupleNew args)
  | .tupleGet => return .value (← Native.tupleGet args)
  | .tupleSet => return .value (← Native.tupleSet args)
  | .tupleLength => return .value (← Native.tupleLength args)
  | .arrayNew => return .value (← Native.arrayNew)
  | .arrayPush => return .value (← Native.arrayPush args)
  | .arrayGet => return .value (← Native.arrayGet args)
  | .arraySet => return .value (← Native.arraySet args)
  | .arrayLength => return .value (← Native.arrayLength args)
  | .tableNew => return .value (← Native.tableNew)
  | .tableGet => return .value (← Native.tableGet args)
  | .tableSet => return .value (← Native.tableSet args)
  | .tableLength => return .value (← Native.tableLength args)

end ActorMachine
