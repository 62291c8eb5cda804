import ActorMachine.Config
import ActorMachine.Fault
import ActorMachine.Heap.Collection
import ActorMachine.Mailbox

/-!
# Actors

An actor is a process on its own: a heap, a stack of values, the calls under way, the protected
calls among them, and a mailbox. Stack and mailbox are all that holds values between two
instructions; calls and protected calls hold positions of the stack. What an actor does keeps its
effects even when it fails (`ActorM`).
-/

namespace ActorMachine

/-- A call under way. -/
structure Frame where
  func : FuncRef
  /-- The number of the next instruction. -/
  ip : Nat
  /-- The stack position of the first local; argument `k` is at `base - 1 - k`. -/
  base : Nat
  argCount : Nat
deriving Repr, DecidableEq, Inhabited

/-- A protected call under way. -/
structure CatchPoint where
  /-- The number of frames outside of the protected call. -/
  frameDepth : Nat
  /-- The height of the stack below the arguments, where the outcome goes. -/
  stackHeight : Nat
deriving Repr, DecidableEq, Inhabited

/-- A process on its own. -/
structure Actor where
  heap : Heap
  stack : Array Value
  /-- The calls under way, the innermost last. -/
  frames : Array Frame
  /-- The protected calls under way, the innermost first. -/
  catches : List CatchPoint
  mailbox : Mailbox
  /-- The number of arguments of the first call, until it is made. -/
  entry : Option Nat
  /-- The jump of a receive that is blocked. -/
  pendingReceive : Option Int
  limits : ActorLimits
deriving Inhabited

/-- What an actor does. Its effects stand even when it fails. -/
abbrev ActorM := EStateM Fault Actor

namespace Actor

/-- An actor that has done nothing yet. -/
def create (config : ActorConfig) : Actor where
  heap := Heap.create config.initialHeap config.maxHeap
  stack := #[]
  frames := #[]
  catches := []
  mailbox := Mailbox.empty
  entry := none
  pendingReceive := none
  limits := config.toActorLimits

variable (a : Actor)

/-- The stack position of the first local of the innermost call. -/
def basePointer : Nat :=
  match a.frames.back? with
  | some frame => frame.base
  | none => 0

/-- The number of arguments of the innermost call. -/
def argCount : Nat :=
  match a.frames.back? with
  | some frame => frame.argCount
  | none => 0

/-- The value on top of the stack. -/
def top? : Option Value :=
  a.stack.back?

/-- The stack position of a local, counted from the base of the innermost call: from its last
argument up to the top of the stack. -/
def localPosition? (index : Int) : Option Nat :=
  let position := a.basePointer + index
  let low := a.basePointer - a.argCount
  if (low : Int) ≤ position ∧ position < a.stack.size then some position.toNat else none

/-- The local at an index; nil where the innermost call has none. -/
def loadLocal (index : Int) : Value :=
  match a.localPosition? index with
  | some position => a.stack.getD position .nil
  | none => .nil

/-- The values that keep objects alive: the stack, then the mailbox. -/
def roots : Array Value :=
  a.stack ++ a.mailbox.messages

/-- The actor with its heap and its roots replaced. -/
def withRooted (s : Rooted) : Actor :=
  { a with
    heap := s.heap
    stack := s.roots.extract 0 a.stack.size
    mailbox := { a.mailbox with messages := s.roots.extract a.stack.size } }

end Actor

namespace ActorM

/-- Puts a value on the stack without regard to its limit. -/
def pushRaw (v : Value) : ActorM Unit :=
  modify fun a => { a with stack := a.stack.push v }

/-- Puts a value on the stack. -/
def push (v : Value) : ActorM Unit := do
  if (← get).limits.maxStack ≤ (← get).stack.size then
    throw .stackOverflow
  pushRaw v

/-- Takes the top value from the stack. The arguments of the innermost call stay. -/
def pop : ActorM Value := do
  let a ← get
  if a.stack.size ≤ a.basePointer then
    throw .stackUnderflow
  match a.top? with
  | none => throw .stackUnderflow
  | some v =>
    modify fun a => { a with stack := a.stack.pop }
    return v

/-- Cuts the stack to a height. -/
def truncate (height : Nat) : ActorM Unit :=
  modify fun a => { a with stack := a.stack.shrink height }

/-- Takes `count` values from the stack. The arguments of the innermost call stay. -/
def popMany (count : Nat) : ActorM Unit := do
  let a ← get
  if a.stack.size - a.basePointer < count then
    throw .stackUnderflow
  truncate (a.stack.size - count)

/-- Replaces the local at an index, which must exist. -/
def storeLocal (index : Int) (v : Value) : ActorM Unit := do
  match (← get).localPosition? index with
  | some position => modify fun a => { a with stack := a.stack.setIfInBounds position v }
  | none => throw (.invalidIndex .stackSlot index)

/-- Begins a call whose arguments are on top of the stack. -/
def pushFrame (func : FuncRef) (argCount : Nat) : ActorM Unit := do
  if (← get).limits.maxFrames ≤ (← get).frames.size then
    throw .stackOverflow
  modify fun a => { a with
    frames := a.frames.push { func, ip := 0, base := a.stack.size, argCount } }

/-- Changes the innermost call. -/
def modifyFrame (f : Frame → Frame) : ActorM Unit :=
  modify fun a => { a with frames := a.frames.modify (a.frames.size - 1) f }

/-- A result that depends on the heap and leaves it as it is. -/
def readHeap (f : Heap → Except HeapError α) : ActorM α := fun a =>
  match f a.heap with
  | .ok x => .ok x a
  | .error e => .error (.heap e) a

/-- A change of the heap that moves no object. -/
def onHeap (m : HeapM α) : ActorM α := fun a =>
  let heap := a.heap
  let a := { a with heap := default }
  match m heap with
  | .ok x heap => .ok x { a with heap }
  | .error e heap => .error (.heap e) { a with heap }

/-- Collects the heap and makes room for `request` bytes. -/
def collect (request : Nat) : ActorM Unit := fun a =>
  match RootedM.collect request { heap := a.heap, roots := a.roots } with
  | .ok _ s => .ok () (a.withRooted s)
  | .error e s => .error (.heap e) (a.withRooted s)

/-- Makes sure that `bytes` more bytes can be allocated, and collects only if they could not. -/
def reserve (bytes : Nat) : ActorM Unit := do
  if (← get).heap.free < bytes then
    collect bytes

/-- Allocates an object, after a collection if it does not fit. -/
def alloc (kind : Kind) (size : Nat) : ActorM Ref := do
  reserve (allocSize size)
  onHeap (HeapM.tryAlloc kind size)

end ActorM

end ActorMachine
