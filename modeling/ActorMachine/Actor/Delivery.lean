import ActorMachine.Actor.Objects
import ActorMachine.Heap.Copy
import ActorMachine.Heap.Reachable

/-!
# Values from elsewhere

Messages and the arguments of a first call come from other heaps and are copied. Room for the whole
copy is made first, so that the copy itself never collects.
-/

namespace ActorMachine.ActorM

/-- Refuses a message when the mailbox is full. -/
def checkMailbox (self : Pid) : ActorM Unit := do
  if (← get).limits.maxMailbox ≤ (← get).mailbox.size then
    throw (.mailboxFull self)

/-- Adds a message. -/
def pushMessage (v : Value) : ActorM Unit :=
  modify fun a => { a with mailbox := a.mailbox.push v }

/-- A result of another heap. -/
def ofHeap (result : Except HeapError α) : ActorM α :=
  match result with
  | .ok x => return x
  | .error e => throw (.heap e)

/-- Delivers a copy of a message that lives in another heap. -/
def deliver (self : Pid) (source : Heap) (message : Value) : ActorM Unit := do
  checkMailbox self
  if message.isCollectable then
    reserve (← ofHeap (source.measure message))
    pushMessage (← onHeap (HeapM.copy source message))
  else
    pushMessage message

/-- Delivers a message that lives in the actor's own heap and that nothing may hold any more. It is
brought to safety in a heap of its own before room is made for it. -/
def deliverLocal (self : Pid) (message : Value) : ActorM Unit := do
  if message.isCollectable then
    let own := (← get).heap
    let need ← ofHeap (own.measure message)
    match HeapM.copy own message (Heap.create need need) with
    | .ok message staging => deliver self staging message
    | .error e _ => throw (.heap e)
  else
    checkMailbox self
    pushMessage message

/-- Delivers a new string. -/
def deliverBytes (self : Pid) (bytes : ByteArray) : ActorM Unit := do
  checkMailbox self
  pushMessage (← newString bytes)

/-- The bytes that the copy of an argument takes up. Without a source heap, only inline values can
be arguments. -/
def measureArg (source : Option Heap) (v : Value) : Except Fault Nat :=
  match v.isCollectable, source with
  | false, _ => .ok 0
  | true, some source =>
    match source.measure v with
    | .ok need => .ok need
    | .error e => .error (.heap e)
  | true, none => .error (.mismatch .inlineValue v)

/-- The bytes that the copies of some arguments take up. -/
def measureArgs (source : Option Heap) : List Value → Except Fault Nat
  | [] => .ok 0
  | v :: args => do
    let need ← measureArg source v
    return need + (← measureArgs source args)

/-- Pushes copies of some values in turn. -/
def pushCopies (source : Option Heap) : List Value → ActorM Unit
  | [] => return
  | v :: values => do
    match source with
    | some source => push (← onHeap (HeapM.copy source v))
    | none => push v
    pushCopies source values

/-- Stacks the first call: copies of the arguments, the first one on top, and then the callee. The
call is made when the actor first runs. -/
def prepareEntry (callee : Value) (args : List Value) (source : Option Heap) : ActorM Unit := do
  unless callee.isCallable do
    throw (.notCallable callee.kind)
  let need ← match measureArgs source args with
    | .ok need => pure need
    | .error e => throw e
  reserve need
  pushCopies source args.reverse
  push callee
  modify fun a => { a with entry := some args.length }

end ActorMachine.ActorM
