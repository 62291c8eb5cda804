import ActorMachine.Actor.Delivery
import ActorMachine.Loader
import ActorMachine.Machine.Natives

/-!
# Instructions

`invoke` makes a call, and `step` executes one instruction of the innermost call. An actor whose
innermost call has run past its last instruction returns from it.
-/

namespace ActorMachine

namespace Exec

variable {κ : Type} [Kernel κ]

/-- A result that can only fail by a fault. -/
def ofResult (result : Except Fault α) : Exec κ α :=
  match result with
  | .ok x => return x
  | .error e => throw e

/-- Replaces the arguments of a native call, which begin at the given height, by its answer. -/
def finishNative (height : Nat) (answer : Answer) : Exec κ Signal := do
  ActorM.leaveResult height answer.result
  match answer with
  | .giveTurn => return .pause .yield
  | .exit => return .pause .exit
  | .value _ => ActorM.afterReturn

/-- Takes the callee from the stack and calls it with the `argCount` values below, which begin at
some height. A native answers at once; `protect` is what becomes of a protected call. -/
def call (l : Loader) (argCount : Nat) (protect : (height : Nat) → Exec κ Signal) :
    Exec κ Signal := do
  let callee ← ActorM.pop
  let a ← actor
  if a.stack.size - a.basePointer < argCount then
    throw .stackUnderflow
  match callee with
  | .function f =>
    let _ ← ofResult (l.prototype f)
    ActorM.pushFrame f argCount
    return .proceed
  | .native id =>
    match l.natives.get? id.toNat with
    | none => throw (.unknownNative id)
    | some entry =>
      let height := a.stack.size - argCount
      match entry.builtin with
      | .operation op => finishNative height (← op.run (.below a.stack.size argCount))
      | .protectedCall => protect height
  | callee => throw (.notCallable callee.kind)

/-- Makes the call that is on the stack. A protected call becomes a call of its first argument. -/
def invoke (l : Loader) : (argCount : Nat) → Exec κ Signal
  | 0 => call l 0 fun _ => throw (.arity 1 0)
  | argCount + 1 => call l (argCount + 1) fun height => do
    ActorM.pushCatchPoint height
    invoke l argCount

/-- Sends the value on top of the stack to the pid below it. -/
def send : Exec κ Unit := do
  let message ← ActorM.pop
  match ← ActorM.pop with
  | .pid target =>
    if target = (← self) then
      ActorM.deliverLocal target message
    else
      onKernel (Kernel.send target message)
  | target => throw (.mismatch .pid target)

/-- An operand that must be a number of values. -/
def countOperand (payload : Int) : Exec κ Nat :=
  if payload < 0 then throw (.invalidIndex .count payload) else return payload.toNat

/-- The element of a list at an operand. -/
def element (kind : IndexKind) (items : Array α) (index : Int) : Exec κ α :=
  match (if index < 0 then none else items[index.toNat]?) with
  | some x => return x
  | none => throw (.invalidIndex kind index)

/-- The value of a constant; a string is made anew each time. -/
def constantValue : Constant → ActorM Value
  | .integer n => return .integer n
  | .real x => return .real x
  | .text s => ActorM.newString s.toUTF8

/-- Executes an operation of the function `f`, whose prototype is `p`. -/
def execute (l : Loader) (f : FuncRef) (p : LinkedPrototype) (op : Opcode) (payload : Int) :
    Exec κ Signal := do
  match op with
  | .nop => return .proceed
  | .pop => ActorM.popMany (← countOperand payload)
  | .ldk => ActorM.push (← constantValue (← element .constant p.constants payload))
  | .nil => ActorM.push .nil
  | .ldb => ActorM.push (.boolean (payload != 0))
  | .lsi => ActorM.push (.integer (Int64.ofInt payload))
  | .llv => ActorM.push ((← actor).loadLocal payload)
  | .slv => ActorM.storeLocal payload (← ActorM.pop)
  | .imp => ActorM.push (← element .linkage p.imports payload)
  | .cls =>
    let position ← element .nested p.nested payload
    ActorM.push (.function { f with proto := UInt32.ofNat position })
  | .jmp => ActorM.jump p.code.size payload
  | .jin =>
    if (← ActorM.pop).isFalsy then
      ActorM.jump p.code.size payload
  | .ivk => return ← invoke l (← countOperand payload)
  | .ret => return ← ActorM.returnFromCall
  | .snd => send
  | .rcv => return ← ActorM.receive p.code.size payload
  | .rmv => ActorM.removeMessage
  | .rwd => ActorM.rewindMailbox
  return .proceed

/-- Executes one instruction of the innermost call. Without a call there is nothing left to do. -/
def step (l : Loader) : Exec κ Signal := do
  match (← actor).frames.back? with
  | none => return .pause .done
  | some frame =>
    let p ← ofResult (l.prototype frame.func)
    match p.code[frame.ip]? with
    | none => ActorM.returnFromCall
    | some instruction =>
      ActorM.modifyFrame fun frame => { frame with ip := frame.ip + 1 }
      match instruction.opcode? with
      | none => throw (.invalidOpcode instruction.opcodeByte)
      | some op => execute l frame.func p op instruction.payload

end Exec

end ActorMachine
