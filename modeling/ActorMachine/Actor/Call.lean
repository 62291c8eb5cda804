import ActorMachine.Actor.Protection

/-!
# Jumps, returns and receives

The parts of the instructions that concern the actor alone. A return replaces the arguments of a
call by its result: the top of the stack, or nil if the call has left nothing above its base. A
receive replaces its timeout by the next message.
-/

namespace ActorMachine

/-- How an actor stops for the time being, or for good. -/
inductive Pause where
  /-- It gives up its turn. -/
  | yield
  /-- It waits for a message: for so many microseconds, or without end. -/
  | block (timeout : Option Nat)
  /-- It asked to end. -/
  | exit
  /-- Its first call has returned. -/
  | done
deriving Repr, DecidableEq, Inhabited

/-- What follows an instruction. -/
inductive Signal where
  | proceed
  | pause (p : Pause)
deriving Repr, DecidableEq, Inhabited

namespace ActorM

/-- What follows a return. -/
def afterReturn : ActorM Signal :=
  return if (← get).frames.isEmpty then .pause .done else .proceed

/-- Replaces the part of the stack above a height by one value, and settles what that completes. -/
def leaveResult (height : Nat) (v : Value) : ActorM Unit := do
  truncate height
  pushRaw v
  settle

/-- Returns from the innermost call. -/
def returnFromCall : ActorM Signal := do
  match (← get).frames.back? with
  | none => throw .stackUnderflow
  | some frame =>
    modify fun a => { a with frames := a.frames.pop }
    let a ← get
    let result := if frame.base < a.stack.size then a.top?.getD .nil else .nil
    leaveResult (frame.base - frame.argCount) result
    afterReturn

/-- Moves the innermost call by a displacement within code of a given length, the end included. -/
def jump (codeLength : Nat) (displacement : Int) : ActorM Unit := do
  match (← get).frames.back? with
  | none => throw .stackUnderflow
  | some frame =>
    let target : Int := frame.ip + displacement
    if target < 0 ∨ (codeLength : Int) < target then
      throw (.invalidJump target codeLength)
    modifyFrame fun frame => { frame with ip := target.toNat }

/-- The next message, if there is one. The cursor moves past it. -/
def peekMessage : ActorM (Option Value) := do
  match (← get).mailbox.peek? with
  | none => return none
  | some (v, mailbox) =>
    modify fun a => { a with mailbox }
    return some v

/-- Removes the message peeked last. -/
def removeMessage : ActorM Unit := do
  match (← get).mailbox.removePeeked? with
  | none => throw .nothingPeeked
  | some (_, mailbox) => modify fun a => { a with mailbox }

/-- Moves the mailbox cursor to the front. -/
def rewindMailbox : ActorM Unit :=
  modify fun a => { a with mailbox := a.mailbox.rewind }

/-- The microseconds of a timeout value; a negative number or nil waits without end. -/
def timeoutOf (v : Value) : ActorM Int :=
  match v with
  | .integer n => return n.toInt
  | .nil => return -1
  | v => throw (.mismatch .timeout v)

/-- Replaces the timeout on top of the stack by the next message. Without a message, a timeout of
zero jumps and any other blocks. -/
def receive (codeLength : Nat) (displacement : Int) : ActorM Signal := do
  let timeout ← pop
  match ← peekMessage with
  | some message =>
    push message
    return .proceed
  | none =>
    let timeout ← timeoutOf timeout
    if timeout = 0 then
      jump codeLength displacement
      return .proceed
    else
      modify fun a => { a with pendingReceive := some displacement }
      return .pause (.block (if 0 < timeout then some timeout.toNat else none))

end ActorM

end ActorMachine
