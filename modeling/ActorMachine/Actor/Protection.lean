import ActorMachine.Actor.Objects

/-!
# Protected calls

A protected call leaves one pair where its arguments were: zero and the result, or the code and
the message of the fault that ended it. The call is over when a return leaves as many frames as
there were outside of it and one value more than the stack had below its arguments. Protected
calls that call one another directly are over together, and the innermost is settled first.
-/

namespace ActorMachine

namespace ActorM

/-- Begins a protected call whose outcome goes to the given height of the stack. -/
def pushCatchPoint (stackHeight : Nat) : ActorM Unit :=
  modify fun a => { a with catches := ⟨a.frames.size, stackHeight⟩ :: a.catches }

/-- Wraps the result on top of the stack for each of the given catch points that it completes. -/
def settleAll : List CatchPoint → ActorM Unit
  | [] => return
  | point :: outer => do
    let a ← get
    if point.frameDepth = a.frames.size ∧ point.stackHeight + 1 = a.stack.size then
      modify fun a => { a with catches := outer }
      pushRaw (← pairWithTop (.integer 0))
      settleAll outer

/-- Settles what a return has completed. Catch points of calls that are gone are dropped first. -/
def settle : ActorM Unit := do
  modify fun a => { a with
    catches := a.catches.dropWhile fun point => a.frames.size < point.frameDepth }
  settleAll (← get).catches

/-- Leaves the code and the message of a fault at a catch point that has just been removed. -/
def reportAt (point : CatchPoint) (fault : Fault) : ActorM Unit := do
  modify fun a => { a with frames := a.frames.shrink point.frameDepth, pendingReceive := none }
  truncate point.stackHeight
  pushRaw (← newString fault.message.toUTF8)
  pushRaw (← pairWithTop (.integer fault.code))

end ActorM

namespace Actor

/-- Reports a fault at the first of the given catch points at which the report can be made, and says
whether there was one. -/
def recoverAt (a : Actor) (fault : Fault) : List CatchPoint → Bool × Actor
  | [] => (false, a)
  | point :: outer =>
    match ActorM.reportAt point fault { a with catches := outer } with
    | .ok _ a => (true, a)
    | .error _ a => recoverAt a fault outer

/-- Unwinds to the innermost protected call that can report a fault, and says whether there was
one. -/
def recover (a : Actor) (fault : Fault) : Bool × Actor :=
  a.recoverAt fault a.catches

end Actor

end ActorMachine
