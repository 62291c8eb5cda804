import ActorMachine.Machine.Step

/-!
# Running an actor

`advance` is the next thing that an actor does: it makes its first call, takes up a receive that
was blocked, or executes an instruction. `run` goes on until the actor pauses or a fault finds no
protected call to report to. A program need not ever pause, so `run` is given a bound on the
number of steps; a run that ends within a bound ends in the same way within every greater one
(`run_add`).
-/

namespace ActorMachine

namespace Exec

variable {κ : Type} [Kernel κ]

/-- Ends a receive that was blocked: with the next message if there is one, else with its jump. -/
def resumeReceive (l : Loader) (displacement : Int) : Exec κ Unit := do
  match ← ActorM.peekMessage with
  | some message => ActorM.push message
  | none =>
    match (← actor).frames.back? with
    | none => throw .stackUnderflow
    | some frame =>
      let p ← ofResult (l.prototype frame.func)
      ActorM.jump p.code.size displacement

/-- Makes the first call, if it has not been made. -/
def takeEntry : ActorM (Option Nat) := do
  let entry := (← get).entry
  modify fun a => { a with entry := none }
  return entry

/-- Takes up the receive that is blocked, if there is one. -/
def takePendingReceive : ActorM (Option Int) := do
  let pending := (← get).pendingReceive
  modify fun a => { a with pendingReceive := none }
  return pending

/-- What an actor does next. -/
def advance (l : Loader) : Exec κ Signal := do
  match ← takeEntry with
  | some argCount => invoke l argCount
  | none =>
    match ← takePendingReceive with
    | some displacement =>
      resumeReceive l displacement
      return .proceed
    | none => step l

end Exec

/-- How a run ends: the actor pauses, or panics by a fault that no protected call could take. -/
abbrev Outcome := Except Fault Pause

namespace Session

variable {κ : Type} [Kernel κ]

/-- What the next step of a run comes to: the end of the run, or a state to go on from. -/
def next (l : Loader) (s : Session κ) : (Outcome × Session κ) ⊕ Session κ :=
  match Exec.advance l s with
  | .ok .proceed s => .inr s
  | .ok (.pause p) s => .inl (.ok p, s)
  | .error fault s =>
    let kernel := s.kernel
    match s.actor.recover fault with
    | (true, actor) => .inr { actor, kernel }
    | (false, actor) => .inl (.error fault, { actor, kernel })

/-- Runs an actor until it pauses or panics; `none` if that takes more than `bound` steps. -/
def run (l : Loader) (s : Session κ) : (bound : Nat) → Option (Outcome × Session κ)
  | 0 => none
  | bound + 1 =>
    match s.next l with
    | .inl finished => some finished
    | .inr s => s.run l bound

/-- A greater bound does not change a run that ends. -/
theorem run_add {l : Loader} {s : Session κ} {bound : Nat} {result : Outcome × Session κ}
    (ends : s.run l bound = some result) (more : Nat) : s.run l (bound + more) = some result := by
  induction bound generalizing s with
  | zero => cases ends
  | succ bound ih =>
    rw [Nat.add_right_comm, run]
    rw [run] at ends
    split at ends
    · exact ends
    · exact ih ends

end Session

end ActorMachine
