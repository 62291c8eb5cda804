import ActorMachine.Proofs.Outcome

/-!
# What an actor does next

`Exec.course` tells apart the things that an actor can do next: it makes its first call, takes up a
receive that was blocked, executes an operation, or comes to the end of its code. What it does is an
operation in all cases but the first and the last (`Actor.operation?`). If it is a call, it may come
to an operation of the library (`Actor.native?`). The lemmas `Exec.step_of_*` say what a step is, by
what is found at the instruction pointer.
-/

namespace ActorMachine

/-- The operation that an actor does next: the receive in which it is blocked, or that of its next
instruction. -/
def Actor.operation? (l : Loader) (a : Actor) : Option Opcode :=
  if a.entry.isSome then none
  else if a.pendingReceive.isSome then some .rcv
  else
    a.frames.back?.bind fun frame =>
      (l.prototype frame.func).toOption.bind fun p =>
        p.code[frame.ip]?.bind Instruction.opcode?

/-- The number of arguments of the call that an actor makes next, if it makes one. -/
def Actor.argCount? (l : Loader) (a : Actor) : Option Nat :=
  if a.entry.isSome then a.entry
  else if a.pendingReceive.isSome then none
  else
    a.frames.back?.bind fun frame =>
      (l.prototype frame.func).toOption.bind fun p =>
        p.code[frame.ip]?.bind fun instruction =>
          if instruction.opcode? = some .ivk ∧ 0 ≤ instruction.payload then some
            instruction.payload.toNat
          else none

theorem Actor.argCount?_eq_none {l : Loader} {a : Actor} {op : Opcode}
    (operation : a.operation? l = some op) (uncalled : op ≠ .ivk) : a.argCount? l = none := by
  unfold operation? at operation
  unfold argCount?
  split at operation
  · cases operation
  · rename_i hentry
    rw [if_neg hentry]
    split at operation
    · rename_i hpending
      rw [if_pos hpending]
    · rename_i hpending
      rw [if_neg hpending]
      obtain ⟨frame, hframe, operation⟩ := Option.bind_eq_some_iff.mp operation
      obtain ⟨p, hp, operation⟩ := Option.bind_eq_some_iff.mp operation
      obtain ⟨instruction, hcode, operation⟩ := Option.bind_eq_some_iff.mp operation
      rw [hframe, Option.bind_some, hp, Option.bind_some, hcode, Option.bind_some, operation]
      exact if_neg fun h => uncalled (Option.some.inj h.1)

/-- What the library has under a value, if it is a native. -/
def Loader.builtin? (l : Loader) : Value → Option Builtin
  | .native id => (l.natives.get? id.toNat).map (·.builtin)
  | _ => none

/-- The operation of the library that a call with so many arguments comes to, if it comes to one:
the callee, or what a protected call calls. The values are those on the stack, the callee first. -/
def Loader.comesTo? (l : Loader) : (argCount : Nat) → (values : List Value) → Option Operation
  | _, [] => none
  | argCount, callee :: values =>
    match l.builtin? callee, argCount with
    | some (.operation op), _ => some op
    | some .protectedCall, argCount + 1 => l.comesTo? argCount values
    | _, _ => none

theorem Loader.comesTo?_of_operation {l : Loader} {callee : Value} {op : Operation}
    (h : l.builtin? callee = some (.operation op)) (argCount : Nat) (values : List Value) :
    l.comesTo? argCount (callee :: values) = some op := by
  cases argCount <;> simp [comesTo?, h]

theorem Loader.comesTo?_of_protectedCall {l : Loader} {callee : Value}
    (h : l.builtin? callee = some .protectedCall) (argCount : Nat) (values : List Value) :
    l.comesTo? (argCount + 1) (callee :: values) = l.comesTo? argCount values := by
  simp [comesTo?, h]

/-- The operation of the library that an actor carries out next, if it makes a call that comes to
one. -/
def Actor.native? (l : Loader) (a : Actor) : Option Operation :=
  (a.argCount? l).bind fun argCount => l.comesTo? argCount a.stack.toList.reverse

namespace Exec

variable {κ : Type} [Kernel κ]

/-! ## Instructions -/

section

variable {l : Loader} {s : Session κ} {frame : Frame} {p : LinkedPrototype}
    {instruction : Instruction}

omit [Kernel κ] in
theorem actor_eq_ok (s : Session κ) : (actor : Exec κ Actor) s = .ok s.actor s :=
  rfl

omit [Kernel κ] in
theorem ofResult_eq_ok {result : Except Fault α} {x : α} (h : result = .ok x) (s : Session κ) :
    (ofResult result : Exec κ α) s = .ok x s := by
  rw [h]
  rfl

theorem step_of_done (back : s.actor.frames.back? = none) : step l s = .ok (.pause .done) s := by
  unfold step
  rw [bind_of_ok (actor_eq_ok s), back]
  rfl

theorem step_of_unknown_function {e : Fault} (back : s.actor.frames.back? = some frame)
    (prototype : l.prototype frame.func = .error e) : step l s = .error e s := by
  unfold step
  rw [bind_of_ok (actor_eq_ok s), back]
  dsimp only
  rw [prototype]
  rfl

theorem step_of_end (back : s.actor.frames.back? = some frame)
    (prototype : l.prototype frame.func = .ok p)
    (code : p.code[frame.ip]? = none) : step l s = onActor ActorM.returnFromCall s := by
  unfold step
  rw [bind_of_ok (actor_eq_ok s), back]
  dsimp only
  rw [bind_of_ok (ofResult_eq_ok prototype s), code]
  rfl

theorem step_of_unknown_opcode (back : s.actor.frames.back? = some frame)
    (prototype : l.prototype frame.func = .ok p) (code : p.code[frame.ip]? = some instruction)
    (opcode : instruction.opcode? = none) :
    step l s = .error (.invalidOpcode instruction.opcodeByte)
      ⟨{ s.actor with frames := s.actor.frames.modify (s.actor.frames.size - 1) fun frame =>
        { frame with ip := frame.ip + 1 } }, s.kernel⟩ := by
  unfold step
  rw [bind_of_ok (actor_eq_ok s), back]
  dsimp only
  rw [bind_of_ok (ofResult_eq_ok prototype s), code]
  dsimp only
  rw [opcode]
  rfl

/-- An instruction is executed when the call has already been set to go on behind it. -/
theorem step_of_opcode {op : Opcode} (back : s.actor.frames.back? = some frame)
    (prototype : l.prototype frame.func = .ok p) (code : p.code[frame.ip]? = some instruction)
    (opcode : instruction.opcode? = some op) :
    step l s = execute l frame.func p op instruction.payload
      ⟨{ s.actor with frames := s.actor.frames.modify (s.actor.frames.size - 1) fun frame =>
        { frame with ip := frame.ip + 1 } }, s.kernel⟩ := by
  unfold step
  rw [bind_of_ok (actor_eq_ok s), back]
  dsimp only
  rw [bind_of_ok (ofResult_eq_ok prototype s), code]
  dsimp only
  rw [opcode]
  rfl

end

/-- What an actor does next, and what is known when it does it. -/
inductive Course (l : Loader) (s : Session κ) : Prop
  | enters (argCount : Nat) (entry : s.actor.entry = some argCount)
    (operation : s.actor.operation? l = none)
    (run : advance l s = invoke l argCount ⟨{ s.actor with entry := none }, s.kernel⟩)
    (call : s.actor.argCount? l = some argCount)
  | resumes (displacement : Int) (entry : s.actor.entry = none)
    (pending : s.actor.pendingReceive = some displacement)
    (operation : s.actor.operation? l = some .rcv)
    (run : advance l s = (do resumeReceive l displacement; return Signal.proceed : Exec κ Signal)
      ⟨{ s.actor with pendingReceive := none }, s.kernel⟩)
  | executes (frame : Frame) (p : LinkedPrototype) (instruction : Instruction) (op : Opcode)
    (entry : s.actor.entry = none) (pending : s.actor.pendingReceive = none)
    (prototype : l.prototype frame.func = .ok p) (operation : s.actor.operation? l = some op)
    (run : advance l s = execute l frame.func p op instruction.payload
      ⟨{ s.actor with frames := s.actor.frames.modify (s.actor.frames.size - 1) fun frame =>
        { frame with ip := frame.ip + 1 } }, s.kernel⟩)
    (call : op = .ivk → 0 ≤ instruction.payload →
      s.actor.argCount? l = some instruction.payload.toNat)
  | returns (entry : s.actor.entry = none) (pending : s.actor.pendingReceive = none)
    (operation : s.actor.operation? l = none) (run : advance l s = onActor ActorM.returnFromCall s)
  | stops (entry : s.actor.entry = none) (pending : s.actor.pendingReceive = none)
    (operation : s.actor.operation? l = none) (run : advance l s = .ok (.pause .done) s)
  | fails (fault : Fault) (frames : Array Frame) (entry : s.actor.entry = none)
    (pending : s.actor.pendingReceive = none) (operation : s.actor.operation? l = none)
    (run : advance l s = .error fault ⟨{ s.actor with frames }, s.kernel⟩)
    (origin : (∃ frame, s.actor.frames.back? = some frame ∧ l.prototype frame.func = .error fault) ∨
      ∃ byte, fault = .invalidOpcode byte)

theorem course (l : Loader) (s : Session κ) : Course l s := by
  obtain ⟨⟨heap, stack, frames, catches, mailbox, entry, pending, limits⟩, kernel⟩ := s
  cases entry with
  | some argCount => exact .enters argCount rfl rfl rfl rfl
  | none =>
    cases pending with
    | some displacement => exact .resumes displacement rfl rfl rfl rfl
    | none =>
      -- The actor looks at the instruction of its innermost frame, and may fail to find it at each
      -- step.
      let a : Actor := ⟨heap, stack, frames, catches, mailbox, none, none, limits⟩
      have hadvance : advance l ⟨a, kernel⟩ = step l ⟨a, kernel⟩ := rfl
      have hoperation : a.operation? l = frames.back?.bind fun frame =>
        (l.prototype frame.func).toOption.bind fun p =>
          p.code[frame.ip]?.bind Instruction.opcode? := rfl
      have hcall : a.argCount? l = frames.back?.bind fun frame =>
        (l.prototype frame.func).toOption.bind fun p =>
          p.code[frame.ip]?.bind fun instruction =>
            if instruction.opcode? = some .ivk ∧ 0 ≤ instruction.payload then
              some instruction.payload.toNat else none := rfl
      cases hback : frames.back? with
      | none =>
        rw [hback] at hoperation
        exact .stops rfl rfl hoperation (hadvance.trans (step_of_done hback))
      | some frame =>
        rw [hback, Option.bind_some] at hoperation hcall
        cases hp : l.prototype frame.func with
        | error e =>
          rw [hp] at hoperation
          exact .fails e frames rfl rfl hoperation
            (hadvance.trans (step_of_unknown_function hback hp))
            (.inl ⟨frame, hback, hp⟩)
        | ok p =>
          rw [hp] at hoperation hcall
          change a.operation? l = p.code[frame.ip]?.bind Instruction.opcode? at hoperation
          change a.argCount? l = p.code[frame.ip]?.bind _ at hcall
          cases hcode : p.code[frame.ip]? with
          | none =>
            rw [hcode] at hoperation
            exact .returns rfl rfl hoperation (hadvance.trans (step_of_end hback hp hcode))
          | some instruction =>
            rw [hcode] at hoperation hcall
            change a.operation? l = instruction.opcode? at hoperation
            change a.argCount? l = ite _ _ _ at hcall
            cases hop : instruction.opcode? with
            | none =>
              rw [hop] at hoperation
              exact .fails _ _ rfl rfl hoperation
                (hadvance.trans (step_of_unknown_opcode hback hp hcode hop))
                (.inr ⟨_, rfl⟩)
            | some op =>
              rw [hop] at hoperation
              refine .executes frame p instruction op rfl rfl hp hoperation
                (hadvance.trans (step_of_opcode hback hp hcode hop)) fun hivk hpayload => ?_
              rw [hcall, if_pos ⟨hop.trans (congrArg some hivk), hpayload⟩]

end Exec

end ActorMachine
