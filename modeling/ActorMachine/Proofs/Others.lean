import ActorMachine.Proofs.Outcome

/-!
# What a running actor does to the others

A running actor reaches the rest of the system through its kernel only, so whatever deliveries,
starts and requests to end keep of the world is kept by every step of it (`Session.upholds_next`).
-/

namespace ActorMachine

/-- What holds of a world is kept by all that a running actor can ask of it, whether or not that
succeeds. -/
structure Kernel.Upholds {κ : Type} [Kernel κ] (P : κ → Prop) : Prop where
  send : ∀ {k : κ} (target : Pid) (message : Value) (source : Heap), P k →
    P (leaves (Kernel.send target message source) k)
  spawn : ∀ {k : κ} (callee : Value) (args : List Value) (source : Heap), P k →
    P (leaves (Kernel.spawn callee args source) k)
  kill : ∀ {k : κ} (target : Pid), P k → P (leaves (Kernel.kill target) k)

/-- The computation keeps what holds of the world. -/
def Exec.Upholds {κ : Type} (P : κ → Prop) (m : Exec κ α) : Prop :=
  ∀ s, P s.kernel → P (leaves m s).kernel

namespace Exec.Upholds

variable {κ : Type} {P : κ → Prop} {m : Exec κ α}

theorem ends (h : Upholds P m) {s : Session κ} (hs : P s.kernel) :
    Ends m s (fun _ s' => P s'.kernel) fun _ s' => P s'.kernel := by
  have h := h s hs
  unfold leaves at h
  refine .intro (fun a s' run => ?_) fun e s' run => ?_
  · rw [run] at h
    exact h
  · rw [run] at h
    exact h

theorem of_ends (h : ∀ s, P s.kernel → Ends m s (fun _ s' => P s'.kernel) fun _ s' => P s'.kernel) :
    Upholds P m :=
  fun s hs => (h s hs).leaves

theorem pure (x : α) : Upholds P (pure x : Exec κ α) := fun _ h => h

theorem throw (e : Fault) : Upholds P (throw e : Exec κ α) := fun _ h => h

/-- What follows a fault is not done. -/
theorem throw_bind (e : Fault) (f : α → Exec κ β) : Upholds P (MonadExcept.throw e >>= f) :=
  fun _ h => h

theorem get : Upholds P (get : Exec κ (Session κ)) := fun _ h => h

theorem bind {f : α → Exec κ β} (first : Upholds P m) (rest : ∀ x, Upholds P (f x)) :
    Upholds P (m >>= f) :=
  of_ends fun _ hs => .bind <| (first.ends hs).mono (fun x _ h => (rest x).ends h) fun _ _ h => h

theorem ite {p : Prop} [Decidable p] {n : Exec κ α} (pos : Upholds P m) (neg : Upholds P n) :
    Upholds P (if p then m else n) :=
  of_ends fun _ hs => .ite (fun _ => pos.ends hs) fun _ => neg.ends hs

/-- What concerns the actor alone leaves the world as it is. -/
theorem onActor (m : ActorM α) : Upholds P (onActor m : Exec κ α) :=
  of_ends fun _ hs => ends_onActor (.intro (fun _ _ _ => hs) fun _ _ _ => hs)

theorem onKernel {m : Heap → EStateM Fault κ α} (h : ∀ source k, P k → P (leaves (m source) k)) :
    Upholds P (onKernel m : Exec κ α) := by
  refine of_ends fun s hs => ends_onKernel (.intro (fun x k run => ?_) fun e k run => ?_)
  all_goals
    have h := h s.actor.heap s.kernel hs
    unfold leaves at h
    rw [run] at h
    exact h

theorem actor : Upholds P (actor : Exec κ Actor) := .bind .get fun _ => .pure _

theorem ofResult (result : Except Fault α) : Upholds P (ofResult result : Exec κ α) := by
  cases result with
  | ok x => exact .pure x
  | error e => exact .throw e

theorem element (kind : IndexKind) (items : Array α) (index : Int) :
    Upholds P (element kind items index : Exec κ α) := by
  unfold Exec.element
  split
  · exact .pure _
  · exact .throw _

theorem countOperand (payload : Int) : Upholds P (countOperand payload : Exec κ Nat) :=
  .ite (.throw _) (.pure _)

theorem self [Kernel κ] : Upholds P (self : Exec κ Pid) := .bind .get fun _ => .pure _

theorem finishNative (height : Nat) (answer : Answer) :
    Upholds P (finishNative height answer : Exec κ Signal) := by
  refine .bind (.onActor _) fun _ => ?_
  cases answer with
  | giveTurn => exact .pure _
  | exit => exact .pure _
  | value v => exact .onActor _

theorem resumeReceive (l : Loader) (displacement : Int) :
    Upholds P (resumeReceive l displacement : Exec κ Unit) := by
  refine .bind (.onActor _) fun message => ?_
  cases message with
  | some v => exact .onActor _
  | none =>
    refine .bind .actor fun a => ?_
    split
    · exact .throw _
    · exact .bind (.ofResult _) fun _ => .onActor _

end Exec.Upholds

section

variable {κ : Type} [Kernel κ] {P : κ → Prop} (upholds : Kernel.Upholds P) {l : Loader}

include upholds

theorem Native.upholds_spawn (args : Arguments) :
    Exec.Upholds P (Native.spawn args : Exec κ Value) :=
  .bind (.onActor _) fun _ => .bind (.onActor _) fun callee => .bind (.onActor _) fun rest =>
    .bind (.onKernel fun source _ => upholds.spawn callee rest source) fun _ => .pure _

theorem Native.upholds_kill (args : Arguments) :
    Exec.Upholds P (Native.kill args : Exec κ Answer) :=
  .bind (.onActor _) fun target => .bind .self fun _ => .ite (.pure _) <|
    .bind (.onKernel fun _ _ => upholds.kill target) fun _ => .pure _

theorem Operation.upholds_run (op : Operation) (args : Arguments) :
    Exec.Upholds P (op.run args : Exec κ Answer) := by
  have answer : ∀ m : ActorM Value,
      Exec.Upholds P (do return Answer.value (← Exec.onActor m) : Exec κ Answer) :=
    fun m => .bind (.onActor m) fun _ => .pure _
  cases op with
  | selfPid => exact .bind .self fun _ => .pure _
  | spawn => exact .bind (Native.upholds_spawn upholds args) fun _ => .pure _
  | kill => exact Native.upholds_kill upholds args
  | giveTurn => exact .pure _
  | exit => exact .pure _
  | raise | stringLength | stringConcat | stringEqual | tupleNew | tupleGet | tupleSet
  | tupleLength | arrayNew | arrayPush | arrayGet | arraySet | arrayLength | tableNew
  | tableGet | tableSet | tableLength => exact answer _

namespace Exec

theorem upholds_call {argCount : Nat} {protect : Nat → Exec κ Signal}
    (hprotect : ∀ height, Upholds P (protect height)) : Upholds P (call l argCount protect) := by
  refine .bind (.onActor _) fun callee => .bind .actor fun a => .ite (.throw_bind _ _) ?_
  cases callee with
  | function f => exact .bind (.ofResult _) fun _ => .bind (.onActor _) fun _ => .pure _
  | native id =>
    dsimp only
    cases l.natives.get? id.toNat with
    | none => exact .throw _
    | some entry =>
      dsimp only
      cases entry.builtin with
      | operation op =>
        show Upholds P (op.run _ >>= fun answer => Exec.finishNative _ answer)
        exact .bind (Operation.upholds_run upholds op _) fun _ => .finishNative _ _
      | protectedCall =>
        show Upholds P (protect _)
        exact hprotect _
  | _ => exact .throw _

theorem upholds_invoke (argCount : Nat) : Upholds P (invoke l argCount : Exec κ Signal) := by
  induction argCount with
  | zero => exact upholds_call upholds fun _ => .throw _
  | succ argCount ih => exact upholds_call upholds fun _ => .bind (.onActor _) fun _ => ih

theorem upholds_send : Upholds P (send : Exec κ Unit) := by
  refine .bind (.onActor _) fun message => .bind (.onActor _) fun target => ?_
  cases target with
  | pid target =>
    exact .bind .self fun _ => .ite (.onActor _)
      (.onKernel fun source _ => upholds.send target message source)
  | _ => exact .throw _

theorem upholds_execute (f : FuncRef) (p : LinkedPrototype) (op : Opcode) (payload : Int) :
    Upholds P (execute l f p op payload : Exec κ Signal) := by
  have go : ∀ {m : Exec κ Unit}, Upholds P m → Upholds P (do m; return Signal.proceed) :=
    fun h => .bind h fun _ => .pure _
  cases op with
  | nop => exact .pure _
  | pop => exact .bind (.countOperand _) fun _ => go (.onActor _)
  | ldk => exact .bind (.element _ _ _) fun _ => .bind (.onActor _) fun _ => go (.onActor _)
  | nil => exact go (.onActor _)
  | ldb => exact go (.onActor _)
  | lsi => exact go (.onActor _)
  | llv => exact .bind .actor fun _ => go (.onActor _)
  | slv => exact .bind (.onActor _) fun _ => go (.onActor _)
  | imp => exact .bind (.element _ _ _) fun _ => go (.onActor _)
  | cls => exact .bind (.element _ _ _) fun _ => go (.onActor _)
  | jmp => exact go (.onActor _)
  | jin => exact .bind (.onActor _) fun _ => .ite (go (.onActor _)) (.pure _)
  | ivk => exact .bind (.countOperand _) fun _ => upholds_invoke upholds _
  | ret => exact .onActor _
  | snd => exact go (upholds_send upholds)
  | rcv => exact .onActor _
  | rmv => exact go (.onActor _)
  | rwd => exact go (.onActor _)

theorem upholds_step : Upholds P (step l : Exec κ Signal) := by
  refine .bind .actor fun a => ?_
  split
  · exact .pure _
  · refine .bind (.ofResult _) fun p => ?_
    split
    · exact .onActor _
    · refine .bind (.onActor _) fun _ => ?_
      split
      · exact .throw _
      · exact upholds_execute upholds _ _ _ _

theorem upholds_advance : Upholds P (advance l : Exec κ Signal) := by
  refine .bind (.onActor _) fun entry => ?_
  cases entry with
  | some argCount => exact upholds_invoke upholds argCount
  | none =>
    refine .bind (.onActor _) fun pending => ?_
    cases pending with
    | some displacement => exact .bind (.resumeReceive l displacement) fun _ => .pure _
    | none => exact upholds_step upholds

end Exec

namespace Session

/-- What holds of the world holds after the next step, whether or not a run ends with it. -/
theorem upholds_next {s : Session κ} (h : P s.kernel) :
    Sum.elim (fun finished => P finished.2.kernel) (fun s' => P s'.kernel) (s.next l) := by
  exact next_of_ends ((Exec.upholds_advance (l := l) upholds).ends h)

end Session

end

end ActorMachine
