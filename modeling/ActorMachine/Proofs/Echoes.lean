import ActorMachine.Proofs.Instructions

/-!
# Actors in any world

What an actor does depends on its world only by the answers that the world gives, and one step asks
at most once. So a step in any world is a step in a world that gives the answer it has been told
(`Exec.echoed_advance`). Such a world cannot tell messages apart at all, and so what is known of
actors in worlds that cannot tell matched messages apart holds of one actor in any world
(`Exec.inStep_advance`, `Operation.inStep_run`).
-/

namespace ActorMachine

/-- A world that gives the answers it has been told. -/
structure Echo where
  self : Pid
  sent : Except Fault Unit
  spawned : Except Fault Pid
  killed : Except Fault Unit

namespace Echo

/-- The answer of a world that it does not change. -/
def answer (f : Echo → Except Fault α) : EStateM Fault Echo α := fun e =>
  match f e with
  | .ok x => .ok x e
  | .error fault => .error fault e

instance : Kernel Echo where
  self e := e.self
  send _ _ _ := answer Echo.sent
  spawn _ _ _ := answer Echo.spawned
  kill _ := answer Echo.killed

/-- The same world gives the same answers, whatever it is asked. -/
theorem together_answer (f : Echo → Except Fault α) (e : Echo) :
    Together (answer f) (answer f) e e (fun x k y k' => x = y ∧ k = k')
      fun x k y k' => x = y ∧ True ∧ k = k' := by
  unfold Together answer
  cases f e with
  | ok x => exact ⟨rfl, rfl⟩
  | error fault => exact ⟨rfl, trivial, rfl⟩

theorem respects : Kernel.Respects (κ := Echo) Eq fun _ => True where
  self := congrArg Echo.self
  send hk _ _ _ _ _ := by
    subst hk
    exact (together_answer _ _).mono (fun _ _ _ _ h => h.2) fun _ _ _ _ h => h
  spawn hk _ _ _ _ _ := by
    subst hk
    exact together_answer _ _
  kill hk _ := by
    subst hk
    exact (together_answer _ _).mono (fun _ _ _ _ h => h.2) fun _ _ _ _ h => h

end Echo

namespace Exec

variable {κ : Type}

/-- The two computations are one that concerns the actor alone. -/
def Local (m : Exec κ α) (m' : Exec Echo α) : Prop :=
  ∃ n : ActorM α, m = onActor n ∧ m' = onActor n

/-- The value or the fault that a computation comes to, and the actor that it leaves. -/
def ending (m : Exec κ α) (s : Session κ) : Except Fault α × Actor :=
  match m s with
  | .ok x s => (.ok x, s.actor)
  | .error e s => (.error e, s.actor)

/-- What holds of the actor that a computation leaves depends on its ending. -/
theorem ends_iff_ending {m : Exec κ α} {s : Session κ} {ok : α → Actor → Prop}
    {err : Fault → Actor → Prop} :
    Ends m s (fun x t => ok x t.actor) (fun e t => err e t.actor) ↔
      match ending m s with
      | (.ok x, a) => ok x a
      | (.error e, a) => err e a := by
  unfold Ends ending
  cases m s with
  | ok x t => exact Iff.rfl
  | error e t => exact Iff.rfl

/-- A computation begins with what concerns the actor alone. -/
theorem ending_onActor_bind (n : ActorM α) (f : α → Exec κ β) (s : Session κ) :
    ending (onActor n >>= f) s = match n s.actor with
      | .ok x a => ending (f x) ⟨a, s.kernel⟩
      | .error e a => (.error e, a) := by
  unfold ending
  show (match EStateM.bind (onActor n) f s with
    | .ok x s => _
    | .error e s => _) = _
  simp only [EStateM.bind, onActor]
  cases n s.actor with
  | ok x a => rfl
  | error e a => rfl

namespace Local

variable {m : Exec κ α} {m' : Exec Echo α}

theorem onActor (n : ActorM α) : Local (κ := κ) (onActor n) (Exec.onActor n) := ⟨n, rfl, rfl⟩

theorem pure (x : α) : Local (pure x : Exec κ α) (pure x) := ⟨Pure.pure x, rfl, rfl⟩

theorem throw (e : Fault) : Local (throw e : Exec κ α) (throw e) := ⟨MonadExcept.throw e, rfl, rfl⟩

theorem actor : Local (actor : Exec κ Actor) Exec.actor := ⟨get, rfl, rfl⟩

theorem bind {f : α → Exec κ β} {f' : α → Exec Echo β} (first : Local m m')
    (rest : ∀ x, Local (f x) (f' x)) : Local (m >>= f) (m' >>= f') := by
  obtain ⟨n, rfl, rfl⟩ := first
  choose g hg hg' using rest
  refine ⟨n >>= g, ?_, ?_⟩
  · funext s
    show EStateM.bind (Exec.onActor n) f s = _
    simp only [EStateM.bind, Exec.onActor, hg]
    show _ = match EStateM.bind n g s.actor with
      | .ok x actor => _
      | .error e actor => _
    unfold EStateM.bind
    cases n s.actor with
    | ok x a => rfl
    | error e a => rfl
  · funext s
    show EStateM.bind (Exec.onActor n) f' s = _
    simp only [EStateM.bind, Exec.onActor, hg']
    show _ = match EStateM.bind n g s.actor with
      | .ok x actor => _
      | .error e actor => _
    unfold EStateM.bind
    cases n s.actor with
    | ok x a => rfl
    | error e a => rfl

theorem ite {p : Prop} [Decidable p] {n : Exec κ α} {n' : Exec Echo α} (pos : p → Local m m')
    (neg : ¬p → Local n n') : Local (if p then m else n) (if p then m' else n') := by
  split
  · exact pos ‹_›
  · exact neg ‹_›

theorem ofResult (result : Except Fault α) :
    Local (ofResult result : Exec κ α) (Exec.ofResult result) := by
  cases result with
  | ok x => exact .pure x
  | error e => exact .throw e

theorem countOperand (payload : Int) :
    Local (countOperand payload : Exec κ Nat) (Exec.countOperand payload) :=
  .ite (fun _ => .throw _) fun _ => .pure _

theorem element (kind : IndexKind) (items : Array α) (index : Int) :
    Local (element kind items index : Exec κ α) (Exec.element kind items index) := by
  unfold Exec.element
  split
  · exact .pure _
  · exact .throw _

theorem finishNative (height : Nat) (answer : Answer) :
    Local (finishNative height answer : Exec κ Signal) (Exec.finishNative height answer) := by
  refine .bind (.onActor _) fun _ => ?_
  cases answer with
  | giveTurn => exact .pure _
  | exit => exact .pure _
  | value v => exact .onActor _

theorem resumeReceive (l : Loader) (displacement : Int) :
    Local (resumeReceive l displacement : Exec κ Unit) (Exec.resumeReceive l displacement) := by
  refine .bind (.onActor _) fun message => ?_
  cases message with
  | some v => exact .onActor _
  | none =>
    refine .bind .actor fun a => ?_
    split
    · exact .throw _
    · exact .bind (.ofResult _) fun _ => .onActor _

end Local

variable [Kernel κ]

/-- Whatever the world, there is a world that gives the answers it has been told in which the second
computation does to the actor what the first does. -/
def Echoed (m : Exec κ α) (m' : Exec Echo α) : Prop :=
  ∀ a k, ∃ e : Echo, e.self = Kernel.self k ∧ ending m ⟨a, k⟩ = ending m' ⟨a, e⟩

namespace Echoed

variable {m : Exec κ α} {m' : Exec Echo α}

/-- What holds in every world that gives the answers it has been told holds in every world. -/
theorem ends (h : Echoed m m') {s : Session κ} (ok : α → Actor → Prop) (err : Fault → Actor → Prop)
    (hends : ∀ e, Ends m' ⟨s.actor, e⟩ (fun x t => ok x t.actor) fun f t => err f t.actor) :
    Ends m s (fun x t => ok x t.actor) fun f t => err f t.actor := by
  obtain ⟨e, -, heq⟩ := h s.actor s.kernel
  have hend := ends_iff_ending.mp (hends e)
  rw [← heq] at hend
  exact ends_iff_ending.mpr hend

theorem of_local (h : Local m m') : Echoed m m' := by
  obtain ⟨n, rfl, rfl⟩ := h
  intro a k
  refine ⟨⟨Kernel.self k, .ok (), .error .processTableFull, .ok ()⟩, rfl, ?_⟩
  simp only [ending, onActor]
  cases n a with
  | ok x b => rfl
  | error e b => rfl

/-- What concerns the actor alone may come first. -/
theorem local_bind {f : α → Exec κ β} {f' : α → Exec Echo β} (first : Local m m')
    (rest : ∀ x, Echoed (f x) (f' x)) : Echoed (m >>= f) (m' >>= f') := by
  obtain ⟨n, rfl, rfl⟩ := first
  intro a k
  simp only [ending_onActor_bind]
  cases n a with
  | ok x b => exact rest x b k
  | error e b => exact ⟨⟨Kernel.self k, .ok (), .error .processTableFull, .ok ()⟩, rfl, rfl⟩

/-- What concerns the actor alone may come last. -/
theorem bind_local {f : α → Exec κ β} {f' : α → Exec Echo β} (first : Echoed m m')
    (rest : ∀ x, Local (f x) (f' x)) : Echoed (m >>= f) (m' >>= f') := by
  intro a k
  obtain ⟨e, hself, heq⟩ := first a k
  refine ⟨e, hself, ?_⟩
  unfold ending at heq ⊢
  cases hrun : m ⟨a, k⟩ with
  | ok x s =>
    cases hrun' : m' ⟨a, e⟩ with
    | ok y t =>
      rw [hrun, hrun'] at heq
      simp only [Prod.mk.injEq, Except.ok.injEq] at heq
      obtain ⟨rfl, hactor⟩ := heq
      obtain ⟨n, hn, hn'⟩ := rest x
      rw [bind_of_ok hrun, bind_of_ok hrun', hn, hn']
      simp only [onActor, hactor]
      cases n t.actor with
      | ok y b => rfl
      | error e b => rfl
    | error e' t => rw [hrun, hrun'] at heq; cases heq
  | error fault s =>
    cases hrun' : m' ⟨a, e⟩ with
    | ok y t => rw [hrun, hrun'] at heq; cases heq
    | error fault' t =>
      rw [hrun, hrun'] at heq
      simp only [Prod.mk.injEq, Except.error.injEq] at heq
      rw [bind_of_error hrun, bind_of_error hrun', heq.1]
      exact congrArg _ heq.2

theorem self_bind {f : Pid → Exec κ β} {f' : Pid → Exec Echo β} (rest : ∀ p, Echoed (f p) (f' p)) :
    Echoed (self >>= f) (self >>= f') := by
  intro a k
  obtain ⟨e, hself, heq⟩ := rest (Kernel.self k) a k
  refine ⟨e, hself, heq.trans ?_⟩
  show ending (f' (Kernel.self k)) ⟨a, e⟩ = ending (f' e.self) ⟨a, e⟩
  rw [hself]

/-- A question to the world. -/
theorem onKernel {m : Heap → EStateM Fault κ α} {f : Echo → Except Fault α}
    (tell : ∀ (k : κ) (x : Except Fault α), ∃ e : Echo, e.self = Kernel.self k ∧ f e = x) :
    Echoed (Exec.onKernel m) (Exec.onKernel fun _ => Echo.answer f) := by
  intro a k
  cases hrun : m a.heap k with
  | ok x k' =>
    obtain ⟨e, hself, htold⟩ := tell k (.ok x)
    refine ⟨e, hself, ?_⟩
    simp only [ending, Exec.onKernel, hrun, Echo.answer, htold]
  | error fault k' =>
    obtain ⟨e, hself, htold⟩ := tell k (.error fault)
    refine ⟨e, hself, ?_⟩
    simp only [ending, Exec.onKernel, hrun, Echo.answer, htold]

theorem ite {p : Prop} [Decidable p] {n : Exec κ α} {n' : Exec Echo α} (pos : p → Echoed m m')
    (neg : ¬p → Echoed n n') : Echoed (if p then m else n) (if p then m' else n') := by
  split
  · exact pos ‹_›
  · exact neg ‹_›

end Echoed

end Exec

variable {κ : Type} [Kernel κ]

open Exec (Echoed Local)

theorem Native.echoed_spawn (args : Arguments) :
    Echoed (Native.spawn args : Exec κ Value) (Native.spawn args) := by
  refine .local_bind (.onActor _) fun _ => .local_bind (.onActor _) fun callee =>
    .local_bind (.onActor _) fun rest => .bind_local (.onKernel fun k x => ?_) fun _ => .pure _
  exact ⟨⟨Kernel.self k, .ok (), x, .ok ()⟩, rfl, rfl⟩

theorem Native.echoed_kill (args : Arguments) :
    Echoed (Native.kill args : Exec κ Answer) (Native.kill args) := by
  refine .local_bind (.onActor _) fun target => .self_bind fun own => .ite (fun _ => ?_) fun _ => ?_
  · exact .of_local (.pure _)
  · refine .bind_local (.onKernel fun k x => ?_) fun _ => .pure _
    exact ⟨⟨Kernel.self k, .ok (), .error .processTableFull, x⟩, rfl, rfl⟩

theorem Operation.echoed_run (op : Operation) (args : Arguments) :
    Echoed (op.run args : Exec κ Answer) (op.run args) := by
  have answer : ∀ m : ActorM Value, Echoed
    (do return Answer.value (← Exec.onActor m) : Exec κ Answer)
      (do return Answer.value (← Exec.onActor m)) :=
    fun m => .of_local (.bind (.onActor m) fun _ => .pure _)
  cases op with
  | selfPid => exact .self_bind fun _ => .of_local (.pure _)
  | spawn => exact .bind_local (Native.echoed_spawn args) fun _ => .pure _
  | giveTurn => exact .of_local (.pure _)
  | exit => exact .of_local (.pure _)
  | kill => exact Native.echoed_kill args
  | _ => exact answer _

namespace Exec

variable {l : Loader}

theorem echoed_call {argCount : Nat} {protect : Nat → Exec κ Signal}
    {protect' : Nat → Exec Echo Signal}
    (hprotect : ∀ height, Echoed (protect height) (protect' height)) :
    Echoed (call l argCount protect) (call l argCount protect') := by
  refine .local_bind (.onActor _) fun callee => .local_bind .actor fun a => ?_
  refine .ite (fun _ => .of_local ⟨throw .stackUnderflow, rfl, rfl⟩) fun _ => ?_
  cases callee with
  | function f =>
    exact .of_local (.bind (.ofResult _) fun _ => .bind (.onActor _) fun _ => .pure _)
  | native id =>
    dsimp only
    cases l.natives.get? id.toNat with
    | none => exact .of_local (.throw _)
    | some entry =>
      dsimp only
      cases entry.builtin with
      | operation op => exact .bind_local (op.echoed_run _) fun _ => .finishNative _ _
      | protectedCall => exact hprotect _
  | _ => exact .of_local (.throw _)

theorem echoed_invoke (argCount : Nat) :
    Echoed (invoke l argCount : Exec κ Signal) (invoke l argCount) := by
  induction argCount with
  | zero =>
    unfold invoke
    exact echoed_call fun _ => .of_local (.throw _)
  | succ n ih =>
    unfold invoke
    exact echoed_call fun _ => .local_bind (.onActor _) fun _ => ih

theorem echoed_send : Echoed (send : Exec κ Unit) send := by
  refine .local_bind (.onActor _) fun message => .local_bind (.onActor _) fun target => ?_
  split
  · refine .self_bind fun own => .ite (fun _ => .of_local (.onActor _)) fun _ => ?_
    exact .onKernel fun k x => ⟨⟨Kernel.self k, x, .error .processTableFull, .ok ()⟩, rfl, rfl⟩
  · exact .of_local (.throw _)

theorem echoed_execute (f : FuncRef) (p : LinkedPrototype) (op : Opcode) (payload : Int) :
    Echoed (execute l f p op payload : Exec κ Signal) (execute l f p op payload) := by
  have go : ∀ n : ActorM Unit, Local (do onActor n; return Signal.proceed : Exec κ Signal)
      (do onActor n; return Signal.proceed) := fun n => .bind (.onActor n) fun _ => .pure _
  cases op with
  | nop => exact .of_local (.pure _)
  | pop => exact .of_local (.bind (.countOperand _) fun _ => go _)
  | ldk => exact .of_local (.bind (.element _ _ _) fun _ => .bind (.onActor _) fun _ => go _)
  | nil => exact .of_local (go _)
  | ldb => exact .of_local (go _)
  | lsi => exact .of_local (go _)
  | llv => exact .of_local (.bind .actor fun _ => go _)
  | slv => exact .of_local (.bind (.onActor _) fun _ => go _)
  | imp => exact .of_local (.bind (.element _ _ _) fun _ => go _)
  | cls => exact .of_local (.bind (.element _ _ _) fun _ => go _)
  | jmp => exact .of_local (go _)
  | jin => exact .of_local (.bind (.onActor _) fun _ => .ite (fun _ => go _) fun _ => .pure _)
  | ivk => exact .local_bind (.countOperand _) fun _ => echoed_invoke _
  | ret => exact .of_local (.onActor _)
  | snd => exact .bind_local echoed_send fun _ => .pure _
  | rcv => exact .of_local (.onActor _)
  | rmv => exact .of_local (go _)
  | rwd => exact .of_local (go _)

theorem echoed_step : Echoed (step l : Exec κ Signal) (step l) := by
  refine .local_bind .actor fun a => ?_
  split
  · exact .of_local (.pure _)
  · refine .local_bind (.ofResult _) fun p => ?_
    split
    · exact .of_local (.onActor _)
    · refine .local_bind (.onActor _) fun _ => ?_
      split
      · exact .of_local (.throw _)
      · exact echoed_execute _ _ _ _

/-- What an actor does next, in any world. -/
theorem echoed_advance : Echoed (advance l : Exec κ Signal) (advance l) := by
  refine .local_bind (.onActor _) fun entry => ?_
  cases entry with
  | some argCount => exact echoed_invoke argCount
  | none =>
    refine .local_bind (.onActor _) fun pending => ?_
    cases pending with
    | some displacement => exact .of_local (.bind (.resumeReceive l displacement) fun _ => .pure _)
    | none => exact echoed_step

variable {g : Origin} {ρ : Matching} {s : Session κ}

/-- An actor that holds values from an earlier time holds them when it has done what it does next,
as long as the innermost call is known to leave them alone. -/
theorem inStep_advance (inline : l.Inline) (h : s.actor.InStep g ρ s.actor) (hg : g.guarded) :
    Ends (advance l) s (fun _ s' => ∃ ρ', s'.actor.InStep g.unguarded ρ' s'.actor)
      fun _ s' => ∃ ρ', s'.actor.InStep g.unguarded ρ' s'.actor := by
  refine echoed_advance.ends (fun _ a => ∃ ρ', a.InStep g.unguarded ρ' a)
    (fun _ a => ∃ ρ', a.InStep g.unguarded ρ' a) fun e => ?_
  have hrun := together_advance Echo.respects inline (s := ⟨s.actor, e⟩)
    (t := ⟨s.actor, e⟩) ⟨h, rfl⟩ hg
  refine hrun.ends.mono ?_ ?_
  · intro _ t ht
    obtain ⟨-, ρ', ht⟩ := ht
    exact ⟨ρ', ht.actor⟩
  · intro _ t ht
    obtain ⟨ρ', -, ht⟩ := ht
    exact ⟨ρ', ht.actor⟩

end Exec

/-- An actor that holds values from an earlier time holds them when a native has answered. -/
theorem Operation.inStep_run (op : Operation) {g : Origin} {ρ : Matching} {s : Session κ}
    (h : s.actor.InStep g ρ s.actor) (height count : Nat) :
    Ends (op.run (.below height count)) s
      (fun x s' => ∃ ρ', s'.actor.InStep g ρ' s'.actor ∧ x.result.Match ρ' x.result)
      fun _ s' => ∃ ρ', s'.actor.InStep g ρ' s'.actor := by
  refine (op.echoed_run _).ends
    (fun x a => ∃ ρ', a.InStep g ρ' a ∧ x.result.Match ρ' x.result)
    (fun _ a => ∃ ρ', a.InStep g ρ' a) fun e => ?_
  have hargs := Arguments.agree_below (E := SameFault fun _ => True)
    (fun h : Actor.InStep g _ _ _ => h.stack) (fun _ _ _ _ => trivial) height count
  have hrun := Operation.same_run Echo.respects hargs op ⟨s.actor, e⟩ ⟨s.actor, e⟩ ⟨h, rfl⟩
  refine hrun.ends.mono ?_ ?_
  · intro _ t ht
    obtain ⟨ρ', ht, hx⟩ := ht
    exact ⟨ρ', ht.actor, hx.result⟩
  · intro _ t ht
    obtain ⟨ρ', -, ht⟩ := ht
    exact ⟨ρ', ht.actor⟩

end ActorMachine
