import ActorMachine.Proofs.Echoes

/-!
# What a running actor asks for

In one step an actor asks its world for at most one thing. `Session.ask?` finds out which by letting
the step run in a world that writes down what it is asked and refuses it. In any other world the
step does to the world what that one request does, and fails if it is refused
(`Session.advance_of_ask?`).
-/

namespace ActorMachine

/-- A request of a running actor to its world. -/
inductive Ask where
  | send (target : Pid) (message : Value) (source : Heap)
  | spawn (callee : Value) (args : List Value) (source : Heap)
  | kill (target : Pid)

namespace Ask

/-- The pid under which a request addresses a process. -/
def target? : Ask → Option Pid
  | send target .. => some target
  | spawn .. => none
  | kill target => some target

/-- What a world makes of a request; a process that it has started is answered by its pid. -/
def perform {κ : Type} [Kernel κ] : Ask → EStateM Fault κ (Option Pid)
  | send target message source => (fun _ => none) <$> Kernel.send target message source
  | spawn callee args source => some <$> Kernel.spawn callee args source
  | kill target => (fun _ => none) <$> Kernel.kill target

/-- The pid of the process that a world starts when it is asked. -/
def starts? {κ : Type} [Kernel κ] (q : Ask) (k : κ) : Option Pid :=
  match q.perform k with
  | .ok pid? _ => pid?
  | .error .. => none

end Ask

/-- A world that writes down what it is asked. -/
structure Scribe where
  self : Pid
  asked : Option Ask

namespace Scribe

/-- Writes down a request and refuses it. -/
def note (q : Ask) : EStateM Fault Scribe α := fun w =>
  .error .stackUnderflow { w with asked := some q }

instance : Kernel Scribe where
  self w := w.self
  send target message source := note (.send target message source)
  spawn callee args source := note (.spawn callee args source)
  kill target := note (.kill target)

end Scribe

/-- What an actor asks its world for in its next step. -/
def Session.ask? {κ : Type} [Kernel κ] (l : Loader) (s : Session κ) : Option Ask :=
  let unasked : Session Scribe := ⟨s.actor, ⟨Kernel.self s.kernel, none⟩⟩
  (leaves (Exec.advance l) unasked).kernel.asked

namespace Exec

variable {κ : Type}

/-- How a computation ends in a world that was `k` when it began, next to how it ends among scribes:
if it has asked for nothing, in the same way; else its request has been granted, and nothing else
has been done to the world, or it has been refused, and so the computation fails. -/
inductive Answered [Kernel κ] (k : κ) : EStateM.Result Fault (Session κ) α →
    EStateM.Result Fault (Session Scribe) α → Prop
  | ok (x : α) (a : Actor) {w : Scribe} (silent : w.asked = none) :
    Answered k (.ok x ⟨a, k⟩) (.ok x ⟨a, w⟩)
  | error (e : Fault) (a : Actor) {w : Scribe} (silent : w.asked = none) :
    Answered k (.error e ⟨a, k⟩) (.error e ⟨a, w⟩)
  | granted_ok {q : Ask} {pid? : Option Pid} {k' : κ} (done : q.perform k = .ok pid? k') (x : α)
    (a : Actor) (e : Fault) {t : Session Scribe} (asked : t.kernel.asked = some q) :
    Answered k (.ok x ⟨a, k'⟩) (.error e t)
  | granted_error {q : Ask} {pid? : Option Pid} {k' : κ} (done : q.perform k = .ok pid? k')
    (e' : Fault) (a : Actor) (e : Fault) {t : Session Scribe} (asked : t.kernel.asked = some q) :
    Answered k (.error e' ⟨a, k'⟩) (.error e t)
  | refused {q : Ask} {fault : Fault} {k' : κ} (done : q.perform k = .error fault k') (a : Actor)
    (e : Fault) {t : Session Scribe} (asked : t.kernel.asked = some q) :
    Answered k (.error fault ⟨a, k'⟩) (.error e t)

variable [Kernel κ]

/-- The first computation does in any world what the second shows among scribes. -/
def Asked (m : Exec κ α) (m' : Exec Scribe α) : Prop :=
  ∀ a k, Answered k (m ⟨a, k⟩) (m' ⟨a, ⟨Kernel.self k, none⟩⟩)

/-- Two computations that concern the actor alone, and are the same. -/
def Private (m : Exec κ α) (m' : Exec Scribe α) : Prop :=
  ∃ n : ActorM α, m = onActor n ∧ m' = onActor n

omit [Kernel κ] in
/-- What concerns the actor alone in every world is the same in all of them. -/
theorem Private.of_local {m : Exec κ α} {m' : Exec Scribe α} {echo : Exec Echo α} (h : Local m echo)
    (h' : Local m' echo) : Private m m' := by
  obtain ⟨n, rfl, hn⟩ := h
  obtain ⟨n', rfl, hn'⟩ := h'
  refine ⟨n, rfl, ?_⟩
  suffices n' = n by rw [this]
  funext a
  have hrun := congrFun (hn'.symm.trans hn) ⟨a, ⟨default, .ok (), .error .processTableFull, .ok ()⟩⟩
  unfold onActor at hrun
  dsimp only at hrun
  cases hna : n a with
  | ok x b =>
    cases hna' : n' a with
    | ok x' b' =>
      rw [hna, hna'] at hrun
      cases hrun
      rfl
    | error e' b' => rw [hna, hna'] at hrun; cases hrun
  | error e b =>
    cases hna' : n' a with
    | ok x' b' => rw [hna, hna'] at hrun; cases hrun
    | error e' b' =>
      rw [hna, hna'] at hrun
      cases hrun
      rfl

namespace Asked

variable {m : Exec κ α} {m' : Exec Scribe α}

theorem of_private (h : Private m m') : Asked m m' := by
  obtain ⟨n, rfl, rfl⟩ := h
  intro a k
  unfold onActor
  dsimp only
  cases n a with
  | ok x b => exact .ok x b rfl
  | error e b => exact .error e b rfl

/-- What concerns the actor alone may come first. -/
theorem private_bind {f : α → Exec κ β} {f' : α → Exec Scribe β} (first : Private m m')
    (rest : ∀ x, Asked (f x) (f' x)) : Asked (m >>= f) (m' >>= f') := by
  obtain ⟨n, rfl, rfl⟩ := first
  intro a k
  show Answered k (EStateM.bind (onActor n) f ⟨a, k⟩) (EStateM.bind (onActor n) f' ⟨a, _⟩)
  unfold EStateM.bind onActor
  dsimp only
  cases n a with
  | ok x b => exact rest x b k
  | error e b => exact .error e b rfl

/-- What concerns the actor alone may come last. -/
theorem bind_private {f : α → Exec κ β} {f' : α → Exec Scribe β} (first : Asked m m')
    (rest : ∀ x, Private (f x) (f' x)) : Asked (m >>= f) (m' >>= f') := by
  intro a k
  have hfirst := first a k
  show Answered k (EStateM.bind m f ⟨a, k⟩) (EStateM.bind m' f' ⟨a, _⟩)
  unfold EStateM.bind
  generalize m ⟨a, k⟩ = r at hfirst
  generalize m' ⟨a, _⟩ = r' at hfirst
  cases hfirst with
  | ok x b silent =>
    obtain ⟨n, hn, hn'⟩ := rest x
    dsimp only
    rw [hn, hn']
    unfold onActor
    dsimp only
    cases n b with
    | ok y c => exact .ok y c silent
    | error e c => exact .error e c silent
  | error e b silent => exact .error e b silent
  | granted_ok done x b e asked =>
    obtain ⟨n, hn, -⟩ := rest x
    dsimp only
    rw [hn]
    unfold onActor
    dsimp only
    cases n b with
    | ok y c => exact .granted_ok done y c e asked
    | error e' c => exact .granted_error done e' c e asked
  | granted_error done e' b e asked => exact .granted_error done e' b e asked
  | refused done b e asked => exact .refused done b e asked

theorem self_bind {f : Pid → Exec κ β} {f' : Pid → Exec Scribe β} (rest : ∀ p, Asked (f p) (f' p)) :
    Asked (self >>= f) (self >>= f') :=
  fun a k => rest (Kernel.self k) a k

theorem ite {p : Prop} [Decidable p] {n : Exec κ α} {n' : Exec Scribe α} (pos : p → Asked m m')
    (neg : ¬p → Asked n n') : Asked (if p then m else n) (if p then m' else n') := by
  split
  · exact pos ‹_›
  · exact neg ‹_›

/-- A request, which a scribe writes down. -/
theorem onKernel {m : Heap → EStateM Fault κ α} {q : Heap → Ask} {v : α → Option Pid}
    (h : ∀ source, (q source).perform (κ := κ) = v <$> m source) :
    Asked (Exec.onKernel m) (Exec.onKernel fun source => Scribe.note (q source)) := by
  intro a k
  have hdone : (q a.heap).perform k = EStateM.map v (m a.heap) k := congrFun (h a.heap) k
  unfold EStateM.map at hdone
  unfold Exec.onKernel
  dsimp only
  cases hrun : m a.heap k with
  | ok x k' =>
    rw [hrun] at hdone
    exact .granted_ok hdone x a _ rfl
  | error e k' =>
    rw [hrun] at hdone
    exact .refused hdone a _ rfl

end Asked

end Exec

variable {κ : Type} [Kernel κ]

open Exec (Asked Private Local)

theorem Native.asked_spawn (args : Arguments) :
    Asked (Native.spawn args : Exec κ Value) (Native.spawn args) :=
  .private_bind ⟨_, rfl, rfl⟩ fun _ => .private_bind ⟨_, rfl, rfl⟩ fun callee =>
    .private_bind ⟨_, rfl, rfl⟩ fun rest =>
      .bind_private (.onKernel (q := Ask.spawn callee rest) (v := some) fun _ => rfl) fun _ =>
        .of_local (.pure _) (.pure _)

theorem Native.asked_kill (args : Arguments) :
    Asked (Native.kill args : Exec κ Answer) (Native.kill args) := by
  refine .private_bind ⟨_, rfl, rfl⟩ fun target => .self_bind fun own =>
    .ite (fun _ => ?_) fun _ => ?_
  · exact .of_private (.of_local (.pure _) (.pure _))
  · exact .bind_private (.onKernel (q := fun _ => .kill target) (v := fun _ => none) fun _ => rfl)
      fun _ => .of_local (.pure _) (.pure _)

theorem Operation.asked_run (op : Operation) (args : Arguments) :
    Asked (op.run args : Exec κ Answer) (op.run args) := by
  have answer : ∀ m : ActorM Value, Asked
    (do return Answer.value (← Exec.onActor m) : Exec κ Answer)
      (do return Answer.value (← Exec.onActor m)) :=
    fun m => .private_bind ⟨m, rfl, rfl⟩ fun _ => .of_private (.of_local (.pure _) (.pure _))
  cases op with
  | selfPid => exact .self_bind fun _ => .of_private (.of_local (.pure _) (.pure _))
  | spawn => exact .bind_private (Native.asked_spawn args) fun _ => .of_local (.pure _) (.pure _)
  | giveTurn => exact .of_private (.of_local (.pure _) (.pure _))
  | exit => exact .of_private (.of_local (.pure _) (.pure _))
  | kill => exact Native.asked_kill args
  | _ => exact answer _

namespace Exec

variable {l : Loader}

/-- What concerns the actor alone, whatever the world. -/
theorem asked_of_local {m : Exec κ α} {m' : Exec Scribe α} {echo : Exec Echo α} (h : Local m echo)
    (h' : Local m' echo) : Asked m m' :=
  .of_private (.of_local h h')

theorem asked_call {argCount : Nat} {protect : Nat → Exec κ Signal}
    {protect' : Nat → Exec Scribe Signal}
    (hprotect : ∀ height, Asked (protect height) (protect' height)) :
    Asked (call l argCount protect) (call l argCount protect') := by
  refine .private_bind ⟨_, rfl, rfl⟩ fun callee =>
    .private_bind (.of_local .actor .actor) fun a => ?_
  refine .ite (fun _ => .of_private ⟨throw .stackUnderflow, rfl, rfl⟩) fun _ => ?_
  cases callee with
  | function f =>
    have hcall : ∀ {κ' : Type}, Local (κ := κ') (ofResult (l.prototype f) >>= fun _ =>
        onActor (ActorM.pushFrame f argCount) >>= fun _ => Pure.pure Signal.proceed) _ :=
      .bind (.ofResult _) fun _ => .bind (.onActor _) fun _ => .pure _
    exact asked_of_local hcall hcall
  | native id =>
    dsimp only
    cases l.natives.get? id.toNat with
    | none => exact asked_of_local (.throw _) (.throw _)
    | some entry =>
      dsimp only
      cases entry.builtin with
      | operation op =>
        exact .bind_private (op.asked_run _) fun _ =>
          .of_local (.finishNative _ _) (.finishNative _ _)
      | protectedCall => exact hprotect _
  | _ => exact asked_of_local (.throw _) (.throw _)

theorem asked_invoke (argCount : Nat) :
    Asked (invoke l argCount : Exec κ Signal) (invoke l argCount) := by
  induction argCount with
  | zero =>
    unfold invoke
    exact asked_call fun _ => asked_of_local (.throw _) (.throw _)
  | succ n ih =>
    unfold invoke
    exact asked_call fun _ => .private_bind ⟨_, rfl, rfl⟩ fun _ => ih

theorem asked_send : Asked (send : Exec κ Unit) send := by
  refine .private_bind ⟨_, rfl, rfl⟩ fun message => .private_bind ⟨_, rfl, rfl⟩ fun target => ?_
  split
  · rename_i target
    refine .self_bind fun own => .ite (fun _ => .of_private ⟨_, rfl, rfl⟩) fun _ => ?_
    exact .onKernel (q := .send target message) (v := fun _ => none) fun _ => rfl
  · exact asked_of_local (.throw _) (.throw _)

/-- All operations but calls and sends concern the actor alone. -/
theorem local_execute (f : FuncRef) (p : LinkedPrototype) {op : Opcode} (payload : Int)
    (hcall : op ≠ .ivk) (hsend : op ≠ .snd) :
    Local (execute l f p op payload : Exec κ Signal) (execute l f p op payload) := by
  have go : ∀ n : ActorM Unit, Local (do onActor n; return Signal.proceed : Exec κ Signal)
      (do onActor n; return Signal.proceed) := fun n => .bind (.onActor n) fun _ => .pure _
  cases op with
  | nop => exact .pure _
  | pop => exact .bind (.countOperand _) fun _ => go _
  | ldk => exact .bind (.element _ _ _) fun _ => .bind (.onActor _) fun _ => go _
  | nil => exact go _
  | ldb => exact go _
  | lsi => exact go _
  | llv => exact .bind .actor fun _ => go _
  | slv => exact .bind (.onActor _) fun _ => go _
  | imp => exact .bind (.element _ _ _) fun _ => go _
  | cls => exact .bind (.element _ _ _) fun _ => go _
  | jmp => exact go _
  | jin => exact .bind (.onActor _) fun _ => .ite (fun _ => go _) fun _ => .pure _
  | ivk => exact absurd rfl hcall
  | ret => exact .onActor _
  | snd => exact absurd rfl hsend
  | rcv => exact .onActor _
  | rmv => exact go _
  | rwd => exact go _

theorem asked_execute (f : FuncRef) (p : LinkedPrototype) (op : Opcode) (payload : Int) :
    Asked (execute l f p op payload : Exec κ Signal) (execute l f p op payload) := by
  by_cases hcall : op = .ivk
  · subst hcall
    exact .private_bind (.of_local (.countOperand _) (.countOperand _)) fun _ => asked_invoke _
  by_cases hsend : op = .snd
  · subst hsend
    exact .bind_private asked_send fun _ => .of_local (.pure _) (.pure _)
  exact asked_of_local (local_execute f p payload hcall hsend)
    (local_execute f p payload hcall hsend)

theorem asked_step : Asked (step l : Exec κ Signal) (step l) := by
  refine .private_bind (.of_local .actor .actor) fun a => ?_
  split
  · exact asked_of_local (.pure _) (.pure _)
  · refine .private_bind (.of_local (.ofResult _) (.ofResult _)) fun p => ?_
    split
    · exact .of_private ⟨_, rfl, rfl⟩
    · refine .private_bind ⟨_, rfl, rfl⟩ fun _ => ?_
      split
      · exact asked_of_local (.throw _) (.throw _)
      · exact asked_execute _ _ _ _

theorem asked_advance : Asked (advance l : Exec κ Signal) (advance l) := by
  refine .private_bind ⟨_, rfl, rfl⟩ fun entry => ?_
  cases entry with
  | some argCount => exact asked_invoke argCount
  | none =>
    refine .private_bind ⟨_, rfl, rfl⟩ fun pending => ?_
    cases pending with
    | some displacement =>
      exact .private_bind (.of_local (.resumeReceive l displacement)
        (.resumeReceive l displacement)) fun _ => .of_private (.of_local (.pure _) (.pure _))
    | none => exact asked_step

end Exec

namespace Session

variable {l : Loader} {s : Session κ}

/-- The world after a step that may end a run. -/
def world (result : (Outcome × Session κ) ⊕ Session κ) : κ :=
  result.elim (·.2.kernel) (·.kernel)

/-- The world that is left when a request has been made of it, if there has been one. -/
def answer (q : Option Ask) (k : κ) : κ :=
  q.elim k fun q => leaves q.perform k

/-- A step does to the world what its one request does, and fails by the fault by which the request
is refused. -/
theorem advance_of_ask? :
    (leaves (Exec.advance l) s).kernel = answer (s.ask? l) s.kernel ∧
      ∀ q fault k, s.ask? l = some q → q.perform s.kernel = .error fault k →
        ∃ a, Exec.advance l s = .error fault ⟨a, k⟩ := by
  have hasked := Exec.asked_advance (l := l) s.actor s.kernel
  have hask : s.ask? l = (leaves (Exec.advance l)
      (⟨s.actor, ⟨Kernel.self s.kernel, none⟩⟩ : Session Scribe)).kernel.asked := rfl
  have hs : (⟨s.actor, s.kernel⟩ : Session κ) = s := rfl
  rw [hs] at hasked
  unfold leaves at hask ⊢
  generalize Exec.advance l (⟨s.actor, ⟨Kernel.self s.kernel, none⟩⟩ : Session Scribe) =
    r' at hasked hask
  generalize Exec.advance l s = r at hasked
  cases hasked with
  | ok x a silent =>
    rw [hask.trans silent]
    exact ⟨rfl, fun _ _ _ h => nomatch h⟩
  | error e a silent =>
    rw [hask.trans silent]
    exact ⟨rfl, fun _ _ _ h => nomatch h⟩
  | granted_ok done x a e asked =>
    rw [hask.trans asked]
    refine ⟨by rw [answer, Option.elim, leaves, done], ?_⟩
    rintro _ fault k ⟨⟩ hrefused
    rw [done] at hrefused
    cases hrefused
  | granted_error done e' a e asked =>
    rw [hask.trans asked]
    refine ⟨by rw [answer, Option.elim, leaves, done], ?_⟩
    rintro _ fault k ⟨⟩ hrefused
    rw [done] at hrefused
    cases hrefused
  | refused done a e asked =>
    rw [hask.trans asked]
    refine ⟨by rw [answer, Option.elim, leaves, done], ?_⟩
    rintro _ fault k ⟨⟩ hrefused
    rw [done] at hrefused
    cases hrefused
    exact ⟨a, rfl⟩

/-- What becomes of the fault of a step changes nothing about the world. -/
theorem world_next : world (s.next l) = answer (s.ask? l) s.kernel := by
  rw [← advance_of_ask?.1]
  unfold next leaves
  cases Exec.advance l s with
  | ok x s' => cases x <;> rfl
  | error e s' =>
    dsimp only
    generalize s'.actor.recover e = x
    obtain ⟨taken, a⟩ := x
    cases taken <;> rfl

end Session

end ActorMachine
