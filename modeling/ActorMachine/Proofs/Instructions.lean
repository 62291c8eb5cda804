import ActorMachine.Machine.Run
import ActorMachine.Proofs.Deliveries
import ActorMachine.Proofs.Library
import ActorMachine.Proofs.Loaders

/-!
# Instructions of equivalent actors

What two actors that are in step, in related worlds, do next is the same: they give the same signal
or fail in the same way, and stay in step (`Exec.together_step`, `Exec.together_advance`). An
instruction leaves alone what lies below the arguments of the call that it belongs to; only the
return from that call may uncover it.
-/

namespace ActorMachine

open Memory

namespace Exec

variable {κ : Type} {g : Origin} {K : κ → κ → Prop} {B : Fault → Prop} {ρ : Matching}
  {s t : Session κ}

/-- Matched answers take the place of the arguments of a native call. -/
theorem together_finishNative (hst : Session.InStep g K ρ s t) {height : Nat}
    (low : g.values.size ≤ height) {x y : Answer} (hxy : x.Match ρ y) :
    Together (finishNative height x) (finishNative height y) s t (Session.ReturnInStep g K)
      (Session.FailInStep g K B) := by
  refine .bind <| (together_onActor (ActorM.together_leaveResult hst.actor low hxy.result)
    hst.kernel).mono ?_ fun _ _ _ _ ⟨⟨ρ', he, h⟩, hk⟩ => ⟨ρ', he, h, hk⟩
  rintro _ s' _ t' ⟨⟨ρ', h'⟩, hk⟩
  cases hxy with
  | value _ =>
    refine (same_onActor ActorM.same_afterReturn s' t' ⟨h', hk⟩).mono ?_ fun _ _ _ _ h => h
    rintro _ s'' _ t'' ⟨ρ'', h'', rfl, rfl⟩
    exact ⟨rfl, _, h''⟩
  | giveTurn => exact .pure ⟨rfl, ρ', h', hk⟩
  | exit => exact .pure ⟨rfl, ρ', h', hk⟩

/-- Values above the base of the innermost call are taken from the stacks. -/
theorem together_pop (hst : Session.InStep g K ρ s t) (low : g.values.size ≤ s.actor.basePointer) :
    Together (onActor ActorM.pop) (onActor ActorM.pop) s t
      (fun v s' w t' => v.Match ρ w ∧ Session.InStep g K ρ s' t' ∧
        s'.actor.basePointer = s.actor.basePointer) (Session.FailInStep g K B) :=
  (together_onActor (ActorM.together_pop hst.actor low) hst.kernel).mono
    (fun _ _ _ _ ⟨⟨hvw, h, hbase⟩, hk⟩ => ⟨hvw, ⟨h, hk⟩, hbase⟩)
    fun _ _ _ _ ⟨⟨ρ', he, h⟩, hk⟩ => ⟨ρ', he, h, hk⟩

/-- Where nothing has returned, the innermost call still leaves the values from the earlier time
alone. -/
theorem together_unguarded {m m' : Exec κ α}
    (h : Together m m' s t (Session.ReturnInStep g K) (Session.FailInStep g K B)) :
    Together m m' s t (Session.ReturnInStep g.unguarded K) (Session.FailInStep g.unguarded K B) :=
  h.mono (fun _ _ _ _ ⟨heq, ρ', h⟩ => ⟨heq, ρ', h.actor.unguarded, h.kernel⟩)
    fun _ _ _ _ ⟨ρ', he, h⟩ => ⟨ρ', he, h.actor.unguarded, h.kernel⟩

theorem together_of_same {m : Exec κ α} (h : Same g K B ρ m m fun _ x y => x = y)
    (hst : Session.InStep g K ρ s t) :
    Together m m s t (Session.ReturnInStep g K) (Session.FailInStep g K B) :=
  (h s t hst).mono (fun _ _ _ _ ⟨ρ', h, heq⟩ => ⟨heq, ρ', h⟩) fun _ _ _ _ h => h

/-- An instruction that neither calls nor returns goes on with the next one. -/
theorem together_proceed {m m' : Exec κ Unit}
    (h : Together m m' s t (fun _ s' _ t' => ∃ ρ', Session.InStep g K ρ' s' t')
      (Session.FailInStep g K B)) :
    Together (do m; return Signal.proceed) (do m'; return Signal.proceed) s t
      (Session.ReturnInStep g K) (Session.FailInStep g K B) :=
  .bind <| h.mono (fun _ _ _ _ h => .pure ⟨rfl, h⟩) fun _ _ _ _ h => h

variable [Kernel κ] (respects : Kernel.Respects K B) {l : Loader}

include respects

/-- Calls of matched callees, if what becomes of protected calls is the same. -/
theorem together_call (hst : Session.InStep g K ρ s t) (low : g.values.size ≤ s.actor.basePointer)
    {argCount : Nat} {protect : Nat → Exec κ Signal}
    (hprotect : ∀ {s' t'}, Session.InStep g K ρ s' t' → s'.actor.basePointer = s.actor.basePointer →
      Together (protect (s'.actor.stack.size - argCount)) (protect (s'.actor.stack.size - argCount))
        s' t' (Session.ReturnInStep g K) (Session.FailInStep g K B)) :
    Together (call l argCount protect) (call l argCount protect) s t (Session.ReturnInStep g K)
      (Session.FailInStep g K B) := by
  refine .bind <| (together_pop hst low).mono ?_ fun _ _ _ _ h => h
  intro callee s₁ callee' t₁ ⟨hcallee, h₁, hbase⟩
  have h := h₁.actor
  have hle := h.relocated.size_le
  refine .bind <| .bind <| .get <| .pure <|
    .ite ?_ (fun _ => .bind <| .throw ⟨ρ, .of_ne nofun, h₁⟩) ?_
  · rw [h.size_eq, h.basePointer_eq]
  intro hargs
  have low : g.values.size ≤ s₁.actor.stack.size - argCount := by omega
  cases hcallee with
  | object _ => exact .throw ⟨ρ, .of_ne nofun, h₁⟩
  | inline hinline =>
    cases callee with
    | function f =>
      refine .bind ?_
      cases hproto : l.prototype f with
      | error e => exact .throw ⟨ρ, .of_ne (Loader.prototype_ne_heap hproto), h₁⟩
      | ok p =>
        refine .pure <| .bind <| (together_onActor (ActorM.together_pushFrame h f fun _ => low)
          h₁.kernel).mono ?_ fun _ _ _ _ ⟨⟨ρ', he, h⟩, hk⟩ => ⟨ρ', he, h, hk⟩
        rintro _ s' _ t' ⟨h', hk⟩
        exact .pure ⟨rfl, ρ, h', hk⟩
    | native id =>
      dsimp only
      cases l.natives.get? id.toNat with
      | none => exact .throw ⟨ρ, .of_ne nofun, h₁⟩
      | some entry =>
        dsimp only
        rw [← h.size_eq]
        cases entry.builtin with
        | operation op =>
          have hargs := Arguments.agree_below (E := SameFault B)
            (fun h : Actor.InStep g _ _ _ => h.stack)
            (fun _ _ _ _ => trivial) s₁.actor.stack.size argCount
          refine .bind <| (Operation.same_run respects hargs op s₁ t₁ h₁).mono ?_ fun _ _ _ _ h => h
          rintro x s' y t' ⟨ρ', hst', hxy⟩
          exact together_finishNative hst' low hxy
        | protectedCall => exact hprotect h₁ hbase
    | object _ => cases hinline
    | _ => exact .throw ⟨ρ, .of_ne nofun, h₁⟩

/-- Calls of what is on the stacks. -/
theorem together_invoke (hst : Session.InStep g K ρ s t) (low : g.values.size ≤ s.actor.basePointer)
    (argCount : Nat) :
    Together (invoke l argCount) (invoke l argCount) s t (Session.ReturnInStep g K)
      (Session.FailInStep g K B) := by
  induction argCount generalizing s t with
  | zero =>
    unfold invoke
    exact together_call respects hst low fun hst _ => .throw ⟨_, .of_ne nofun, hst⟩
  | succ n ih =>
    unfold invoke
    refine together_call respects hst low fun {s' t'} hst hbase => ?_
    refine .bind <| (together_onActor (ActorM.together_pushCatchPoint hst.actor _) hst.kernel).mono
      ?_ fun _ _ _ _ ⟨⟨ρ', he, h⟩, hk⟩ => ⟨ρ', he, h, hk⟩
    intro _ s'' _ t'' ⟨⟨h, hbase'⟩, hk⟩
    exact ih ⟨h, hk⟩ (by rw [hbase', hbase]; exact low)

/-- Sending matched messages. -/
theorem together_send (hst : Session.InStep g K ρ s t) (low : g.values.size ≤ s.actor.basePointer) :
    Together (send : Exec κ Unit) send s t (fun _ s' _ t' => ∃ ρ', Session.InStep g K ρ' s' t')
      (Session.FailInStep g K B) := by
  refine .bind <| (together_pop hst low).mono ?_ fun _ _ _ _ h => h
  intro v s₁ w t₁ ⟨hvw, h₁, hbase⟩
  refine .bind <| (together_pop h₁ (by rw [hbase]; exact low)).mono ?_ fun _ _ _ _ h => h
  intro target s₂ target' t₂ ⟨htarget, h₂, _⟩
  -- From here on nothing is taken from the stacks.
  have rest : ∀ {m m' : Exec κ Unit}, Same g K B ρ m m' (fun _ _ _ => True) →
      Together m m' s₂ t₂ (fun _ s' _ t' => ∃ ρ', Session.InStep g K ρ' s' t')
        (Session.FailInStep g K B) :=
    fun h => (h s₂ t₂ h₂).mono (fun _ _ _ _ ⟨ρ', h, _⟩ => ⟨ρ', h⟩) fun _ _ _ _ h => h
  cases htarget with
  | object _ => exact .throw ⟨ρ, .of_ne nofun, h₂⟩
  | inline hinline =>
    cases target with
    | pid target =>
      refine rest ((same_self respects).bind_still ?_)
      rintro self _ rfl
      refine .ite Iff.rfl (fun _ => same_onActor (ActorM.same_deliverLocal target hvw)) fun _ => ?_
      exact (same_onKernel (Q := fun _ _ => True) fun hk left right iso =>
        (respects.send hk left right iso hvw target).mono (fun _ _ _ _ h => ⟨trivial, h⟩)
          fun _ _ _ _ h => h).mono fun _ _ _ _ => trivial
    | object _ => cases hinline
    | _ => exact .throw ⟨ρ, .of_ne nofun, h₂⟩

omit respects

omit [Kernel κ] in
theorem together_countOperand (hst : Session.InStep g K ρ s t) (payload : Int) :
    Together (countOperand payload : Exec κ Nat) (countOperand payload) s t
      (fun x s' y t' => x = y ∧ s' = s ∧ t' = t) (Session.FailInStep g K B) :=
  .ite Iff.rfl (fun _ => .throw ⟨ρ, .of_ne nofun, hst⟩) fun _ => .pure ⟨rfl, rfl, rfl⟩

omit [Kernel κ] in
theorem same_element (kind : IndexKind) (items : Array α) (index : Int) :
    Same g K B ρ (element kind items index : Exec κ α) (element kind items index)
      fun ρ' x y => ρ' = ρ ∧ x = y ∧ x ∈ items := by
  unfold element
  split
  · rename_i x hx
    refine .pure ⟨rfl, rfl, ?_⟩
    split at hx
    · cases hx
    · exact Array.mem_of_getElem? hx
  · exact .throw (.of_ne nofun)

theorem same_constantValue (c : Constant) :
    ActorM.Same g B ρ (constantValue c) (constantValue c) fun ρ' v w => v.Match ρ' w := by
  cases c with
  | integer n => exact .pure (.inline rfl)
  | real x => exact .pure (.inline rfl)
  | text s => exact ActorM.same_newString _

omit [Kernel κ] in
theorem together_returnFromCall (hst : Session.InStep g K ρ s t) (hg : g.guarded) :
    Together (ActorM.returnFromCall : Exec κ Signal) ActorM.returnFromCall s t
      (Session.ReturnInStep g.unguarded K) (Session.FailInStep g.unguarded K B) :=
  (together_onActor (ActorM.together_returnFromCall hst.actor hg) hst.kernel).mono
    (fun _ _ _ _ ⟨⟨ρ', h, heq⟩, hk⟩ => ⟨heq, ρ', h, hk⟩)
    fun _ _ _ _ ⟨⟨ρ', he, h⟩, hk⟩ => ⟨ρ', he, h, hk⟩

include respects

/-- Instructions of matched actors that neither return nor replace a local. -/
theorem together_execute_above (inline : l.Inline) (hst : Session.InStep g K ρ s t)
    (low : g.values.size ≤ s.actor.basePointer) {f : FuncRef} {p : LinkedPrototype}
    (hp : l.prototype f = .ok p) {op : Opcode} (stays : op ≠ .ret) (keeps : op ≠ .slv)
    (payload : Int) :
    Together (execute l f p op payload) (execute l f p op payload) s t (Session.ReturnInStep g K)
      (Session.FailInStep g K B) := by
  have go : ∀ {ρ : Matching} {m m' : Exec κ Unit} {Q : Matching → Unit → Unit → Prop},
      Same g K B ρ m m' Q →
      Same g K B ρ (do m; return Signal.proceed) (do m'; return Signal.proceed)
        fun _ x y => x = y :=
    fun h => h.bind fun _ _ _ _ => .pure rfl
  have push : ∀ {ρ : Matching} {v w : Value}, v.Match ρ w →
      Same g K B ρ (do onActor (ActorM.push v); return Signal.proceed)
        (do onActor (ActorM.push w); return Signal.proceed) fun _ x y => x = y :=
    fun hvw => go (same_onActor (ActorM.same_push hvw))
  cases op with
  | nop => exact .pure ⟨rfl, ρ, hst⟩
  | pop =>
    refine .bind <| (together_countOperand hst payload).mono ?_ fun _ _ _ _ h => h
    rintro count s' _ t' ⟨rfl, rfl, rfl⟩
    exact together_proceed <| (together_onActor (ActorM.together_popMany hst.actor low count)
      hst.kernel).mono (fun _ _ _ _ h => ⟨ρ, h.1, h.2⟩)
      fun _ _ _ _ ⟨⟨ρ', he, h⟩, hk⟩ => ⟨ρ', he, h, hk⟩
  | ldk =>
    refine together_of_same ((same_element _ _ _).bind_still ?_) hst
    rintro c _ ⟨rfl, -⟩
    exact (same_onActor (same_constantValue c)).bind fun _ _ _ => push
  | nil => exact together_of_same (push (.inline rfl)) hst
  | ldb => exact together_of_same (push (.inline rfl)) hst
  | lsi => exact together_of_same (push (.inline rfl)) hst
  | llv =>
    refine together_of_same (fun s t hst => .bind <| .bind <| .get <| .pure ?_) hst
    exact push (hst.actor.loadLocal payload) s t hst
  | slv => exact absurd rfl keeps
  | imp =>
    refine together_of_same ((same_element _ _ _).bind_still ?_) hst
    rintro v _ ⟨rfl, hv⟩
    exact push (.inline (inline f p hp v hv))
  | cls =>
    refine together_of_same ((same_element _ _ _).bind_still ?_) hst
    rintro position _ ⟨rfl, -⟩
    exact push (.inline rfl)
  | jmp => exact together_of_same (go (same_onActor (ActorM.same_jump _ _))) hst
  | jin =>
    refine .bind <| (together_pop hst low).mono ?_ fun _ _ _ _ h => h
    intro v s' w t' ⟨hvw, h, _⟩
    have hfalsy : v.isFalsy ↔ w.isFalsy := by cases hvw <;> exact Iff.rfl
    refine .ite hfalsy (fun _ => ?_) fun _ => .pure ⟨rfl, ρ, h⟩
    exact together_of_same (go (same_onActor (ActorM.same_jump _ _))) h
  | ivk =>
    refine .bind <| (together_countOperand hst payload).mono ?_ fun _ _ _ _ h => h
    rintro count s' _ t' ⟨rfl, rfl, rfl⟩
    exact together_invoke respects hst low count
  | ret => exact absurd rfl stays
  | snd => exact together_proceed (together_send respects hst low)
  | rcv =>
    have hreceive := ActorM.together_receive (B := B) hst.actor low p.code.size payload
    exact (together_onActor hreceive hst.kernel).mono
      (fun _ _ _ _ ⟨⟨ρ', h, _, heq⟩, hk⟩ => ⟨heq, ρ', h, hk⟩)
      fun _ _ _ _ ⟨⟨ρ', he, h⟩, hk⟩ => ⟨ρ', he, h, hk⟩
  | rmv => exact together_of_same (go (same_onActor ActorM.same_removeMessage)) hst
  | rwd => exact together_of_same (go (same_onActor ActorM.same_rewindMailbox)) hst

/-- Instructions of matched actors. -/
theorem together_execute (inline : l.Inline) (hst : Session.InStep g K ρ s t) (hg : g.guarded)
    {f : FuncRef} {p : LinkedPrototype} (hp : l.prototype f = .ok p) (op : Opcode) (payload : Int) :
    Together (execute l f p op payload) (execute l f p op payload) s t
      (Session.ReturnInStep g.unguarded K) (Session.FailInStep g.unguarded K B) := by
  by_cases hreturn : op = .ret
  · subst hreturn
    exact together_returnFromCall hst hg
  by_cases hstore : op = .slv
  · -- The arguments of the innermost call are not from the earlier time either.
    subst hstore
    refine together_unguarded (together_of_same ?_ hst)
    refine (same_onActor (ActorM.same_pop hg)).bind_still fun _ _ hvw => ?_
    exact (same_onActor (ActorM.same_storeLocal hg payload hvw)).bind fun _ _ _ _ => .pure rfl
  exact together_unguarded (together_execute_above respects inline hst (hst.actor.low hg) hp hreturn
    hstore payload)

omit respects in
/-- A step of actors in step, by what they do at the end of the code and for an instruction. -/
theorem together_step_of (hst : Session.InStep g K ρ s t)
    (leave : ∀ {frame p}, s.actor.frames.back? = some frame → l.prototype frame.func = .ok p →
      p.code[frame.ip]? = none →
      Together (ActorM.returnFromCall : Exec κ Signal) ActorM.returnFromCall
        s t (Session.ReturnInStep g.unguarded K) (Session.FailInStep g.unguarded K B))
    (perform : ∀ {frame p instruction op s' t'}, s.actor.frames.back? = some frame →
      l.prototype frame.func = .ok p → p.code[frame.ip]? = some instruction →
      instruction.opcode? = some op → Session.InStep g K ρ s' t' →
      s'.actor.basePointer = s.actor.basePointer →
      Together (execute l frame.func p op instruction.payload)
        (execute l frame.func p op instruction.payload) s' t' (Session.ReturnInStep g.unguarded K)
        (Session.FailInStep g.unguarded K B)) :
    Together (step l) (step l) s t (Session.ReturnInStep g.unguarded K)
      (Session.FailInStep g.unguarded K B) := by
  refine .bind <| .bind <| .get <| .pure ?_
  rw [← hst.actor.frames]
  cases hback : s.actor.frames.back? with
  | none => exact .pure ⟨rfl, ρ, hst.actor.unguarded, hst.kernel⟩
  | some frame =>
    refine .bind ?_
    cases hp : l.prototype frame.func with
    | error e =>
      exact .throw ⟨ρ, .of_ne (Loader.prototype_ne_heap hp), hst.actor.unguarded, hst.kernel⟩
    | ok p =>
      refine .pure ?_
      cases hcode : p.code[frame.ip]? with
      | none => exact leave hback hp hcode
      | some instruction =>
        refine .bind <| (together_onActor (ActorM.together_advanceIp hst.actor) hst.kernel).mono ?_
          fun _ _ _ _ h => h.1.elim
        intro _ s' _ t' ⟨⟨h, hbase⟩, hk⟩
        cases hop : instruction.opcode? with
        | none => exact .throw ⟨_, .of_ne nofun, h.unguarded, hk⟩
        | some op => exact perform hback hp hcode hop ⟨h, hk⟩ hbase

/-- Actors in step execute the same instruction, and are in step again; the innermost call may be
another one then. -/
theorem together_step (inline : l.Inline) (hst : Session.InStep g K ρ s t) (hg : g.guarded) :
    Together (step l) (step l) s t (Session.ReturnInStep g.unguarded K)
      (Session.FailInStep g.unguarded K B) :=
  together_step_of hst (fun _ _ _ => together_returnFromCall hst hg)
    fun _ hp _ _ h _ => together_execute respects inline h hg hp _ _

omit [Kernel κ] respects in
theorem same_resumeReceive (displacement : Int) :
    Same g K B ρ (resumeReceive l displacement : Exec κ Unit) (resumeReceive l displacement)
      fun _ _ _ => True := by
  refine (same_onActor ActorM.same_peekMessage).bind_still fun message message' hmessage => ?_
  cases hmessage with
  | some hvw => exact (same_onActor (ActorM.same_push hvw)).mono fun _ _ _ _ => trivial
  | none =>
    intro s t hst
    refine .bind <| .bind <| .get <| .pure ?_
    rw [← hst.actor.frames]
    cases s.actor.frames.back? with
    | none => exact .throw ⟨ρ, .of_ne nofun, hst⟩
    | some frame =>
      refine .bind ?_
      cases hp : l.prototype frame.func with
      | error e => exact .throw ⟨ρ, .of_ne (Loader.prototype_ne_heap hp), hst⟩
      | ok p =>
        exact .pure <| ((same_onActor (ActorM.same_jump _ _)).mono fun _ _ _ _ => trivial) s t hst

/-- What actors in step do next, by what they do in a step. -/
theorem together_advance_of (hst : Session.InStep g K ρ s t)
    (low : g.values.size ≤ s.actor.basePointer)
    (perform : ∀ {s' t'}, s.actor.entry = none → s.actor.pendingReceive = none →
      Session.InStep g K ρ s' t' → s'.actor.frames = s.actor.frames →
      Together (step l) (step l) s' t' (Session.ReturnInStep g.unguarded K)
        (Session.FailInStep g.unguarded K B)) :
    Together (advance l) (advance l) s t (Session.ReturnInStep g.unguarded K)
      (Session.FailInStep g.unguarded K B) := by
  refine .bind (.ok_ok rfl rfl ?_)
  rw [← hst.actor.entry]
  have hst₁ : Session.InStep g K ρ ⟨{ s.actor with entry := none }, s.kernel⟩
    ⟨{ t.actor with entry := none }, t.kernel⟩ := ⟨hst.actor.setEntry none, hst.kernel⟩
  cases hentry : s.actor.entry with
  | some argCount => exact together_unguarded (together_invoke respects hst₁ low argCount)
  | none =>
    refine .bind (.ok_ok rfl rfl ?_)
    dsimp only
    rw [← hst.actor.pendingReceive]
    have hst₂ : Session.InStep g K ρ
      ⟨{ s.actor with entry := none, pendingReceive := none }, s.kernel⟩
      ⟨{ t.actor with entry := none, pendingReceive := none }, t.kernel⟩ :=
      ⟨hst₁.actor.setPendingReceive none, hst.kernel⟩
    cases hpending : s.actor.pendingReceive with
    | some displacement =>
      refine together_unguarded (together_of_same ?_ hst₂)
      exact (same_resumeReceive displacement).bind fun _ _ _ _ => .pure rfl
    | none => exact perform hentry hpending hst₂ rfl

/-- Actors in step do the same next, and are in step again. -/
theorem together_advance (inline : l.Inline) (hst : Session.InStep g K ρ s t) (hg : g.guarded) :
    Together (advance l) (advance l) s t (Session.ReturnInStep g.unguarded K)
      (Session.FailInStep g.unguarded K B) :=
  together_advance_of respects hst (hst.actor.low hg) fun _ _ h _ =>
    together_step respects inline h hg

end Exec

end ActorMachine
