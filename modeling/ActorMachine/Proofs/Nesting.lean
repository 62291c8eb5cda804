import ActorMachine.Proofs.Courses
import ActorMachine.Proofs.Unwinding
import Mathlib.Data.List.TakeWhile

/-!
# What lies outside of a call

Whatever happens within a call leaves the calls outside of it as they are, and the protected calls
that have begun before it (`Outline.Outside`). The only way out is the return from that call or a
fault: as long as an actor is not about to return from a call, what it does next stays inside
(`Exec.stays_advance`).
-/

namespace ActorMachine

theorem toList_extract_zero (xs : Array α) (n : Nat) :
    (xs.extract 0 n).toList = xs.toList.take n := by
  simp

namespace Outline

/-- The calls up to a depth are the same, the call of that depth has the same place on the stack,
and the protected calls up to that depth are the same. -/
structure Outside (depth : Nat) (o o' : Outline) : Prop where
  frames : o'.frames.extract 0 depth = o.frames.extract 0 depth
  callee : ∀ f, o.frames[depth]? = some f →
    ∃ f', o'.frames[depth]? = some f' ∧ f'.base = f.base ∧ f'.argCount = f.argCount
  catches : o'.catches.filter (fun c => decide (c.frameDepth ≤ depth)) =
    o.catches.filter fun c => decide (c.frameDepth ≤ depth)

namespace Outside

variable {depth : Nat} {o o' o'' : Outline}

theorem of_eq (hframes : o'.frames = o.frames) (hcatches : o'.catches = o.catches) :
    Outside depth o o' where
  frames := by rw [hframes]
  callee f hf := ⟨f, by rw [hframes, hf], rfl, rfl⟩
  catches := by rw [hcatches]

theorem trans (h : Outside depth o o') (h' : Outside depth o' o'') : Outside depth o o'' where
  frames := h'.frames.trans h.frames
  callee f hf := by
    obtain ⟨f', hf', hbase, hargs⟩ := h.callee f hf
    obtain ⟨f'', hf'', hbase', hargs'⟩ := h'.callee f' hf'
    exact ⟨f'', hf'', hbase'.trans hbase, hargs'.trans hargs⟩
  catches := h'.catches.trans h.catches

/-- What comes before may leave calls and protected calls alone. -/
theorem after (h : Outside depth o' o'') (hframes : o'.frames = o.frames)
    (hcatches : o'.catches = o.catches) : Outside depth o o'' :=
  (of_eq hframes hcatches).trans h

/-- The call itself is still under way. -/
theorem lt_size (h : Outside depth o o') (hlt : depth < o.frames.size) :
    depth < o'.frames.size := by
  obtain ⟨f, hf, -⟩ := h.callee _ (Array.getElem?_eq_getElem hlt)
  exact (Array.getElem?_eq_some_iff.mp hf).1

/-- The innermost call goes on somewhere else in its code. -/
theorem setIp {frame : Frame} (back : o.frames.back? = some frame) (hlt : depth < o.frames.size)
    (ip : Nat) : Outside depth o { o with frames := o.frames.pop.push { frame with ip } } where
  frames := by
    apply Array.ext'
    rw [toList_extract_zero, toList_extract_zero, Array.toList_push, toList_of_back? back]
    have hlength := congrArg List.length (toList_of_back? back)
    rw [List.length_append, Array.length_toList, List.length_singleton] at hlength
    rw [List.take_append_of_le_length (by omega), List.take_append_of_le_length (by omega)]
  callee f hf := by
    have hframe := (sameCalls_setIp back ip).2.2 depth
    have hsize := size_pop_push back { frame with ip }
    obtain ⟨f', hf'⟩ : ∃ f', (o.frames.pop.push { frame with ip })[depth]? = some f' :=
      ⟨_, Array.getElem?_eq_getElem (by rw [hsize]; exact hlt)⟩
    obtain ⟨g, hg, hbase, hargs⟩ := hframe f' hf'
    rw [hf] at hg
    cases hg
    exact ⟨f', hf', hbase.symm, hargs.symm⟩
  catches := rfl

/-- A call begins within the call. -/
theorem pushFrame (frame : Frame) (hlt : depth < o.frames.size) :
    Outside depth o { o with frames := o.frames.push frame } where
  frames := by
    apply Array.ext'
    rw [toList_extract_zero, toList_extract_zero, Array.toList_push]
    rw [List.take_append_of_le_length (by rw [Array.length_toList]; omega)]
  callee f hf := ⟨f, by
    show (o.frames.push frame)[depth]? = _
    rw [Array.getElem?_push_lt hlt, ← hf, Array.getElem?_eq_getElem hlt], rfl, rfl⟩
  catches := rfl

/-- A call within the call returns. -/
theorem popFrame (hlt : depth + 1 < o.frames.size) :
    Outside depth o { o with frames := o.frames.pop } where
  frames := by
    apply Array.ext'
    rw [toList_extract_zero, toList_extract_zero, Array.toList_pop, List.dropLast_eq_take,
      List.take_take, Array.length_toList, Nat.min_eq_left (by omega)]
  callee f hf := ⟨f, by
    show o.frames.pop[depth]? = _
    rw [Array.getElem?_pop, if_pos (by omega), hf], rfl, rfl⟩
  catches := rfl

/-- A protected call that begins within the call is none of those outside. -/
theorem setCatches (inner catches : List CatchPoint)
    (above : ∀ c ∈ inner, depth < c.frameDepth)
    (h : o.catches = inner ++ catches ∨ inner ++ o.catches = catches) :
    Outside depth o { o with catches } where
  frames := rfl
  callee f hf := ⟨f, hf, rfl, rfl⟩
  catches := by
    have hnone : inner.filter (fun c => decide (c.frameDepth ≤ depth)) = [] := by
      rw [List.filter_eq_nil_iff]
      intro c hc
      have := above c hc
      simp only [decide_eq_true_eq]
      omega
    rcases h with h | h
    · rw [h, List.filter_append, hnone, List.nil_append]
    · rw [← h, List.filter_append, hnone, List.nil_append]

end Outside

end Outline

open Outline

/-- The operation leaves everything outside of a call as it is. -/
def Stays (depth : Nat) (view : σ → Outline) (m : EStateM ε σ α) : Prop :=
  ∀ s, depth < (view s).frames.size →
    Ends m s (fun _ s' => (view s).Outside depth (view s')) fun _ s' =>
      (view s).Outside depth (view s')

namespace Stays

variable {ε σ α β : Type} {depth : Nat} {view : σ → Outline} {m : EStateM ε σ α}

theorem of_keeps (h : Keeps view m) : Stays depth view m := by
  intro s _
  refine (h.ends s).mono (fun _ s' heq => ?_) fun _ s' heq => ?_
  · rw [heq]
    exact .of_eq rfl rfl
  · rw [heq]
    exact .of_eq rfl rfl

/-- Calls and protected calls are all that matters. -/
theorem of_calls (h : ∀ s, Ends m s
      (fun _ s' => (view s').frames = (view s).frames ∧ (view s').catches = (view s).catches)
      fun _ s' => (view s').frames = (view s).frames ∧ (view s').catches = (view s).catches) :
    Stays depth view m :=
  fun s _ => (h s).mono (fun _ _ h => .of_eq h.1 h.2) fun _ _ h => .of_eq h.1 h.2

theorem pure (a : α) : Stays depth view (pure a : EStateM ε σ α) := of_keeps (.pure a)

theorem throw (e : ε) : Stays depth view (throw e : EStateM ε σ α) := of_keeps (.throw e)

theorem bind {f : α → EStateM ε σ β} (first : Stays depth view m)
    (rest : ∀ a, Stays depth view (f a)) : Stays depth view (m >>= f) := by
  intro s hlt
  apply Ends.bind
  refine (first s hlt).mono (fun a s' h => ?_) fun _ _ h => h
  exact (rest a s' (h.lt_size hlt)).mono (fun _ _ h' => h.trans h') fun _ _ h' => h.trans h'

theorem ite {p : Prop} [Decidable p] {n : EStateM ε σ α} (pos : p → Stays depth view m)
    (neg : ¬p → Stays depth view n) : Stays depth view (if p then m else n) := by
  split
  · exact pos ‹_›
  · exact neg ‹_›

theorem onActor {κ : Type} {m : ActorM α} (h : Stays depth Actor.outline m) :
    Stays depth (fun s : Session κ => s.actor.outline) (Exec.onActor m) :=
  fun s hlt => Exec.ends_onActor (h s.actor hlt)

end Stays

namespace ActorM

variable {depth : Nat}

theorem stays_push (v : Value) : Stays depth Actor.outline (push v) := by
  refine .of_calls fun a => (ends_push v a).mono ?_ ?_
  · intro _ a' h
    rw [h.2]
    exact ⟨rfl, rfl⟩
  · intro _ a' h
    rw [h.2.1]
    exact ⟨rfl, rfl⟩

theorem stays_pop : Stays depth Actor.outline pop := by
  refine .of_calls fun a => (ends_pop a).mono ?_ ?_
  · intro _ a' h
    rw [h.2.2]
    exact ⟨rfl, rfl⟩
  · intro _ a' h
    rw [h.2]
    exact ⟨rfl, rfl⟩

theorem stays_popMany (count : Nat) : Stays depth Actor.outline (popMany count) := by
  refine .of_calls fun a => (ends_popMany count a).mono ?_ ?_
  · intro _ a' h
    rw [h.2]
    exact ⟨rfl, rfl⟩
  · intro _ a' h
    rw [h.2]
    exact ⟨rfl, rfl⟩

theorem stays_pushFrame (f : FuncRef) (argCount : Nat) :
    Stays depth Actor.outline (pushFrame f argCount) := by
  intro a hlt
  refine (ends_pushFrame f argCount a).mono ?_ ?_
  · intro _ a' h
    rw [h.2]
    exact .pushFrame _ hlt
  · intro _ a' h
    rw [h.2]
    exact .of_eq rfl rfl

theorem stays_pushCatchPoint (height : Nat) :
    Stays depth Actor.outline (pushCatchPoint height) := by
  intro a hlt
  refine .modify (.setCatches [⟨a.frames.size, height⟩] _ ?_ (.inr rfl))
  intro c hc
  rw [List.mem_singleton.mp hc]
  exact hlt

theorem stays_jump (codeLength : Nat) (displacement : Int) :
    Stays depth Actor.outline (jump codeLength displacement) := by
  intro a hlt
  refine .bind <| .get ?_
  split
  · exact .throw (.of_eq rfl rfl)
  · rename_i frame hback
    refine .ite (fun _ => .throw (.of_eq rfl rfl)) fun _ => .modify ?_
    have heq := modify_last hback fun frame' : Frame =>
      { frame' with ip := ((frame.ip : Int) + displacement).toNat }
    simp only [heq]
    exact .setIp hback hlt _

/-- Whatever only moves the mailbox cursor stays inside. -/
theorem stays_mailbox {m : ActorM α} (h : ∀ a, Ends m a
      (fun _ a' => ∃ mailbox, a' = { a with mailbox }) fun _ a' => a' = a) :
    Stays depth Actor.outline m := by
  refine .of_calls fun a => (h a).mono ?_ ?_
  · intro _ a' h
    obtain ⟨mailbox, rfl⟩ := h
    exact ⟨rfl, rfl⟩
  · intro _ a' h
    rw [h]
    exact ⟨rfl, rfl⟩

theorem stays_peekMessage : Stays depth Actor.outline peekMessage := by
  refine stays_mailbox fun a => .bind <| .get ?_
  split
  · exact .pure ⟨_, rfl⟩
  · exact .bind <| .modify <| .pure ⟨_, rfl⟩

theorem stays_removeMessage : Stays depth Actor.outline removeMessage := by
  refine stays_mailbox fun a => .bind <| .get ?_
  split
  · exact .throw rfl
  · exact .modify ⟨_, rfl⟩

theorem stays_rewindMailbox : Stays depth Actor.outline rewindMailbox :=
  stays_mailbox fun _ => .modify ⟨_, rfl⟩

theorem Delivers.stays {m : ActorM Unit} (h : Delivers m) : Stays depth Actor.outline m := by
  refine .of_calls fun a => (h a).mono ?_ ?_
  · intro _ a' h
    rw [h.2]
    exact ⟨rfl, rfl⟩
  · intro _ a' h
    rw [h]
    exact ⟨rfl, rfl⟩

theorem stays_receive (codeLength : Nat) (displacement : Int) :
    Stays depth Actor.outline (receive codeLength displacement) := by
  refine .bind stays_pop fun timeout => .bind stays_peekMessage fun message => ?_
  cases message with
  | some v => exact .bind (stays_push v) fun _ => .pure _
  | none =>
    refine .bind (.of_keeps (keeps_timeoutOf timeout)) fun time => .ite (fun _ => ?_) fun _ => ?_
    · exact .bind (stays_jump _ _) fun _ => .pure _
    · exact .bind (fun _ _ => .modify (.of_eq rfl rfl)) fun _ => .pure _

/-- The protected calls that a return settles are those of the innermost call. -/
theorem stays_settleAll (points : List CatchPoint) {a : Actor} (catches : a.catches = points)
    (hlt : depth < a.frames.size) :
    Ends (settleAll points) a (fun _ a' => a.outline.Outside depth a'.outline)
      fun _ a' => a.outline.Outside depth a'.outline := by
  induction points generalizing a with
  | nil => exact .pure (.of_eq rfl rfl)
  | cons point outer ih =>
    refine .bind <| .get <| .ite (fun hmatch => .bind <| .modify <| .bind ?_) fun _ =>
      .pure (.of_eq rfl rfl)
    have hdrop : a.outline.Outside depth { a.outline with catches := outer } := by
      refine .setCatches [point] _ ?_ (.inl catches)
      intro c hc
      rw [List.mem_singleton.mp hc, hmatch.1]
      exact hlt
    refine (ends_pairWithTop (.integer 0) { a with catches := outer }).mono ?_ ?_
    · intro v b hb
      refine .bind <| .modify ?_
      have hframes : b.frames = a.frames := congrArg Outline.frames hb
      have hcatches : b.catches = outer := congrArg Outline.catches hb
      have hpushed : a.outline.Outside depth (Actor.outline { b with stack := b.stack.push v }) :=
        hdrop.trans (.of_eq hframes hcatches)
      refine (ih (a := { b with stack := b.stack.push v }) hcatches
        (by show depth < b.frames.size; rw [hframes]; exact hlt)).mono ?_ ?_
      · exact fun _ _ h => hpushed.trans h
      · exact fun _ _ h => hpushed.trans h
    · intro e b hb
      rw [hb]
      exact hdrop.trans (.of_eq rfl rfl)

theorem stays_leaveResult (height : Nat) (v : Value) :
    Stays depth Actor.outline (leaveResult height v) := by
  intro a hlt
  refine .bind <| .modify <| .bind <| .modify <| .bind <| .modify <| .bind <| .get ?_
  have hsplit := List.takeWhile_append_dropWhile (l := a.catches)
    (p := fun c => decide (a.frames.size < c.frameDepth))
  have hdrop : a.outline.Outside depth { a.outline with
      catches := a.catches.dropWhile fun c => decide (a.frames.size < c.frameDepth) } := by
    refine .setCatches _ _ (fun c hc => ?_) (.inl hsplit.symm)
    have := List.mem_takeWhile_imp hc
    have hlt : depth < a.frames.size := hlt
    simp only [decide_eq_true_eq] at this
    omega
  let b : Actor := { a with
    stack := (a.stack.shrink height).push v
    catches := a.catches.dropWhile fun c => decide (a.frames.size < c.frameDepth) }
  have hcut : a.outline.Outside depth b.outline := hdrop.trans (.of_eq rfl rfl)
  refine (stays_settleAll (a := b) _ rfl hlt).mono ?_ ?_
  · exact fun _ _ h => hcut.trans h
  · exact fun _ _ h => hcut.trans h

theorem stays_afterReturn : Stays depth Actor.outline afterReturn :=
  .of_keeps (.bind .get fun _ => .pure _)

/-- A return from a call within the call stays inside. -/
theorem stays_returnFromCall {a : Actor} (hlt : depth + 1 < a.frames.size) :
    Ends returnFromCall a (fun _ a' => a.outline.Outside depth a'.outline)
      fun _ a' => a.outline.Outside depth a'.outline := by
  refine .bind <| .get ?_
  split
  · exact .throw (.of_eq rfl rfl)
  · have hpop : a.outline.Outside depth (Actor.outline { a with frames := a.frames.pop }) :=
      .popFrame hlt
    refine .bind <| .modify <| .bind <| .get ?_
    have hrest : ∀ height v, Stays depth Actor.outline (do
        leaveResult height v
        afterReturn) := fun height v => .bind (stays_leaveResult height v) fun _ =>
          stays_afterReturn
    refine (hrest _ _ { a with frames := a.frames.pop } ?_).mono ?_ ?_
    · show depth < a.frames.pop.size
      rw [Array.size_pop]
      omega
    · exact fun _ _ h => hpop.trans h
    · exact fun _ _ h => hpop.trans h

end ActorM

/-- The innermost call of an actor is at a return or at the end of its code. -/
def Actor.AtReturn (l : Loader) (a : Actor) : Prop :=
  ∃ frame p, a.frames.back? = some frame ∧ l.prototype frame.func = .ok p ∧
    (p.code[frame.ip]? = none ∨
      ∃ instruction, p.code[frame.ip]? = some instruction ∧ instruction.opcode? = some .ret)

namespace Exec

variable {κ : Type} {l : Loader} {depth : Nat}

theorem stays_finishNative (height : Nat) (answer : Answer) :
    Stays depth (fun s : Session κ => s.actor.outline) (finishNative height answer) := by
  refine .bind (.onActor (ActorM.stays_leaveResult _ _)) fun _ => ?_
  cases answer with
  | giveTurn => exact .pure _
  | exit => exact .pure _
  | value v => exact .onActor ActorM.stays_afterReturn

theorem stays_ofResult (result : Except Fault α) :
    Stays depth (fun s : Session κ => s.actor.outline) (ofResult result) :=
  .of_keeps (keeps_ofResult result)

variable [Kernel κ]

theorem stays_call (argCount : Nat) {protect : Nat → Exec κ Signal}
    (hprotect : ∀ height, Stays depth (fun s : Session κ => s.actor.outline) (protect height)) :
    Stays depth (fun s : Session κ => s.actor.outline) (call l argCount protect) := by
  refine .bind (.onActor ActorM.stays_pop) fun callee => .bind (.of_keeps keeps_actor) fun a => ?_
  refine .ite (fun _ => .bind (.throw _) fun _ => ?_) fun _ => ?_
  all_goals
    cases callee with
    | function f =>
      exact .bind (stays_ofResult _) fun _ =>
        .bind (.onActor (ActorM.stays_pushFrame f argCount)) fun _ => .pure _
    | native id =>
      dsimp only
      cases l.natives.get? id.toNat with
      | none => exact .throw _
      | some entry =>
        dsimp only
        cases entry.builtin with
        | operation op =>
          exact .bind (.of_keeps (op.keeps_outline _ _)) fun _ => stays_finishNative _ _
        | protectedCall => exact hprotect _
    | _ => exact .throw _

theorem stays_invoke (argCount : Nat) :
    Stays depth (fun s : Session κ => s.actor.outline) (invoke l argCount) := by
  induction argCount with
  | zero =>
    unfold invoke
    exact stays_call 0 fun _ => .throw _
  | succ n ih =>
    unfold invoke
    exact stays_call (n + 1) fun height =>
      .bind (.onActor (ActorM.stays_pushCatchPoint height)) fun _ => ih

theorem stays_send : Stays depth (fun s : Session κ => s.actor.outline) send := by
  refine .bind (.onActor ActorM.stays_pop) fun message =>
    .bind (.onActor ActorM.stays_pop) fun target => ?_
  split
  · refine .bind (.of_keeps keeps_self) fun own => .ite (fun _ => ?_) fun _ => ?_
    · exact .onActor (ActorM.delivers_deliverLocal _ _).stays
    · exact .of_keeps (keeps_onKernel _)
  · exact .throw _

/-- An instruction other than a return stays inside of the innermost call. -/
theorem stays_execute (f : FuncRef) (p : LinkedPrototype) (op : Opcode) (payload : Int)
    (hop : op ≠ .ret) :
    Stays depth (fun s : Session κ => s.actor.outline) (execute l f p op payload) := by
  have go : ∀ {m : Exec κ Unit}, Stays depth (fun s : Session κ => s.actor.outline) m →
      Stays depth (fun s : Session κ => s.actor.outline) (do m; return Signal.proceed) :=
    fun h => .bind h fun _ => .pure _
  have push : ∀ v, Stays depth (fun s : Session κ => s.actor.outline)
      (ActorM.push v : Exec κ Unit) :=
    fun v => .onActor (ActorM.stays_push v)
  cases op with
  | nop => exact .pure _
  | pop =>
    exact .bind (.of_keeps (keeps_countOperand _)) fun _ => go (.onActor (ActorM.stays_popMany _))
  | ldk =>
    exact .bind (.of_keeps (keeps_element _ _ _)) fun _ =>
      .bind (.onActor (.of_keeps (ActorM.keeps_constantValue _))) fun _ => go (push _)
  | nil => exact go (push _)
  | ldb => exact go (push _)
  | lsi => exact go (push _)
  | llv => exact .bind (.of_keeps keeps_actor) fun _ => go (push _)
  | slv =>
    exact .bind (.onActor ActorM.stays_pop) fun _ =>
      go (.onActor (.of_keeps (ActorM.keeps_storeLocal _ _)))
  | imp => exact .bind (.of_keeps (keeps_element _ _ _)) fun _ => go (push _)
  | cls => exact .bind (.of_keeps (keeps_element _ _ _)) fun _ => go (push _)
  | jmp => exact go (.onActor (ActorM.stays_jump _ _))
  | jin =>
    refine .bind (.onActor ActorM.stays_pop) fun v => .ite (fun _ => ?_) fun _ => .pure _
    exact go (.onActor (ActorM.stays_jump _ _))
  | ivk => exact .bind (.of_keeps (keeps_countOperand _)) fun _ => stays_invoke _
  | ret => exact absurd rfl hop
  | snd => exact go stays_send
  | rcv => exact .onActor (ActorM.stays_receive _ _)
  | rmv => exact go (.onActor ActorM.stays_removeMessage)
  | rwd => exact go (.onActor ActorM.stays_rewindMailbox)

/-- A step stays inside of every call from which it does not return. -/
theorem stays_step {s : Session κ} (hlt : depth < s.actor.frames.size)
    (hnot : s.actor.AtReturn l → depth + 1 < s.actor.frames.size) :
    Ends (step l) s (fun _ s' => s.actor.outline.Outside depth s'.actor.outline)
      fun _ s' => s.actor.outline.Outside depth s'.actor.outline := by
  refine .bind <| (ends_actor s).mono ?_ fun _ _ h => h.elim
  intro a s' h
  obtain ⟨rfl, rfl⟩ := h
  cases hback : s'.actor.frames.back? with
  | none => exact .pure (.of_eq rfl rfl)
  | some frame =>
    refine .bind <| (ends_ofResult _ _).mono ?_ ?_
    · intro p s h
      obtain ⟨hp, rfl⟩ := h
      cases hcode : p.code[frame.ip]? with
      | none =>
        exact ends_onActor (ActorM.stays_returnFromCall
          (hnot ⟨frame, p, hback, hp, .inl hcode⟩))
      | some instruction =>
        refine .bind <| ends_onActor <| .modify ?_
        have heq := modify_last hback fun frame : Frame => { frame with ip := frame.ip + 1 }
        simp only [heq]
        let started : Session κ := { s with actor := { s.actor with
          frames := s.actor.frames.pop.push { frame with ip := frame.ip + 1 } } }
        have hip : s.actor.outline.Outside depth started.actor.outline := .setIp hback hlt _
        split
        · exact .throw hip
        · rename_i op hop
          by_cases hret : op = .ret
          · subst hret
            have hmore := hnot ⟨frame, p, hback, hp, .inr ⟨instruction, hcode, hop⟩⟩
            have hsize := size_pop_push hback { frame with ip := frame.ip + 1 }
            have hmore : depth + 1 < started.actor.frames.size := hsize.symm ▸ hmore
            have hreturn := ActorM.stays_returnFromCall hmore
            exact ends_onActor (hreturn.mono (fun _ _ h => hip.trans h) fun _ _ h => hip.trans h)
          · refine (stays_execute frame.func p op instruction.payload hret started
              (hip.lt_size hlt)).mono ?_ ?_
            · exact fun _ _ h => hip.trans h
            · exact fun _ _ h => hip.trans h
    · intro e s h
      rw [h]
      exact .of_eq rfl rfl

omit [Kernel κ] in
theorem stays_resumeReceive (displacement : Int) :
    Stays depth (fun s : Session κ => s.actor.outline) (resumeReceive l displacement) := by
  refine .bind (.onActor ActorM.stays_peekMessage) fun message => ?_
  cases message with
  | some v => exact .onActor (ActorM.stays_push v)
  | none =>
    refine .bind (.of_keeps keeps_actor) fun a => ?_
    split
    · exact .throw _
    · exact .bind (stays_ofResult _) fun p => .onActor (ActorM.stays_jump _ _)

end Exec

namespace Actor

/-- The next thing that an actor does is an instruction. -/
def Steps (a : Actor) : Prop :=
  a.entry = none ∧ a.pendingReceive = none

instance (a : Actor) : Decidable a.Steps :=
  inferInstanceAs (Decidable (_ ∧ _))

end Actor

namespace Exec

variable {κ : Type} [Kernel κ] {l : Loader} {depth : Nat} {s : Session κ}

omit [Kernel κ] in
theorem takeEntry_eq_ok (s : Session κ) : (liftM takeEntry : Exec κ (Option Nat)) s =
    .ok s.actor.entry ⟨{ s.actor with entry := none }, s.kernel⟩ :=
  rfl

omit [Kernel κ] in
theorem takePendingReceive_eq_ok (s : Session κ) :
    (liftM takePendingReceive : Exec κ (Option Int)) s =
    .ok s.actor.pendingReceive ⟨{ s.actor with pendingReceive := none }, s.kernel⟩ :=
  rfl

/-- A first call is made before anything else. -/
theorem advance_of_entry {argCount : Nat} (entry : s.actor.entry = some argCount) :
    advance l s = invoke l argCount ⟨{ s.actor with entry := none }, s.kernel⟩ := by
  unfold advance
  rw [bind_of_ok (takeEntry_eq_ok s), entry]

/-- A receive that is blocked is taken up before the next instruction. -/
theorem advance_of_pending {displacement : Int} (entry : s.actor.entry = none)
    (pending : s.actor.pendingReceive = some displacement) :
    advance l s = (do resumeReceive l displacement; return Signal.proceed : Exec κ Signal)
      ⟨{ s.actor with entry := none, pendingReceive := none }, s.kernel⟩ := by
  unfold advance
  rw [bind_of_ok (takeEntry_eq_ok s), entry]
  dsimp only
  rw [bind_of_ok (takePendingReceive_eq_ok _), pending]

/-- Otherwise an actor executes an instruction. -/
theorem advance_of_steps (steps : s.actor.Steps) : advance l s = step l s := by
  obtain ⟨a, k⟩ := s
  obtain ⟨hentry, hpending⟩ := steps
  have hself : ({ a with entry := none, pendingReceive := none } : Actor) = a := by
    cases a
    simp only at hentry hpending
    rw [hentry, hpending]
  unfold advance
  rw [bind_of_ok (takeEntry_eq_ok _), hentry]
  dsimp only
  rw [bind_of_ok (takePendingReceive_eq_ok _), hpending]
  exact congrArg (fun a => step l ⟨a, k⟩) hself

/-- What an actor does next stays inside of every call from which it does not return. -/
theorem stays_advance (hlt : depth < s.actor.frames.size)
    (hnot : s.actor.Steps → s.actor.AtReturn l → depth + 1 < s.actor.frames.size) :
    Ends (advance l) s (fun _ s' => s.actor.outline.Outside depth s'.actor.outline)
      fun _ s' => s.actor.outline.Outside depth s'.actor.outline := by
  cases hentry : s.actor.entry with
  | some argCount =>
    unfold Ends
    rw [advance_of_entry hentry]
    exact (stays_invoke argCount (⟨{ s.actor with entry := none }, s.kernel⟩ : Session κ) hlt).mono
      (fun _ _ h => h.after rfl rfl) fun _ _ h => h.after rfl rfl
  | none =>
    cases hpending : s.actor.pendingReceive with
    | some displacement =>
      have hresume : Stays depth (fun s : Session κ => s.actor.outline)
          (do resumeReceive l displacement; return Signal.proceed) :=
        .bind (stays_resumeReceive displacement) fun _ => .pure _
      unfold Ends
      rw [advance_of_pending hentry hpending]
      exact (hresume ⟨{ s.actor with entry := none, pendingReceive := none }, s.kernel⟩ hlt).mono
        (fun _ _ h => h.after rfl rfl) fun _ _ h => h.after rfl rfl
    | none =>
      unfold Ends
      rw [advance_of_steps ⟨hentry, hpending⟩]
      exact stays_step hlt (hnot ⟨hentry, hpending⟩)

end Exec

end ActorMachine
