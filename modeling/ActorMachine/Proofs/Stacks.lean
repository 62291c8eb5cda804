import ActorMachine.Proofs.Fits
import ActorMachine.Proofs.Making

/-!
# Equivalent stacks, calls and mailboxes

What the parts of the instructions that concern the actor alone do in actors that are in step.
Values from an earlier time stay in their place as long as the innermost call is known to leave them
alone: what is taken from the stack lies above the base of this call.
-/

namespace ActorMachine

open Memory

variable {g : Origin} {B : Fault → Prop} {ρ : Matching} {a b : Actor}

namespace Actor.InStep

/-- A value is put on top of each stack. -/
theorem push (h : a.InStep g ρ b) {v w : Value} (hvw : v.Match ρ w) :
    InStep g ρ { a with stack := a.stack.push v } { b with stack := b.stack.push w } := by
  have hle := h.relocated.size_le
  refine h.setStack (h.stack.push hvw) ?_ fun i hi => ?_
  · rw [Array.size_push]
    omega
  · rw [Array.getElem?_push_lt (by omega), Array.getElem?_eq_getElem]

/-- The stacks are cut to a height above the values from the earlier time. -/
theorem shrink (h : a.InStep g ρ b) {height : Nat} (low : g.values.size ≤ height) :
    InStep g ρ { a with stack := a.stack.shrink height }
      { b with stack := b.stack.shrink height } := by
  have hle := h.relocated.size_le
  refine h.setStack (h.stack.shrink height) ?_ fun i hi => ?_
  · rw [Array.size_shrink]
    omega
  · rw [Array.shrink_eq_take, Array.getElem?_extract, if_pos (by omega), Nat.zero_add]

/-- The top of each stack is taken away; it is not a value from the earlier time. -/
theorem pop (h : a.InStep g ρ b) (low : g.values.size < a.stack.size) :
    InStep g ρ { a with stack := a.stack.pop } { b with stack := b.stack.pop } := by
  refine h.setStack h.stack.pop ?_ fun i hi => ?_
  · rw [Array.size_pop]
    omega
  · rw [Array.getElem?_pop, if_pos (by omega)]

/-- A value above those from the earlier time is replaced. -/
theorem setIfInBounds (h : a.InStep g ρ b) {v w : Value} (hvw : v.Match ρ w) {i : Nat}
    (low : g.values.size ≤ i) : InStep g ρ { a with stack := a.stack.setIfInBounds i v }
      { b with stack := b.stack.setIfInBounds i w } := by
  have hle := h.relocated.size_le
  refine h.setStack (h.stack.setIfInBounds i hvw) ?_ fun j hj => ?_
  · rw [Array.size_setIfInBounds]
    exact hle
  · rw [Array.getElem?_setIfInBounds_ne (by omega)]

/-- A call begins whose arguments lie above the values from the earlier time. -/
theorem pushFrame (h : a.InStep g ρ b) (func : FuncRef) {argCount : Nat}
    (low : g.guarded → g.values.size ≤ a.stack.size - argCount) :
    InStep g ρ { a with frames := a.frames.push ⟨func, 0, a.stack.size, argCount⟩ }
      { b with frames := b.frames.push ⟨func, 0, b.stack.size, argCount⟩ } := by
  rw [← h.frames, ← h.size_eq]
  refine h.setFrames _ fun hg => ?_
  simp only [basePointer, Actor.argCount, Array.back?_push]
  exact low hg

/-- The innermost call goes on. -/
theorem modifyFrame (h : a.InStep g ρ b) {f : Frame → Frame} (hbase : ∀ x, (f x).base = x.base)
    (hargs : ∀ x, (f x).argCount = x.argCount) :
    InStep g ρ { a with frames := a.frames.modify (a.frames.size - 1) f }
      { b with frames := b.frames.modify (b.frames.size - 1) f } := by
  rw [← h.frames]
  refine h.setFrames _ fun hg => ?_
  have hguard := h.guard hg
  unfold basePointer Actor.argCount at hguard ⊢
  cases hback : a.frames.back? with
  | none =>
    have hempty : a.frames = #[] := Array.back?_eq_none_iff.mp hback
    rw [hempty] at hguard ⊢
    exact hguard
  | some x =>
    simp only [modify_last hback f, Array.back?_push, hbase, hargs]
    simp only [hback] at hguard
    exact hguard

/-- What is guarded lies below the base of the innermost call. -/
theorem low (h : a.InStep g ρ b) (hg : g.guarded) : g.values.size ≤ a.basePointer :=
  Nat.le_trans (h.guard hg) (Nat.sub_le _ _)

end Actor.InStep

namespace ActorM

/-- Putting a value on the stack. -/
theorem together_push (h : a.InStep g ρ b) {v w : Value} (hvw : v.Match ρ w) :
    Together (push v) (push w) a b
      (fun _ a₁ _ b₁ => a₁.InStep g ρ b₁ ∧ a₁.heap = a.heap ∧ b₁.heap = b.heap)
      (Actor.FailInStep g B) := by
  refine .bind <| .get <| .ite ?_ (fun _ => .throw ⟨ρ, .of_ne nofun, h⟩) fun _ =>
    .modify ⟨h.push hvw, rfl, rfl⟩
  rw [h.limits, h.size_eq]

theorem same_push {v w : Value} (hvw : v.Match ρ w) :
    Same g B ρ (push v) (push w) fun ρ' _ _ => ρ' = ρ :=
  fun _ _ h => (together_push h hvw).mono (fun _ _ _ _ h => ⟨ρ, h.1, rfl⟩) fun _ _ _ _ h => h

/-- Taking a value from above the base of the innermost call. -/
theorem together_pop (h : a.InStep g ρ b) (low : g.values.size ≤ a.basePointer) :
    Together pop pop a b
      (fun v a₁ w b₁ => v.Match ρ w ∧ a₁.InStep g ρ b₁ ∧ a₁.basePointer = a.basePointer)
      (Actor.FailInStep g B) := by
  refine .bind <| .get <| .ite ?_ (fun _ => .throw ⟨ρ, .of_ne nofun, h⟩) fun hlt => ?_
  · rw [h.size_eq, h.basePointer_eq]
  · have hpop := h.pop (by omega)
    have hback := h.stack.back?
    unfold Actor.top?
    generalize a.stack.back? = x at *
    generalize b.stack.back? = y at *
    cases hback with
    | none => exact .throw ⟨ρ, .of_ne nofun, h⟩
    | some hvw => exact .bind <| .modify <| .pure ⟨hvw, hpop, rfl⟩

theorem same_pop (hg : g.guarded) : Same g B ρ pop pop fun ρ' v w => ρ' = ρ ∧ v.Match ρ w :=
  fun _ _ h => (together_pop h (h.low hg)).mono (fun _ _ _ _ ⟨hvw, h, _⟩ => ⟨ρ, h, rfl, hvw⟩)
    fun _ _ _ _ h => h

theorem together_truncate (h : a.InStep g ρ b) {height : Nat} (low : g.values.size ≤ height) :
    Together (truncate height) (truncate height) a b (fun _ a₁ _ b₁ => a₁.InStep g ρ b₁)
      (Actor.FailInStep g B) := .modify (h.shrink low)

theorem together_popMany (h : a.InStep g ρ b) (low : g.values.size ≤ a.basePointer) (count : Nat) :
    Together (popMany count) (popMany count) a b (fun _ a₁ _ b₁ => a₁.InStep g ρ b₁)
      (Actor.FailInStep g B) := by
  refine .bind <| .get <| .ite ?_ (fun _ => .throw ⟨ρ, .of_ne nofun, h⟩) fun hcount => ?_
  · rw [h.size_eq, h.basePointer_eq]
  · rw [← h.size_eq]
    have hle := h.relocated.size_le
    exact together_truncate h (by omega)

/-- Replacing a local. -/
theorem same_storeLocal (hg : g.guarded) (index : Int) {v w : Value} (hvw : v.Match ρ w) :
    Same g B ρ (storeLocal index v) (storeLocal index w) fun ρ' _ _ => ρ' = ρ := by
  intro a b h
  have hguard := h.guard hg
  refine .bind <| .get ?_
  rw [← h.localPosition?_eq]
  cases hposition : a.localPosition? index with
  | none => exact .throw ⟨ρ, .of_ne nofun, h⟩
  | some position =>
    have hlow : g.values.size ≤ position := by
      unfold Actor.localPosition? at hposition
      simp only [Option.ite_none_right_eq_some, Option.some.injEq] at hposition
      omega
    exact .modify ⟨ρ, h.setIfInBounds hvw hlow, rfl⟩

/-- Beginning a call whose arguments lie above the values from the earlier time. -/
theorem together_pushFrame (h : a.InStep g ρ b) (func : FuncRef) {argCount : Nat}
    (low : g.guarded → g.values.size ≤ a.stack.size - argCount) :
    Together (pushFrame func argCount) (pushFrame func argCount) a b
      (fun _ a₁ _ b₁ => a₁.InStep g ρ b₁) (Actor.FailInStep g B) := by
  refine .bind <| .get <| .ite ?_ (fun _ => .throw ⟨ρ, .of_ne nofun, h⟩) fun _ =>
    .modify (h.pushFrame func low)
  rw [h.limits, h.frames]

/-- The innermost call goes on with its next instruction. -/
theorem together_advanceIp (h : a.InStep g ρ b) :
    Together (modifyFrame fun frame => { frame with ip := frame.ip + 1 })
      (modifyFrame fun frame => { frame with ip := frame.ip + 1 }) a b
      (fun _ a₁ _ b₁ => a₁.InStep g ρ b₁ ∧ a₁.basePointer = a.basePointer)
        fun _ _ _ _ => False := by
  refine .modify ⟨h.modifyFrame (fun _ => rfl) fun _ => rfl, ?_⟩
  unfold Actor.basePointer
  cases hback : a.frames.back? with
  | none =>
    have hempty : a.frames = #[] := Array.back?_eq_none_iff.mp hback
    simp [hempty]
  | some frame => simp only [modify_last hback, Array.back?_push]

/-- Beginning a protected call. -/
theorem together_pushCatchPoint (h : a.InStep g ρ b) (height : Nat) :
    Together (pushCatchPoint height) (pushCatchPoint height) a b
      (fun _ a₁ _ b₁ => a₁.InStep g ρ b₁ ∧ a₁.basePointer = a.basePointer)
      (Actor.FailInStep g B) := by
  refine .modify ⟨?_, rfl⟩
  simpa only [h.frames, h.catches] using h.setCatches (⟨b.frames.size, height⟩ :: b.catches)

/-! ## Outcomes -/

theorem together_popRaw (h : a.InStep g ρ b) (low : g.values.size < a.stack.size) :
    Together popRaw popRaw a b (fun v a₁ w b₁ => v.Match ρ w ∧ a₁.InStep g ρ b₁)
      (Actor.FailInStep g B) := by
  refine .bind <| .get <| .bind <| .modify <| .pure ⟨?_, h.pop low⟩
  have hback := h.stack.back?
  unfold Actor.top?
  generalize a.stack.back? = x at *
  generalize b.stack.back? = y at *
  cases hback with
  | none => exact .inline rfl
  | some hvw => exact hvw

/-- Pairing an inline value with the top of the stack, which is not from the earlier time. -/
theorem together_pairWithTop (h : a.InStep g ρ b) (low : g.values.size < a.stack.size)
    {first : Value} (hfirst : first.ref? = none) :
    Together (pairWithTop first) (pairWithTop first) a b
      (fun v a₁ w b₁ => ∃ ρ', a₁.InStep g ρ' b₁ ∧ v.Match ρ' w) (Actor.FailInStep g B) := by
  have hnew := together_newTupleRef (B := B) h 2
  have hkeep := keeps_newTupleRef 2 a
  -- Making the tuple keeps the stack, so that what is popped then is still not from the earlier
  -- time.
  cases hrun : newTupleRef 2 a with
  | ok p a₁ =>
    obtain ⟨p', b₁, hrun', ρ', h', hpp, -⟩ := hnew.of_ok hrun
    have hsize : a₁.stack.size = a.stack.size := by
      unfold leaves at hkeep
      rw [hrun] at hkeep
      exact congrArg Outline.height hkeep
    have hrest : Together (do
        let second ← popRaw
        onHeap (HeapM.tupleSet p 0 first)
        onHeap (HeapM.tupleSet p 1 second)
        return .object .tuple p : ActorM Value) (do
        let second ← popRaw
        onHeap (HeapM.tupleSet p' 0 first)
        onHeap (HeapM.tupleSet p' 1 second)
        return .object .tuple p' : ActorM Value) a₁ b₁
        (fun v a₁ w b₁ => ∃ ρ', a₁.InStep g ρ' b₁ ∧ v.Match ρ' w) (Actor.FailInStep g B) := by
      refine .bind <| (together_popRaw h' (by omega)).mono ?_ fun _ _ _ _ h => h
      rintro second a₂ second' b₂ ⟨hmatch, h₂⟩
      have set : ∀ {v w : Value} (i : Int), v.Match ρ' w →
        Same g B ρ' (onHeap (HeapM.tupleSet p i v))
          (onHeap (HeapM.tupleSet p' i w)) fun ρ'' _ _ => ρ'' = ρ' ∧ True := by
        intro v w i hvw
        refine same_onHeap (F := fun _ => True) fun h h' iso => ?_
        exact (HeapM.agree_tupleSet iso hpp hvw fun _ _ => trivial).mono fun _ _ _ _ _ => trivial
      refine Sim.bind_still (P := fun _ _ => True) (set 0 (.inline hfirst))
        (fun _ _ _ => ?_) a₂ b₂ h₂
      refine Sim.bind_still (P := fun _ _ => True) (set 1 hmatch) fun _ _ _ => ?_
      exact .pure (.object hpp)
    unfold Together pairWithTop
    rw [hrun, hrun']
    exact hrest
  | error e a₁ =>
    obtain ⟨e', b₁, hrun', ρ', he, h'⟩ := hnew.of_error hrun
    have hsize : a₁.stack.size = a.stack.size := by
      unfold leaves at hkeep
      rw [hrun] at hkeep
      exact congrArg Outline.height hkeep
    have hrest : Together (do let _ ← popRaw; throw e : ActorM Value)
        (do let _ ← popRaw; throw e' : ActorM Value) a₁ b₁
        (fun v a₁ w b₁ => ∃ ρ', a₁.InStep g ρ' b₁ ∧ v.Match ρ' w) (Actor.FailInStep g B) :=
      .bind <| (together_popRaw h' (by omega)).mono (fun _ _ _ _ h => .throw ⟨ρ', he, h.2⟩)
        fun _ _ _ _ h => h
    unfold Together pairWithTop
    rw [hrun, hrun']
    exact hrest

/-- Settling protected calls whose result is not from the earlier time. -/
theorem together_settleAll (points : List CatchPoint) (h : a.InStep g ρ b)
    (low : g.values.size < a.stack.size) :
    Together (settleAll points) (settleAll points) a b (fun _ a₁ _ b₁ => ∃ ρ', a₁.InStep g ρ' b₁)
      (Actor.FailInStep g B) := by
  induction points generalizing a b ρ with
  | nil => exact .pure ⟨ρ, h⟩
  | cons point outer ih =>
    refine .bind <| .get <| .ite ?_ (fun _ => ?_) fun _ => .pure ⟨ρ, h⟩
    · rw [h.frames, h.size_eq]
    · refine .bind <| .modify <| .bind <|
        (together_pairWithTop (h.setCatches outer) low rfl).mono ?_
        fun _ _ _ _ h => h
      rintro v a₁ w b₁ ⟨ρ', h', hmatch⟩
      have hle := h'.relocated.size_le
      refine .bind <| .modify <| ih (h'.push hmatch) ?_
      rw [Array.size_push]
      omega

theorem together_settle (h : a.InStep g ρ b) (low : g.values.size < a.stack.size) :
    Together settle settle a b (fun _ a₁ _ b₁ => ∃ ρ', a₁.InStep g ρ' b₁)
      (Actor.FailInStep g B) := by
  refine .bind <| .modify <| .bind <| .get ?_
  have hdrop : b.catches.dropWhile (fun point => decide (b.frames.size < point.frameDepth)) =
      a.catches.dropWhile fun point => decide (a.frames.size < point.frameDepth) := by
    rw [h.frames, h.catches]
  rw [hdrop]
  exact together_settleAll _ (h.setCatches _) low

/-- Leaving matched results at a height above the values from the earlier time. -/
theorem together_leaveResult (h : a.InStep g ρ b) {height : Nat} (low : g.values.size ≤ height)
    {v w : Value} (hvw : v.Match ρ w) :
    Together (leaveResult height v) (leaveResult height w) a b
      (fun _ a₁ _ b₁ => ∃ ρ', a₁.InStep g ρ' b₁) (Actor.FailInStep g B) := by
  have hcut := h.shrink low
  have hle := hcut.relocated.size_le
  refine .bind <| .modify <| .bind <| .modify <| together_settle (hcut.push hvw) ?_
  rw [Array.size_push]
  omega

theorem same_afterReturn : Same g B ρ afterReturn afterReturn fun ρ' x y => ρ' = ρ ∧ x = y := by
  intro a b h
  refine .bind <| .get <| .pure ⟨ρ, h, rfl, ?_⟩
  rw [h.frames]

/-- Returning from a call whose arguments lie above the values from the earlier time. The call
around it need not leave them alone. -/
theorem together_returnFromCall (h : a.InStep g ρ b) (hg : g.guarded) :
    Together returnFromCall returnFromCall a b
      (fun x a₁ y b₁ => ∃ ρ', a₁.InStep g.unguarded ρ' b₁ ∧ x = y)
      (Actor.FailInStep g.unguarded B) := by
  have hguard := h.guard hg
  refine .bind <| .get ?_
  rw [← h.frames]
  unfold Actor.basePointer Actor.argCount at hguard
  cases hback : a.frames.back? with
  | none => exact .throw ⟨ρ, .of_ne nofun, h.unguarded⟩
  | some frame =>
    simp only [hback] at hguard
    refine .bind <| .modify <| .bind <| .get ?_
    rw [← h.frames, ← h.size_eq]
    have hpopped := h.unguarded.setFrames a.frames.pop fun h => h.elim
    have hback := h.stack.back?
    have hresult : Value.Match ρ
        (if frame.base < a.stack.size then a.top?.getD .nil else .nil)
        (if frame.base < a.stack.size then b.top?.getD .nil else .nil) := by
      unfold Actor.top?
      split
      · generalize a.stack.back? = x at *
        generalize b.stack.back? = y at *
        cases hback with
        | none => exact .inline rfl
        | some hvw => exact hvw
      · exact .inline rfl
    refine .bind <| (together_leaveResult hpopped hguard hresult).mono ?_ fun _ _ _ _ h => h
    rintro _ a₁ _ b₁ ⟨ρ', h'⟩
    refine (same_afterReturn a₁ b₁ h').mono ?_ fun _ _ _ _ h => h
    rintro x a₂ y b₂ ⟨ρ'', h₂, rfl, rfl⟩
    exact ⟨_, h₂, rfl⟩

/-! ## Jumps and receives -/

theorem same_jump (codeLength : Nat) (displacement : Int) :
    Same g B ρ (jump codeLength displacement) (jump codeLength displacement)
      fun ρ' _ _ => ρ' = ρ := by
  intro a b h
  refine .bind <| .get ?_
  rw [← h.frames]
  cases a.frames.back? with
  | none => exact .throw ⟨ρ, .of_ne nofun, h⟩
  | some frame =>
    exact .ite Iff.rfl (fun _ => .throw ⟨ρ, .of_ne nofun, h⟩) fun _ =>
      .modify ⟨ρ, h.modifyFrame (fun _ => rfl) fun _ => rfl, rfl⟩

theorem same_peekMessage : Same g B ρ peekMessage peekMessage fun ρ' x y =>
    ρ' = ρ ∧ Option.Rel (Value.Match ρ) x y := by
  intro a b h
  refine .bind <| .get ?_
  have hmessage := h.messages.rel a.mailbox.cursor
  unfold Mailbox.peek?
  rw [← h.cursor]
  generalize a.mailbox.messages[a.mailbox.cursor]? = x at *
  generalize b.mailbox.messages[a.mailbox.cursor]? = y at *
  cases hmessage with
  | none => exact .pure ⟨ρ, h, rfl, .none⟩
  | some hvw => exact .bind <| .modify <| .pure ⟨ρ, h.setMailbox h.messages _, rfl, .some hvw⟩

theorem same_removeMessage : Same g B ρ removeMessage removeMessage fun ρ' _ _ => ρ' = ρ := by
  intro a b h
  refine .bind <| .get ?_
  cases hcursor : a.mailbox.cursor with
  | zero =>
    have hleft : a.mailbox.removePeeked? = none := by rw [Mailbox.removePeeked?, hcursor]
    have hright : b.mailbox.removePeeked? = none := by
      rw [Mailbox.removePeeked?, ← h.cursor, hcursor]
    rw [hleft, hright]
    exact .throw ⟨ρ, .of_ne nofun, h⟩
  | succ last =>
    have hleft : a.mailbox.removePeeked? = a.mailbox.messages[last]?.map fun v =>
        (v, ⟨a.mailbox.messages.eraseIdxIfInBounds last, 0⟩) := by
          rw [Mailbox.removePeeked?, hcursor]
    have hright : b.mailbox.removePeeked? = b.mailbox.messages[last]?.map fun v =>
        (v, ⟨b.mailbox.messages.eraseIdxIfInBounds last, 0⟩) := by
      rw [Mailbox.removePeeked?, ← h.cursor, hcursor]
    rw [hleft, hright]
    have hmessage := h.messages.rel last
    have hrest := h.messages.eraseIdxIfInBounds last
    generalize a.mailbox.messages[last]? = x at *
    generalize b.mailbox.messages[last]? = y at *
    cases hmessage with
    | none => exact .throw ⟨ρ, .of_ne nofun, h⟩
    | some _ => exact .modify ⟨ρ, h.setMailbox hrest 0, rfl⟩

theorem same_rewindMailbox : Same g B ρ rewindMailbox rewindMailbox fun ρ' _ _ => ρ' = ρ :=
  .modify fun _ _ h => ⟨ρ, h.setMailbox h.messages 0, rfl⟩

theorem same_timeoutOf {v w : Value} (hvw : v.Match ρ w) :
    Same g B ρ (timeoutOf v) (timeoutOf w) fun ρ' x y => ρ' = ρ ∧ x = y := by
  cases hvw with
  | inline hv =>
    cases v with
    | integer n => exact Sim.pure (x := n.toInt) (y := n.toInt) ⟨rfl, rfl⟩
    | nil => exact Sim.pure (x := (-1 : Int)) (y := (-1 : Int)) ⟨rfl, rfl⟩
    | _ => exact .throw (.of_ne nofun)
  | object _ => exact .throw (.of_ne nofun)

theorem together_receive (h : a.InStep g ρ b) (low : g.values.size ≤ a.basePointer)
    (codeLength : Nat) (displacement : Int) :
    Together (receive codeLength displacement) (receive codeLength displacement) a b
      (fun x a₁ y b₁ => ∃ ρ', a₁.InStep g ρ' b₁ ∧ ρ' = ρ ∧ x = y) (Actor.FailInStep g B) := by
  refine .bind <| (together_pop h low).mono ?_ fun _ _ _ _ h => h
  intro timeout a₁ timeout' b₁ ⟨htimeout, h₁, _⟩
  refine (same_peekMessage.bind_still fun message message' hmessage => ?_) a₁ b₁ h₁
  cases hmessage with
  | some hvw =>
    refine (same_push hvw).bind fun ρ' _ _ h => ?_
    exact Sim.pure ⟨h, rfl⟩
  | none =>
    refine (same_timeoutOf htimeout).bind_still fun time _ htime => ?_
    subst htime
    refine .ite Iff.rfl (fun _ => ?_) fun _ => ?_
    · refine (same_jump _ _).bind fun ρ' _ _ h => ?_
      exact Sim.pure ⟨h, rfl⟩
    · have hpending : Same g B ρ (modify fun a => { a with pendingReceive := some displacement })
          (modify fun a => { a with pendingReceive := some displacement }) fun ρ' _ _ => ρ' = ρ :=
        .modify fun a b h => ⟨ρ, h.setPendingReceive _, rfl⟩
      refine hpending.bind fun ρ' _ _ h => ?_
      exact Sim.pure ⟨h, rfl⟩

end ActorM

end ActorMachine
