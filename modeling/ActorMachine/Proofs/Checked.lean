import ActorMachine.Proofs.Unwinding

/-!
# The machine with its accesses checked

The machine takes differences of stack positions and reads places of the stack and of the mailbox
without asking whether they are in range. Here is the machine with these questions asked: it fails
with `crash` where a difference would be negative or a place is not there. Where calls, protected
calls and stack fit together it never does, for `Checked.advance_eq` holds for every `crash`.
-/

namespace ActorMachine

namespace Checked

variable (crash : Fault)

/-- The difference of two numbers, the second of which must not be the greater one. -/
def difference (m n : Nat) : ActorM Nat :=
  if n ≤ m then return m - n else throw crash

/-- The value at a place of the stack, which must be there. -/
def stackAt (i : Nat) : ActorM Value := do
  match (← get).stack[i]? with
  | some v => return v
  | none => throw crash

/-- Takes `count` values from the stack. -/
def popMany (count : Nat) : ActorM Unit := do
  let a ← get
  if (← difference crash a.stack.size a.basePointer) < count then
    throw .stackUnderflow
  ActorM.truncate (← difference crash a.stack.size count)

/-- The stack position of a local. -/
def localPosition? (index : Int) : ActorM (Option Nat) := do
  let a ← get
  let position := a.basePointer + index
  let low ← difference crash a.basePointer a.argCount
  return if (low : Int) ≤ position ∧ position < a.stack.size then some position.toNat else none

/-- The local at an index. -/
def loadLocal (index : Int) : ActorM Value := do
  match ← localPosition? crash index with
  | some position => stackAt crash position
  | none => return .nil

/-- Replaces the local at an index. -/
def storeLocal (index : Int) (v : Value) : ActorM Unit := do
  match ← localPosition? crash index with
  | some position =>
    let _ ← stackAt crash position
    modify fun a => { a with stack := a.stack.setIfInBounds position v }
  | none => throw (.invalidIndex .stackSlot index)

/-- Removes the message peeked last. -/
def removeMessage : ActorM Unit := do
  let mailbox := (← get).mailbox
  match mailbox.cursor with
  | 0 => throw .nothingPeeked
  | last + 1 =>
    match mailbox.messages[last]? with
    | some _ =>
      modify fun a => { a with mailbox := ⟨mailbox.messages.eraseIdxIfInBounds last, 0⟩ }
    | none => throw crash

/-- The `count` values below a height of the stack, as arguments of a native call. -/
def below (height count : Nat) : Arguments where
  count
  read i := do stackAt crash (← difference crash (← difference crash height 1) i)

/-- The result of a call with a given base. -/
def result (base : Nat) : ActorM Value := do
  let a ← get
  if base < a.stack.size then stackAt crash (← difference crash a.stack.size 1) else return .nil

/-- Returns from the innermost call. -/
def returnFromCall : ActorM Signal := do
  match (← get).frames.back? with
  | none => throw .stackUnderflow
  | some frame =>
    modify fun a => { a with frames := a.frames.pop }
    let result ← result crash frame.base
    ActorM.leaveResult (← difference crash frame.base frame.argCount) result
    ActorM.afterReturn

variable {κ : Type} [Kernel κ]

/-- Takes the callee from the stack and calls it. -/
def call (l : Loader) (argCount : Nat) (protect : (height : Nat) → Exec κ Signal) :
    Exec κ Signal := do
  let callee ← ActorM.pop
  let a ← Exec.actor
  if (← difference crash a.stack.size a.basePointer) < argCount then
    throw .stackUnderflow
  match callee with
  | .function f =>
    let _ ← Exec.ofResult (l.prototype f)
    ActorM.pushFrame f argCount
    return .proceed
  | .native id =>
    match l.natives.get? id.toNat with
    | none => throw (.unknownNative id)
    | some entry =>
      match entry.builtin with
      | .operation op =>
        let answer ← op.run (below crash a.stack.size argCount)
        Exec.finishNative (← difference crash a.stack.size argCount) answer
      | .protectedCall => protect (← difference crash a.stack.size argCount)
  | callee => throw (.notCallable callee.kind)

/-- Makes the call that is on the stack. -/
def invoke (l : Loader) : (argCount : Nat) → Exec κ Signal
  | 0 => call crash l 0 fun _ => throw (.arity 1 0)
  | argCount + 1 => call crash l (argCount + 1) fun height => do
    ActorM.pushCatchPoint height
    invoke l argCount

/-- Executes an operation; those that take no difference and read no place are as they were. -/
def execute (l : Loader) (f : FuncRef) (p : LinkedPrototype) (op : Opcode) (payload : Int) :
    Exec κ Signal := do
  match op with
  | .pop =>
    popMany crash (← Exec.countOperand payload)
    return .proceed
  | .llv =>
    ActorM.push (← loadLocal crash payload)
    return .proceed
  | .slv =>
    storeLocal crash payload (← ActorM.pop)
    return .proceed
  | .ivk => invoke crash l (← Exec.countOperand payload)
  | .ret => returnFromCall crash
  | .rmv =>
    removeMessage crash
    return .proceed
  | op => Exec.execute l f p op payload

/-- Executes one instruction of the innermost call. -/
def step (l : Loader) : Exec κ Signal := do
  match (← Exec.actor).frames.back? with
  | none => return .pause .done
  | some frame =>
    let p ← Exec.ofResult (l.prototype frame.func)
    match p.code[frame.ip]? with
    | none => returnFromCall crash
    | some instruction =>
      ActorM.modifyFrame fun frame => { frame with ip := frame.ip + 1 }
      match instruction.opcode? with
      | none => throw (.invalidOpcode instruction.opcodeByte)
      | some op => execute crash l frame.func p op instruction.payload

/-- What an actor does next. -/
def advance (l : Loader) : Exec κ Signal := do
  match ← Exec.takeEntry with
  | some argCount => invoke crash l argCount
  | none =>
    match ← Exec.takePendingReceive with
    | some displacement =>
      Exec.resumeReceive l displacement
      return .proceed
    | none => step crash l

/-! ## No check fails -/

open Outline

section

variable {crash : Fault} {l : Loader}

theorem difference_of_le {m n : Nat} (h : n ≤ m) : difference crash m n = pure (m - n) :=
  if_pos h

theorem stackAt_of_lt {a : Actor} {i : Nat} (h : i < a.stack.size) :
    SameAt a (stackAt crash i) (pure (a.stack.getD i .nil)) := by
  unfold SameAt stackAt
  show EStateM.bind _ _ a = _
  unfold EStateM.bind
  show (match a.stack[i]? with | some v => pure v | none => throw crash : ActorM Value) a = _
  rw [Array.getD_eq_getD_getElem?, Array.getElem?_eq_getElem h]
  rfl

theorem popMany_eq (count : Nat) {a : Actor} (fits : a.outline.Fits l) :
    SameAt a (popMany crash count) (ActorM.popMany count) := by
  have hfloor : a.basePointer ≤ a.stack.size := fits.floor_le_height
  refine .get_bind ?_
  rw [difference_of_le hfloor, pure_bind]
  refine .ite (fun _ => .refl _) fun h => ?_
  rw [difference_of_le (by omega), pure_bind]
  exact .refl _

theorem argCount_le_basePointer {a : Actor} (fits : a.outline.Fits l) :
    a.argCount ≤ a.basePointer := by
  unfold Actor.argCount Actor.basePointer
  cases hback : a.frames.back? with
  | none => exact Nat.le_refl _
  | some frame =>
    refine (fits.inside frame ?_).1
    show frame ∈ a.frames.toList
    rw [toList_of_back? hback]
    exact List.mem_append_right _ (List.mem_singleton.mpr rfl)

theorem localPosition?_eq (index : Int) {a : Actor} (fits : a.outline.Fits l) :
    SameAt a (localPosition? crash index) (pure (a.localPosition? index)) := by
  refine .get_left ?_
  rw [difference_of_le (argCount_le_basePointer fits), pure_bind]
  exact .refl _

/-- The place of a local is within the stack. -/
theorem lt_size_of_localPosition? {a : Actor} {index : Int} {position : Nat}
    (h : a.localPosition? index = some position) : position < a.stack.size := by
  unfold Actor.localPosition? at h
  simp only [Option.ite_none_right_eq_some, Option.some.injEq] at h
  omega

theorem loadLocal_eq (index : Int) {a : Actor} (fits : a.outline.Fits l) :
    SameAt a (loadLocal crash index) (pure (a.loadLocal index)) := by
  refine .of_pure (localPosition?_eq index fits) ?_
  unfold Actor.loadLocal
  cases h : a.localPosition? index with
  | none => exact .refl _
  | some position => exact stackAt_of_lt (lt_size_of_localPosition? h)

theorem storeLocal_eq (index : Int) (v : Value) {a : Actor} (fits : a.outline.Fits l) :
    SameAt a (storeLocal crash index v) (ActorM.storeLocal index v) := by
  refine .of_pure (localPosition?_eq index fits) (.get_right ?_)
  cases h : a.localPosition? index with
  | none => exact .refl _
  | some position => exact .of_pure (stackAt_of_lt (lt_size_of_localPosition? h)) (.refl _)

theorem removeMessage_eq {a : Actor} (fits : a.outline.Fits l) :
    SameAt a (removeMessage crash) ActorM.removeMessage := by
  refine .get_bind ?_
  have hcursor : a.mailbox.cursor ≤ a.mailbox.messages.size := fits.cursor_le
  generalize a.mailbox = mailbox at hcursor
  obtain ⟨messages, cursor⟩ := mailbox
  unfold Mailbox.removePeeked?
  cases cursor with
  | zero => exact .refl _
  | succ last =>
    have hlt : last < messages.size := hcursor
    simp only [Array.getElem?_eq_getElem hlt, Option.map_some]
    exact .refl _

theorem alike_below {height count : Nat} (h : count ≤ height) :
    Arguments.Alike (fun o => o.height = height) (below crash height count)
      (.below height count) := by
  refine ⟨rfl, fun i (hi : i < count) a (ha : a.stack.size = height) => ⟨?_, ?_⟩⟩
  · show SameAt a (do stackAt crash (← difference crash (← difference crash height 1) i)) _
    rw [difference_of_le (by omega), pure_bind, difference_of_le (by omega), pure_bind]
    exact stackAt_of_lt (by omega)
  · show Actor.outline (leaves (do
      stackAt crash (← difference crash (← difference crash height 1) i)) a) = _
    rw [difference_of_le (by omega), pure_bind, difference_of_le (by omega), pure_bind]
    unfold leaves
    rw [show stackAt crash (height - 1 - i) a = _ from stackAt_of_lt (by omega)]
    rfl

theorem result_eq (base : Nat) (a : Actor) :
    SameAt a (result crash base)
      (pure (if base < a.stack.size then a.top?.getD .nil else .nil)) := by
  refine .get_left ?_
  by_cases h : base < a.stack.size
  · rw [if_pos h, if_pos h, difference_of_le (by omega), pure_bind]
    refine (stackAt_of_lt (by omega)).trans ?_
    rw [Actor.top?, Array.back?_eq_getElem?, Array.getD_eq_getD_getElem?]
    exact .refl _
  · rw [if_neg h, if_neg h]
    exact .refl _

theorem returnFromCall_eq {a : Actor} (fits : a.outline.Fits l) :
    SameAt a (returnFromCall crash) ActorM.returnFromCall := by
  refine .get_bind ?_
  cases hback : a.frames.back? with
  | none => exact .refl _
  | some frame =>
    have hmem : frame ∈ a.frames.toList := by
      rw [toList_of_back? hback]
      exact List.mem_append_right _ (List.mem_singleton.mpr rfl)
    refine .bind (.refl _) (.modify (.get_right (.of_pure (result_eq _ _) ?_)))
    rw [difference_of_le (fits.inside frame hmem).1, pure_bind]
    exact .refl _

variable {κ : Type} [Kernel κ]

omit [Kernel κ] in
theorem difference_lift {m n : Nat} (h : n ≤ m) {s : Session κ} :
    SameAt s (liftM (difference crash m n) : Exec κ Nat) (pure (m - n)) := by
  rw [difference_of_le h]
  exact .refl _

/-- A call asks for nothing that is out of range, if what becomes of a protected call does not. -/
theorem call_eq {argCount : Nat} {protect protect' : Nat → Exec κ Signal} {s : Session κ}
    (fits : s.actor.outline.Fits l)
    (hprotect : ∀ s' : Session κ, s'.actor.outline = { s.actor.outline with
        height := s.actor.stack.size - 1 } → s'.actor.outline.Fits l →
      s'.actor.outline.floor + argCount ≤ s'.actor.stack.size →
      SameAt s' (protect (s'.actor.stack.size - argCount))
        (protect' (s'.actor.stack.size - argCount))) :
    SameAt s (call crash l argCount protect) (Exec.call l argCount protect') := by
  refine .bind (.refl _) <| Exec.ends_onActor <| (ActorM.ends_popCallee fits).mono ?_
    fun _ _ _ => trivial
  rintro callee a ⟨hout, hfits, -⟩
  refine .bind (.refl _) <| (Exec.ends_actor _).mono ?_ fun _ _ h => h.elim
  rintro b s' ⟨hb, hs'⟩
  rw [hb, hs']
  clear hb hs'
  refine .of_pure (difference_lift hfits.floor_le_height) (.ite (fun _ => .refl _) fun hargs => ?_)
  have hfloor : a.outline.floor ≤ a.stack.size := hfits.floor_le_height
  have hargs : a.outline.floor + argCount ≤ a.stack.size := by
    have : ¬ a.stack.size - a.outline.floor < argCount := hargs
    omega
  have hle : argCount ≤ a.stack.size := by omega
  cases callee with
  | native id =>
    show SameAt _ (match l.natives.get? id.toNat with
      | none => _
      | some entry => _) (match l.natives.get? id.toNat with
      | none => _
      | some entry => _)
    cases l.natives.get? id.toNat with
    | none => exact .refl _
    | some entry =>
      show SameAt _ (match entry.builtin with
        | .operation op => _
        | .protectedCall => _) (match entry.builtin with
        | .operation op => _
        | .protectedCall => _)
      cases entry.builtin with
      | operation op =>
        have hsame := (op.alike (alike_below hle) : Alike _ _
          (op.run (below crash a.stack.size argCount) : Exec κ Answer) _) ⟨a, s.kernel⟩ rfl
        refine .bind hsame.1 <| .intro (fun answer s' run => ?_) fun _ _ _ => trivial
        exact .of_pure (difference_lift hle) (.refl _)
      | protectedCall =>
        exact .of_pure (difference_lift hle) (hprotect ⟨a, s.kernel⟩ hout hfits hargs)
  | _ => exact .refl _

theorem invoke_eq (argCount : Nat) {s : Session κ} (fits : s.actor.outline.Fits l) :
    SameAt s (invoke crash l argCount) (Exec.invoke l argCount) := by
  induction argCount generalizing s with
  | zero =>
    unfold invoke Exec.invoke
    exact call_eq fits fun _ _ _ _ => .refl _
  | succ n ih =>
    unfold invoke Exec.invoke
    refine call_eq fits fun s' hs' hfits hargs => ?_
    have hmax : s.actor.stack.size ≤ s.actor.limits.maxStack := fits.height_le
    have hsize : s'.actor.stack.size = s.actor.stack.size - 1 := congrArg Outline.height hs'
    have hlimits : s'.actor.limits = s.actor.limits := congrArg Outline.limits hs'
    refine .bind (.refl _) <| Exec.ends_onActor <| .modify (ih ?_)
    exact hfits.pushCatch (s'.actor.stack.size - (n + 1)) (by omega)
      (by show _ < s'.actor.limits.maxStack; rw [hlimits]; omega)

theorem execute_eq (func : FuncRef) (p : LinkedPrototype) (op : Opcode) (payload : Int)
    {s : Session κ} (fits : s.actor.outline.Fits l) :
    SameAt s (execute crash l func p op payload) (Exec.execute l func p op payload) := by
  -- What is asked before the accesses leaves the outline as it is.
  have counted : ∀ {α : Type} {f f' : Nat → Exec κ α},
      (∀ count s', s'.actor.outline.Fits l → SameAt s' (f count) (f' count)) →
      SameAt s (Exec.countOperand payload >>= f) (Exec.countOperand payload >>= f') :=
    fun h => .bind (.refl _) <| ((Exec.keeps_countOperand payload).ends s).mono
      (fun count s' hs' => h count s' (by
        have hs' : s'.actor.outline = s.actor.outline := hs'
        rwa [hs'])) fun _ _ _ => trivial
  have after : ∀ {m m' : ActorM Unit}, SameAt s.actor m m' →
      SameAt s (do m; return Signal.proceed : Exec κ Signal) (do m'; return Signal.proceed) :=
    fun h => .bind (Exec.sameAt_onActor h) (.intro (fun _ _ _ => .refl _) fun _ _ _ => trivial)
  cases op with
  | pop =>
    refine counted fun count s' hfits => ?_
    exact .bind (Exec.sameAt_onActor (popMany_eq count hfits))
      (.intro (fun _ _ _ => .refl _) fun _ _ _ => trivial)
  | llv => exact .of_pure (Exec.sameAt_onActor (loadLocal_eq payload fits)) (.refl _)
  | slv =>
    refine .bind (.refl _) <| Exec.ends_onActor <| (ActorM.sound_pop s.actor fits).mono ?_
      fun _ _ _ => trivial
    intro v a ha
    exact .bind (Exec.sameAt_onActor (storeLocal_eq payload v ha.1))
      (.intro (fun _ _ _ => .refl _) fun _ _ _ => trivial)
  | ivk => exact counted fun count s' hfits => invoke_eq count hfits
  | ret => exact Exec.sameAt_onActor (returnFromCall_eq fits)
  | rmv => exact after (removeMessage_eq fits)
  | _ => exact .refl _

/-- One step asks for nothing that is out of range. -/
theorem step_eq {s : Session κ} (fits : s.actor.outline.Fits l) :
    SameAt s (step crash l) (Exec.step l) := by
  refine .bind (.refl _) <| (Exec.ends_actor s).mono ?_ fun _ _ h => h.elim
  rintro a s' ⟨ha, hs'⟩
  rw [ha, hs']
  clear ha hs'
  cases hback : s.actor.frames.back? with
  | none => exact .refl _
  | some frame =>
    refine .bind (.refl _) <| (Exec.ends_ofResult _ _).mono ?_ fun _ _ _ => trivial
    rintro p s' ⟨hp, rfl⟩
    cases hcode : p.code[frame.ip]? with
    | none => exact Exec.sameAt_onActor (returnFromCall_eq fits)
    | some instruction =>
      refine .bind (.refl _) <| Exec.ends_onActor <| .modify ?_
      cases instruction.opcode? with
      | none => exact .refl _
      | some op =>
        refine execute_eq _ _ _ _ ?_
        have hlt : frame.ip < p.code.size := (Array.getElem?_eq_some_iff.mp hcode).1
        have heq := modify_last hback fun frame : Frame => { frame with ip := frame.ip + 1 }
        simp only [heq]
        exact fits.setIp hback hp hlt

/-- What an actor does next asks for nothing that is out of range. -/
theorem advance_eq {s : Session κ} (fits : s.actor.outline.Fits l) :
    SameAt s (advance crash l) (Exec.advance l) := by
  refine .bind (.refl _) <| Exec.ends_onActor <| (Exec.sound_takeEntry s.actor fits).mono ?_
    fun _ _ _ => trivial
  intro entry a ha
  cases entry with
  | some argCount => exact invoke_eq argCount ha.1
  | none =>
    refine .bind (.refl _) <| Exec.ends_onActor <| (Exec.sound_takePendingReceive a ha.1).mono ?_
      fun _ _ _ => trivial
    intro pending b hb
    cases pending with
    | some displacement => exact .refl _
    | none => exact step_eq hb.1

end

end Checked

end ActorMachine
