import ActorMachine.Proofs.Echoes
import ActorMachine.Proofs.Nesting
import ActorMachine.Proofs.Pairs
import ActorMachine.Proofs.WellFormed

/-!
# Protected calls under way

What a protected call does to its actor, one step at a time. A call may begin several protected
calls at once, each of which calls the next; they have one place on the stack, begin at one depth
and are over together. `Protection` is what an actor has to go back to when they are over. As long
as they are under way, the calls outside of them, the protected calls outside of them and the stack
below their arguments are as they were (`Protection.Within`); a step keeps it so, or ends them with
a result, or raises a fault (`Session.ends_begin`, `Session.ends_within`).
-/

namespace ActorMachine

open Memory

/-! ## The beginning of a protected call -/

/-- Whether a value that is called begins a protected call. -/
def Loader.protects (l : Loader) : Value → Bool
  | .native id => (l.natives.get? id.toNat).any fun entry => decide (entry.builtin = .protectedCall)
  | _ => false

/-- The number of protected calls that a call with so many arguments begins: the callee is one, its
first argument is one, and so on. The values are those on the stack, the callee first. -/
def Loader.protections (l : Loader) : (argCount : Nat) → (values : List Value) → Nat
  | argCount + 1, v :: values => if l.protects v then l.protections argCount values + 1 else 0
  | _, _ => 0

theorem Loader.protections_le (l : Loader) (argCount : Nat) (values : List Value) :
    l.protections argCount values ≤ argCount := by
  induction argCount generalizing values with
  | zero => cases values <;> exact Nat.le_refl 0
  | succ n ih =>
    cases values with
    | nil => exact Nat.zero_le _
    | cons v values =>
      rw [protections]
      split
      · exact Nat.succ_le_succ (ih values)
      · exact Nat.zero_le _

/-- What the last of the protected calls calls is none itself, unless it lacks an argument. -/
theorem Loader.not_protects (l : Loader) {argCount : Nat} {values : List Value} {v : Value}
    (hv : values[l.protections argCount values]? = some v) (protects : l.protects v) :
    l.protections argCount values = argCount := by
  induction argCount generalizing values with
  | zero => cases values <;> rfl
  | succ n ih =>
    cases values with
    | nil => cases hv
    | cons w values =>
      rw [protections] at hv ⊢
      split at hv
      · rename_i hw
        rw [if_pos hw, ih hv]
      · rename_i hw
        cases hv
        exact absurd protects hw

namespace Actor

/-- The next thing that an actor does is a call with a number of arguments. The second actor is the
one that is about to make it. -/
inductive Calls (l : Loader) (a : Actor) : Nat → Actor → Prop
  | first {argCount : Nat} (entry : a.entry = some argCount) :
    Calls l a argCount { a with entry := none }
  | instruction {frame : Frame} {p : LinkedPrototype} {instruction : Instruction} (steps : a.Steps)
    (back : a.frames.back? = some frame) (prototype : l.prototype frame.func = .ok p)
    (code : p.code[frame.ip]? = some instruction) (opcode : instruction.opcode? = some .ivk)
    (operand : 0 ≤ instruction.payload) :
    Calls l a instruction.payload.toNat
      { a with frames := a.frames.pop.push { frame with ip := frame.ip + 1 } }

/-- The result of the innermost call, if it returns now. -/
def result (a : Actor) : Value :=
  if a.basePointer < a.stack.size then a.top?.getD .nil else .nil

end Actor

/-- What protected calls that begin together have to restore when they are over. -/
structure Protection where
  /-- The objects at the beginning. -/
  memory : Memory
  /-- The calls outside. -/
  frames : Array Frame
  /-- The protected calls outside. -/
  catches : List CatchPoint
  /-- The stack below the arguments. -/
  stack : Array Value
  /-- The number of protected calls that begin together. -/
  count : Nat

/-- The protected calls that an actor is about to begin. -/
def Actor.protection (l : Loader) (argCount : Nat) (a : Actor) : Protection where
  memory := a.heap.memory
  frames := a.frames
  catches := a.catches
  stack := a.stack.extract 0 (a.stack.size - 1 - argCount)
  count := l.protections argCount a.stack.toList.reverse

namespace Protection

variable (c : Protection)

/-- Where the outcome goes. -/
def point : CatchPoint := ⟨c.frames.size, c.stack.size⟩

/-- The protected calls while `count` of those that began together are under way. -/
def points (count : Nat) : List CatchPoint := List.replicate count c.point ++ c.catches

/-- The protected calls are under way. -/
def InProgress (a : Actor) : Prop := c.points c.count <:+ a.catches

/-- The stack below the arguments, wherever collections have moved its objects. -/
def Keeps (a : Actor) : Prop := Value.Relocated c.memory a.heap.memory c.stack a.stack

/-- The earlier time that is kept. -/
def origin (guarded : Prop) : Origin := ⟨c.memory, c.stack, guarded⟩

/-- An actor that is sound and has kept the stack below the arguments. -/
def Holds (a : Actor) : Prop := ∃ ρ, a.InStep (c.origin False) ρ a

/-- The protected calls are under way, and nothing outside of them has changed. -/
structure Within (a : Actor) : Prop where
  frames : a.frames.extract 0 c.frames.size = c.frames
  callee : ∃ f, a.frames[c.frames.size]? = some f ∧ f.base - f.argCount = c.stack.size
  catches : ∃ inner, a.catches = inner ++ c.points c.count ∧
    ∀ p ∈ inner, c.frames.size < p.frameDepth
  holds : c.Holds a

/-- The protected calls have come to a result, which was the value `r` of the actor `b`. -/
structure Settled (b : Actor) (r : Value) (a : Actor) : Prop where
  frames : a.frames = c.frames
  catches : a.catches = c.catches
  height : a.stack.size = c.stack.size + 1
  holds : c.Holds a
  outcome : ∃ γ v r', Iso γ b.heap.memory a.heap.memory ∧ r.Match γ r' ∧
    a.stack.back? = some v ∧ a.heap.memory.Wrapped r' c.count v

/-- A fault has been raised in the protected calls, and within other ones. -/
structure Raised (inner : List CatchPoint) (a : Actor) : Prop where
  frames : a.frames.extract 0 c.frames.size = c.frames
  callee : inner ≠ [] → ∃ f, a.frames[c.frames.size]? = some f ∧ f.base - f.argCount = c.stack.size
  catches : a.catches = inner ++ c.points c.count
  above : ∀ p ∈ inner, c.frames.size < p.frameDepth ∧ c.stack.size ≤ p.stackHeight
  holds : c.Holds a

/-- The actor is back where the protected calls began, and `count` of them are still under way. -/
structure Left (count : Nat) (a : Actor) : Prop where
  frames : a.frames = c.frames
  catches : a.catches = c.points count
  height : a.stack.size = c.stack.size
  holds : c.Holds a

variable {c}

theorem Holds.keeps {a : Actor} (h : c.Holds a) : c.Keeps a := by
  obtain ⟨ρ, h⟩ := h
  exact h.relocated

theorem Holds.sound {a : Actor} (h : c.Holds a) : a.Sound := by
  obtain ⟨ρ, h⟩ := h
  exact ⟨ρ, h.toEquivalent⟩

theorem Within.inProgress {a : Actor} (h : c.Within a) : c.InProgress a := by
  obtain ⟨inner, hcatches, -⟩ := h.catches
  rw [InProgress, hcatches]
  exact List.suffix_append _ _

theorem Within.lt_size {a : Actor} (h : c.Within a) : c.frames.size < a.frames.size := by
  obtain ⟨f, hf, -⟩ := h.callee
  exact (Array.getElem?_eq_some_iff.mp hf).1

end Protection

namespace Actor

/-- The actor when its protected calls have begun: the callees are gone from the stack. -/
def protecting (l : Loader) (argCount : Nat) (a : Actor) : Actor :=
  { a with
    stack := a.stack.extract 0 (a.stack.size - (a.protection l argCount).count)
    catches := (a.protection l argCount).points (a.protection l argCount).count }

variable {l : Loader} {a : Actor}

/-- A call that begins no protected call leaves its callee on the stack. -/
theorem protecting_of_none (a : Actor) {argCount : Nat}
    (none : (a.protection l argCount).count = 0) :
    a.protecting l argCount = a := by
  unfold protecting Protection.points
  rw [none, Nat.sub_zero, Array.extract_size]
  rfl

theorem count_protection_succ (n : Nat) {v : Value} (back : a.stack.back? = some v) :
    (a.protection l (n + 1)).count =
      if l.protects v then l.protections n a.stack.pop.toList.reverse + 1 else 0 := by
  have hvalues : a.stack.toList.reverse = v :: a.stack.pop.toList.reverse := by
    rw [toList_of_back? back, List.reverse_append]
    rfl
  show l.protections (n + 1) a.stack.toList.reverse = _
  rw [hvalues, Loader.protections]

/-- The actor when the first protected call of a call with `n + 1` arguments has begun. -/
def protectingFirst (n : Nat) (a : Actor) : Actor :=
  { a with
    stack := a.stack.pop
    catches := ⟨a.frames.size, a.stack.size - 1 - (n + 1)⟩ :: a.catches }

/-- It has the other ones still to begin, and they have the same place. -/
theorem protecting_protectingFirst {n : Nat}
    (more : (a.protection l (n + 1)).count = ((a.protectingFirst n).protection l n).count + 1)
    (args : n + 1 < a.stack.size) :
    (a.protectingFirst n).protecting l n = a.protecting l (n + 1) := by
  have hsize : a.stack.pop.size = a.stack.size - 1 := Array.size_pop
  have hle : ((a.protectingFirst n).protection l n).count ≤ n := l.protections_le n _
  have hpoint : ((a.protectingFirst n).protection l n).point = (a.protection l (n + 1)).point := by
    show CatchPoint.mk a.frames.size (a.stack.pop.extract 0 (a.stack.pop.size - 1 - n)).size =
      ⟨a.frames.size, (a.stack.extract 0 (a.stack.size - 1 - (n + 1))).size⟩
    rw [Array.size_extract, Array.size_extract, hsize]
    congr 1
    omega
  have hstack : a.stack.pop.extract 0
    (a.stack.pop.size - ((a.protectingFirst n).protection l n).count) =
      a.stack.extract 0 (a.stack.size - (a.protection l (n + 1)).count) := by
    apply Array.ext'
    rw [toList_extract_zero, toList_extract_zero, Array.toList_pop, List.dropLast_eq_take,
      List.take_take, Array.length_toList, more, hsize]
    congr 1
    omega
  have hpoints : ((a.protectingFirst n).protection l n).points
    ((a.protectingFirst n).protection l n).count =
      (a.protection l (n + 1)).points (a.protection l (n + 1)).count := by
    unfold Protection.points
    rw [more, hpoint, List.replicate_succ', List.append_assoc]
    have hheight : (a.stack.extract 0 (a.stack.size - 1 - (n + 1))).size =
        a.stack.size - 1 - (n + 1) := by
      rw [Array.size_extract]
      omega
    show _ ++ ⟨a.frames.size, a.stack.size - 1 - (n + 1)⟩ :: a.catches = _
    rw [← hheight]
    rfl
  unfold protecting
  rw [hpoints]
  show ({ a with
    stack := a.stack.pop.extract 0 (a.stack.pop.size - ((a.protectingFirst n).protection l n).count)
    catches := _ } : Actor) = _
  rw [hstack]

end Actor

namespace Exec

variable {κ : Type} [Kernel κ] {l : Loader} {a : Actor} {k : κ}

theorem pop_of_back? {v : Value} (back : a.stack.back? = some v)
    (low : a.basePointer < a.stack.size) :
    ActorM.pop a = .ok v { a with stack := a.stack.pop } := by
  have read : (get : ActorM Actor) a = .ok a a := rfl
  have top : a.top? = some v := back
  unfold ActorM.pop
  rw [bind_of_ok read, if_neg (by omega), top]
  rfl

/-- A call takes its callee from the stack. -/
theorem call_of_back? {argCount : Nat} (protect : Nat → Exec κ Signal)
    (args : a.basePointer + argCount + 1 ≤ a.stack.size) :
    ∀ v, a.stack.back? = some v → call l argCount protect ⟨a, k⟩ = (match v with
      | .function f => do
        let _ ← ofResult (l.prototype f)
        ActorM.pushFrame f argCount
        return .proceed
      | .native id =>
        match l.natives.get? id.toNat with
        | none => throw (.unknownNative id)
        | some entry =>
          match entry.builtin with
          | .operation op => do
            finishNative (a.stack.size - 1 - argCount)
              (← op.run (.below (a.stack.size - 1) argCount))
          | .protectedCall => protect (a.stack.size - 1 - argCount)
      | callee => throw (.notCallable callee.kind) : Exec κ Signal)
      ⟨{ a with stack := a.stack.pop }, k⟩ := by
  intro v back
  have hlow : a.basePointer < a.stack.size := by omega
  have hpop := onActor_ok (s := (⟨a, k⟩ : Session κ)) (pop_of_back? back hlow)
  have hsize : a.stack.pop.size = a.stack.size - 1 := Array.size_pop
  unfold call
  rw [show (liftM ActorM.pop : Exec κ Value) = onActor ActorM.pop from rfl, bind_of_ok hpop]
  show (if a.stack.pop.size - a.basePointer < argCount then _ else _ : Exec κ Signal) _ = _
  rw [if_neg (by omega)]
  cases v with
  | native id =>
    generalize a.stack.size - 1 = height at hsize ⊢
    subst hsize
    rfl
  | _ => rfl

/-- A protected call becomes a call of its first argument. -/
theorem invoke_of_protects {argCount : Nat} {v : Value} (back : a.stack.back? = some v)
    (protects : l.protects v) (args : a.basePointer + (argCount + 1) + 1 ≤ a.stack.size) :
    invoke l (argCount + 1) ⟨a, k⟩ = invoke l argCount ⟨a.protectingFirst argCount, k⟩ := by
  cases v with
  | native id =>
    cases hentry : l.natives.get? id.toNat with
    | none =>
      rw [Loader.protects, hentry] at protects
      cases protects
    | some entry =>
      have hbuiltin : entry.builtin = .protectedCall := by
        rw [Loader.protects, hentry] at protects
        exact of_decide_eq_true protects
      have hcall := call_of_back? (l := l) (k := k) (fun height => do
        ActorM.pushCatchPoint height
        invoke l argCount) args (.native id) back
      simp only [hentry, hbuiltin] at hcall
      rw [invoke, hcall]
      rfl
  | _ => cases protects

/-- A call begins its protected calls first. -/
theorem invoke_protecting {argCount : Nat} (args : a.basePointer + argCount + 1 ≤ a.stack.size) :
    invoke l argCount ⟨a, k⟩ =
      invoke l (argCount - (a.protection l argCount).count) ⟨a.protecting l argCount, k⟩ := by
  induction argCount generalizing a with
  | zero =>
    have hcount : (a.protection l 0).count = 0 :=
      Nat.le_zero.mp (l.protections_le 0 a.stack.toList.reverse)
    rw [a.protecting_of_none hcount, hcount]
  | succ n ih =>
    obtain ⟨v, back⟩ : ∃ v, a.stack.back? = some v := by
      rw [Array.back?_eq_getElem?]
      exact ⟨_, Array.getElem?_eq_getElem (by omega)⟩
    have hcount := Actor.count_protection_succ (l := l) n back
    by_cases hv : l.protects v
    · rw [if_pos hv] at hcount
      have hargs : (a.protectingFirst n).basePointer + n + 1 ≤
          (a.protectingFirst n).stack.size := by
        show a.basePointer + n + 1 ≤ a.stack.pop.size
        rw [Array.size_pop]
        omega
      rw [invoke_of_protects back hv args,
        ← Actor.protecting_protectingFirst hcount (by omega), hcount,
        Nat.add_sub_add_right]
      exact ih hargs
    · rw [if_neg hv] at hcount
      rw [a.protecting_of_none hcount, hcount, Nat.sub_zero]

/-- An actor that is about to call does so. -/
theorem advance_of_calls {s : Session κ} {argCount : Nat} {b : Actor}
    (calls : s.actor.Calls l argCount b) : advance l s = invoke l argCount ⟨b, s.kernel⟩ := by
  cases calls with
  | first entry => exact advance_of_entry entry
  | instruction steps back prototype code opcode operand =>
    rename_i frame p instruction
    rw [advance_of_steps steps, step_of_opcode back prototype code opcode, modify_last back]
    show EStateM.bind (countOperand instruction.payload) _ _ = _
    unfold countOperand
    rw [if_neg (by omega)]
    rfl

end Exec

/-! ## The end of a protected call -/

namespace Protection

variable {c : Protection} {ρ : Matching} {y : Actor}

theorem holds_of_sound {a : Actor} (sound : a.Sound) (keeps : c.Keeps a) : c.Holds a := by
  obtain ⟨ρ, h⟩ := sound
  exact ⟨ρ, h, keeps, fun h => h.elim⟩

/-- What is kept lies at the bottom of the stack. -/
theorem Keeps.setStack {a : Actor} (h : c.Keeps a) {stack : Array Value}
    (size_le : c.stack.size ≤ stack.size)
    (heq : ∀ i : Nat, i < c.stack.size → stack[i]? = a.stack[i]?) : c.Keeps { a with stack } :=
  Value.Relocated.congr h size_le heq

theorem Keeps.shrink {a : Actor} (h : c.Keeps a) :
    c.Keeps { a with stack := a.stack.shrink c.stack.size } := by
  have hle := h.size_le
  refine h.setStack ?_ fun i hi => ?_
  · rw [Array.size_shrink]
    omega
  · rw [Array.shrink_eq_take, Array.getElem?_extract, if_pos (by omega), Nat.zero_add]

theorem Keeps.push {a : Actor} (h : c.Keeps a) (v : Value) :
    c.Keeps { a with stack := a.stack.push v } := by
  have hle := h.size_le
  refine h.setStack ?_ fun i hi => ?_
  · rw [Array.size_push]
    omega
  · rw [Array.getElem?_push_lt (by omega), Array.getElem?_eq_getElem]

/-- A result that is left where the outcome goes settles the protected calls, all of them; or the
heap is full, and the result is lost. -/
theorem ends_leaveResult {inner : List CatchPoint} {r : Value}
    (anchored : ∀ p ∈ c.catches, p.frameDepth < c.frames.size) (frames : y.frames = c.frames)
    (catches : y.catches = inner ++ c.points c.count)
    (above : ∀ p ∈ inner, c.frames.size < p.frameDepth) (sound : y.Equivalent ρ y)
    (keeps : c.Keeps y) (hr : r.Match ρ r) :
    Ends (ActorM.leaveResult c.stack.size r) y (fun _ a => c.Settled y r a)
      fun e a => e.IsOutOfMemory ∧ ∃ j < c.count, c.Left j a := by
  have hle := keeps.size_le
  have hsize : (y.stack.shrink c.stack.size).size = c.stack.size := by
    rw [Array.size_shrink]
    omega
  have hkept := keeps.shrink
  have hcatches : y.catches =
      inner ++ (List.replicate c.count ⟨y.frames.size, c.stack.size⟩ ++ c.catches) := by
    rw [frames]
    exact catches
  rw [← frames] at above anchored
  refine (ActorM.ends_leaveGroup above anchored sound hr hle hcatches).mono ?_ ?_
  · intro _ a h
    obtain ⟨γ, b, w, r', rfl, hyb, hrr, hwrapped, hsound⟩ := h
    have hb : b.stack.size = c.stack.size := hyb.size_eq.symm.trans hsize
    refine ⟨hyb.frames.symm.trans frames, hyb.catches.symm, ?_, ?_, γ, w, r', hyb.iso, hrr,
      Array.back?_push .., hwrapped⟩
    · rw [Array.size_push, hb]
    · exact holds_of_sound hsound (Keeps.push (Value.Relocated.move hkept hyb.iso hyb.stack) w)
  · intro e a h
    obtain ⟨hmemory, hsound, γ, j, hj, hya⟩ := h
    refine ⟨hmemory, j, hj, hya.frames.symm.trans frames, ?_, hya.size_eq.symm.trans hsize, ?_⟩
    · rw [← hya.catches, frames]
      rfl
    · exact holds_of_sound hsound (Value.Relocated.move hkept hya.iso hya.stack)

end Protection

/-! ## The first step -/

namespace Session

variable {κ : Type} [Kernel κ] {l : Loader}

/-- The native that a session calls next answers. -/
def Answers (l : Loader) (x y : Session κ) (answer : Answer) : Prop :=
  ∃ argCount b id entry op, x.actor.Calls l argCount b ∧
    (b.protecting l argCount).stack.back? = some (.native id) ∧
    l.natives.get? id.toNat = some entry ∧ entry.builtin = .operation op ∧
    op.run (.below ((b.protecting l argCount).stack.size - 1)
        (argCount - (b.protection l argCount).count))
      ⟨{ b.protecting l argCount with stack := (b.protecting l argCount).stack.pop }, x.kernel⟩ =
      .ok answer y

/-- The next step of a session ends a call: the value is what the call returns, and the actor is the
one whose value it is. -/
inductive Returns (l : Loader) (x : Session κ) : Actor → Value → Prop
  | call (steps : x.actor.Steps) (atReturn : x.actor.AtReturn l) :
    Returns l x x.actor x.actor.result
  | native {y : Session κ} {answer : Answer} (answers : x.Answers l y answer) :
    Returns l x y.actor answer.result

end Session

/-- A well-formed actor: its calls, protected calls and stack fit together, and it holds objects of
its heap. -/
structure Actor.Fit (l : Loader) (a : Actor) : Prop where
  fits : a.outline.Fits l
  matched : a.outline.Matched
  sound : a.Sound

namespace Actor

variable {l : Loader} {a b : Actor} {argCount : Nat}

/-- An actor that is about to call has the stack, the heap and the protected calls that it had. -/
theorem Calls.same (calls : a.Calls l argCount b) :
    b.stack = a.stack ∧ b.heap = a.heap ∧ b.catches = a.catches ∧ b.mailbox = a.mailbox ∧
      b.limits = a.limits ∧ b.frames.size = a.frames.size ∧
      b.pendingReceive = a.pendingReceive := by
  cases calls with
  | first => exact ⟨rfl, rfl, rfl, rfl, rfl, rfl, rfl⟩
  | instruction _ back => exact ⟨rfl, rfl, rfl, rfl, rfl, size_pop_push back _, rfl⟩

theorem Calls.sound (calls : a.Calls l argCount b) (sound : a.Sound) : b.Sound := by
  obtain ⟨ρ, h⟩ := sound
  cases calls with
  | first => exact ⟨ρ, { h with entry := rfl }⟩
  | instruction => exact ⟨ρ, { h with frames := rfl }⟩

/-- The protected calls outside of those that begin have calls of their own. -/
theorem Calls.anchored (calls : a.Calls l argCount b) (fit : a.Fit l) :
    ∀ p ∈ (b.protection l argCount).catches,
      p.frameDepth < (b.protection l argCount).frames.size := by
  intro p hp
  obtain ⟨-, -, hcatches, -, -, hframes, -⟩ := calls.same
  have hp : p ∈ a.catches := hcatches ▸ hp
  show p.frameDepth < b.frames.size
  rw [hframes]
  exact (fit.fits.matched_iff.mp fit.matched).2 p hp

section

variable (args : b.basePointer + argCount + 1 ≤ b.stack.size)

include args

theorem size_protection : (b.protection l argCount).stack.size = b.stack.size - 1 - argCount := by
  show (b.stack.extract 0 (b.stack.size - 1 - argCount)).size = _
  rw [Array.size_extract]
  omega

omit args in
theorem count_protection_le (l : Loader) (b : Actor) (argCount : Nat) :
    (b.protection l argCount).count ≤ argCount :=
  l.protections_le argCount _

omit args in
theorem size_protecting (l : Loader) (b : Actor) (argCount : Nat) :
    (b.protecting l argCount).stack.size = b.stack.size - (b.protection l argCount).count := by
  show (b.stack.extract 0 _).size = _
  rw [Array.size_extract]
  omega

/-- When the protected calls have begun, the actor still has a callee, which is not a protected call
unless it lacks an argument. -/
theorem back?_protecting : ∃ v, (b.protecting l argCount).stack.back? = some v ∧
    (l.protects v → argCount - (b.protection l argCount).count = 0) := by
  have hle := count_protection_le l b argCount
  have hsize := size_protecting l b argCount
  have hlt : b.stack.size - (b.protection l argCount).count - 1 < b.stack.size := by omega
  refine ⟨b.stack[b.stack.size - (b.protection l argCount).count - 1], ?_, fun protects => ?_⟩
  · rw [Array.back?_eq_getElem?, hsize]
    show (b.stack.extract 0 (b.stack.size - (b.protection l argCount).count))[_]? = _
    rw [Array.getElem?_extract, if_pos (by omega), Nat.zero_add, Array.getElem?_eq_getElem hlt]
  · have hvalue : b.stack.toList.reverse[(b.protection l argCount).count]? =
        some b.stack[b.stack.size - (b.protection l argCount).count - 1] := by
      rw [List.getElem?_reverse (by rw [Array.length_toList]; omega), Array.length_toList,
        Array.getElem?_toList, Array.getElem?_eq_getElem (by omega)]
      congr 2
      omega
    have := l.not_protects hvalue protects
    show argCount - l.protections argCount b.stack.toList.reverse = 0
    omega

/-- The stack below the arguments is kept when the callees are gone. -/
theorem holds_protecting (sound : b.Sound) : (b.protection l argCount).Holds
    { b.protecting l argCount with stack := (b.protecting l argCount).stack.pop } := by
  have hle := count_protection_le l b argCount
  have hheight := size_protection (l := l) args
  have hsize := size_protecting l b argCount
  have hself : (b.protection l argCount).Keeps
      { b with stack := (b.protection l argCount).stack } := Value.Relocated.refl _ _
  refine Protection.holds_of_sound ?_ ?_
  · obtain ⟨ρ, h⟩ := sound
    exact ⟨ρ, { h with catches := rfl, stack := (h.stack.extract 0 _).pop }⟩
  · show (b.protection l argCount).Keeps { b with stack := (b.protecting l argCount).stack.pop }
    refine hself.setStack ?_ fun i hi => ?_
    · rw [Array.size_pop]
      omega
    · have hi : i < b.stack.size - 1 - argCount := by omega
      rw [Array.getElem?_pop, if_pos (by omega)]
      show (b.stack.extract 0 (b.stack.size - (b.protection l argCount).count))[i]? =
        (b.stack.extract 0 (b.stack.size - 1 - argCount))[i]?
      rw [Array.getElem?_extract, Array.getElem?_extract, if_pos (by omega), if_pos (by omega)]

end

end Actor

/-- Protected calls have begun, and the actor is about to call, with so many arguments, what lies on
its stack above the arguments. -/
structure Protection.Begun (c : Protection) (argCount : Nat) (d : Actor) : Prop where
  frames : d.frames = c.frames
  catches : d.catches = c.points c.count
  height : d.stack.size = c.stack.size + argCount + 1
  holds : c.Holds { d with stack := d.stack.pop }

theorem Actor.begins_protecting {l : Loader} {b : Actor} {argCount : Nat}
    (args : b.basePointer + argCount + 1 ≤ b.stack.size) (sound : b.Sound) :
    (b.protection l argCount).Begun (argCount - (b.protection l argCount).count)
      (b.protecting l argCount) where
  frames := rfl
  catches := rfl
  height := by
    have hheight := b.size_protection (l := l) args
    have hsize := b.size_protecting l argCount
    have hle := b.count_protection_le l argCount
    omega
  holds := b.holds_protecting args sound

namespace Protection.Begun

variable {κ : Type} [Kernel κ] {l : Loader} {c : Protection} {d a : Actor} {argCount : Nat} {k : κ}

/-- Where the calls and the protected calls are as they were, a fault is one of the protected
calls. -/
theorem raised (begun : c.Begun argCount d)
    (outline : a.outline = Actor.outline { d with stack := d.stack.pop }) (holds : c.Holds a) :
    c.Raised [] a where
  frames := by
    have frames : a.frames = d.frames := congrArg Outline.frames outline
    rw [frames, begun.frames, Array.extract_size]
  callee h := absurd rfl h
  catches := (congrArg Outline.catches outline).trans begun.catches
  above p hp := absurd hp List.not_mem_nil
  holds := holds

omit [Kernel κ] in
/-- A function is called within the protected calls. -/
theorem ends_function (begun : c.Begun argCount d) (f : FuncRef) :
    Ends (do
        let _ ← Exec.ofResult (l.prototype f)
        ActorM.pushFrame f argCount
        return .proceed : Exec κ Signal) ⟨{ d with stack := d.stack.pop }, k⟩
      (fun _ u => c.Within u.actor) fun _ t => c.Raised [] t.actor := by
  have hheight := begun.height
  refine Ends.bind <| (Exec.ends_ofResult _ _).mono ?_ fun _ t ht => ?_
  case refine_2 =>
    rw [ht]
    exact begun.raised rfl begun.holds
  rintro p _ ⟨-, rfl⟩
  refine .bind <| Exec.ends_onActor <| (ActorM.ends_pushFrame f _ _).mono ?_ ?_
  · rintro _ _ ⟨-, rfl⟩
    have hkeeps := begun.holds.keeps
    obtain ⟨ρ, hsound⟩ := begun.holds.sound
    let f' : Frame := ⟨f, 0, d.stack.pop.size, argCount⟩
    refine .pure ⟨?_, ⟨f', ?_, ?_⟩, ⟨[], begun.catches, fun p hp => absurd hp List.not_mem_nil⟩,
      Protection.holds_of_sound ⟨ρ, hsound.setFrames _⟩ hkeeps⟩
    · show (d.frames.push f').extract 0 c.frames.size = c.frames
      rw [← begun.frames, Array.extract_push, if_pos (Nat.le_refl _), Array.extract_size]
    · show (d.frames.push f')[c.frames.size]? = some f'
      rw [← begun.frames]
      exact Array.getElem?_push_size
    · show d.stack.pop.size - argCount = c.stack.size
      rw [Array.size_pop]
      omega
  · rintro e _ ⟨-, rfl⟩
    exact begun.raised rfl begun.holds

/-- A native that answers settles the protected calls, unless there is no memory for the outcome. -/
theorem ends_operation (begun : c.Begun argCount d)
    (anchored : ∀ p ∈ c.catches, p.frameDepth < c.frames.size) (op : Operation)
    (height count : Nat) :
    Ends (do Exec.finishNative c.stack.size (← op.run (.below height count)) : Exec κ Signal)
      ⟨{ d with stack := d.stack.pop }, k⟩
      (fun _ u => ∃ answer y, op.run (.below height count) ⟨{ d with stack := d.stack.pop }, k⟩ =
        .ok answer y ∧
        c.Settled y.actor answer.result u.actor)
      fun e t => c.Raised [] t.actor ∨ e.IsOutOfMemory ∧
        (∃ answer y, op.run (.below height count) ⟨{ d with stack := d.stack.pop }, k⟩ =
          .ok answer y) ∧
          ∃ j < c.count, c.Left j t.actor := by
  obtain ⟨ρ, hstep⟩ := begun.holds
  refine .bind <| Ends.mono (Ends.and (.intro (fun x t hrun => hrun) fun _ _ _ => trivial)
    ((op.inStep_run hstep _ _).and ((op.keeps_outline _ _).ends _))) ?_ ?_
  · intro answer t ⟨hrun, ⟨ρ', ht, hresult⟩, hout⟩
    have htframes : t.actor.frames = c.frames := (congrArg Outline.frames hout).trans begun.frames
    have htcatches : t.actor.catches = [] ++ c.points c.count :=
      (congrArg Outline.catches hout).trans begun.catches
    have hleave := Protection.ends_leaveResult anchored htframes htcatches
      (fun p hp => absurd hp List.not_mem_nil) ht.toEquivalent ht.relocated hresult
    refine .bind <| Exec.ends_onActor <| hleave.mono ?_ ?_
    · intro _ a settled
      cases answer with
      | value v =>
        refine Exec.ends_onActor <| (ActorM.ends_afterReturn a).mono ?_ fun _ _ h => h.elim
        intro _ a' h
        rw [h.2]
        exact ⟨_, _, hrun, settled⟩
      | giveTurn => exact .pure ⟨_, _, hrun, settled⟩
      | exit => exact .pure ⟨_, _, hrun, settled⟩
    · intro e a ⟨hmemory, left⟩
      exact .inr ⟨hmemory, ⟨_, _, hrun⟩, left⟩
  · rintro e t ⟨-, ⟨ρ', ht⟩, hout⟩
    exact .inl (begun.raised hout ⟨ρ', ht⟩)

end Protection.Begun

namespace Session

variable {κ : Type} [Kernel κ] {l : Loader} {s : Session κ} {argCount : Nat} {b : Actor}

/-- The step in which protected calls begin: a function is called within them, or a native has
answered and they are over, or a fault is raised. -/
theorem ends_begin (fit : s.actor.Fit l) (calls : s.actor.Calls l argCount b)
    (args : b.basePointer + argCount + 1 ≤ b.stack.size) :
    Ends (Exec.advance l) s
      (fun _ u => (b.protection l argCount).Within u.actor ∨
        ∃ y r, s.Returns l y r ∧ (b.protection l argCount).Settled y r u.actor)
      fun e t => (b.protection l argCount).Raised [] t.actor ∨
        e.IsOutOfMemory ∧ (∃ y r, s.Returns l y r) ∧
          ∃ j < (b.protection l argCount).count, (b.protection l argCount).Left j t.actor := by
  have anchored := calls.anchored fit
  have begun := b.begins_protecting (l := l) args (calls.sound fit.sound)
  have hheight := b.size_protection (l := l) args
  obtain ⟨v, back, plain⟩ := b.back?_protecting (l := l) args
  have hbase : (b.protecting l argCount).basePointer = b.basePointer := rfl
  have hanswers : ∀ {id entry op answer y}, (b.protecting l argCount).stack.back? =
    some (.native id) →
      l.natives.get? id.toNat = some entry → entry.builtin = .operation op →
      op.run (.below ((b.protecting l argCount).stack.size - 1)
          (argCount - (b.protection l argCount).count))
        ⟨{ b.protecting l argCount with stack := (b.protecting l argCount).stack.pop }, s.kernel⟩ =
        .ok answer y → s.Returns l y.actor answer.result := fun hback hentry hbuiltin hrun =>
    .native ⟨argCount, b, _, _, _, calls, hback, hentry, hbuiltin, hrun⟩
  unfold Ends
  rw [Exec.advance_of_calls calls, Exec.invoke_protecting args]
  -- Only what is known of the protection and of the actor that has begun it matters from here on.
  generalize b.protection l argCount = c at *
  generalize b.protecting l argCount = d at *
  have height := begun.height
  obtain ⟨protect, hcall, hprotect⟩ : ∃ protect : Nat → Exec κ Signal,
      Exec.invoke l (argCount - c.count) = Exec.call l (argCount - c.count) protect ∧
      (l.protects v → ∀ height, protect height = throw (.arity 1 0)) := by
    cases hm : argCount - c.count with
    | zero => exact ⟨_, by rw [Exec.invoke], fun _ _ => rfl⟩
    | succ n => exact ⟨_, by rw [Exec.invoke], fun h => absurd (plain h) (by omega)⟩
  rw [hcall, Exec.call_of_back? protect (by rw [hbase]; omega) v back]
  cases v with
  | function f =>
    exact (begun.ends_function f).mono (fun _ _ within => .inl within) fun _ _ raised => .inl raised
  | native id =>
    show Ends (match l.natives.get? id.toNat with
      | none => _
      | some entry => _ : Exec κ Signal) _ _ _
    cases hentry : l.natives.get? id.toNat with
    | none => exact Or.inl (begun.raised rfl begun.holds)
    | some entry =>
      show Ends (match entry.builtin with
        | .operation op => _
        | .protectedCall => _ : Exec κ Signal) _ _ _
      cases hbuiltin : entry.builtin with
      | protectedCall =>
        have hthrow := hprotect (by rw [Loader.protects, hentry]; exact decide_eq_true hbuiltin)
        simp only [hthrow]
        exact Or.inl (begun.raised rfl begun.holds)
      | operation op =>
        have hplace : d.stack.size - 1 - (argCount - c.count) = c.stack.size := by omega
        rw [hplace]
        refine (begun.ends_operation anchored op _ _).mono ?_ ?_
        · intro _ u ⟨answer, y, hrun, settled⟩
          exact .inr ⟨_, _, hanswers back hentry hbuiltin hrun, settled⟩
        · rintro e t (raised | ⟨hmemory, ⟨answer, y, hrun⟩, left⟩)
          · exact .inl raised
          · exact .inr ⟨hmemory, ⟨_, _, hanswers back hentry hbuiltin hrun⟩, left⟩
  | _ => exact Or.inl (begun.raised rfl begun.holds)

end Session

/-! ## The steps within -/

namespace Outline

variable {l : Loader} {o : Outline}

/-- The protected calls within a call come before those outside of it. -/
theorem Fits.catches_split (fits : o.Fits l) (depth : Nat) :
    o.catches = o.catches.filter (fun c => decide (depth < c.frameDepth)) ++
      o.catches.filter fun c => decide (c.frameDepth ≤ depth) := by
  have sorted := fits.catches_sorted
  generalize o.catches = catches at sorted ⊢
  induction catches with
  | nil => rfl
  | cons c outer ih =>
    obtain ⟨hc, houter⟩ := List.pairwise_cons.mp sorted
    by_cases hdepth : depth < c.frameDepth
    · rw [List.filter_cons_of_pos (by simpa using hdepth),
        List.filter_cons_of_neg (by simpa using hdepth), List.cons_append, ← ih houter]
    · -- From here on all are outside.
      have hle : ∀ c' ∈ c :: outer, c'.frameDepth ≤ depth := by
        intro c' hc'
        rcases List.mem_cons.mp hc' with rfl | hc'
        · omega
        · have := hc c' hc'
          omega
      have hnone : (c :: outer).filter (fun c => decide (depth < c.frameDepth)) = [] := by
        rw [List.filter_eq_nil_iff]
        intro c' hc'
        have := hle c' hc'
        simp only [decide_eq_true_eq]
        omega
      have hall : (c :: outer).filter (fun c => decide (c.frameDepth ≤ depth)) = c :: outer :=
        List.filter_eq_self.mpr fun c' hc' => decide_eq_true (hle c' hc')
      rw [hnone, hall, List.nil_append]

end Outline

namespace Protection

variable {l : Loader} {c : Protection} {a b : Actor}

section

variable (anchored : ∀ p ∈ c.catches, p.frameDepth < c.frames.size)

include anchored

theorem points_le : ∀ p ∈ c.points c.count, p.frameDepth ≤ c.frames.size := by
  intro p hp
  rcases List.mem_append.mp hp with hp | hp
  · rw [List.eq_of_mem_replicate hp]
    exact Nat.le_refl _
  · exact Nat.le_of_lt (anchored p hp)

/-- What stays inside of the callee keeps the protected calls under way. -/
theorem Within.of_outside (within : c.Within a)
    (outside : a.outline.Outside c.frames.size b.outline)
    (fits : b.outline.Fits l) (holds : c.Holds b) : c.Within b := by
  obtain ⟨inner, hcatches, above⟩ := within.catches
  refine ⟨outside.frames.trans within.frames, ?_, ?_, holds⟩
  · obtain ⟨f, hf, hbase⟩ := within.callee
    obtain ⟨f', hf', hbase', hargs'⟩ := outside.callee f hf
    exact ⟨f', hf', by rw [hbase', hargs', hbase]⟩
  · have hkept : b.catches.filter (fun p => decide (p.frameDepth ≤ c.frames.size)) =
        c.points c.count := by
      have heq := outside.catches
      change b.catches.filter _ = a.catches.filter _ at heq
      have hnone : inner.filter (fun p => decide (p.frameDepth ≤ c.frames.size)) = [] := by
        rw [List.filter_eq_nil_iff]
        intro p hp
        have := above p hp
        simp only [decide_eq_true_eq]
        omega
      rw [heq, hcatches, List.filter_append, hnone, List.nil_append, List.filter_eq_self]
      exact fun p hp => decide_eq_true (points_le anchored p hp)
    have hsplit : b.catches = _ := fits.catches_split c.frames.size
    rw [show b.outline.catches = b.catches from rfl, hkept] at hsplit
    exact ⟨_, hsplit, fun p hp => of_decide_eq_true (List.mem_filter.mp hp).2⟩

end

/-- A fault within the protected calls finds them under way. -/
theorem Within.raised (within : c.Within a) (fits : a.outline.Fits l) :
    ∃ inner, c.Raised inner a := by
  obtain ⟨inner, hcatches, above⟩ := within.catches
  refine ⟨inner, within.frames, fun _ => within.callee, hcatches, fun p hp => ⟨above p hp, ?_⟩,
    within.holds⟩
  obtain ⟨f, hf, hbase⟩ := within.callee
  have hmem : f ∈ a.frames.toList.take p.frameDepth := by
    rw [← Array.getElem?_toList] at hf
    refine List.mem_of_getElem? (i := c.frames.size) ?_
    rw [List.getElem?_take_of_lt (above p hp), hf]
  have hle : f.base ≤ p.stackHeight := fits.catches_above p (by
    show p ∈ a.catches
    rw [hcatches]
    exact List.mem_append_left _ hp) f hmem
  omega

/-- The innermost call lies above what is kept. -/
theorem Within.guard (within : c.Within a) (fits : a.outline.Fits l) :
    c.stack.size ≤ a.basePointer - a.argCount := by
  obtain ⟨f, hf, hbase⟩ := within.callee
  obtain ⟨frame, hback⟩ : ∃ frame, a.frames.back? = some frame := by
    have hlt := within.lt_size
    rw [Array.back?_eq_getElem?]
    exact ⟨_, Array.getElem?_eq_getElem (by omega)⟩
  have hframe : a.basePointer = frame.base ∧ a.argCount = frame.argCount := by
    unfold Actor.basePointer Actor.argCount
    rw [hback]
    exact ⟨rfl, rfl⟩
  rw [hframe.1, hframe.2]
  have hsplit := toList_of_back? hback
  have hnested : a.frames.toList.Pairwise _ := fits.nested
  rw [← Array.getElem?_toList, hsplit] at hf
  rw [hsplit, List.pairwise_append] at hnested
  have hmem : f ∈ a.frames.pop.toList ++ [frame] := List.mem_of_getElem? hf
  rcases List.mem_append.mp hmem with hmem | hmem
  · have := hnested.2.2 f hmem frame (List.mem_singleton.mpr rfl)
    omega
  · rw [← List.mem_singleton.mp hmem, hbase]

end Protection

namespace Exec

variable {κ : Type} [Kernel κ] {l : Loader} {s : Session κ}

omit [Kernel κ] in
theorem onActor_congr {m n : ActorM α} {a b : Actor} (h : m a = n b) (k : κ) :
    onActor m ⟨a, k⟩ = onActor n ⟨b, k⟩ := by
  simp only [onActor, h]

/-- A return replaces the arguments of the innermost call by its result. -/
theorem advance_of_atReturn (steps : s.actor.Steps) (atReturn : s.actor.AtReturn l) :
    ∃ frame, s.actor.frames.back? = some frame ∧ advance l s =
      onActor (do
        ActorM.leaveResult (frame.base - frame.argCount) s.actor.result
        ActorM.afterReturn) ⟨{ s.actor with frames := s.actor.frames.pop }, s.kernel⟩ := by
  obtain ⟨frame, p, back, prototype, code⟩ := atReturn
  have hbase : s.actor.basePointer = frame.base := by
    unfold Actor.basePointer
    rw [back]
  have hreturn : ∀ frames ip, frames = s.actor.frames.pop.push { frame with ip } →
      ActorM.returnFromCall { s.actor with frames } = (do
        ActorM.leaveResult (frame.base - frame.argCount) s.actor.result
        ActorM.afterReturn : ActorM Signal) { s.actor with frames := s.actor.frames.pop } := by
    rintro _ ip rfl
    have read : (get : ActorM Actor)
      { s.actor with frames := s.actor.frames.pop.push { frame with ip } } =
      .ok _ _ := rfl
    unfold ActorM.returnFromCall
    rw [bind_of_ok read]
    dsimp only
    rw [Array.back?_push]
    show (do
      ActorM.leaveResult (frame.base - frame.argCount)
        (if frame.base < s.actor.stack.size then s.actor.top?.getD .nil else .nil)
      ActorM.afterReturn : ActorM Signal)
      { s.actor with frames := (s.actor.frames.pop.push { frame with ip }).pop } = _
    rw [Array.pop_push, ← hbase]
    rfl
  refine ⟨frame, back, ?_⟩
  rw [advance_of_steps steps]
  rcases code with code | ⟨instruction, code, opcode⟩
  · have hself : s.actor.frames = s.actor.frames.pop.push { frame with ip := frame.ip } := by
      apply Array.ext'
      rw [Array.toList_push]
      exact toList_of_back? back
    rw [step_of_end back prototype code]
    exact onActor_congr (hreturn _ _ hself) s.kernel
  · have hip := modify_last back fun frame : Frame => { frame with ip := frame.ip + 1 }
    rw [step_of_opcode back prototype code opcode]
    exact onActor_congr (hreturn _ _ hip) s.kernel

end Exec

namespace Session

variable {κ : Type} [Kernel κ] {l : Loader} {c : Protection} {x : Session κ}

/-- A step that is not the return of the callee stays inside of it. -/
theorem ends_inside (inline : l.Inline) (anchored : ∀ p ∈ c.catches, p.frameDepth < c.frames.size)
    (fits : x.actor.outline.Fits l) (within : c.Within x.actor)
    (inside : ¬((x.actor.Steps ∧ x.actor.AtReturn l) ∧ x.actor.frames.size = c.frames.size + 1)) :
    Ends (Exec.advance l) x
      (fun _ u => c.Within u.actor ∧ u.actor.outline.Fits l ∧
        x.actor.outline.Outside c.frames.size u.actor.outline)
      fun _ t => c.Within t.actor ∧ t.actor.outline.Fits l ∧
        x.actor.outline.Outside c.frames.size t.actor.outline := by
  have hlt := within.lt_size
  have hstays := Exec.stays_advance (l := l) hlt fun steps atReturn => by
    have : x.actor.frames.size ≠ c.frames.size + 1 := fun h => inside ⟨⟨steps, atReturn⟩, h⟩
    omega
  obtain ⟨ρ, hstep⟩ := within.holds
  have hguarded : x.actor.InStep (c.origin True) ρ x.actor :=
    ⟨hstep.toEquivalent, hstep.relocated, fun _ => within.guard fits⟩
  have hholds := Exec.inStep_advance inline hguarded trivial
  refine ((hstays.and hholds).and (Exec.sound_advance x fits)).mono ?_ ?_
  · intro _ u h
    obtain ⟨⟨houtside, hu⟩, hfits, -⟩ := h
    exact ⟨within.of_outside anchored houtside hfits hu, hfits, houtside⟩
  · intro e t h
    obtain ⟨⟨houtside, ht⟩, hfits, -⟩ := h
    exact ⟨within.of_outside anchored houtside hfits ht, hfits, houtside⟩

/-- A step while protected calls are under way: they go on, or the callee returns and they are over,
or a fault is raised. -/
theorem ends_within (inline : l.Inline) (anchored : ∀ p ∈ c.catches, p.frameDepth < c.frames.size)
    (fits : x.actor.outline.Fits l) (within : c.Within x.actor) :
    Ends (Exec.advance l) x
      (fun _ u => c.Within u.actor ∨ ∃ y r, x.Returns l y r ∧ c.Settled y r u.actor)
      fun e t => (∃ inner, c.Raised inner t.actor) ∨
        e.IsOutOfMemory ∧ (∃ y r, x.Returns l y r) ∧ ∃ j < c.count, c.Left j t.actor := by
  by_cases hreturn : (x.actor.Steps ∧ x.actor.AtReturn l) ∧ x.actor.frames.size = c.frames.size + 1
  · obtain ⟨⟨steps, atReturn⟩, hsize⟩ := hreturn
    have hreturns : x.Returns l x.actor x.actor.result := .call steps atReturn
    obtain ⟨frame, back, hadvance⟩ := Exec.advance_of_atReturn steps atReturn
    obtain ⟨inner, hcatches, above⟩ := within.catches
    obtain ⟨ρ, hstep⟩ := within.holds
    -- The innermost call is the one that the protected calls made.
    have hpop : x.actor.frames.pop = c.frames := by
      rw [← within.frames]
      apply Array.ext'
      rw [toList_extract_zero, Array.toList_pop, List.dropLast_eq_take, Array.length_toList, hsize]
      rfl
    have hplace : frame.base - frame.argCount = c.stack.size := by
      obtain ⟨f, hf, hbase⟩ := within.callee
      rw [Array.back?_eq_getElem?, hsize, Nat.add_sub_cancel, hf] at back
      cases back
      exact hbase
    have hresult : x.actor.result.Match ρ x.actor.result := by
      unfold Actor.result
      split
      · exact hstep.toEquivalent.top
      · exact .inline rfl
    unfold Ends
    rw [hadvance, hplace]
    have hleave := Protection.ends_leaveResult (y := { x.actor with frames := x.actor.frames.pop })
      anchored hpop hcatches above (hstep.toEquivalent.setFrames _) hstep.relocated hresult
    refine Exec.ends_onActor <| .bind <| hleave.mono ?_ ?_
    · intro _ a settled
      refine (ActorM.ends_afterReturn a).mono ?_ fun _ _ h => h.elim
      intro _ a' h
      rw [h.2]
      exact .inr ⟨_, _, hreturns, { settled with }⟩
    · intro e a h
      obtain ⟨hmemory, j, hj, left⟩ := h
      exact .inr ⟨hmemory, ⟨_, _, hreturns⟩, j, hj, left⟩
  · refine (ends_inside inline anchored fits within hreturn).mono ?_ ?_
    · intro _ u h
      exact .inl h.1
    · intro e t h
      exact .inl (h.1.raised h.2.1)

end Session

end ActorMachine
