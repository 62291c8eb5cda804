import ActorMachine.Proofs.Growing
import ActorMachine.Proofs.Histories

/-!
# What operations answer to programs

Whatever operation of the library is called, with whatever arguments, `Contents.Responds` says what
a program sees of it (`Operation.serves`). The operations on tuples, arrays and tables do what
`Contents.call` says. All others answer values that refer to nothing, or a new string, and no object
changes.
-/

namespace ActorMachine

open ActorM (readHeap)

variable {κ : Type}

/-- A computation of a session answers a call of an operation as it should. -/
def Exec.Serves (V : Sight) (op : Operation) (args : List Item) (m : Exec κ Answer)
    (s : Session κ) : Prop :=
  Ends m s
    (fun answer t => ∃ ν σ x M, t.actor.ShowsAt ν σ { V with objects := M } ∧ x.At ν answer.result ∧
      V.objects.Responds op args (.ok x) M)
    fun e t => ∃ ν σ, t.actor.ShowsAt ν σ V ∧ V.objects.Responds op args (.error e) V.objects

/-! ## Reading -/

namespace Arguments

variable (height count : Nat)

theorem keeps_get (i : Nat) : Keeps id ((below height count).get i) :=
  .ite (fun _ => .bind .get fun _ => .pure _) fun _ => .pure _

theorem keeps_rest (first : Nat) : Keeps id ((below height count).rest first) := by
  unfold rest
  refine Alike.keeps (.mapM (fun i => .of_keeps (keeps_get height count i)) _)

theorem keeps_atLeast (n : Nat) : Keeps id ((below height count).atLeast n) :=
  .ite (fun _ => .throw _) fun _ => .pure _

theorem keeps_pid (i : Nat) : Keeps id ((below height count).pid i) := by
  refine .bind (keeps_get height count i) fun v => ?_
  split
  · exact .pure _
  · exact .throw _

theorem keeps_object (s : Shape) (i : Nat) : Keeps id ((below height count).object s i) := by
  refine .bind (keeps_get height count i) fun v => ?_
  split
  · exact .ite (fun _ => .pure _) fun _ => .throw _
  · exact .throw _

end Arguments

namespace ActorM

theorem keeps_reading (f : Heap → Except HeapError α) : Keeps id (readHeap f) := by
  intro a
  unfold leaves readHeap
  cases f a.heap <;> rfl

theorem keeps_readingBytes (v : Value) : Keeps id (stringBytes v) := by
  unfold stringBytes
  split
  · exact keeps_reading _
  · exact .throw _

end ActorM

namespace Exec

variable {ν : Naming} {σ : Matching} {V : Sight} {op : Operation} {args : List Item} {s : Session κ}

/-- A native that serves the operation. -/
theorem Serves.native {m : ActorM Value} (collects : op.Collects)
    (h : ActorM.Serves V op args m s.actor) :
    Serves V op args (do return Answer.value (← onActor m)) s := by
  refine .bind (ends_onActor (h.mono ?_ ?_))
  · intro v b ⟨ν, σ, x, M, shows, hx, answers⟩
    exact .pure ⟨ν, σ, x, M, shows, hx, .library collects answers⟩
  · intro e b ⟨ν, σ, shows, answers⟩
    exact ⟨ν, σ, shows, .library collects answers⟩

/-- An operation that reads only and answers what refers to nothing. -/
theorem Serves.inspects (h : s.actor.ShowsAt ν σ V) (other : ¬op.Collects) {m : Exec κ Answer}
    (keeps : Keeps (fun s : Session κ => s.actor) m)
    (inline : Ends m s (fun answer _ => answer.result.ref? = none) fun _ _ => True) :
    Serves V op args m s := by
  refine ((keeps.ends s).and inline).mono ?_ ?_
  · rintro answer t ⟨hactor, hinline⟩
    refine ⟨ν, σ, .inline answer.result, V.objects, ?_, .inline hinline, .inline other hinline⟩
    rw [hactor]
    exact h
  · rintro e t ⟨hactor, -⟩
    refine ⟨ν, σ, ?_, .failed e other⟩
    rw [hactor]
    exact h

theorem keeps_reading {m : ActorM α} (h : Keeps id m) :
    Keeps (fun s : Session κ => s.actor) (onActor m) :=
  Alike.keeps (alike_onActor (.of_keeps h))

theorem keeps_asking (m : Heap → EStateM Fault κ α) :
    Keeps (fun s : Session κ => s.actor) (onKernel m) :=
  show Keeps (fun s : Session κ => id s.actor) (onKernel m) from keeps_onKernel m

theorem keeps_native {m : ActorM Value} (h : Keeps id m) :
    Keeps (fun s : Session κ => s.actor) (do return Answer.value (← onActor m)) :=
  .bind (keeps_reading h) fun _ => .pure _

theorem inline_native {m : ActorM Value}
    (h : Ends m s.actor (fun v _ => v.ref? = none) fun _ _ => True) :
    Ends (do return Answer.value (← onActor m)) s (fun answer _ => answer.result.ref? = none)
      fun _ _ => True :=
  .bind (ends_onActor (h.mono (fun _ _ h => .pure h) fun _ _ h => h))

end Exec

/-- What holds of the last part of a computation wherever it begins holds of the computation. -/
theorem Ends.last {m : EStateM ε σ α} {f : α → EStateM ε σ β} {s : σ} {ok : β → σ → Prop}
    (h : ∀ x s', Ends (f x) s' ok fun _ _ => True) : Ends (m >>= f) s ok fun _ _ => True :=
  .bind (.intro (fun x s' _ => h x s') fun _ _ _ => trivial)

namespace Native

variable (height count : Nat) (a : Actor)

theorem keeps_raise : Keeps id (raise (.below height count)) := by
  refine .bind (Arguments.keeps_get height count 0) fun v => ?_
  split
  · exact .bind (ActorM.keeps_readingBytes _) fun _ => .bind (.pure _) fun _ => .throw _
  · exact .bind (.pure _) fun _ => .throw _
  · exact .bind (.pure _) fun _ => .throw _

/-- Raising a fault answers nothing. -/
theorem ends_raise : Ends (raise (.below height count)) a (fun _ _ => False) fun _ _ => True := by
  refine .last fun v b => ?_
  split
  · exact .last fun _ _ => .last fun _ _ => .throw trivial
  · exact .last fun _ _ => .throw trivial
  · exact .last fun _ _ => .throw trivial

theorem keeps_stringLength : Keeps id (stringLength (.below height count)) :=
  .bind (Arguments.keeps_object height count .string 0) fun _ =>
    .bind (ActorM.keeps_reading _) fun _ => .pure _

theorem keeps_appendStrings (n : Nat) (bytes : ByteArray) (i : Nat) :
    Keeps id (appendStrings (.below height count) bytes i n) := by
  induction n generalizing bytes i with
  | zero => exact .pure _
  | succ n ih =>
    exact .bind (Arguments.keeps_object height count .string i) fun _ =>
      .bind (ActorM.keeps_reading _) fun _ => ih _ _

theorem keeps_stringEqual : Keeps id (stringEqual (.below height count)) :=
  .bind (Arguments.keeps_atLeast height count 2) fun _ =>
    .bind (Arguments.keeps_get height count 0) fun _ =>
    .bind (Arguments.keeps_get height count 1) fun _ =>
      .bind (ActorM.keeps_reading _) fun _ => .pure _

variable {κ : Type} [Kernel κ]

theorem keeps_spawn : Keeps (fun s : Session κ => s.actor) (spawn (.below height count)) :=
  .bind (Exec.keeps_reading (Arguments.keeps_atLeast height count 1)) fun _ =>
    .bind (Exec.keeps_reading (Arguments.keeps_get height count 0)) fun _ =>
    .bind (Exec.keeps_reading (Arguments.keeps_rest height count 1)) fun _ =>
    .bind (Exec.keeps_asking _) fun _ => .pure _

theorem keeps_kill : Keeps (fun s : Session κ => s.actor) (kill (.below height count)) := by
  refine .bind (Exec.keeps_reading (Arguments.keeps_pid height count 0)) fun target => ?_
  refine .bind (.bind .get fun _ => .pure _) fun self => ?_
  exact .ite (fun _ => .pure _) fun _ => .bind (Exec.keeps_asking _) fun _ => .pure _

end Native

/-! ## The library -/

section Library

variable {ν : Naming} {σ : Matching} {V : Sight} [Kernel κ] {s : Session κ}
    (h : s.actor.ShowsAt ν σ V) (height count : Nat)

include h

omit [Kernel κ] in
/-- The strings that are arguments, one after the other, are a new string. -/
theorem Native.serves_stringConcat (args : List Item) :
    Exec.Serves V .stringConcat args
      (do return Answer.value (← Exec.onActor (stringConcat (.below height count)))) s := by
  refine .bind (Exec.ends_onActor (.bind ?_))
  refine ((keeps_appendStrings height count count ByteArray.empty 0).ends s.actor).mono ?_ ?_
  · intro bytes b hb
    obtain rfl : b = s.actor := hb
    rw [ActorM.newString, ActorM.alloc, bind_assoc]
    refine (h.ends_make (ActorM.makes_string bytes) (.string _ _)).mono ?_ ?_
    · rintro _ b ⟨ν', σ', p, rfl, hp, shows⟩
      exact .pure ⟨ν', σ', _, _, shows, .object hp, .string bytes (by decide)⟩
    · rintro e b ⟨-, ν', σ', shows⟩
      exact ⟨ν', σ', shows, .failed e (by decide)⟩
  · intro e b hb
    obtain rfl : b = s.actor := hb
    exact ⟨ν, σ, h, .failed e (by decide)⟩

/-- Whatever operation is called, a program sees of it what it should. -/
theorem Operation.serves (op : Operation) :
    Exec.Serves V op (V.arguments height count) (op.run (.below height count)) s := by
  cases op with
  | selfPid =>
    refine .inspects h (by decide) (.bind (.bind .get fun _ => .pure _) fun _ => .pure _) ?_
    exact .last fun _ _ => .pure rfl
  | spawn =>
    refine .inspects h (by decide) (.bind (Native.keeps_spawn height count) fun _ => .pure _) ?_
    refine .bind (.last fun _ _ => .last fun _ _ => .last fun _ _ => .last fun _ _ => .pure ?_)
    exact .pure rfl
  | giveTurn => exact .inspects h (by decide) (.pure _) (.pure rfl)
  | exit => exact .inspects h (by decide) (.pure _) (.pure rfl)
  | raise =>
    exact .inspects h (by decide) (Exec.keeps_native (Native.keeps_raise height count))
      (Exec.inline_native ((Native.ends_raise height count _).mono (fun _ _ h => h.elim)
        fun _ _ h => h))
  | kill =>
    refine .inspects h (by decide) (Native.keeps_kill height count) ?_
    exact .last fun _ _ => .last fun _ _ => .ite (fun _ => .pure rfl) fun _ =>
      .last fun _ _ => .pure rfl
  | stringLength =>
    exact .inspects h (by decide) (Exec.keeps_native (Native.keeps_stringLength height count))
      (Exec.inline_native (.last fun _ _ => .last fun _ _ => .pure rfl))
  | stringConcat => exact Native.serves_stringConcat h height count _
  | stringEqual =>
    exact .inspects h (by decide) (Exec.keeps_native (Native.keeps_stringEqual height count))
      (Exec.inline_native (.last fun _ _ => .last fun _ _ => .last fun _ _ =>
        .last fun _ _ => .pure rfl))
  | tupleNew => exact .native (by decide) (Native.serves_tupleNew h height count)
  | tupleGet => exact .native (by decide) (Native.serves_tupleGet h height count)
  | tupleSet => exact .native (by decide) (Native.serves_tupleSet h height count)
  | tupleLength => exact .native (by decide) (Native.serves_tupleLength h height count)
  | arrayNew => exact .native (by decide) (Native.serves_arrayNew h _)
  | arrayPush => exact .native (by decide) (Native.serves_arrayPush h)
  | arrayGet => exact .native (by decide) (Native.serves_arrayGet h height count)
  | arraySet => exact .native (by decide) (Native.serves_arraySet h height count)
  | arrayLength => exact .native (by decide) (Native.serves_arrayLength h height count)
  | tableNew => exact .native (by decide) (Native.serves_tableNew h _)
  | tableGet => exact .native (by decide) (Native.serves_tableGet h height count)
  | tableSet => exact .native (by decide) (Native.serves_tableSet h)
  | tableLength => exact .native (by decide) (Native.serves_tableLength h height count)

end Library

end ActorMachine
