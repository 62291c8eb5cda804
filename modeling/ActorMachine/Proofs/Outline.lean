import ActorMachine.Proofs.Outcome

/-!
# What the heap and the library leave alone

Allocation, collection and every native work on the heap and on the places of objects. They keep
the outline of the actor: its calls, its protected calls, the height of its stack, the length and
the cursor of its mailbox, and its limits (`Operation.keeps_outline`).
-/

namespace ActorMachine

/-- An actor without its heap and without the values that it holds. -/
structure Outline where
  frames : Array Frame
  catches : List CatchPoint
  height : Nat
  messages : Nat
  cursor : Nat
  entry : Option Nat
  pendingReceive : Option Int
  limits : ActorLimits

/-- The outline of an actor. -/
def Actor.outline (a : Actor) : Outline where
  frames := a.frames
  catches := a.catches
  height := a.stack.size
  messages := a.mailbox.size
  cursor := a.mailbox.cursor
  entry := a.entry
  pendingReceive := a.pendingReceive
  limits := a.limits

theorem Evacuation.size_foldl_move (vs : List Value) (acc : Array Value × Evacuation) :
    (vs.foldl (fun acc v => (acc.1.push (acc.2.move v).1, (acc.2.move v).2)) acc).1.size =
      acc.1.size + vs.length := by
  induction vs generalizing acc with
  | nil => rfl
  | cons v vs ih =>
    rw [List.foldl_cons, ih]
    simp only [Array.size_push, List.length_cons]
    omega

theorem Evacuation.size_moveAll (e : Evacuation) (values : Array Value) :
    (e.moveAll values).1.size = values.size := by
  rw [moveAll_eq, size_foldl_move]
  simp [Array.emptyWithCapacity]

theorem Rooted.size_compact (s : Rooted) : s.compact.roots.size = s.roots.size :=
  Evacuation.size_moveAll _ _

theorem RootedM.size_collect (request : Nat) (s : Rooted) :
    (leaves (RootedM.collect request) s).roots.size = s.roots.size := by
  unfold leaves
  simp only [RootedM.collect]
  by_cases h : s.compact.heap.grownCapacity s.compact.heap.used request <
      s.compact.heap.used + request
  · rw [if_pos h]
    exact s.size_compact
  · rw [if_neg h]
    exact s.size_compact

/-- Putting as many values back as the actor held keeps its outline. -/
theorem Actor.outline_withRooted {a : Actor} {s : Rooted} (h : s.roots.size = a.roots.size) :
    (a.withRooted s).outline = a.outline := by
  have hsize : s.roots.size = a.stack.size + a.mailbox.messages.size := by
    rw [h, Actor.roots, Array.size_append]
  simp only [Actor.outline, Actor.withRooted, Mailbox.size, Array.size_extract, Outline.mk.injEq,
    and_true, true_and]
  omega

namespace ActorM

theorem keeps_readHeap (f : Heap → Except HeapError α) : Keeps Actor.outline (readHeap f) := by
  intro a
  unfold leaves readHeap
  cases f a.heap <;> rfl

theorem keeps_onHeap (m : HeapM α) : Keeps Actor.outline (onHeap m) := by
  intro a
  unfold leaves
  simp only [onHeap]
  cases m a.heap <;> rfl

theorem keeps_collect (request : Nat) : Keeps Actor.outline (collect request) := by
  intro a
  have hsize := RootedM.size_collect request { heap := a.heap, roots := a.roots }
  unfold leaves at hsize ⊢
  simp only [collect]
  cases h : RootedM.collect request { heap := a.heap, roots := a.roots } with
  | ok u s => rw [h] at hsize; exact Actor.outline_withRooted hsize
  | error e s => rw [h] at hsize; exact Actor.outline_withRooted hsize

theorem keeps_reserve (bytes : Nat) : Keeps Actor.outline (reserve bytes) :=
  .bind .get fun _ => .ite (fun _ => keeps_collect bytes) fun _ => .pure _

theorem keeps_alloc (kind : Kind) (size : Nat) : Keeps Actor.outline (alloc kind size) :=
  .bind (keeps_reserve _) fun _ => keeps_onHeap _

theorem keeps_newString (bytes : ByteArray) : Keeps Actor.outline (newString bytes) :=
  .bind (keeps_alloc _ _) fun _ => .bind (keeps_onHeap _) fun _ => .pure _

theorem keeps_newTupleRef (length : Nat) : Keeps Actor.outline (newTupleRef length) :=
  .bind (keeps_alloc _ _) fun _ => .bind (keeps_onHeap _) fun _ => .pure _

theorem keeps_newTuple (length : Nat) : Keeps Actor.outline (newTuple length) :=
  .bind (keeps_newTupleRef length) fun _ => .pure _

theorem keeps_stringBytes (v : Value) : Keeps Actor.outline (stringBytes v) := by
  unfold stringBytes
  split
  · exact keeps_readHeap _
  · exact .throw _

end ActorM

/-- Natives cannot tell the arguments apart, wherever `p` holds of the outline. -/
structure Arguments.Alike (p : Outline → Prop) (args args' : Arguments) : Prop where
  count : args'.count = args.count
  read : ∀ i < args.count, ActorMachine.Alike p Actor.outline (args.read i) (args'.read i)

theorem Arguments.alike_below (height count : Nat) :
    Arguments.Alike (fun _ => True) (below height count) (below height count) :=
  ⟨rfl, fun _ _ => .of_keeps (.bind .get fun _ => .pure _)⟩

section Natives

variable {p : Outline → Prop}

theorem ActorM.alike_readHeap (f : Heap → Except HeapError α) :
    Alike p Actor.outline (readHeap f) (readHeap f) := .of_keeps (keeps_readHeap f)

theorem ActorM.alike_onHeap (m : HeapM α) : Alike p Actor.outline (onHeap m) (onHeap m) :=
  .of_keeps (keeps_onHeap m)

variable {args args' : Arguments} (hargs : Arguments.Alike p args args')

include hargs

namespace Arguments.Alike

theorem get (i : Nat) : ActorMachine.Alike p Actor.outline (args.get i) (args'.get i) := by
  unfold Arguments.get
  rw [hargs.count]
  exact .ite (hargs.read i) fun _ => .pure _

theorem rest (first : Nat) :
    ActorMachine.Alike p Actor.outline (args.rest first) (args'.rest first) := by
  unfold Arguments.rest
  rw [hargs.count]
  exact .mapM (fun i => hargs.get i) _

theorem atLeast (n : Nat) :
    ActorMachine.Alike p Actor.outline (args.atLeast n) (args'.atLeast n) := by
  unfold Arguments.atLeast
  rw [hargs.count]
  exact .ite (fun _ => .throw _) fun _ => .pure _

theorem integer (i : Nat) :
    ActorMachine.Alike p Actor.outline (args.integer i) (args'.integer i) := by
  refine .bind (hargs.get i) fun v => ?_
  split
  · exact .pure _
  · exact .throw _

theorem pid (i : Nat) : ActorMachine.Alike p Actor.outline (args.pid i) (args'.pid i) := by
  refine .bind (hargs.get i) fun v => ?_
  split
  · exact .pure _
  · exact .throw _

theorem object (shape : Shape) (i : Nat) :
    ActorMachine.Alike p Actor.outline (args.object shape i) (args'.object shape i) := by
  refine .bind (hargs.get i) fun v => ?_
  split
  · exact .ite (fun _ => .pure _) fun _ => .throw _
  · exact .throw _

theorem elementCount (i : Nat) :
    ActorMachine.Alike p Actor.outline (args.elementCount i) (args'.elementCount i) :=
  .bind (hargs.integer i) fun _ => .ite (fun _ => .throw _) fun _ => .pure _

end Arguments.Alike

namespace Native

open ActorM (alike_readHeap alike_onHeap)

theorem alike_raise : Alike p Actor.outline (raise args) (raise args') := by
  refine .bind (hargs.get 0) fun v => ?_
  split
  · exact .bind (.of_keeps (ActorM.keeps_stringBytes _)) fun _ => .bind (.pure _) fun _ => .throw _
  · exact .bind (.pure _) fun _ => .throw _
  · exact .bind (.pure _) fun _ => .throw _

theorem alike_stringLength : Alike p Actor.outline (stringLength args) (stringLength args') :=
  .bind (hargs.object _ _) fun _ => .bind (alike_readHeap _) fun _ => .pure _

theorem alike_appendStrings (bytes : ByteArray) (i count : Nat) :
    Alike p Actor.outline (appendStrings args bytes i count)
      (appendStrings args' bytes i count) := by
  induction count generalizing bytes i with
  | zero => exact .pure _
  | succ count ih =>
    exact .bind (hargs.object _ _) fun _ => .bind (alike_readHeap _) fun _ => ih _ _

theorem alike_stringConcat : Alike p Actor.outline (stringConcat args) (stringConcat args') := by
  unfold stringConcat
  rw [hargs.count]
  exact .bind (alike_appendStrings hargs _ _ _) fun _ => .of_keeps (ActorM.keeps_newString _)

theorem alike_stringEqual : Alike p Actor.outline (stringEqual args) (stringEqual args') :=
  .bind (hargs.atLeast _) fun _ => .bind (hargs.get _) fun _ =>
    .bind (hargs.get _) fun _ => .bind (alike_readHeap _) fun _ => .pure _

theorem alike_tupleNew : Alike p Actor.outline (tupleNew args) (tupleNew args') :=
  .bind (hargs.elementCount _) fun _ => .of_keeps (ActorM.keeps_newTuple _)

theorem alike_tupleGet : Alike p Actor.outline (tupleGet args) (tupleGet args') :=
  .bind (hargs.object _ _) fun _ => .bind (hargs.integer _) fun _ => alike_readHeap _

theorem alike_tupleSet : Alike p Actor.outline (tupleSet args) (tupleSet args') :=
  .bind (hargs.object _ _) fun _ => .bind (hargs.integer _) fun _ =>
    .bind (hargs.get _) fun _ => .bind (alike_onHeap _) fun _ => .pure _

theorem alike_tupleLength : Alike p Actor.outline (tupleLength args) (tupleLength args') :=
  .bind (hargs.object _ _) fun _ => .bind (alike_readHeap _) fun _ => .pure _

omit hargs in
theorem alike_arrayNew : Alike p Actor.outline arrayNew arrayNew :=
  .bind (.of_keeps (ActorM.keeps_alloc _ _)) fun _ => .pure _

theorem alike_growArray : Alike p Actor.outline (growArray args) (growArray args') := by
  refine .bind (hargs.object _ _) fun _ => .bind (alike_readHeap _) fun _ =>
    .bind (.of_keeps (ActorM.keeps_newTupleRef _)) fun _ => .bind (hargs.object _ _) fun _ =>
    .bind (alike_readHeap _) fun store => ?_
  cases store with
  | none => exact alike_onHeap _
  | some old =>
    exact .bind (alike_readHeap _) fun _ => .bind (alike_onHeap _) fun _ => alike_onHeap _

theorem alike_arrayPush : Alike p Actor.outline (arrayPush args) (arrayPush args') := by
  refine .bind (hargs.atLeast _) fun _ => .bind (hargs.object _ _) fun _ =>
    .bind (alike_readHeap _) fun _ => .bind (alike_readHeap _) fun _ => ?_
  have rest : ∀ r, Alike p Actor.outline (do
      ActorM.onHeap (HeapM.arrayPush r (← args.get 1))
      return ofNat (← ActorM.readHeap (·.arrayLength r)) : ActorM Value) (do
      ActorM.onHeap (HeapM.arrayPush r (← args'.get 1))
      return ofNat (← ActorM.readHeap (·.arrayLength r))) := fun r =>
    .bind (hargs.get _) fun _ => .bind (alike_onHeap _) fun _ =>
      .bind (alike_readHeap _) fun _ => .pure _
  refine .ite (fun _ => ?_) fun _ => ?_
  · exact .bind (alike_growArray hargs) fun _ => .bind (hargs.object _ _) rest
  · exact .bind (hargs.object _ _) rest

theorem alike_arrayGet : Alike p Actor.outline (arrayGet args) (arrayGet args') :=
  .bind (hargs.object _ _) fun _ => .bind (hargs.integer _) fun _ => alike_readHeap _

theorem alike_arraySet : Alike p Actor.outline (arraySet args) (arraySet args') :=
  .bind (hargs.object _ _) fun _ => .bind (hargs.integer _) fun _ =>
    .bind (hargs.get _) fun _ => .bind (alike_onHeap _) fun _ => .pure _

theorem alike_arrayLength : Alike p Actor.outline (arrayLength args) (arrayLength args') :=
  .bind (hargs.object _ _) fun _ => .bind (alike_readHeap _) fun _ => .pure _

omit hargs in
theorem alike_tableNew : Alike p Actor.outline tableNew tableNew :=
  .bind (.of_keeps (ActorM.keeps_alloc _ _)) fun _ => .pure _

theorem alike_tableGet : Alike p Actor.outline (tableGet args) (tableGet args') :=
  .bind (hargs.object _ _) fun _ => .bind (hargs.get _) fun _ => alike_readHeap _

theorem alike_tableSet : Alike p Actor.outline (tableSet args) (tableSet args') := by
  refine .bind (hargs.atLeast _) fun _ => .bind (hargs.object _ _) fun _ =>
    .bind (hargs.get _) fun _ => .bind (hargs.get _) fun _ =>
    .bind (alike_onHeap _) fun _ => .ite (fun _ => .pure _) fun _ => ?_
  exact .bind (alike_readHeap _) fun _ =>
    .bind (.of_keeps (ActorM.keeps_newTupleRef _)) fun _ => .bind (hargs.object _ _) fun _ =>
    .bind (hargs.get _) fun _ => .bind (hargs.get _) fun _ =>
    .bind (alike_onHeap _) fun _ => .bind (alike_onHeap _) fun _ => .pure _

theorem alike_tableLength : Alike p Actor.outline (tableLength args) (tableLength args') :=
  .bind (hargs.object _ _) fun _ => .bind (alike_readHeap _) fun _ => .pure _

end Native

end Natives

section Operations

variable {κ : Type} [Kernel κ] {p : Outline → Prop} {args args' : Arguments}

open Exec (alike_onActor keeps_onKernel)

theorem Exec.keeps_self : Keeps (fun s : Session κ => s.actor.outline) Exec.self :=
  .bind .get fun _ => .pure _

theorem Native.alike_spawn (hargs : Arguments.Alike p args args') :
    Alike p (fun s : Session κ => s.actor.outline) (Native.spawn args) (Native.spawn args') :=
  .bind (alike_onActor (hargs.atLeast _)) fun _ => .bind (alike_onActor (hargs.get _))
    fun _ => .bind (alike_onActor (hargs.rest _)) fun _ => .bind (.of_keeps (keeps_onKernel _))
    fun _ => .pure _

theorem Native.alike_kill (hargs : Arguments.Alike p args args') :
    Alike p (fun s : Session κ => s.actor.outline) (Native.kill args) (Native.kill args') := by
  refine .bind (alike_onActor (hargs.pid _)) fun _ => .bind (.of_keeps Exec.keeps_self) fun _ =>
    .ite (fun _ => .pure _) fun _ => ?_
  exact .bind (.of_keeps (keeps_onKernel _)) fun _ => .pure _

/-- An operation of the library keeps the outline of the actor that calls it, and does the same with
arguments that it cannot tell apart. -/
theorem Operation.alike (op : Operation) (hargs : Arguments.Alike p args args') :
    Alike p (fun s : Session κ => s.actor.outline) (op.run args : Exec κ Answer)
      (op.run args') := by
  have answer : ∀ {m m' : ActorM Value}, Alike p Actor.outline m m' →
      Alike p (fun s : Session κ => s.actor.outline) (do return Answer.value (← Exec.onActor m))
        (do return Answer.value (← Exec.onActor m')) :=
    fun h => .bind (alike_onActor h) fun _ => .pure _
  cases op with
  | selfPid => exact .bind (.of_keeps Exec.keeps_self) fun _ => .pure _
  | spawn => exact .bind (Native.alike_spawn hargs) fun _ => .pure _
  | giveTurn => exact .pure _
  | exit => exact .pure _
  | raise => exact answer (Native.alike_raise hargs)
  | kill => exact Native.alike_kill hargs
  | stringLength => exact answer (Native.alike_stringLength hargs)
  | stringConcat => exact answer (Native.alike_stringConcat hargs)
  | stringEqual => exact answer (Native.alike_stringEqual hargs)
  | tupleNew => exact answer (Native.alike_tupleNew hargs)
  | tupleGet => exact answer (Native.alike_tupleGet hargs)
  | tupleSet => exact answer (Native.alike_tupleSet hargs)
  | tupleLength => exact answer (Native.alike_tupleLength hargs)
  | arrayNew => exact answer Native.alike_arrayNew
  | arrayPush => exact answer (Native.alike_arrayPush hargs)
  | arrayGet => exact answer (Native.alike_arrayGet hargs)
  | arraySet => exact answer (Native.alike_arraySet hargs)
  | arrayLength => exact answer (Native.alike_arrayLength hargs)
  | tableNew => exact answer Native.alike_tableNew
  | tableGet => exact answer (Native.alike_tableGet hargs)
  | tableSet => exact answer (Native.alike_tableSet hargs)
  | tableLength => exact answer (Native.alike_tableLength hargs)

/-- Every operation of the library keeps the outline of the actor that calls it. -/
theorem Operation.keeps_outline (op : Operation) (height count : Nat) :
    Keeps (fun s : Session κ => s.actor.outline)
      (op.run (.below height count) : Exec κ Answer) :=
  (op.alike (Arguments.alike_below height count)).keeps

end Operations

end ActorMachine
