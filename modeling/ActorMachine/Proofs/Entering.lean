import ActorMachine.Proofs.Deliveries
import ActorMachine.Proofs.Protections
import ActorMachine.Proofs.Sizing

/-!
# First calls

A process is started with its first call on the stack: copies of the arguments, and the function
above them. All arguments are measured first, and room is made for the copies of all of them at
once, so once the first one is copied nothing but the height of the stack can be in the way
(`ActorM.ends_stackEntry`). The arguments are copied one at a time, the last one first. A copy stays
what it is while others are added behind it (`GraphCopy.extend`), and when the call is made the
function finds argument `k` at the local `-1 - k` (`Actor.Entered.finds`).
-/

namespace ActorMachine

open Memory

/-! ## Copies of graphs -/

/-- All that a value leads to has been copied to another memory. The value at the new place leads to
the copies and to nothing else, and different objects have different copies. -/
structure GraphCopy (φ : Ref → Ref) (m : Memory) (v : Value) (m' : Memory) (w : Value) : Prop where
  value_eq : w = v.relocate φ
  copies : ∀ r, m.Leads (· = v) r → FaithfulCopy φ m m' r
  injective : ∀ r t, m.Leads (· = v) r → m.Leads (· = v) t → φ r = φ t → r = t
  leads_iff : ∀ t, m'.Leads (· = w) t ↔ ∃ r, m.Leads (· = v) r ∧ φ r = t

namespace GraphCopy

variable {φ : Ref → Ref} {m m' m'' : Memory} {v w : Value}

/-- What the value at the new place leads to is settled by the copies. -/
theorem of_copies (objects : ∀ r, m.Leads (· = v) r → ∃ s, m.IsObject s r)
    (value_eq : w = v.relocate φ) (copies : ∀ r, m.Leads (· = v) r → FaithfulCopy φ m m' r)
    (injective : ∀ r t, m.Leads (· = v) r → m.Leads (· = v) t → φ r = φ t → r = t) :
    GraphCopy φ m v m' w where
  value_eq := value_eq
  copies := copies
  injective := injective
  leads_iff t := by
    refine FaithfulCopy.leads_iff copies objects fun x => ?_
    rw [value_eq]
    exact ⟨fun hx => ⟨v, rfl, hx.symm⟩, fun ⟨_, hy, hx⟩ =>
      hx.symm.trans (congrArg (Value.relocate φ) hy)⟩

theorem extend (h : GraphCopy φ m v m' w) (objects : ∀ r, m.Leads (· = v) r → ∃ s, m.IsObject s r)
    (ext : Extends m' m'') : GraphCopy φ m v m'' w := by
  refine .of_copies objects h.value_eq (fun r hr => ?_) h.injective
  obtain ⟨s, obj⟩ := objects r hr
  exact (h.copies r hr).extend obj ext

end GraphCopy

theorem DeepCopy.graphCopy {φ : Ref → Ref} {order : List Ref} {m : Memory} {v w : Value}
    {target target' : Heap} (h : DeepCopy φ order m v target w target')
    (objects : ∀ r, m.Leads (· = v) r → ∃ s, m.IsObject s r) :
    GraphCopy φ m v target'.memory w :=
  .of_copies objects h.value_eq (fun r hr => h.replica.copies r ((h.lists.mem_iff r).mpr hr))
    fun r t hr ht => h.replica.injective (fun r hr => objects r (h.leads hr))
      ((h.lists.mem_iff r).mpr hr) ((h.lists.mem_iff t).mpr ht)

/-! ## Arguments -/

namespace Value

variable {source : Option Heap} {v w : Value} {m m' : Memory} {n : Nat}

/-- An argument leads to nothing but objects of the heap that it lives in. -/
def ValidIn (source : Option Heap) (v : Value) : Prop :=
  ∀ h, source = some h → ∀ r, h.memory.Leads (· = v) r → ∃ s, h.memory.IsObject s r

/-- The copy of an argument takes up so many bytes. Without a heap there is nothing to copy. -/
def Measures (source : Option Heap) (v : Value) (n : Nat) : Prop :=
  match source with
  | some h => h.measure v = .ok n
  | none => n = 0

/-- A value is what an argument has become in another memory. Without a heap arguments stay the
same. -/
def Arrives (source : Option Heap) (m : Memory) (v w : Value) : Prop :=
  match source with
  | some h => ∃ φ, GraphCopy φ h.memory v m w
  | none => w = v

theorem Arrives.extend (h : Arrives source m v w) (valid : v.ValidIn source) (ext : Extends m m') :
    Arrives source m' v w := by
  cases source with
  | none => exact h
  | some heap =>
    obtain ⟨φ, copy⟩ := h
    exact ⟨φ, copy.extend (valid heap rfl) ext⟩

theorem ValidIn.exists_measures (valid : v.ValidIn source) : ∃ n, v.Measures source n := by
  cases source with
  | none => exact ⟨0, rfl⟩
  | some h =>
    obtain ⟨refs, hmeasure, -⟩ := Heap.measure_spec (valid h rfl)
    exact ⟨_, hmeasure⟩

end Value

/-- Without a heap only inline values can be arguments. -/
def Sendable (source : Option Heap) (args : List Value) : Prop :=
  source = none → ∀ v ∈ args, v.isCollectable = false

namespace ActorM

variable {source : Option Heap} {args : List Value} {sizes : List Nat} {v : Value} {n : Nat}

theorem exists_sizes (valid : ∀ v ∈ args, v.ValidIn source) :
    ∃ sizes, List.Forall₂ (Value.Measures source) args sizes := by
  induction args with
  | nil => exact ⟨[], .nil⟩
  | cons v args ih =>
    obtain ⟨n, hn⟩ := (valid v List.mem_cons_self).exists_measures
    obtain ⟨sizes, hsizes⟩ := ih fun w hw => valid w (List.mem_cons_of_mem _ hw)
    exact ⟨n :: sizes, .cons hn hsizes⟩

theorem measureArg_of_inline (inline : v.isCollectable = false) : measureArg source v = .ok 0 := by
  unfold measureArg
  rw [inline]

theorem measureArg_none_of_collectable (collectable : v.isCollectable = true) :
    measureArg none v = .error (.mismatch .inlineValue v) := by
  unfold measureArg
  rw [collectable]

theorem measureArg_eq_ok_iff :
    measureArg source v = .ok n ↔ (source = none → v.isCollectable = false) ∧
    v.Measures source n := by
  cases hv : v.isCollectable with
  | false =>
    rw [measureArg_of_inline hv]
    cases source with
    | none => simp [Value.Measures, eq_comm]
    | some h =>
      have inline : v.ref? = none := Option.not_isSome_iff_eq_none.mp (ne_true_of_eq_false hv)
      simp [Value.Measures, Heap.measure, inline]
  | true =>
    cases source with
    | none => simp [measureArg_none_of_collectable hv]
    | some h =>
      unfold measureArg Value.Measures
      rw [hv]
      cases hm : h.measure v <;> simp [hm]

theorem measureArgs_eq_ok (measured : List.Forall₂ (Value.Measures source) args sizes)
    (sendable : Sendable source args) : measureArgs source args = .ok sizes.sum := by
  induction measured with
  | nil => rfl
  | cons hn _ ih =>
    rw [List.sum_cons]
    refine measureArgs_cons_of_ok (measureArg_eq_ok_iff.mpr ⟨fun hs => ?_, hn⟩)
      (ih fun hs w hw => ?_)
    · exact sendable hs _ List.mem_cons_self
    · exact sendable hs w (List.mem_cons_of_mem _ hw)

/-- Without a heap, the first argument that lives in one is refused. -/
theorem measureArgs_eq_error (found : args.find? Value.isCollectable = some v) :
    measureArgs none args = .error (.mismatch .inlineValue v) := by
  induction args with
  | nil => cases found
  | cons w args ih =>
    rw [List.find?_cons] at found
    unfold measureArgs
    cases hw : w.isCollectable with
    | true =>
      rw [hw] at found
      cases found
      rw [measureArg_none_of_collectable hw]
      rfl
    | false =>
      rw [hw] at found
      rw [measureArg_of_inline hw, ih found]
      rfl

/-! ## Room for all copies -/

variable {config : ActorConfig} {a : Actor} {bytes : Nat}

/-- An actor that has done nothing yet gets any room within the bound of its heap, and its heap
stays empty. -/
theorem ends_reserve_create (config : ActorConfig) (bytes : Nat) :
    Ends (reserve bytes) (Actor.create config)
      (fun _ b => bytes ≤ (Actor.create config).heap.maxCapacity ∧ ∃ heap : Heap,
        b = { Actor.create config with heap } ∧ heap.Bounded ∧ heap.used = 0 ∧ bytes ≤ heap.free)
      fun e _ => (Actor.create config).heap.maxCapacity < bytes ∧
        e = .heap (.outOfMemory bytes (Actor.create config).heap.maxCapacity) := by
  have bounded : (Actor.create config).heap.Bounded := .create _ _
  by_cases enough : bytes ≤ (Actor.create config).heap.free
  · have hle := Nat.le_trans enough (Nat.sub_le _ _)
    exact .returns (reserve_of_le enough)
      ⟨Nat.le_trans hle bounded.capacity_le, _, rfl, bounded, rfl, enough⟩
  · -- Nothing is live, so all that a collection does is to let the heap grow.
    obtain ⟨-, hmax, hiff⟩ := bounded.grownCapacity (Nat.le_refl 0) bytes
    have hcollect := RootedM.collect_eq
      ⟨(Actor.create config).heap, (Actor.create config).roots⟩ bytes
    have empty : (Rooted.compact ⟨(Actor.create config).heap,
      (Actor.create config).roots⟩).heap.used = 0 := rfl
    rw [empty, Nat.zero_add] at hcollect
    rw [Nat.zero_add] at hiff
    refine .of_eq (reserve_of_lt (Nat.lt_of_not_le enough)) ?_
    unfold Ends collect
    rw [hcollect]
    by_cases full : (Actor.create config).heap.grownCapacity 0 bytes < bytes
    · rw [if_pos full]
      exact ⟨hiff.mp full, rfl⟩
    · rw [if_neg full]
      refine ⟨Nat.le_of_not_lt (mt hiff.mpr full), _, rfl,
        ⟨Nat.zero_le _, hmax, bounded.max_le⟩, rfl, ?_⟩
      exact Nat.le_of_not_lt full

/-! ## One copy after the other -/

/-- The first of some values is copied, where there is room, and then pushed before the others are
copied. -/
theorem pushCopies_cons_eq {k : Nat} (values : List Value) (valid : v.ValidIn source)
    (measured : measureArg source v = .ok k) (bounded : a.heap.Bounded) (room : k ≤ a.heap.free) :
    ∃ (heap : Heap) (w : Value), pushCopies source (v :: values) a =
        (do push w; pushCopies source values : ActorM Unit) { a with heap } ∧
      heap.Bounded ∧ Extends a.heap.memory heap.memory ∧ heap.used = a.heap.used + k ∧
      heap.capacity = a.heap.capacity ∧ v.Arrives source heap.memory w := by
  cases source with
  | none =>
    obtain rfl : k = 0 := (measureArg_eq_ok_iff.mp measured).2
    exact ⟨a.heap, v, rfl, bounded, .refl _, rfl, rfl, rfl⟩
  | some source =>
    have objects := valid source rfl
    obtain ⟨refs, hmeasure, lists⟩ := Heap.measure_spec objects
    obtain rfl : k = source.memory.total refs :=
      Except.ok.inj ((measureArg_eq_ok_iff.mp measured).2.symm.trans hmeasure)
    have ends := HeapM.ends_copy objects lists bounded.used_le
      (Nat.le_trans bounded.capacity_le bounded.max_le)
    cases run : HeapM.copy source v a.heap with
    | error e heap =>
      -- A copy fails for want of room only.
      have full := (ends.of_error run).room
      have hused := bounded.used_le
      rw [Heap.free] at room
      omega
    | ok w heap =>
      obtain ⟨φ, order, copied⟩ := ends.of_ok run
      have grown := Heap.Grown.of_memory bounded copied.same copied.used_le
      refine ⟨heap, w, ?_, grown.bounded, copied.extends_, ?_, ?_, φ, copied.graphCopy objects⟩
      · rw [pushCopies]
        exact bind_of_ok (onHeap_ok run)
      · rw [← copied.lists.total_eq lists]
        exact copied.replica.size
      · rw [copied.same]

/-- Copies of values, for all of which there is room, are pushed one after the other, as long as the
stack is not too high. -/
theorem ends_stackCopies {values : List Value} (valid : ∀ v ∈ values, v.ValidIn source)
    (measured : measureArgs source values = .ok n) (bounded : a.heap.Bounded)
    (room : n ≤ a.heap.free) (height : a.stack.size ≤ a.limits.maxStack) :
    Ends (pushCopies source values) a
      (fun _ b => a.stack.size + values.length ≤ a.limits.maxStack ∧
        ∃ (heap : Heap) (copies : List Value),
        b = { a with heap, stack := a.stack ++ copies } ∧ Extends a.heap.memory heap.memory ∧
        heap.used = a.heap.used + n ∧ List.Forall₂ (Value.Arrives source heap.memory) values copies)
      fun e _ => e = .stackOverflow ∧ a.limits.maxStack < a.stack.size + values.length := by
  induction values generalizing a n with
  | nil =>
    cases measured
    exact .pure ⟨height, a.heap, [], by rw [Array.appendList_nil], .refl _, rfl, .nil⟩
  | cons v values ih =>
    obtain ⟨k, m, hk, hm, rfl⟩ := measureArgs_cons_ok measured
    obtain ⟨heap, w, run, hbounded, hext, hused, hcapacity, harrives⟩ := pushCopies_cons_eq
      values (valid v List.mem_cons_self) hk bounded (Nat.le_trans (Nat.le_add_right k m) room)
    have hroom : m ≤ heap.free := by
      rw [Heap.free] at room ⊢
      omega
    -- The copy that has been made stays what it is while the others are added behind it.
    have rest := fun b => @ih m b (fun u hu => valid u (List.mem_cons_of_mem _ hu)) hm
    refine .of_eq run <| .bind <| (ends_push w _).mono ?_ ?_
    · rintro _ _ ⟨hlt, rfl⟩
      have hsize : (a.stack.push w).size = a.stack.size + 1 := Array.size_push w
      refine (rest { a with heap, stack := a.stack.push w } hbounded hroom (hsize ▸ hlt)).mono ?_ ?_
      · rintro _ _ ⟨hfits, heap', copies, rfl, hext', hused', harrives'⟩
        have hfits : (a.stack.push w).size + values.length ≤ a.limits.maxStack := hfits
        have hstack : a.stack.push w ++ copies = a.stack ++ w :: copies := by simp
        refine ⟨?_, heap', w :: copies, ?_, hext.trans hext', ?_, .cons ?_ harrives'⟩
        · rw [List.length_cons]
          omega
        · rw [← hstack]
        · rw [hused', hused, Nat.add_assoc]
        · exact harrives.extend (valid v List.mem_cons_self) hext'
      · rintro e _ ⟨rfl, hover⟩
        have hover : a.limits.maxStack < (a.stack.push w).size + values.length := hover
        rw [List.length_cons]
        exact ⟨rfl, by omega⟩
    · rintro e _ ⟨rfl, rfl, hover⟩
      have hover : a.limits.maxStack ≤ a.stack.size := hover
      rw [List.length_cons]
      exact ⟨rfl, by omega⟩

end ActorM

/-! ## The first call -/

/-- An actor that is about to make its first call: of a callee, with copies of the arguments, the
first one on top. It has done nothing else, and its heap holds the copies only. -/
structure Actor.Entered (config : ActorConfig) (callee : Value) (args : List Value)
    (source : Option Heap)
    (bytes : Nat) (copies : List Value) (a : Actor) : Prop where
  same : a = { Actor.create config with
    heap := a.heap
    stack := (copies.reverse ++ [callee]).toArray
    entry := some args.length }
  used_eq : a.heap.used = bytes
  arrives : List.Forall₂ (Value.Arrives source a.heap.memory) args copies

namespace ActorM

variable {source : Option Heap} {args : List Value} {sizes : List Nat} {callee : Value}

theorem prepareEntry_of_not_callable (args : List Value) (source : Option Heap) (a : Actor)
    (h : callee.isCallable = false) :
    prepareEntry callee args source a = .error (.notCallable callee.kind) a := by
  unfold prepareEntry
  rw [h]
  rfl

theorem prepareEntry_of_error (a : Actor) (callable : callee.isCallable = true) {e : Fault}
    (measured : measureArgs source args = .error e) :
    prepareEntry callee args source a = .error e a := by
  unfold prepareEntry
  rw [callable, measured]
  rfl

/-- A first call of something that can be called, with arguments that can be sent. It is stacked
unless there is no room for the copies or, if there is, the stack is too low. -/
theorem ends_stackEntry (config : ActorConfig) (callable : callee.isCallable = true)
    (sendable : Sendable source args) (valid : ∀ v ∈ args, v.ValidIn source)
    (measured : List.Forall₂ (Value.Measures source) args sizes) :
    Ends (prepareEntry callee args source) (Actor.create config)
      (fun _ b => sizes.sum ≤ (Actor.create config).heap.maxCapacity ∧
        args.length + 1 ≤ config.maxStack ∧
        ∃ copies, b.Entered config callee args source sizes.sum copies)
      fun e _ => (Actor.create config).heap.maxCapacity < sizes.sum ∧
          e = .heap (.outOfMemory sizes.sum (Actor.create config).heap.maxCapacity) ∨
        sizes.sum ≤ (Actor.create config).heap.maxCapacity ∧ config.maxStack < args.length + 1 ∧
          e = .stackOverflow := by
  have need := measureArgs_eq_ok measured sendable
  unfold prepareEntry
  rw [callable, need]
  refine .bind <| .pure <| .bind <| (ends_reserve_create config sizes.sum).mono ?_
    fun e _ h => .inl h
  rintro _ _ ⟨fits, heap, rfl, bounded, empty, room⟩
  refine .bind <| (ends_stackCopies (a := { Actor.create config with heap })
    (fun v hv => valid v (List.mem_reverse.mp hv)) (measureArgs_reverse need) bounded room
      (Nat.zero_le _)).mono ?_ ?_
  · rintro _ _ ⟨-, heap', copies, rfl, -, hused, arrives⟩
    have hsize : ((Actor.create config).stack ++ copies).size = args.length := by
      rw [← List.length_reverse, arrives.length_eq]
      simp [Actor.create]
    refine .bind <| (ends_push callee _).mono ?_ ?_
    · rintro _ _ ⟨hlt, rfl⟩
      have hlt : ((Actor.create config).stack ++ copies).size < config.maxStack := hlt
      refine .modify ⟨fits, by omega, copies.reverse, ?_, ?_, ?_⟩
      · simp [Actor.create]
      · exact hused.trans (by rw [empty, Nat.zero_add])
      · -- The last argument has been copied first.
        have reversed := List.rel_reverse arrives
        rwa [List.reverse_reverse] at reversed
    · rintro e _ ⟨rfl, -, hover⟩
      have hover : config.maxStack ≤ ((Actor.create config).stack ++ copies).size := hover
      exact .inr ⟨fits, by omega, rfl⟩
  · rintro e _ ⟨rfl, hover⟩
    have hover : config.maxStack < 0 + args.reverse.length := hover
    rw [List.length_reverse] at hover
    exact .inr ⟨fits, by omega, rfl⟩

end ActorM

/-- Where there may be one more call, it gets a frame with its base at the top of the stack. -/
theorem ActorM.pushFrame_eq_ok {a : Actor} (f : FuncRef) (argCount : Nat)
    (depth : a.frames.size < a.limits.maxFrames) :
    pushFrame f argCount a =
    .ok () { a with frames := a.frames.push ⟨f, 0, a.stack.size, argCount⟩ } := by
  have read : (get : ActorM Actor) a = .ok a a := rfl
  unfold pushFrame
  rw [bind_of_ok read, bind_of_ok read, if_neg (Nat.not_le.mpr depth)]
  rfl

/-- A function on top of its arguments is called. -/
theorem Exec.invoke_function {κ : Type} [Kernel κ] {l : Loader} {a : Actor} {f : FuncRef}
    {p : LinkedPrototype} {argCount : Nat} (back : a.stack.back? = some (.function f))
    (args : a.basePointer + argCount + 1 ≤ a.stack.size) (prototype : l.prototype f = .ok p)
    (depth : a.frames.size < a.limits.maxFrames) (world : κ) :
    invoke l argCount ⟨a, world⟩ = .ok .proceed ⟨{ a with
      stack := a.stack.pop
      frames := a.frames.push ⟨f, 0, a.stack.pop.size, argCount⟩ }, world⟩ := by
  -- What becomes of a protected call does not matter, since the callee is a function.
  obtain ⟨protect, hinvoke⟩ : ∃ protect, invoke (κ := κ) l argCount = call l argCount protect := by
    cases argCount <;> exact ⟨_, rfl⟩
  have hpush := ActorM.pushFrame_eq_ok (a := { a with stack := a.stack.pop }) f argCount depth
  rw [hinvoke, call_of_back? protect args _ back]
  dsimp only
  rw [prototype]
  exact bind_of_ok (onActor_ok (s := (⟨{ a with stack := a.stack.pop }, world⟩ : Session κ)) hpush)

/-- The argument `k` of the innermost call is at the local `-1 - k`. -/
theorem Actor.loadLocal_argument {a : Actor} (frame : Frame) (back : a.frames.back? = some frame)
    {k : Nat} (hk : k < frame.argCount) (low : frame.argCount ≤ frame.base)
    (height : frame.base ≤ a.stack.size) :
    a.loadLocal (-1 - k) = a.stack.getD (frame.base - 1 - k) .nil := by
  have hplace : a.localPosition? (-1 - k) = some (frame.base - 1 - k) := by
    unfold localPosition? basePointer argCount
    rw [back]
    dsimp only
    rw [if_pos (by omega)]
    congr 1
    omega
  rw [loadLocal, hplace]

namespace Actor.Entered

variable {config : ActorConfig} {args : List Value} {source : Option Heap} {bytes : Nat}
    {copies : List Value}
  {a : Actor} {f : FuncRef} {κ : Type} [Kernel κ] {l : Loader} {p : LinkedPrototype}

/-- The first thing that the actor does is the call. The function finds its argument `k` at the
local `-1 - k`. -/
theorem finds (h : a.Entered config (.function f) args source bytes copies)
    (prototype : l.prototype f = .ok p) (depth : 0 < config.maxFrames) (world : κ) :
    ∃ b : Actor, Exec.advance l ⟨a, world⟩ = .ok .proceed ⟨b, world⟩ ∧
      b = { a with
        stack := copies.reverse.toArray
        entry := none
        frames := #[⟨f, 0, args.length, args.length⟩] } ∧
      ∀ k (hk : k < copies.length), b.loadLocal (-1 - k) = copies[k] := by
  have entry : a.entry = some args.length := by rw [h.same]
  have stack : a.stack = (copies.reverse ++ [Value.function f]).toArray := by rw [h.same]
  have frames : a.frames = #[] := by rw [h.same]; rfl
  have limited : a.limits = config.toActorLimits := by rw [h.same]; rfl
  have hlength : copies.length = args.length := h.arrives.length_eq.symm
  have hsize : a.stack.size = args.length + 1 := by rw [stack]; simp [hlength]
  have hbase : a.basePointer = 0 := by rw [Actor.basePointer, frames]; rfl
  have back : a.stack.back? = some (.function f) := by rw [stack]; simp
  have popped : a.stack.pop = copies.reverse.toArray := by rw [stack]; simp
  have run := Exec.invoke_function (a := { a with entry := none }) back
    (show a.basePointer + args.length + 1 ≤ a.stack.size by omega) prototype
    (by rw [frames, limited]; exact depth) world
  have hbottom : a.stack.pop.size = args.length := by rw [popped]; simp [hlength]
  have hframe : a.frames.push ⟨f, 0, a.stack.pop.size, args.length⟩ =
      #[⟨f, 0, args.length, args.length⟩] := by
    rw [frames, hbottom]
    rfl
  refine ⟨_, ?_, rfl, fun k hk => ?_⟩
  · rw [← hframe, ← popped, Exec.advance_of_entry entry]
    exact run
  · rw [loadLocal_argument ⟨f, 0, args.length, args.length⟩ rfl (hlength ▸ hk) (Nat.le_refl _)
      (by simp [hlength])]
    show copies.reverse.toArray.getD (args.length - 1 - k) .nil = copies[k]
    have hplace : args.length - 1 - (args.length - 1 - k) = k := by omega
    have hlt : args.length - 1 - k < args.length := by omega
    simp [hlength, hlt, hplace]

end Actor.Entered

end ActorMachine
