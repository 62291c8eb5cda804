import ActorMachine.Machine.Natives
import ActorMachine.Proofs.Stacks
import ActorMachine.Proofs.Worlds

/-!
# The library in equivalent actors

Natives of equivalent actors answer matched values or fail in the same way, and leave equivalent
actors. The arguments that they read after a collection match as those did that they read before,
for the stack keeps them. The one native that shows where an object is raises a fault with the place
of a tuple, an array or a table as its text (`Native.same_raise`).

Natives see nothing of an actor but their arguments and the heap, so this is shown for every
relation between actors that is kept by what natives do to the heap (`ActorM.Shared`). Few of them
write to objects that have been there before (`Operation.Writes`).
-/

namespace ActorMachine

open Memory
open ActorM (readHeap onHeap)

/-- Nothing is matched with anything but itself. -/
def Matching.Still (ρ : Matching) : Prop :=
  ∀ {s : Shape} {r t : Ref}, ρ s r t → r = t

theorem Value.Match.eq_of_still {ρ : Matching} {v w : Value} (h : v.Match ρ w) (still : ρ.Still) :
    v = w := by
  cases h with
  | inline _ => rfl
  | object hrt => rw [still hrt]

variable {F : Value → Prop} {R : Matching → Actor → Actor → Prop}
    {E : Matching → Fault → Fault → Prop} {W : Prop} {ρ : Matching} {a b : Actor}

namespace ActorM

/-- What natives rely on in a relation between actors and one between the faults that they raise:
the heaps of related actors hold the same objects, and the actors stay related when these are
written alike, if `W` allows it, and when both get the same new object. All that the objects hold is
vouched for by `F`. Where nothing is matched with anything but itself, only the same writes need be
compared. -/
structure Shared (F : Value → Prop) (R : Matching → Actor → Actor → Prop)
    (E : Matching → Fault → Fault → Prop) (W : Prop) : Prop where
  iso : ∀ {ρ : Matching} {a b : Actor}, R ρ a b → Iso ρ a.heap.memory b.heap.memory
  vouched : ∀ {ρ : Matching} {a b : Actor}, R ρ a b → a.heap.memory.Vouched F fun s r =>
    ∃ t, ρ s r t
  onHeap : ∀ {α : Type} {ρ : Matching} {a b : Actor} {m m' : HeapM α}
    {Q : α → Heap → α → Heap → Prop},
    W → R ρ a b → (ρ.Still → m = m') → Heap.Agree F ρ m m' a.heap b.heap Q →
    Together (onHeap m) (onHeap m') a b (fun x a₁ y b₁ => R ρ a₁ b₁ ∧ Q x a₁.heap y b₁.heap)
      fun e a₁ e' b₁ => ∃ ρ', E ρ' e e' ∧ R ρ' a₁ b₁
  newString : ∀ {ρ : Matching} (bytes : ByteArray),
    Sim R E ρ (newString bytes) (newString bytes) fun ρ' v w => v.Held F ρ' w
  newTupleRef : ∀ {ρ : Matching} (n : Nat),
    Sim R E ρ (newTupleRef n) (newTupleRef n) fun ρ' p p' => ρ' .tuple p p'
  newContainer : ∀ {ρ : Matching} {s : Shape}, s = .array ∨ s = .table →
    Sim R E ρ (alloc (.object s) Heap.containerSize) (alloc (.object s) Heap.containerSize)
      fun ρ' p p' => ρ' s p p'
  heap : ∀ {ρ : Matching} {e e' : HeapError}, HeapError.Same e e' → E ρ (.heap e) (.heap e')
  plain : ∀ {ρ : Matching} {e : Fault}, (∀ h, e ≠ .heap h) → ¬e.Dangling → E ρ e e
  shown : ∀ {ρ : Matching} {s : Shape} {r t : Ref}, s ≠ .string → ρ s r t →
    E ρ (.raised (Value.text (.object s r))) (.raised (Value.text (.object s t)))

/-- Actors in step are related in this way. -/
theorem shared_inStep (g : Origin) (B : Fault → Prop) :
    Shared (fun _ => True) (Actor.InStep g) (SameFault B) True where
  iso h := h.iso
  vouched _ := fun _ _ _ _ _ _ => trivial
  onHeap _ h _ agree := together_onHeap h agree
  newString bytes := (same_newString bytes).mono fun _ _ _ h => ⟨h, fun _ => trivial⟩
  newTupleRef := same_newTupleRef
  newContainer := same_newContainer
  heap := .heap
  plain h _ := .of_ne h
  shown := .shown

namespace Shared

variable (shared : Shared F R E W)

include shared

theorem readHeap {f f' : Heap → Except HeapError α} {Q : α → α → Prop} (h : R ρ a b)
    (both : Both Q HeapError.Same (f a.heap) (f' b.heap)) :
    Together (ActorM.readHeap f) (ActorM.readHeap f') a b
      (fun x a₁ y b₁ => a₁ = a ∧ b₁ = b ∧ f a.heap = .ok x ∧ Q x y)
      fun e a₁ e' b₁ => ∃ ρ', E ρ' e e' ∧ R ρ' a₁ b₁ := by
  cases hx : f a.heap with
  | ok x =>
    cases hy : f' b.heap with
    | ok y =>
      rw [hx, hy] at both
      exact .ok_ok (readHeap_ok hx) (readHeap_ok hy) ⟨rfl, rfl, rfl, both⟩
    | error e => rw [hx, hy] at both; exact both.elim
  | error e =>
    cases hy : f' b.heap with
    | ok y => rw [hx, hy] at both; exact both.elim
    | error e' =>
      rw [hx, hy] at both
      exact .error_error (readHeap_error hx) (readHeap_error hy) ⟨ρ, shared.heap both, h⟩

theorem same_readHeap {f f' : Heap → Except HeapError α} {Q : α → α → Prop}
    (h : ∀ h h' : Heap, Iso ρ h.memory h'.memory → Both Q HeapError.Same (f h) (f' h')) :
    Sim R E ρ (ActorM.readHeap f) (ActorM.readHeap f') fun ρ' x y => ρ' = ρ ∧ Q x y := by
  intro a b hab
  refine (shared.readHeap hab (h _ _ (shared.iso hab))).mono ?_ fun _ _ _ _ h => h
  rintro x _ y _ ⟨rfl, rfl, -, hq⟩
  exact ⟨ρ, hab, rfl, hq⟩

/-- A value that has been read is vouched for. -/
theorem same_readValue {f f' : Heap → Except HeapError Value}
    (h : ∀ h h' : Heap, Iso ρ h.memory h'.memory →
      Both (Heap.Found ρ h) HeapError.Same (f h) (f' h')) :
    Sim R E ρ (ActorM.readHeap f) (ActorM.readHeap f') fun ρ' v w => v.Held F ρ' w := by
  intro a b hab
  refine (shared.readHeap hab (h _ _ (shared.iso hab))).mono ?_ fun _ _ _ _ h => h
  rintro v _ w _ ⟨rfl, rfl, -, found⟩
  exact ⟨ρ, hab, found.alike, found.vouched (shared.vouched hab)⟩

theorem same_onHeap {m m' : HeapM α} {Q : α → α → Prop} (writes : W) (heq : ρ.Still → m = m')
    (h : ∀ h h' : Heap, Iso ρ h.memory h'.memory →
      Heap.Agree F ρ m m' h h' fun x _ y _ => Q x y) :
    Sim R E ρ (ActorM.onHeap m) (ActorM.onHeap m') fun ρ' x y => ρ' = ρ ∧ Q x y :=
  fun _ _ hab => (shared.onHeap writes hab heq (h _ _ (shared.iso hab))).mono
    (fun _ _ _ _ ⟨h, hq⟩ => ⟨ρ, h, rfl, hq⟩) fun _ _ _ _ h => h

theorem same_newTuple (n : Nat) :
    Sim R E ρ (newTuple n) (newTuple n) fun ρ' v w => v.Held F ρ' w :=
  (shared.newTupleRef n).bind fun _ _ _ h => .pure (.object h)

end Shared

end ActorM

open ActorM (Shared)

/-- The arguments of a native call of equivalent actors match whenever they are read, and are
vouched for. -/
def Arguments.Agree (F : Value → Prop) (R : Matching → Actor → Actor → Prop)
    (E : Matching → Fault → Fault → Prop) (args : Arguments) : Prop :=
  ∀ (ρ : Matching) (i : Nat),
    Sim R E ρ (args.read i) (args.read i) fun ρ' v w => ρ' = ρ ∧ v.Held F ρ w

/-- Arguments that lie on matched stacks match. -/
theorem Arguments.agree_below (stack : ∀ {ρ a b}, R ρ a b → Value.MatchAll ρ a.stack b.stack)
    (vouched : ∀ {ρ a b}, R ρ a b → ∀ v ∈ a.stack, v.Vouched F) (height count : Nat) :
    Arguments.Agree F R E (below height count) := by
  intro ρ i a b h
  refine .bind <| .get <| .pure ⟨ρ, h, rfl, (stack h).getD _, ?_⟩
  rw [Array.getD_eq_getD_getElem?]
  generalize hx : a.stack[height - 1 - i]? = x
  cases x with
  | none => exact nofun
  | some v => exact vouched h v (Array.mem_of_getElem? hx)

namespace Arguments

variable (shared : Shared F R E W) {args : Arguments} (hargs : args.Agree F R E)

include hargs

theorem same_get (i : Nat) :
    Sim R E ρ (args.get i) (args.get i) fun ρ' v w => ρ' = ρ ∧ v.Held F ρ w :=
  .ite Iff.rfl (fun _ => hargs ρ i) fun _ => .pure ⟨rfl, .inline rfl, nofun⟩

theorem same_rest (first : Nat) : Sim R E ρ (args.rest first) (args.rest first)
    fun ρ' vs ws => ρ' = ρ ∧ Value.MatchList ρ vs ws ∧ ∀ v ∈ vs, v.Vouched F := by
  unfold rest
  generalize List.range' first (args.count - first) = is
  induction is with
  | nil => exact .pure ⟨rfl, .nil, nofun⟩
  | cons i is ih =>
    rw [List.mapM_cons]
    refine (same_get hargs i).bind_still fun v w hvw => ?_
    refine ih.bind_still fun vs ws hvs => .pure ⟨rfl, .cons hvw.alike hvs.1, ?_⟩
    exact List.forall_mem_cons.mpr ⟨hvw.vouched, hvs.2⟩

include shared

omit hargs in
theorem same_atLeast (n : Nat) :
    Sim R E ρ (args.atLeast n) (args.atLeast n) fun ρ' _ _ => ρ' = ρ ∧ True :=
  .ite Iff.rfl (fun _ => .throw (shared.plain nofun nofun)) fun _ => .pure ⟨rfl, trivial⟩

theorem same_integer (i : Nat) :
    Sim R E ρ (args.integer i) (args.integer i) fun ρ' x y => ρ' = ρ ∧ x = y := by
  refine (same_get hargs i).bind_still fun v w hvw => ?_
  cases hvw.alike with
  | inline _ =>
    split
    · exact .pure ⟨rfl, rfl⟩
    · exact .throw (shared.plain nofun nofun)
  | object _ => exact .throw (shared.plain nofun nofun)

theorem same_pid (i : Nat) :
    Sim R E ρ (args.pid i) (args.pid i) fun ρ' x y => ρ' = ρ ∧ x = y := by
  refine (same_get hargs i).bind_still fun v w hvw => ?_
  cases hvw.alike with
  | inline _ =>
    split
    · exact .pure ⟨rfl, rfl⟩
    · exact .throw (shared.plain nofun nofun)
  | object _ => exact .throw (shared.plain nofun nofun)

theorem same_object (shape : Shape) (i : Nat) :
    Sim R E ρ (args.object shape i) (args.object shape i)
      fun ρ' r t => ρ' = ρ ∧ ρ shape r t := by
  refine (same_get hargs i).bind_still fun v w hvw => ?_
  cases hvw.alike with
  | inline hv =>
    split
    · cases hv
    · exact .throw (shared.plain nofun nofun)
  | @object s r t hrt =>
    refine .ite Iff.rfl (fun heq => .pure ⟨rfl, ?_⟩) fun _ => .throw (shared.plain nofun nofun)
    subst heq
    exact hrt

theorem same_elementCount (i : Nat) :
    Sim R E ρ (args.elementCount i) (args.elementCount i) fun ρ' x y => ρ' = ρ ∧ x = y := by
  refine (same_integer shared hargs i).bind_still fun n _ heq => ?_
  subst heq
  exact .ite Iff.rfl (fun _ => .throw (shared.plain nofun nofun)) fun _ => .pure ⟨rfl, rfl⟩

end Arguments

namespace Native

variable (shared : Shared F R E W) {args : Arguments} (hargs : args.Agree F R E)

/-- A computation that answers a matched value where it is. -/
theorem same_answer {m m' : ActorM α} {f f' : α → Value} {Q : α → α → Prop}
    (h : Sim R E ρ m m' fun ρ' x y => ρ' = ρ ∧ Q x y)
    (hf : ∀ x y, Q x y → (f x).Held F ρ (f' y)) :
    Sim R E ρ (do return f (← m)) (do return f' (← m')) fun ρ' v w => v.Held F ρ' w :=
  h.bind_still fun x y hq => .pure (hf x y hq)

include shared hargs

/-- A fault with a matched value as its text is the same, or shows the place of an object. -/
theorem same_raise : Sim R E ρ (raise args) (raise args) fun _ _ _ => False := by
  refine (Arguments.same_get hargs 0).bind_still fun v w hvw => ?_
  cases hvw.alike with
  | inline hv =>
    split
    · cases hv
    · exact Sim.throw (shared.plain nofun nofun)
    · exact Sim.throw (shared.plain nofun nofun)
  | @object s r t hrt =>
    cases s with
    | string =>
      refine (shared.same_readHeap fun _ _ iso => Heap.both_stringBytes iso hrt).bind_still ?_
      rintro bytes _ rfl
      exact Sim.throw (shared.plain nofun nofun)
    | tuple => exact Sim.throw (shared.shown nofun hrt)
    | array => exact Sim.throw (shared.shown nofun hrt)
    | table => exact Sim.throw (shared.shown nofun hrt)

theorem same_stringLength :
    Sim R E ρ (stringLength args) (stringLength args) fun ρ' v w => v.Held F ρ' w := by
  refine (Arguments.same_object shared hargs .string 0).bind_still fun r t hrt => ?_
  refine same_answer (shared.same_readHeap fun _ _ iso => Heap.both_stringLength iso hrt) ?_
  rintro n _ rfl
  exact ⟨.inline rfl, nofun⟩

theorem same_appendStrings (bytes : ByteArray) (i count : Nat) :
    Sim R E ρ (appendStrings args bytes i count) (appendStrings args bytes i count)
      fun ρ' x y => ρ' = ρ ∧ x = y := by
  induction count generalizing bytes i with
  | zero => exact .pure ⟨rfl, rfl⟩
  | succ count ih =>
    refine (Arguments.same_object shared hargs .string i).bind_still fun r t hrt => ?_
    refine (shared.same_readHeap fun _ _ iso => Heap.both_stringBytes iso hrt).bind_still ?_
    rintro more _ rfl
    exact ih _ _

theorem same_stringConcat :
    Sim R E ρ (stringConcat args) (stringConcat args) fun ρ' v w => v.Held F ρ' w := by
  refine (same_appendStrings shared hargs _ _ _).bind_still ?_
  rintro bytes _ rfl
  exact shared.newString bytes

theorem same_stringEqual :
    Sim R E ρ (stringEqual args) (stringEqual args) fun ρ' v w => v.Held F ρ' w := by
  refine (Arguments.same_atLeast shared 2).bind_still fun _ _ _ => ?_
  refine (Arguments.same_get hargs 0).bind_still fun v v' hv => ?_
  refine (Arguments.same_get hargs 1).bind_still fun w w' hw => ?_
  refine same_answer (shared.same_readHeap fun _ _ iso => Heap.both_equal iso hv.alike hw.alike) ?_
  rintro x _ rfl
  exact ⟨.inline rfl, nofun⟩

theorem same_tupleNew :
    Sim R E ρ (tupleNew args) (tupleNew args) fun ρ' v w => v.Held F ρ' w := by
  refine (Arguments.same_elementCount shared hargs 0).bind_still ?_
  rintro n _ rfl
  exact shared.same_newTuple _

theorem same_tupleGet :
    Sim R E ρ (tupleGet args) (tupleGet args) fun ρ' v w => v.Held F ρ' w := by
  refine (Arguments.same_object shared hargs .tuple 0).bind_still fun r t hrt => ?_
  refine (Arguments.same_integer shared hargs 1).bind_still ?_
  rintro index _ rfl
  exact shared.same_readValue fun _ _ iso => Heap.both_tupleGet iso hrt index

theorem same_tupleSet (writes : W) :
    Sim R E ρ (tupleSet args) (tupleSet args) fun ρ' v w => v.Held F ρ' w := by
  refine (Arguments.same_object shared hargs .tuple 0).bind_still fun r t hrt => ?_
  refine (Arguments.same_integer shared hargs 1).bind_still ?_
  rintro index _ rfl
  refine (Arguments.same_get hargs 2).bind_still fun v w hvw => ?_
  refine Sim.bind_still (P := fun _ _ => True)
      (shared.same_onHeap writes (fun still => ?_) fun _ _ iso =>
    (HeapM.agree_tupleSet iso hrt hvw.alike fun _ => hvw.vouched).mono fun _ _ _ _ _ => trivial)
      fun _ _ _ => .pure ⟨.inline rfl, nofun⟩
  rw [still hrt, hvw.alike.eq_of_still still]

theorem same_tupleLength :
    Sim R E ρ (tupleLength args) (tupleLength args) fun ρ' v w => v.Held F ρ' w := by
  refine (Arguments.same_object shared hargs .tuple 0).bind_still fun r t hrt => ?_
  refine same_answer (shared.same_readHeap fun _ _ iso => Heap.both_tupleLength iso hrt) ?_
  rintro n _ rfl
  exact ⟨.inline rfl, nofun⟩

omit hargs in
theorem same_arrayNew : Sim R E ρ arrayNew arrayNew fun ρ' v w => v.Held F ρ' w :=
  (shared.newContainer (.inl rfl)).bind fun _ _ _ h => .pure (.object h)

omit hargs in
/-- Moving the elements of matched arrays to other stores. -/
theorem together_moveElements (writes : W) (h : R ρ a b) {r t u u' : Ref} (hrt : ρ .array r t)
    (hu : ρ .tuple u u') :
    Together (do
        match ← readHeap (·.arrayStore r) with
        | some old =>
          let length ← readHeap (·.arrayLength r)
          onHeap (HeapM.copySlots old u 0 (indexOfLength length).toNat)
        | none => pure ()
        onHeap (HeapM.setArrayStore r u))
      (do
        match ← readHeap (·.arrayStore t) with
        | some old =>
          let length ← readHeap (·.arrayLength t)
          onHeap (HeapM.copySlots old u' 0 (indexOfLength length).toNat)
        | none => pure ()
        onHeap (HeapM.setArrayStore t u')) a b
      (fun _ a₁ _ b₁ => R ρ a₁ b₁) fun e a₁ e' b₁ => ∃ ρ', E ρ' e e' ∧ R ρ' a₁ b₁ := by
  -- There is room for the elements in the new stores if they have been moved to them.
  have rest : ∀ {a b : Actor}, R ρ a b →
      a.heap.memory.lengthAt r ≤ a.heap.memory.lengthAt u →
      Together (onHeap (HeapM.setArrayStore r u)) (onHeap (HeapM.setArrayStore t u')) a b
        (fun _ a₁ _ b₁ => R ρ a₁ b₁) fun e a₁ e' b₁ => ∃ ρ', E ρ' e e' ∧ R ρ' a₁ b₁ := fun h room =>
    (shared.onHeap writes h (fun still => by rw [still hrt, still hu])
      (HeapM.agree_setArrayStore (shared.iso h) hrt hu room)).mono (fun _ _ _ _ h => h.1)
      fun _ _ _ _ h => h
  refine .bind <| (shared.readHeap h (Heap.both_arrayStore (shared.iso h) hrt)).mono ?_
    fun _ _ _ _ h => h
  rintro x a₁ y b₁ ⟨rfl, rfl, -, hstores⟩
  cases hstores with
  | none hempty => exact rest h (by omega)
  | @some old old' hold hroom =>
    have iso := shared.iso h
    refine .bind <| (shared.readHeap h (Heap.both_arrayLength iso hrt)).mono ?_ fun _ _ _ _ h => h
    rintro n a₂ _ b₂ ⟨rfl, rfl, hn, rfl⟩
    rw [Heap.arrayLength_eq (iso.left.isObject ⟨t, hrt⟩)] at hn
    have hn := Except.ok.inj hn
    have hsmall := lengthAt_lt_index (iso.left.typed ⟨_, hold⟩) hroom
    refine .bind <| (shared.onHeap writes h (fun still => by rw [still hold, still hu])
      (HeapM.agree_copySlots iso hold hu 0 _)).mono ?_ fun _ _ _ _ h => h
    rintro _ a₃ _ b₃ ⟨h₃, hkeeps, hcopied⟩
    refine rest h₃ ?_
    rw [hkeeps.length hrt, hkeeps.length hu]
    rw [← hn, indexOfLength_eq hsmall] at hcopied
    omega

theorem same_growArray (writes : W) :
    Sim R E ρ (growArray args) (growArray args) fun _ _ _ => True := by
  refine (Arguments.same_object shared hargs .array 0).bind_still fun r t hrt => ?_
  refine (shared.same_readHeap fun _ _ iso => Heap.both_arrayCapacity iso hrt).bind_still ?_
  rintro capacity _ rfl
  refine (shared.newTupleRef _).bind fun ρ' u u' hu => ?_
  refine (Arguments.same_object shared hargs .array 0).bind_still fun r t hrt => ?_
  intro a b h
  exact (together_moveElements shared writes h hrt hu).mono (fun _ _ _ _ h => ⟨ρ', h, trivial⟩)
    fun _ _ _ _ h => h

theorem same_arrayPush (writes : W) :
    Sim R E ρ (arrayPush args) (arrayPush args) fun ρ' v w => v.Held F ρ' w := by
  have rest : ∀ ρ, Sim R E ρ (do
        let r ← args.object .array 0
        onHeap (HeapM.arrayPush r (← args.get 1))
        return ofNat (← readHeap (·.arrayLength r)))
      (do
        let r ← args.object .array 0
        onHeap (HeapM.arrayPush r (← args.get 1))
        return ofNat (← readHeap (·.arrayLength r))) fun ρ' v w => v.Held F ρ' w := by
    intro ρ
    refine (Arguments.same_object shared hargs .array 0).bind_still fun r t hrt => ?_
    refine (Arguments.same_get hargs 1).bind_still fun v w hvw => ?_
    refine (shared.same_onHeap writes (fun still => by rw [still hrt, hvw.alike.eq_of_still still])
      fun _ _ iso => HeapM.agree_arrayPush iso hrt hvw.alike hvw.vouched).bind_still fun _ _ _ => ?_
    refine same_answer (shared.same_readHeap fun _ _ iso => Heap.both_arrayLength iso hrt) ?_
    rintro n _ rfl
    exact ⟨.inline rfl, nofun⟩
  refine (Arguments.same_atLeast shared 2).bind_still fun _ _ _ => ?_
  refine (Arguments.same_object shared hargs .array 0).bind_still fun r t hrt => ?_
  refine (shared.same_readHeap fun _ _ iso => Heap.both_arrayCapacity iso hrt).bind_still ?_
  rintro capacity _ rfl
  refine (shared.same_readHeap fun _ _ iso => Heap.both_arrayLength iso hrt).bind_still ?_
  rintro length _ rfl
  refine .ite Iff.rfl (fun _ => ?_) fun _ => rest ρ
  exact (same_growArray shared hargs writes).bind fun ρ' _ _ _ => rest ρ'

theorem same_arrayGet :
    Sim R E ρ (arrayGet args) (arrayGet args) fun ρ' v w => v.Held F ρ' w := by
  refine (Arguments.same_object shared hargs .array 0).bind_still fun r t hrt => ?_
  refine (Arguments.same_integer shared hargs 1).bind_still ?_
  rintro index _ rfl
  exact shared.same_readValue fun _ _ iso => Heap.both_arrayGet iso hrt index

theorem same_arraySet (writes : W) :
    Sim R E ρ (arraySet args) (arraySet args) fun ρ' v w => v.Held F ρ' w := by
  refine (Arguments.same_object shared hargs .array 0).bind_still fun r t hrt => ?_
  refine (Arguments.same_integer shared hargs 1).bind_still ?_
  rintro index _ rfl
  refine (Arguments.same_get hargs 2).bind_still fun v w hvw => ?_
  exact (shared.same_onHeap writes (fun still => by rw [still hrt, hvw.alike.eq_of_still still])
    fun _ _ iso => HeapM.agree_arraySet iso hrt hvw.alike hvw.vouched).bind_still fun _ _ _ =>
      .pure ⟨.inline rfl, nofun⟩

theorem same_arrayLength :
    Sim R E ρ (arrayLength args) (arrayLength args) fun ρ' v w => v.Held F ρ' w := by
  refine (Arguments.same_object shared hargs .array 0).bind_still fun r t hrt => ?_
  refine same_answer (shared.same_readHeap fun _ _ iso => Heap.both_arrayLength iso hrt) ?_
  rintro n _ rfl
  exact ⟨.inline rfl, nofun⟩

omit hargs in
theorem same_tableNew : Sim R E ρ tableNew tableNew fun ρ' v w => v.Held F ρ' w :=
  (shared.newContainer (.inr rfl)).bind fun _ _ _ h => .pure (.object h)

theorem same_tableGet :
    Sim R E ρ (tableGet args) (tableGet args) fun ρ' v w => v.Held F ρ' w := by
  refine (Arguments.same_object shared hargs .table 0).bind_still fun r t hrt => ?_
  refine (Arguments.same_get hargs 1).bind_still fun key key' hkey => ?_
  exact shared.same_readValue fun _ _ iso => Heap.both_tableGet iso hrt hkey.alike

theorem same_tableSet (writes : W) :
    Sim R E ρ (tableSet args) (tableSet args) fun ρ' v w => v.Held F ρ' w := by
  have set : ∀ {ρ : Matching} {r t : Ref} {key key' v w : Value}, ρ .table r t → key.Held F ρ key' →
      v.Held F ρ w → Sim R E ρ (onHeap (HeapM.tableTrySet r key v))
        (onHeap (HeapM.tableTrySet t key' w))
        fun ρ' x y => ρ' = ρ ∧ x = y := fun hrt hkey hvw =>
    shared.same_onHeap writes
      (fun still => by rw [still hrt, hkey.alike.eq_of_still still, hvw.alike.eq_of_still still])
      fun _ _ iso => HeapM.agree_tableTrySet iso hrt hkey.alike hvw.alike hkey.vouched hvw.vouched
  refine (Arguments.same_atLeast shared 3).bind_still fun _ _ _ => ?_
  refine (Arguments.same_object shared hargs .table 0).bind_still fun r t hrt => ?_
  refine (Arguments.same_get hargs 1).bind_still fun key key' hkey => ?_
  refine (Arguments.same_get hargs 2).bind_still fun v w hvw => ?_
  refine (set hrt hkey hvw).bind_still ?_
  rintro done _ rfl
  refine .ite Iff.rfl (fun _ => .pure ⟨.inline rfl, nofun⟩) fun _ => ?_
  refine (shared.same_readHeap fun _ _ iso => Heap.both_tableCapacity iso hrt).bind_still ?_
  rintro capacity _ rfl
  refine (shared.newTupleRef _).bind fun ρ' u u' hu => ?_
  refine (Arguments.same_object shared hargs .table 0).bind_still fun r t hrt => ?_
  refine (Arguments.same_get hargs 1).bind_still fun key key' hkey => ?_
  refine (Arguments.same_get hargs 2).bind_still fun v w hvw => ?_
  refine (shared.same_onHeap writes (fun still => by rw [still hrt, still hu]) fun _ _ iso =>
    HeapM.agree_setTableStore iso hrt hu).bind_still fun _ _ _ => ?_
  exact (set hrt hkey hvw).bind_still fun _ _ _ => .pure ⟨.inline rfl, nofun⟩

theorem same_tableLength :
    Sim R E ρ (tableLength args) (tableLength args) fun ρ' v w => v.Held F ρ' w := by
  refine (Arguments.same_object shared hargs .table 0).bind_still fun r t hrt => ?_
  refine same_answer (shared.same_readHeap fun _ _ iso => Heap.both_tableLength iso hrt) ?_
  rintro n _ rfl
  exact ⟨.inline rfl, nofun⟩

end Native

/-! ## The library in related worlds -/

/-- The operations that concern the world, or that do nothing but give an answer. -/
def Operation.Worldly (op : Operation) : Prop :=
  op = .selfPid ∨ op = .spawn ∨ op = .giveTurn ∨ op = .exit ∨ op = .kill

/-- The operations that write to objects that have been there before. -/
def Operation.Writes (op : Operation) : Prop :=
  op = .tupleSet ∨ op = .arrayPush ∨ op = .arraySet ∨ op = .tableSet

instance (op : Operation) : Decidable op.Writes :=
  inferInstanceAs (Decidable (_ ∨ _))

/-- All other operations concern the actor alone, and answer matched values. -/
theorem Operation.exists_native {κ : Type} [Kernel κ] (shared : Shared F R E W) {args : Arguments}
    (hargs : args.Agree F R E) (op : Operation) (inner : ¬op.Worldly) (writes : op.Writes → W) :
    ∃ m : ActorM Value, (op.run args : Exec κ Answer) =
      (do return Answer.value (← Exec.onActor m)) ∧
      ∀ ρ, Sim R E ρ m m fun ρ' v w => v.Held F ρ' w := by
  cases op with
  | selfPid | spawn | giveTurn | exit | kill => exact absurd (by simp [Worldly]) inner
  | raise => exact ⟨_, rfl, fun _ => (Native.same_raise shared hargs).mono fun _ _ _ h => h.elim⟩
  | stringLength => exact ⟨_, rfl, fun _ => Native.same_stringLength shared hargs⟩
  | stringConcat => exact ⟨_, rfl, fun _ => Native.same_stringConcat shared hargs⟩
  | stringEqual => exact ⟨_, rfl, fun _ => Native.same_stringEqual shared hargs⟩
  | tupleNew => exact ⟨_, rfl, fun _ => Native.same_tupleNew shared hargs⟩
  | tupleGet => exact ⟨_, rfl, fun _ => Native.same_tupleGet shared hargs⟩
  | tupleSet =>
    exact ⟨_, rfl, fun _ => Native.same_tupleSet shared hargs (writes (by simp [Writes]))⟩
  | tupleLength => exact ⟨_, rfl, fun _ => Native.same_tupleLength shared hargs⟩
  | arrayNew => exact ⟨_, rfl, fun _ => Native.same_arrayNew shared⟩
  | arrayPush =>
    exact ⟨_, rfl, fun _ => Native.same_arrayPush shared hargs (writes (by simp [Writes]))⟩
  | arrayGet => exact ⟨_, rfl, fun _ => Native.same_arrayGet shared hargs⟩
  | arraySet =>
    exact ⟨_, rfl, fun _ => Native.same_arraySet shared hargs (writes (by simp [Writes]))⟩
  | arrayLength => exact ⟨_, rfl, fun _ => Native.same_arrayLength shared hargs⟩
  | tableNew => exact ⟨_, rfl, fun _ => Native.same_tableNew shared⟩
  | tableGet => exact ⟨_, rfl, fun _ => Native.same_tableGet shared hargs⟩
  | tableSet =>
    exact ⟨_, rfl, fun _ => Native.same_tableSet shared hargs (writes (by simp [Writes]))⟩
  | tableLength => exact ⟨_, rfl, fun _ => Native.same_tableLength shared hargs⟩

section Operations

variable {κ : Type} [Kernel κ] {g : Origin} {B : Fault → Prop} {K : κ → κ → Prop}
  (respects : Kernel.Respects K B) {args : Arguments}
  (hargs : args.Agree (fun _ => True) (Actor.InStep g) (SameFault B))

include respects hargs

theorem Native.same_spawn : Exec.Same g K B ρ (Native.spawn args : Exec κ Value) (Native.spawn args)
    fun ρ' v w => v.Match ρ' w := by
  refine (Exec.same_onActor (Arguments.same_atLeast (ActorM.shared_inStep g B) 1)).bind_still
    fun _ _ _ => ?_
  refine (Exec.same_onActor (Arguments.same_get hargs 0)).bind_still fun v w hvw => ?_
  refine (Exec.same_onActor (Arguments.same_rest hargs 1)).bind_still fun vs ws hvs => ?_
  refine (Exec.same_onKernel fun hk left right iso =>
    respects.spawn hk left right iso hvw.alike hvs.1).bind_still ?_
  rintro p _ rfl
  exact .pure (.inline rfl)

/-- The answers of natives match. -/
inductive Answer.Match (ρ : Matching) : Answer → Answer → Prop
  | value {v w : Value} (h : v.Match ρ w) : Match ρ (.value v) (.value w)
  | giveTurn : Match ρ .giveTurn .giveTurn
  | exit : Match ρ .exit .exit

omit [Kernel κ] respects hargs in
theorem Answer.Match.result {x y : Answer} (h : x.Match ρ y) : x.result.Match ρ y.result := by
  cases h with
  | value h => exact h
  | giveTurn => exact .inline rfl
  | exit => exact .inline rfl

theorem Native.same_kill : Exec.Same g K B ρ (Native.kill args : Exec κ Answer) (Native.kill args)
    fun ρ' x y => x.Match ρ' y := by
  refine (Exec.same_onActor (Arguments.same_pid (ActorM.shared_inStep g B) hargs 0)).bind_still ?_
  rintro target _ rfl
  refine (Exec.same_self respects).bind_still ?_
  rintro self _ rfl
  refine .ite Iff.rfl (fun _ => .pure .exit) fun _ => ?_
  exact (Exec.same_onKernel (Q := fun _ _ => True) fun hk _ _ _ =>
    (respects.kill hk target).mono (fun _ _ _ _ h => ⟨trivial, h⟩) fun _ _ _ _ h => h).bind_still
    fun _ _ _ => .pure (.value (.inline rfl))

/-- Every operation of the library does the same in equivalent actors. -/
theorem Operation.same_run (op : Operation) :
    Exec.Same g K B ρ (op.run args : Exec κ Answer) (op.run args) fun ρ' x y => x.Match ρ' y := by
  by_cases worldly : op.Worldly
  · obtain rfl | rfl | rfl | rfl | rfl := worldly
    · refine (Exec.same_self respects).bind_still ?_
      rintro self _ rfl
      exact .pure (.value (.inline rfl))
    · exact (Native.same_spawn respects hargs).bind fun _ _ _ h => .pure (.value h)
    · exact .pure .giveTurn
    · exact .pure .exit
    · exact Native.same_kill respects hargs
  · obtain ⟨m, hrun, hm⟩ := op.exists_native (κ := κ) (ActorM.shared_inStep g B) hargs worldly
      fun _ => trivial
    rw [hrun]
    exact (Exec.same_onActor (hm ρ)).bind fun _ _ _ h => .pure (.value h.alike)

end Operations

end ActorMachine
