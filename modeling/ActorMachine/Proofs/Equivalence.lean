import ActorMachine.Actor.Call
import ActorMachine.Proofs.Collecting
import ActorMachine.Proofs.HeapWrites

/-!
# Equivalent actors

`Actor.Equivalent ρ a b` says that two actors differ in nothing but the places of their objects,
which `ρ` matches, and in how full their heaps are and how often they have been collected.
`Actor.InStep` says besides that the values at the bottom of the left actor's stack are still those
of an earlier time, wherever collections have moved their objects. Computations of actors are
compared by `Sim` over this relation, with the matching as the world.
-/

namespace ActorMachine

open Memory

/-- Two actors that differ only in the places of their objects, and in what is garbage. -/
structure Actor.Equivalent (ρ : Matching) (a b : Actor) : Prop where
  frames : a.frames = b.frames
  catches : a.catches = b.catches
  entry : a.entry = b.entry
  pendingReceive : a.pendingReceive = b.pendingReceive
  cursor : a.mailbox.cursor = b.mailbox.cursor
  limits : a.limits = b.limits
  maxCapacity : a.heap.maxCapacity = b.heap.maxCapacity
  left : a.heap.Bounded
  right : b.heap.Bounded
  iso : Iso ρ a.heap.memory b.heap.memory
  stack : Value.MatchAll ρ a.stack b.stack
  messages : Value.MatchAll ρ a.mailbox.messages b.mailbox.messages

/-- An actor that is equivalent to itself: all that it holds are objects of its heap. -/
def Actor.Sound (a : Actor) : Prop :=
  ∃ ρ, a.Equivalent ρ a

/-- An earlier time: the objects and the values at the bottom of the stack, and whether the
innermost call is known to leave these values alone. -/
structure Origin where
  memory : Memory
  values : Array Value
  guarded : Prop

/-- The same earlier time, without regard to the innermost call. -/
def Origin.unguarded (g : Origin) : Origin := { g with guarded := False }

/-- Equivalent actors, the left one of which still holds the values of an earlier time. -/
structure Actor.InStep (g : Origin) (ρ : Matching) (a b : Actor) : Prop extends
    Actor.Equivalent ρ a b where
  relocated : Value.Relocated g.memory a.heap.memory g.values a.stack
  guard : g.guarded → g.values.size ≤ a.basePointer - a.argCount

/-- A fault that a program can cause. -/
def Fault.Benign (e : Fault) : Prop := ∀ h, e = .heap h → h.Benign

/-- Faults of two equivalent actors: the same one, which a program can cause or which comes from the
world outside, or a fault that shows the place of a matched object. -/
inductive SameFault (B : Fault → Prop) (ρ : Matching) : Fault → Fault → Prop
  | same {e : Fault} (h : e.Benign ∨ B e) : SameFault B ρ e e
  | shown {s : Shape} {r t : Ref} (h : s ≠ .string) (hrt : ρ s r t) :
    SameFault B ρ (.raised (Value.text (.object s r))) (.raised (Value.text (.object s t)))

/-- On actors in step, two computations come to the same, up to what `Q` does not tell apart. -/
abbrev ActorM.Same (g : Origin) (B : Fault → Prop) (ρ : Matching) (m m' : ActorM α)
    (Q : Matching → α → α → Prop) : Prop :=
  Sim (Actor.InStep g) (SameFault B) ρ m m' Q

/-- Two computations fail in the same way and leave actors in step. -/
def Actor.FailInStep (g : Origin) (B : Fault → Prop) (e : Fault) (a : Actor) (e' : Fault)
    (b : Actor) :
    Prop := ∃ ρ, SameFault B ρ e e' ∧ a.InStep g ρ b

namespace SameFault

variable {B : Fault → Prop} {ρ : Matching}

theorem heap {e e' : HeapError} (h : HeapError.Same e e') :
    SameFault B ρ (.heap e) (.heap e') := by
  obtain ⟨rfl, h⟩ := h
  refine .same (.inl ?_)
  rintro _ ⟨⟩
  exact h

theorem of_ne {e : Fault} (h : ∀ h', e ≠ .heap h') : SameFault B ρ e e :=
  .same (.inl fun h' heq => absurd heq (h h'))

end SameFault

/-- A computation that does not move the objects gives results that match as they are. -/
theorem Sim.bind_still {ε σ α β ω : Type} {R : ω → σ → σ → Prop}
    {E : ω → ε → ε → Prop} {w : ω}
    {m m' : EStateM ε σ α} {f f' : α → EStateM ε σ β} {P : α → α → Prop} {S : ω → β → β → Prop}
    (first : Sim R E w m m' fun w' x y => w' = w ∧ P x y)
    (rest : ∀ x y, P x y → Sim R E w (f x) (f' y) S) :
    Sim R E w (m >>= f) (m' >>= f') S := by
  refine first.bind fun w' x y h => ?_
  obtain ⟨rfl, h⟩ := h
  exact rest x y h

namespace Actor

variable {g : Origin} {ρ σ : Matching} {a b : Actor}

namespace Equivalent

theorem symm (h : a.Equivalent ρ b) : b.Equivalent ρ.inverse a where
  frames := h.frames.symm
  catches := h.catches.symm
  entry := h.entry.symm
  pendingReceive := h.pendingReceive.symm
  cursor := h.cursor.symm
  limits := h.limits.symm
  maxCapacity := h.maxCapacity.symm
  left := h.right
  right := h.left
  iso := h.iso.symm
  stack := h.stack.symm
  messages := h.messages.symm

theorem trans {c : Actor} (h : a.Equivalent ρ b) (h' : b.Equivalent σ c) :
    a.Equivalent (ρ.comp σ) c where
  frames := h.frames.trans h'.frames
  catches := h.catches.trans h'.catches
  entry := h.entry.trans h'.entry
  pendingReceive := h.pendingReceive.trans h'.pendingReceive
  cursor := h.cursor.trans h'.cursor
  limits := h.limits.trans h'.limits
  maxCapacity := h.maxCapacity.trans h'.maxCapacity
  left := h.left
  right := h'.right
  iso := h.iso.trans h'.iso
  stack := h.stack.trans h'.stack
  messages := h.messages.trans h'.messages

/-- Actors that have done nothing yet, whatever the first capacities of their heaps. -/
theorem create {c d : ActorConfig} (limits : c.toActorLimits = d.toActorLimits)
    (heaps : c.maxHeap = d.maxHeap) :
    Equivalent .empty (Actor.create c) (Actor.create d) where
  frames := rfl
  catches := rfl
  entry := rfl
  pendingReceive := rfl
  cursor := rfl
  limits := limits
  maxCapacity := congrArg (min · Heap.sizeLimit) heaps
  left := .create _ _
  right := .create _ _
  iso := .empty _ _
  stack := .empty _
  messages := .empty _

theorem basePointer_eq (h : a.Equivalent ρ b) : a.basePointer = b.basePointer := by
  rw [basePointer, basePointer, h.frames]

theorem argCount_eq (h : a.Equivalent ρ b) : a.argCount = b.argCount := by
  rw [argCount, argCount, h.frames]

theorem size_eq (h : a.Equivalent ρ b) : a.stack.size = b.stack.size := h.stack.size

theorem localPosition?_eq (h : a.Equivalent ρ b) (index : Int) :
    a.localPosition? index = b.localPosition? index := by
  rw [localPosition?, localPosition?, h.basePointer_eq, h.argCount_eq, h.size_eq]

theorem loadLocal (h : a.Equivalent ρ b) (index : Int) :
    (a.loadLocal index).Match ρ (b.loadLocal index) := by
  rw [Actor.loadLocal, Actor.loadLocal, h.localPosition?_eq]
  cases b.localPosition? index with
  | none => exact .inline rfl
  | some position => exact h.stack.getD position

theorem roots (h : a.Equivalent ρ b) : Value.MatchAll ρ a.roots b.roots :=
  h.stack.append h.messages

end Equivalent

namespace InStep

/-- Where nothing is held from an earlier time, actors in step are just equivalent ones. -/
theorem of_equivalent (h : a.Equivalent ρ b) (m : Memory) : a.InStep ⟨m, #[], True⟩ ρ b :=
  ⟨h, .empty _ _ _, fun _ => Nat.zero_le _⟩

/-- The innermost call may be left. -/
theorem unguarded (h : a.InStep g ρ b) : a.InStep g.unguarded ρ b :=
  ⟨h.toEquivalent, h.relocated, fun h => h.elim⟩

/-- The objects that hold values from an earlier time are matched. -/
theorem matched_of_between (h : a.InStep g ρ b) {s : Shape} {r t : Ref}
    (hb : Value.between g.values a.stack s r t) : ∃ u, ρ s t u := by
  obtain ⟨i, -, hi⟩ := hb
  have := h.stack.rel i
  rw [hi] at this
  generalize b.stack[i]? = w at this
  cases this with
  | some h =>
    cases h with
    | inline h => cases h
    | object h => exact ⟨_, h⟩

/-- The memories change; what has been matched has the sizes and the strings that it had. -/
theorem setMemory (h : a.InStep g ρ b) {m₁ m₁' : Memory} (iso : Iso σ m₁ m₁')
    (himp : ∀ {s r t}, ρ s r t → σ s r t)
    (hsize : ∀ {s r t}, ρ s r t → m₁.sizeAt r = a.heap.memory.sizeAt r)
    (hstring : ∀ {r t}, ρ .string r t → m₁.stringAt r = a.heap.memory.stringAt r)
    (room : m₁.size ≤ a.heap.capacity) (room' : m₁'.size ≤ b.heap.capacity) :
    InStep g σ { a with heap := { a.heap with memory := m₁ } }
      { b with heap := { b.heap with memory := m₁' } } where
  toEquivalent := { h.toEquivalent with
    left := ⟨room, h.left.capacity_le, h.left.max_le⟩
    right := ⟨room', h.right.capacity_le, h.right.max_le⟩
    iso := iso
    stack := h.stack.mono himp
    messages := h.messages.mono himp }
  relocated := h.relocated.update (fun hb => hsize (h.matched_of_between hb).choose_spec)
    fun hb => hstring (h.matched_of_between hb).choose_spec
  guard := h.guard

/-- The stacks change above the values from the earlier time. -/
theorem setStack (h : a.InStep g ρ b) {vs ws : Array Value} (hvs : Value.MatchAll ρ vs ws)
    (size_le : g.values.size ≤ vs.size)
    (heq : ∀ i : Nat, i < g.values.size → vs[i]? = a.stack[i]?) :
    InStep g ρ { a with stack := vs } { b with stack := ws } :=
  ⟨{ h.toEquivalent with stack := hvs }, h.relocated.congr size_le heq, h.guard⟩

theorem setMailbox (h : a.InStep g ρ b) {vs ws : Array Value} (hvs : Value.MatchAll ρ vs ws)
    (cursor : Nat) : InStep g ρ { a with mailbox := ⟨vs, cursor⟩ }
      { b with mailbox := ⟨ws, cursor⟩ } :=
  ⟨{ h.toEquivalent with cursor := rfl, messages := hvs }, h.relocated, h.guard⟩

theorem setCatches (h : a.InStep g ρ b) (catches : List CatchPoint) :
    InStep g ρ { a with catches } { b with catches } :=
  ⟨{ h.toEquivalent with catches := rfl }, h.relocated, h.guard⟩

theorem setEntry (h : a.InStep g ρ b) (entry : Option Nat) :
    InStep g ρ { a with entry } { b with entry } :=
  ⟨{ h.toEquivalent with entry := rfl }, h.relocated, h.guard⟩

theorem setPendingReceive (h : a.InStep g ρ b) (pendingReceive : Option Int) :
    InStep g ρ { a with pendingReceive } { b with pendingReceive } :=
  ⟨{ h.toEquivalent with pendingReceive := rfl }, h.relocated, h.guard⟩

/-- Calls begin, go on and end; those that leave the values from the earlier time alone may do so
under guard. -/
theorem setFrames (h : a.InStep g ρ b) (frames : Array Frame)
    (guard : g.guarded → g.values.size ≤
      ({ a with frames } : Actor).basePointer - ({ a with frames } : Actor).argCount) :
    InStep g ρ { a with frames } { b with frames } :=
  ⟨{ h.toEquivalent with frames := rfl }, h.relocated, guard⟩

end InStep

end Actor

namespace ActorM

variable {F : Value → Prop} {g : Origin} {B : Fault → Prop} {ρ : Matching} {a b : Actor}

theorem readHeap_ok {f : Heap → Except HeapError α} {x : α} (hx : f a.heap = .ok x) :
    readHeap f a = .ok x a := by
  unfold readHeap
  rw [hx]

theorem readHeap_error {f : Heap → Except HeapError α} {e : HeapError}
    (he : f a.heap = .error e) : readHeap f a = .error (.heap e) a := by
  unfold readHeap
  rw [he]

theorem onHeap_ok {m : HeapM α} {x : α} {h : Heap} (hx : m a.heap = .ok x h) :
    onHeap m a = .ok x { a with heap := h } := by
  unfold onHeap
  simp only [hx]

theorem onHeap_error {m : HeapM α} {e : HeapError} {h : Heap}
    (he : m a.heap = .error e h) : onHeap m a = .error (.heap e) { a with heap := h } := by
  unfold onHeap
  simp only [he]

/-- Writing to matched objects of two heaps. -/
theorem together_onHeap {m m' : HeapM α} {Q : α → Heap → α → Heap → Prop} (h : a.InStep g ρ b)
    (agree : Heap.Agree F ρ m m' a.heap b.heap Q) :
    Together (onHeap m) (onHeap m') a b
      (fun x a₁ y b₁ => a₁.InStep g ρ b₁ ∧ Q x a₁.heap y b₁.heap) (Actor.FailInStep g B) := by
  have kept : ∀ {h₁ h₁'}, Heap.Rewritten F ρ a.heap b.heap h₁ h₁' →
      Actor.InStep g ρ { a with heap := h₁ } { b with heap := h₁' } := by
    intro h₁ h₁' hr
    rw [hr.left.same, hr.right.same]
    refine h.setMemory hr.iso id (fun hrt => hr.left.sizeAt ⟨_, hrt⟩)
      (fun hrt => hr.left.stringAt ⟨_, hrt⟩) ?_ ?_
    · exact Nat.le_trans (Nat.le_of_eq hr.left.used) h.left.used_le
    · exact Nat.le_trans (Nat.le_of_eq hr.right.used) h.right.used_le
  cases hx : m a.heap with
  | ok x h₁ =>
    obtain ⟨y, h₁', hy, hr, hq⟩ := agree.of_ok hx
    exact .ok_ok (onHeap_ok hx) (onHeap_ok hy) ⟨kept hr, hq⟩
  | error e h₁ =>
    obtain ⟨e', h₁', hy, he, hr⟩ := agree.of_error hx
    exact .error_error (onHeap_error hx) (onHeap_error hy) ⟨ρ, .heap he, kept hr⟩

theorem same_onHeap {m m' : HeapM α} {Q : α → α → Prop}
    (h : ∀ h h' : Heap, Iso ρ h.memory h'.memory →
      Heap.Agree F ρ m m' h h' fun x _ y _ => Q x y) :
    Same g B ρ (onHeap m) (onHeap m') fun ρ' x y => ρ' = ρ ∧ Q x y :=
  fun _ _ hab => (together_onHeap hab (h _ _ hab.iso)).mono
    (fun _ _ _ _ ⟨h, hq⟩ => ⟨ρ, h, rfl, hq⟩) fun _ _ _ _ h => h

end ActorM

end ActorMachine
