import ActorMachine.Actor.Objects
import ActorMachine.Proofs.Equivalence

/-!
# Making objects in equivalent actors

A collection leaves an equivalent actor (`ActorM.collect_spec`), and whether it makes the room that
is asked for depends on nothing but what the roots reach. So of two equivalent actors one may
collect where the other does not, and they stay equivalent or both run out of memory
(`together_reserve`). After that the new objects of both are matched (`together_making`).
-/

namespace ActorMachine

open Memory

namespace Actor

variable {g : Origin} {ρ γ : Matching} {a a₁ b b₁ : Actor}

namespace Equivalent

/-- What the roots hold is matched. -/
theorem matched_of_mem (h : a.Equivalent ρ b) {s : Shape} {r : Ref} (hr : .object s r ∈ a.roots) :
    ∃ t, ρ s r t := by
  obtain ⟨w, -, hmatch⟩ := h.roots.of_mem hr
  cases hmatch with
  | inline h => cases h
  | object h => exact ⟨_, h⟩

end Equivalent

namespace InStep

/-- The left actor may be replaced by an equivalent one that holds its values at other places. -/
theorem moveLeft (h : a.InStep g ρ b) (moved : a.Equivalent γ a₁) :
    a₁.InStep g (γ.inverse.comp ρ) b where
  toEquivalent := moved.symm.trans h.toEquivalent
  relocated := h.relocated.move moved.iso moved.stack
  guard hg := by
    rw [← moved.basePointer_eq, ← moved.argCount_eq]
    exact h.guard hg

theorem moveRight (h : a.InStep g ρ b) (moved : b.Equivalent γ b₁) :
    a.InStep g (ρ.comp γ) b₁ where
  toEquivalent := h.toEquivalent.trans moved
  relocated := h.relocated
  guard := h.guard

end InStep

end Actor

/-- Whatever matches the heap and the roots of an actor may take their place. -/
theorem Actor.equivalent_withRooted {a : Actor} {γ : Matching} {heap : Heap} {roots : Array Value}
    (iso : Iso γ a.heap.memory heap.memory)
    (matched : Value.MatchAll γ (a.stack ++ a.mailbox.messages) roots)
    (max : heap.maxCapacity = a.heap.maxCapacity) (left : a.heap.Bounded) (right : heap.Bounded) :
    a.Equivalent γ (a.withRooted ⟨heap, roots⟩) := by
  have hstack := matched.extract 0 a.stack.size
  have hsize : roots.size = a.stack.size + a.mailbox.messages.size := by
    rw [← matched.size, Array.size_append]
  have hlast : (a.stack ++ a.mailbox.messages).extract a.stack.size roots.size =
      a.mailbox.messages := by
    rw [hsize, Array.extract_append_right, Array.extract_size]
  have hmessages := matched.extract a.stack.size roots.size
  rw [Array.extract_append_left, Array.extract_size] at hstack
  rw [hlast] at hmessages
  exact {
    frames := rfl
    catches := rfl
    entry := rfl
    pendingReceive := rfl
    cursor := rfl
    limits := rfl
    maxCapacity := max.symm
    left
    right
    iso
    stack := hstack
    messages := hmessages }

namespace ActorM

variable {g : Origin} {B : Fault → Prop} {ρ : Matching} {a b : Actor}

/-- A collection moves what the roots reach, and makes room if there can be room beside it. -/
theorem collect_spec {P : Shape → Ref → Prop} (laid : Laid P a.heap.memory)
    (closed : Closed P a.heap.memory) (hroots : ∀ s r, .object s r ∈ a.roots → P s r)
    (bounded : a.heap.Bounded) (request : Nat) :
    ∃ (a₁ : Actor) (γ : Matching) (refs : List Ref), a.Equivalent γ a₁ ∧
      Enumerates refs (a.heap.memory.Reaches (· ∈ a.roots)) ∧
      collect request a = (if a.heap.maxCapacity < a.heap.memory.total refs + request then
        .error (.heap (.outOfMemory request a.heap.maxCapacity)) a₁ else .ok () a₁) ∧
      (a.heap.memory.total refs + request ≤ a.heap.maxCapacity → request ≤ a₁.heap.free) := by
  obtain ⟨γ, refs, iso, hmatch, enumerates, hused⟩ :=
    Rooted.compact_iso (s := { heap := a.heap, roots := a.roots }) laid closed hroots
      bounded.used_le_limit
  -- What survives is part of what has been there, so that a heap grown for it has room for it.
  have hlive : a.heap.memory.total refs ≤ a.heap.used :=
    laid.total_le enumerates.nodup fun r hr => by
      obtain ⟨s, hreach⟩ := (enumerates.mem_iff r).mp hr
      exact ⟨s, hreach.subset closed hroots⟩
  generalize hs : Rooted.compact { heap := a.heap, roots := a.roots } = s at *
  have hused : s.heap.used = a.heap.memory.total refs := hused
  have hmatch : Value.MatchAll γ (a.stack ++ a.mailbox.messages) s.roots := hmatch
  have hmax : s.heap.maxCapacity = a.heap.maxCapacity := by rw [← hs]; rfl
  have hcapacity : s.heap.capacity = a.heap.capacity := by rw [← hs]; rfl
  have hgrown : s.heap.grownCapacity s.heap.used request =
      a.heap.grownCapacity (a.heap.memory.total refs) request := by
    rw [Heap.grownCapacity, Heap.grownCapacity, hmax, hcapacity, hused]
  obtain ⟨hle, hbound, hiff⟩ := bounded.grownCapacity hlive request
  let heap : Heap := { s.heap with capacity := s.heap.grownCapacity s.heap.used request }
  refine ⟨a.withRooted ⟨heap, s.roots⟩, γ, refs, ?_, enumerates, ?_, ?_⟩
  · refine Actor.equivalent_withRooted iso hmatch hmax bounded ⟨?_, ?_, ?_⟩
    · show s.heap.used ≤ s.heap.grownCapacity s.heap.used request
      rw [hgrown, hused]
      exact hle
    · show s.heap.grownCapacity s.heap.used request ≤ s.heap.maxCapacity
      rw [hgrown, hmax]
      exact hbound
    · show s.heap.maxCapacity ≤ _
      rw [hmax]
      exact bounded.max_le
  · have hiff' : s.heap.grownCapacity s.heap.used request < s.heap.used + request ↔
        a.heap.maxCapacity < a.heap.memory.total refs + request := by
      rw [hgrown, hused]
      exact hiff
    unfold collect RootedM.collect
    by_cases hfull : a.heap.maxCapacity < a.heap.memory.total refs + request
    · rw [if_pos hfull, ← hmax]
      simp only [hs, if_pos (hiff'.mpr hfull)]
      rfl
    · simp only [hs, if_neg hfull, if_neg (mt hiff'.mp hfull)]
      rfl
  · intro hroom
    show request ≤ s.heap.grownCapacity s.heap.used request - s.heap.used
    rw [hgrown, hused]
    omega

/-- One of two equivalent actors may collect alone for room that the other has. -/
theorem collect_alone (h : a.Equivalent ρ b) {bytes : Nat} (room : bytes ≤ b.heap.free) :
    ∃ (a₁ : Actor) (γ : Matching), collect bytes a = .ok () a₁ ∧ a.Equivalent γ a₁ ∧
      bytes ≤ a₁.heap.free := by
  obtain ⟨a₁, γ, refs, moved, enumerates, run, free⟩ :=
    collect_spec h.iso.left h.iso.closedLeft (fun _ _ => h.matched_of_mem) h.left bytes
  have hle : a.heap.memory.total refs ≤ b.heap.used :=
    h.iso.total_le_size enumerates.nodup fun r hr => by
      obtain ⟨s, hreach⟩ := (enumerates.mem_iff r).mp hr
      exact ⟨s, hreach.subset h.iso.closedLeft fun _ _ => h.matched_of_mem⟩
  have hused := h.right.used_le
  have hcapacity := h.right.capacity_le
  have hmax := h.maxCapacity
  rw [Heap.free] at room
  have hroom : a.heap.memory.total refs + bytes ≤ a.heap.maxCapacity := by omega
  rw [if_neg (by omega)] at run
  exact ⟨a₁, γ, run, moved, free hroom⟩

theorem reserve_of_le {bytes : Nat} (room : bytes ≤ a.heap.free) : reserve bytes a = .ok () a := by
  show (if a.heap.free < bytes then collect bytes else pure ()) a = _
  rw [if_neg (by omega)]
  rfl

theorem reserve_of_lt {bytes : Nat} (room : a.heap.free < bytes) :
    reserve bytes a = collect bytes a := by
  show (if a.heap.free < bytes then collect bytes else pure ()) a = _
  rw [if_pos room]

/-- Equivalent actors both get the room that they ask for, or both run out of memory. -/
theorem together_reserve (h : a.InStep g ρ b) (bytes : Nat) :
    Together (reserve bytes) (reserve bytes) a b
      (fun _ a₁ _ b₁ => ∃ ρ', a₁.InStep g ρ' b₁ ∧ bytes ≤ a₁.heap.free ∧ bytes ≤ b₁.heap.free)
      (Actor.FailInStep g B) := by
  by_cases hleft : a.heap.free < bytes
  · by_cases hright : b.heap.free < bytes
    · have e := h.toEquivalent
      have e' := e.symm
      obtain ⟨a₁, γ, refs, moved, enumerates, run, free⟩ :=
        collect_spec e.iso.left e.iso.closedLeft (fun _ _ => e.matched_of_mem) e.left bytes
      obtain ⟨b₁, γ', refs', moved', enumerates', run', free'⟩ :=
        collect_spec e'.iso.left e'.iso.closedLeft (fun _ _ => e'.matched_of_mem) e'.left bytes
      have htotal : a.heap.memory.total refs = b.heap.memory.total refs' :=
        total_eq_of_iso e.iso (fun _ => e.roots.of_mem) (fun _ => e.roots.of_mem_right) enumerates
          enumerates'
      rw [← htotal, ← e.maxCapacity] at run' free'
      rw [← reserve_of_lt hleft] at run
      rw [← reserve_of_lt hright] at run'
      by_cases hfull : a.heap.maxCapacity < a.heap.memory.total refs + bytes
      · rw [if_pos hfull] at run run'
        exact .error_error run run'
          ⟨_, .heap ⟨rfl, trivial⟩, (h.moveLeft moved).moveRight moved'⟩
      · rw [if_neg hfull] at run run'
        have hroom := Nat.le_of_not_lt hfull
        exact .ok_ok run run'
          ⟨_, (h.moveLeft moved).moveRight moved', free hroom, free' hroom⟩
    · have hright := Nat.le_of_not_lt hright
      obtain ⟨a₁, γ, run, moved, free⟩ := collect_alone h.toEquivalent hright
      exact .ok_ok ((reserve_of_lt hleft).trans run) (reserve_of_le hright)
        ⟨_, h.moveLeft moved, free, hright⟩
  · have hleft := Nat.le_of_not_lt hleft
    by_cases hright : b.heap.free < bytes
    · obtain ⟨b₁, γ, run, moved, free⟩ := collect_alone h.toEquivalent.symm hleft
      exact .ok_ok (reserve_of_le hleft) ((reserve_of_lt hright).trans run)
        ⟨_, h.moveRight moved, hleft, free⟩
    · have hright := Nat.le_of_not_lt hright
      exact .ok_ok (reserve_of_le hleft) (reserve_of_le hright) ⟨ρ, h, hleft, hright⟩

end ActorM

/-! ## New objects -/

/-- Two actors in step that get objects that hold the same stay in step. -/
theorem Actor.InStep.addObject {g : Origin} {ρ : Matching} {a b : Actor} {m₁ m₁' : Memory}
    {s : Shape} {p p' : Ref} (h : a.InStep g ρ b) (new : NewObject a.heap.memory m₁ s p)
    (new' : NewObject b.heap.memory m₁' s p') (size : m₁.sizeAt p = m₁'.sizeAt p')
    (length : m₁.lengthAt p = m₁'.lengthAt p')
    (string : s = .string → m₁.stringAt p = m₁'.stringAt p') (room : m₁.size ≤ a.heap.capacity)
    (room' : m₁'.size ≤ b.heap.capacity) :
    Actor.InStep g (ρ.union (.single s p p')) { a with heap := { a.heap with memory := m₁ } }
      { b with heap := { b.heap with memory := m₁' } } := by
  have same : ∀ {s' r t}, ρ s' r t → SameObject a.heap.memory m₁ r r := fun hrt =>
    new.extends_.sameObject (h.iso.left.isObject ⟨_, hrt⟩)
  refine h.setMemory (h.iso.addObject new new' size length string) .inl
    (fun hrt => (same hrt).sizeAt) (fun hrt => ?_) room room'
  exact (same hrt).stringAt (h.iso.left.isObject ⟨_, hrt⟩)
    (eight_le_sizeAt (h.iso.left.typed ⟨_, hrt⟩))

namespace ActorM

variable {g : Origin} {B : Fault → Prop} {ρ : Matching} {a b : Actor} {s : Shape}
    {size length : Nat}

/-- Where there is room, allocating succeeds. -/
theorem tryAlloc_run (bounded : a.heap.Bounded) (room : allocSize size ≤ a.heap.free) :
    ∃ p : Ref, onHeap (HeapM.tryAlloc (.object s) size) a = .ok p
      { a with heap := { a.heap with memory := a.heap.memory.allocated (.object s) size } } ∧
    p.start = a.heap.memory.size ∧ size < 2 ^ 32 ∧
    (a.heap.memory.allocated (.object s) size).size ≤ a.heap.capacity := by
  have hused := bounded.used_le
  have hlimit := bounded.used_le_limit
  have hcapacity := Nat.le_trans bounded.capacity_le bounded.max_le
  have hsize := le_allocSize size
  rw [Heap.free] at room
  have hlimit' : Heap.sizeLimit < 2 ^ 32 := by decide
  refine ⟨_, onHeap_ok (HeapM.tryAlloc_eq (by omega) room), Ref.start_ofNat hlimit, by omega, ?_⟩
  rw [size_allocated]
  have : a.heap.memory.size = a.heap.used := rfl
  omega

/-- Where there is room for so many bytes, a computation adds an object of a shape, a size, a length
and, if it is a string, a content, and does nothing else. -/
def Makes (m : ActorM α) (bytes : Nat) (s : Shape) (size length : Nat) (content : ByteArray)
    (val : Ref → α) : Prop :=
  ∀ a : Actor, a.heap.Bounded → bytes ≤ a.heap.free → ∃ (p : Ref) (m₁ : Memory),
    m a = .ok (val p) { a with heap := { a.heap with memory := m₁ } } ∧
    NewObject a.heap.memory m₁ s p ∧ m₁.size ≤ a.heap.capacity ∧ m₁.sizeAt p = size ∧
    m₁.lengthAt p = length ∧ (s = .string → m₁.stringAt p = content)

/-- Equivalent actors that make room for an object and add it stay equivalent. -/
theorem together_making {m : ActorM α} {bytes : Nat} {content : ByteArray} {val : Ref → α}
    (makes : Makes m bytes s size length content val) (h : a.InStep g ρ b) :
    Together (reserve bytes >>= fun _ => m) (reserve bytes >>= fun _ => m) a b
      (fun x a₁ y b₁ => ∃ ρ' p p', a₁.InStep g ρ' b₁ ∧ ρ' s p p' ∧ x = val p ∧ y = val p' ∧
        a₁.heap.memory.lengthAt p = length ∧ (s = .string → a₁.heap.memory.stringAt p = content))
      (Actor.FailInStep g B) := by
  refine .bind <| (together_reserve h bytes).mono ?_ fun _ _ _ _ h => h
  rintro _ a₁ _ b₁ ⟨ρ', h', hleft, hright⟩
  obtain ⟨p, m₁, run, new, room, hsize, hlength, hstring⟩ := makes a₁ h'.left hleft
  obtain ⟨p', m₁', run', new', room', hsize', hlength', hstring'⟩ := makes b₁ h'.right hright
  refine .ok_ok run run' ⟨_, p, p', h'.addObject new new' (hsize.trans hsize'.symm)
    (hlength.trans hlength'.symm) (fun hs => (hstring hs).trans (hstring' hs).symm) room room',
    .inr ⟨rfl, rfl, rfl⟩, rfl, rfl, hlength, hstring⟩

theorem makes_string (bytes : ByteArray) :
    Makes (do
        let r ← onHeap (HeapM.tryAlloc (.object .string) (Heap.stringSize bytes.size))
        onHeap (HeapM.initString r bytes)
        return Value.object .string r)
      (allocSize (Heap.stringSize bytes.size)) .string (Heap.stringSize bytes.size)
      ((hashBytes bytes).toNat + 256 ^ 4 * bytes.size) bytes (Value.object .string) := by
  intro a bounded room
  obtain ⟨p, run, hp, hsize, hroom⟩ := tryAlloc_run (s := .string) bounded room
  have obj := isObject_allocated (s := .string) hp hsize
  have hsizeAt := sizeAt_allocated (s := .string) hp hsize
  have ext := extends_allocated a.heap.memory (.object .string) (Heap.stringSize bytes.size)
  -- From here on, it does not matter what the memory with the new object looks like.
  generalize a.heap.memory.allocated (.object .string) (Heap.stringSize bytes.size) = m at *
  obtain ⟨new, hsame, hsizeAt', hlength, hstring⟩ := newObject_string ext hp obj hsizeAt
  refine ⟨p, m.withString p bytes, ?_, new, ?_, hsizeAt', hlength, fun _ => hstring⟩
  · rw [bind_of_ok run, bind_of_ok (onHeap_ok (HeapM.initString_eq obj hsizeAt))]
    rfl
  · rw [hsame]
    exact hroom

theorem makes_tuple (n : Nat) :
    Makes (do
        let r ← onHeap (HeapM.tryAlloc (.object .tuple) (Heap.tupleSize n))
        onHeap (HeapM.initTuple r n)
        return r)
      (allocSize (Heap.tupleSize n)) .tuple (Heap.tupleSize n) n ByteArray.empty id := by
  intro a bounded room
  obtain ⟨p, run, hp, hsize, hroom⟩ := tryAlloc_run (s := .tuple) bounded room
  have obj := isObject_allocated (s := .tuple) hp hsize
  have hsizeAt := sizeAt_allocated (s := .tuple) hp hsize
  have ext := extends_allocated a.heap.memory (.object .tuple) (Heap.tupleSize n)
  have zero := byte_allocated hp (.object .tuple) (Heap.tupleSize n)
  generalize a.heap.memory.allocated (.object .tuple) (Heap.tupleSize n) = m at *
  obtain ⟨new, hlength⟩ := newObject_tuple ext hp obj hsizeAt zero
  refine ⟨p, m.store (Heap.payloadOffset p) 8 n, ?_, new, ?_,
    new.typed.trans (congrArg Heap.tupleSize hlength), hlength, nofun⟩
  · rw [bind_of_ok run, bind_of_ok (onHeap_ok (HeapM.initTuple_eq obj hsizeAt))]
    rfl
  · rw [size_store]
    exact hroom

/-- A tuple with more elements than can be counted in bytes is never made, whatever it is taken
for. -/
theorem makes_tuple_min (n : Nat) :
    Makes (do
        let r ← onHeap (HeapM.tryAlloc (.object .tuple)
          (Heap.tupleSize (min n Heap.maxTupleLength)))
        onHeap (HeapM.initTuple r (min n Heap.maxTupleLength))
        return r)
      (allocSize (Heap.tupleSize (min n Heap.maxTupleLength))) .tuple
        (Heap.tupleSize n) n ByteArray.empty
      id := by
  by_cases hle : n ≤ Heap.maxTupleLength
  · rw [Nat.min_eq_left hle]
    exact makes_tuple n
  · rw [Nat.min_eq_right (Nat.le_of_not_le hle)]
    intro a bounded room
    have hsize := le_allocSize (Heap.tupleSize Heap.maxTupleLength)
    have hcapacity := bounded.capacity_le
    have hmax := bounded.max_le
    have hlimit : Heap.sizeLimit < Heap.tupleSize Heap.maxTupleLength := by decide
    rw [Heap.free] at room
    omega

theorem makes_container (hs : s = .array ∨ s = .table) :
    Makes (onHeap (HeapM.tryAlloc (.object s) Heap.containerSize)) (allocSize Heap.containerSize) s
      Heap.containerSize 0 ByteArray.empty id := by
  intro a bounded room
  obtain ⟨p, run, hp, hsize, hroom⟩ := tryAlloc_run (s := s) bounded room
  obtain ⟨new, hlength⟩ := newObject_container hs hp
  refine ⟨p, _, run, new, hroom, sizeAt_allocated hp hsize, hlength, ?_⟩
  rintro rfl
  rcases hs with h | h <;> cases h

/-- New strings of equivalent actors. -/
theorem together_newString (h : a.InStep g ρ b) (bytes : ByteArray) :
    Together (newString bytes) (newString bytes) a b
      (fun v a₁ w b₁ => ∃ ρ' p p', a₁.InStep g ρ' b₁ ∧ ρ' .string p p' ∧
        v = .object .string p ∧ w = .object .string p' ∧ a₁.heap.memory.stringAt p = bytes)
      (Actor.FailInStep g B) := by
  have := together_making (B := B) (makes_string bytes) h
  rw [newString, alloc, bind_assoc]
  refine this.mono ?_ fun _ _ _ _ h => h
  rintro _ a₁ _ b₁ ⟨ρ', p, p', h', hpp, rfl, rfl, -, hstring⟩
  exact ⟨ρ', p, p', h', hpp, rfl, rfl, hstring rfl⟩

theorem same_newString (bytes : ByteArray) :
    Same g B ρ (newString bytes) (newString bytes) fun ρ' v w => v.Match ρ' w := by
  intro a b h
  refine (together_newString h bytes).mono ?_ fun _ _ _ _ h => h
  rintro _ a₁ _ b₁ ⟨ρ', p, p', h', hpp, rfl, rfl, -⟩
  exact ⟨ρ', h', .object hpp⟩

/-- New tuples of equivalent actors. -/
theorem together_newTupleRef (h : a.InStep g ρ b) (n : Nat) :
    Together (newTupleRef n) (newTupleRef n) a b
      (fun p a₁ p' b₁ => ∃ ρ', a₁.InStep g ρ' b₁ ∧ ρ' .tuple p p' ∧ a₁.heap.memory.lengthAt p = n)
      (Actor.FailInStep g B) := by
  have := together_making (B := B) (makes_tuple n) h
  rw [newTupleRef, alloc, bind_assoc]
  refine this.mono ?_ fun _ _ _ _ h => h
  rintro _ a₁ _ b₁ ⟨ρ', p, p', h', hpp, rfl, rfl, hlength, -⟩
  exact ⟨ρ', h', hpp, hlength⟩

theorem same_newTupleRef (n : Nat) :
    Same g B ρ (newTupleRef n) (newTupleRef n) fun ρ' p p' => ρ' .tuple p p' := by
  intro a b h
  refine (together_newTupleRef h n).mono ?_ fun _ _ _ _ h => h
  rintro p a₁ p' b₁ ⟨ρ', h', hpp, -⟩
  exact ⟨ρ', h', hpp⟩

/-- New arrays and tables of equivalent actors. -/
theorem same_newContainer (hs : s = .array ∨ s = .table) :
    Same g B ρ (alloc (.object s) Heap.containerSize) (alloc (.object s) Heap.containerSize)
      fun ρ' p p' => ρ' s p p' := by
  intro a b h
  refine (together_making (makes_container hs) h).mono ?_ fun _ _ _ _ h => h
  rintro _ a₁ _ b₁ ⟨ρ', p, p', h', hpp, rfl, rfl, -⟩
  exact ⟨ρ', h', hpp⟩

end ActorM

end ActorMachine
