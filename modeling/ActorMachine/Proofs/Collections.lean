import ActorMachine.Proofs.Allocation
import ActorMachine.Proofs.Collecting
import ActorMachine.Proofs.Outcome

/-!
# What a collection keeps

`RootedM.collect_exact`: a collection, whether or not it finds the room that it is to find, leaves
exact copies of the objects that the roots lead to, without a gap and in the order in which a
breadth-first search finds them, and nothing else. Where the values are held, in one array or in
several, makes no difference.
-/

namespace ActorMachine

open Memory

/-! ## A tuple that holds itself -/

/-- The only slot of the second object of this heap holds the object itself. Nothing refers to the
first. -/
def Heap.knot : Heap where
  memory := (((Memory.allocated ByteArray.empty (.object .tuple) 8).allocated
    (.object .tuple) 24).store 40 8 1).storeValue 48 (.object .tuple (.ofNat 24))
  capacity := 64
  maxCapacity := 80
  collections := 0

namespace Heap

theorem bounded_knot : knot.Bounded := by
  have hused : knot.used = 64 := by decide +kernel
  exact ⟨Nat.le_of_eq hused, by decide, by decide⟩

theorem isObject_knot : knot.memory.IsObject .tuple (.ofNat 24) :=
  .intro (n := 24) (by decide +kernel) (by decide +kernel)

/-- Nothing else can be reached from there. -/
theorem lists_knot {roots : Value → Prop} (first : roots (.object .tuple (.ofNat 24)))
    (only : ∀ s r, roots (.object s r) → r = .ofNat 24) :
    Lists [.ofNat 24] (knot.memory.Leads roots) := by
  refine ⟨List.nodup_cons.mpr ⟨List.not_mem_nil, List.nodup_nil⟩,
    fun r => ⟨fun hr => ?_, fun hr => ?_⟩⟩
  · rw [List.mem_singleton.mp hr]
    exact .root first
  · refine List.mem_singleton.mpr (hr.subset (P := (· = .ofNat 24)) ?_ only)
    rintro _ i s r' rfl hi hslot
    have hslots : knot.memory.slotsIn (.ofNat 24) = 1 := by decide +kernel
    have hself : knot.memory.slotAt (.ofNat 24) 0 = .object .tuple (.ofNat 24) := by decide +kernel
    obtain rfl : i = 0 := by omega
    rw [hself] at hslot
    cases hslot
    rfl

theorem scattered_knot {roots : Value → Prop} (first : roots (.object .tuple (.ofNat 24)))
    (only : ∀ s r, roots (.object s r) → r = .ofNat 24) :
    Scattered (knot.memory.Leads roots) knot.memory := by
  have all : ∀ {r}, knot.memory.Leads roots r → r = .ofNat 24 := fun hr =>
    List.mem_singleton.mp (((lists_knot first only).mem_iff _).mpr hr)
  refine ⟨fun hr => ⟨.tuple, all hr ▸ isObject_knot⟩, fun hr hr' hne => ?_⟩
  exact absurd ((all hr).trans (all hr').symm) hne

end Heap

/-! ## What is kept -/

/-- What a collection for `request` bytes makes of a heap and the roots: the objects that the roots
lead to, listed in `order`, are at their places under `φ`. -/
structure Collected (φ : Ref → Ref) (order : List Ref) (request : Nat) (s s' : Rooted) : Prop where
  compaction : Compaction φ order s.heap.memory s.roots s'.heap.memory s'.roots
  capacity_eq : s'.heap.capacity = s.heap.grownCapacity (s.heap.memory.total order) request
  maxCapacity_eq : s'.heap.maxCapacity = s.heap.maxCapacity
  collections_eq : s'.heap.collections = s.heap.collections + 1

namespace Collected

variable {φ : Ref → Ref} {order : List Ref} {request : Nat} {s s' : Rooted}

theorem used_eq (h : Collected φ order request s s') : s'.heap.used = s.heap.memory.total order :=
  h.compaction.replica.size.trans (Nat.zero_add _)

theorem leads (h : Collected φ order request s s') {r : Ref} (hr : r ∈ order) :
    s.heap.memory.Leads (· ∈ s.roots) r :=
  (h.compaction.breadthFirst.mem_iff r).mp hr

theorem mem_roots_iff (h : Collected φ order request s s') (w : Value) :
    w ∈ s'.roots ↔ ∃ v, v ∈ s.roots ∧ v.relocate φ = w := by
  rw [h.compaction.roots_eq, Array.mem_map]

/-- The roots lead to the copies, and to nothing else. -/
theorem leads_iff (h : Collected φ order request s s')
    (valid : Scattered (s.heap.memory.Leads (· ∈ s.roots)) s.heap.memory) {t : Ref} :
    s'.heap.memory.Leads (· ∈ s'.roots) t ↔ ∃ r, s.heap.memory.Leads (· ∈ s.roots) r ∧ φ r = t :=
  h.compaction.replica.leads_iff h.compaction.breadthFirst.mem_iff
    (fun _ hr => valid.isObject (h.leads hr)) h.mem_roots_iff

end Collected

namespace RootedM

variable {s : Rooted}

/-- Whether or not it finds the room, a collection leaves what it is to leave. -/
theorem collected_spec (valid : Scattered (s.heap.memory.Leads (· ∈ s.roots)) s.heap.memory)
    (small : s.heap.used ≤ Heap.sizeLimit) (request : Nat) :
    ∃ φ order, Collected φ order request s (s.collected request) := by
  obtain ⟨φ, order, compaction⟩ := Rooted.compact_spec valid small
  have hused : s.compact.heap.used = s.heap.memory.total order :=
    compaction.replica.size.trans (Nat.zero_add _)
  exact ⟨φ, order, compaction, congrArg (s.heap.grownCapacity · request) hused, rfl, rfl⟩

/-- A collection of a heap in which the roots lead to objects only, no two of them with a common
byte. It returns or runs out of memory. Each root leads to the new place of its object, array by
array; the objects at the new places are of the same shape and size as they were, have not moved,
and hold the same, except that their references lead to the new places; they fill the heap in the
order of a breadth-first search; the search ends at the end of the new memory; and one more
collection is counted. -/
theorem collect_exact (valid : Scattered (s.heap.memory.Leads (· ∈ s.roots)) s.heap.memory)
    (small : s.heap.used ≤ Heap.sizeLimit) (request : Nat) :
    ∃ s', (collect request s = .ok () s' ∨
        collect request s = .error (.outOfMemory request s.heap.maxCapacity) s') ∧
      ∃ (φ : Ref → Ref) (order : List Ref), s.heap.memory.BreadthFirst s.roots order ∧
        (∀ r ∈ order, ∀ t ∈ order, φ r = φ t → r = t) ∧
        (∀ slices : Array (Array Value), s.roots = slices.flatten →
          s'.roots = (slices.map (·.map (Value.relocate φ))).flatten) ∧
        (∀ r ∈ order, ∃ shape, s.heap.memory.IsObject shape r ∧
          s'.heap.memory.IsObject shape (φ r) ∧
          s'.heap.memory.sizeAt (φ r) = s.heap.memory.sizeAt r) ∧
        Replica φ s.heap.memory order 0 s'.heap.memory ∧
        s'.heap.used = s.heap.memory.total order ∧
        (∀ t, s'.heap.memory.Leads (· ∈ s'.roots) t ↔ ∃ r ∈ order, φ r = t) ∧
        (∃ source, (Evacuation.moveAll ⟨s.heap.memory, ByteArray.empty⟩ s.roots).2.Scans 0
          ⟨source, s'.heap.memory⟩) ∧
        s'.heap.collections = s.heap.collections + 1 := by
  obtain ⟨φ, order, collected⟩ := collected_spec valid small request
  have replica := collected.compaction.replica
  have objects : ∀ r ∈ order, ∃ shape, s.heap.memory.IsObject shape r := fun _ hr =>
    valid.isObject (collected.leads hr)
  refine ⟨s.collected request, ?_, φ, order, collected.compaction.breadthFirst, fun r hr t ht =>
    replica.injective objects hr ht, ?_, ?_, replica, collected.used_eq, ?_,
      collected.compaction.scans,
    collected.collections_eq⟩
  · rw [collect_eq]
    split
    · exact .inr rfl
    · exact .inl rfl
  · intro slices hslices
    rw [collected.compaction.roots_eq, hslices, Array.map_flatten]
  · intro r hr
    obtain ⟨shape, obj⟩ := objects r hr
    exact ⟨shape, obj, (replica.copies r hr).isObject obj, (replica.copies r hr).sizeAt_eq obj⟩
  · intro t
    simp only [collected.leads_iff valid, collected.compaction.breadthFirst.mem_iff]

/-- The tuple that holds itself is all that is kept, although there is no room for a hundred bytes
more. -/
theorem collect_exact_knot :
    ∃ s', (collect 100 ⟨.knot, #[.object .tuple (.ofNat 24), .nil]⟩ = .ok () s' ∨
        collect 100 ⟨.knot, #[.object .tuple (.ofNat 24), .nil]⟩ =
        .error (.outOfMemory 100 80) s') ∧
      s'.heap.used = 40 ∧ s'.heap.collections = 1 := by
  have first : .object .tuple (.ofNat 24) ∈ #[.object .tuple (.ofNat 24), Value.nil] := by simp
  have only : ∀ s r, .object s r ∈ #[.object .tuple (.ofNat 24), Value.nil] →
    r = .ofNat 24 := by simp
  obtain ⟨s', hrun, _, order, hbfs, -, -, -, -, hused, -, -, hcollections⟩ :=
    collect_exact (s := ⟨.knot, #[.object .tuple (.ofNat 24), .nil]⟩)
      (Heap.scattered_knot first only) Heap.bounded_knot.used_le_limit 100
  refine ⟨s', hrun, ?_, hcollections⟩
  rw [hused, hbfs.lists.total_eq (Heap.lists_knot first only)]
  decide +kernel

end RootedM

end ActorMachine
