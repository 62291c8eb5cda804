import ActorMachine.Proofs.Copies

/-!
# When memory runs out

`Heap.sizing`: whatever is allocated, reserved, collected, copied and written, a heap stays within
its bounds and its capacity never shrinks, and an allocation fails only if what the roots lead to
leaves no room for it under the bound. What is garbage, how much the heap may hold at the moment and
how it began make no difference.

Sizes are numbers of any magnitude here. Up to the bound on the length of a tuple they are the ones
that are computed in words of 64 bits (`Heap.toNat_allocSizeWord_tupleSizeWord`).
-/

namespace ActorMachine

open Memory

/-! ## Sizes in words -/

namespace Heap

/-- The size of a tuple's payload, computed in a word. -/
def tupleSizeWord (length : UInt64) : UInt64 :=
  8 + length * 16

/-- The number of bytes of an object, computed in a word. -/
def allocSizeWord (size : UInt64) : UInt64 :=
  16 + ((size + 7) &&& ~~~7)

/-- Clearing the last three bits rounds down to a multiple of eight. -/
theorem toNat_and_not_seven (w : UInt64) : (w &&& ~~~7).toNat = w.toNat / 8 * 8 := by
  have hbits : (w.toBitVec &&& ~~~7#64) = w.toBitVec >>> 3 <<< 3 := by
    refine BitVec.eq_of_getLsbD_eq fun i hi => ?_
    have hseven : (7#64).getLsbD i = decide (i < 3) := by
      rw [BitVec.getLsbD_ofNat, show 7 = 2 ^ 3 - 1 from rfl, Nat.testBit_two_pow_sub_one]
      simp [hi]
    rw [BitVec.getLsbD_and, BitVec.getLsbD_not, hseven, BitVec.getLsbD_shiftLeft,
      BitVec.getLsbD_ushiftRight]
    by_cases hlow : i < 3
    · simp [hlow]
    · simp [hi, hlow, Nat.add_sub_cancel' (Nat.le_of_not_lt hlow)]
  show (w.toBitVec &&& ~~~7#64).toNat = _
  rw [hbits, BitVec.toNat_shiftLeft, BitVec.toNat_ushiftRight, Nat.shiftLeft_eq,
    Nat.shiftRight_eq_div_pow]
  have hw : w.toNat < 2 ^ 64 := w.toNat_lt
  show w.toNat / 2 ^ 3 * 2 ^ 3 % 2 ^ 64 = _
  omega

/-- A number of bytes that fits into a word is the one that is computed in words. -/
theorem toNat_allocSizeWord {size : UInt64} (fits : allocSize size.toNat < UInt64.size) :
    (allocSizeWord size).toNat = allocSize size.toNat := by
  unfold allocSize align8 headerWidth UInt64.size at fits
  unfold allocSizeWord allocSize align8 headerWidth
  rw [UInt64.toNat_add, toNat_and_not_seven, UInt64.toNat_add]
  show (16 + (size.toNat + 7) % 2 ^ 64 / 8 * 8) % 2 ^ 64 = _
  omega

/-- The bytes of a tuple fit into a word up to the bound on its length, and no further. -/
theorem allocSize_tupleSize_lt_iff {length : Nat} :
    allocSize (tupleSize length) < UInt64.size ↔ length ≤ maxTupleLength := by
  unfold allocSize align8 headerWidth tupleSize maxTupleLength slotWidth UInt64.size
  omega

theorem toNat_tupleSizeWord {length : UInt64} (fits : length.toNat ≤ maxTupleLength) :
    (tupleSizeWord length).toNat = tupleSize length.toNat := by
  unfold maxTupleLength UInt64.size slotWidth at fits
  unfold tupleSizeWord tupleSize slotWidth
  rw [UInt64.toNat_add, UInt64.toNat_mul]
  show (8 + length.toNat * 16 % 2 ^ 64) % 2 ^ 64 = _
  omega

/-- Up to the bound the bytes of a tuple are those that are computed in words. -/
theorem toNat_allocSizeWord_tupleSizeWord {length : UInt64} (fits : length.toNat ≤ maxTupleLength) :
    (allocSizeWord (tupleSizeWord length)).toNat = allocSize (tupleSize length.toNat) := by
  have hsize := toNat_tupleSizeWord fits
  rw [toNat_allocSizeWord (hsize ▸ allocSize_tupleSize_lt_iff.mpr fits), hsize]

/-- Beyond it the words wrap. -/
example : tupleSizeWord 0x1000000000000000 = 8 := by decide

end Heap

/-! ## What is done to heaps -/

/-- What some values lead to are objects, of which no two have a byte in common. -/
def Heap.Holds (h : Heap) (values : Array Value) : Prop :=
  Scattered (h.memory.Leads (· ∈ values)) h.memory

/-- What is done to a heap: objects are allocated, with a collection or without; room is reserved;
garbage is collected; a value of another heap is copied to it; the bytes of its objects are
overwritten. All of it may fail. -/
inductive Heap.Step (h : Heap) : Heap → Prop
  | tryAlloc (kind : Kind) (size : Nat) : Step h (leaves (HeapM.tryAlloc kind size) h)
  | alloc (kind : Kind) (size : Nat) {roots : Array Value} (valid : h.Holds roots) :
    Step h (leaves (RootedM.alloc kind size) ⟨h, roots⟩).heap
  | reserve (bytes : Nat) {roots : Array Value} (valid : h.Holds roots) :
    Step h (leaves (RootedM.reserve bytes) ⟨h, roots⟩).heap
  | collect (request : Nat) {roots : Array Value} (valid : h.Holds roots) :
    Step h (leaves (RootedM.collect request) ⟨h, roots⟩).heap
  | copy {source : Heap} {v : Value}
    (valid : ∀ r, source.memory.Leads (· = v) r → ∃ s, source.memory.IsObject s r) :
    Step h (leaves (HeapM.copy source v) h)
  | write {m : Memory} (size : m.size = h.memory.size) : Step h { h with memory := m }

/-- A heap that has come about so from an empty one. -/
inductive Heap.Made : Heap → Prop
  | create (initial max : Nat) : Made (Heap.create initial max)
  | step {h h' : Heap} (made : Made h) (step : h.Step h') : Made h'

/-! ## Bounds -/

/-- The heap has stayed within its bounds, and may hold no less than before. -/
structure Heap.Grown (h h' : Heap) : Prop where
  bounded : h'.Bounded
  capacity_le : h.capacity ≤ h'.capacity
  maxCapacity_eq : h'.maxCapacity = h.maxCapacity

namespace Heap

variable {h h' h'' : Heap} {s s' : Rooted} {roots : Array Value} {bytes : Nat}

theorem Grown.refl (bounded : h.Bounded) : h.Grown h := ⟨bounded, Nat.le_refl _, rfl⟩

theorem Grown.trans (first : h.Grown h') (rest : h'.Grown h'') : h.Grown h'' :=
  ⟨rest.bounded, Nat.le_trans first.capacity_le rest.capacity_le,
    rest.maxCapacity_eq.trans first.maxCapacity_eq⟩

/-- Nothing but the bytes has changed, and there is room for these. -/
theorem Grown.of_memory (bounded : h.Bounded) (same : h' = { h with memory := h'.memory })
    (room : h'.used ≤ h.capacity) : h.Grown h' := by
  have hcapacity : h'.capacity = h.capacity := by rw [same]
  have hmax : h'.maxCapacity = h.maxCapacity := by rw [same]
  exact ⟨⟨hcapacity ▸ room, hcapacity ▸ hmax ▸ bounded.capacity_le, hmax ▸ bounded.max_le⟩,
    Nat.le_of_eq hcapacity.symm, hmax⟩

theorem grown_tryAlloc (bounded : h.Bounded) (kind : Kind) (size : Nat) :
    Ends (HeapM.tryAlloc kind size) h (fun _ => h.Grown) fun _ => h.Grown := by
  unfold Ends
  by_cases full : sizeLimit < size ∨ h.free < allocSize size
  · rw [HeapM.tryAlloc_error full]
    exact .refl bounded
  · rw [not_or, Nat.not_lt, Nat.not_lt] at full
    rw [HeapM.tryAlloc_eq full.1 full.2]
    refine .of_memory bounded rfl (Nat.le_trans (Nat.le_of_eq (size_allocated _ _ _)) ?_)
    have hfree : allocSize size ≤ h.capacity - h.used := full.2
    have hwidth := headerWidth_le_allocSize size
    rw [headerWidth] at hwidth
    show h.used + _ ≤ _
    omega

/-- What is live is no more than what is in use. -/
theorem Holds.total_le (valid : h.Holds roots) {refs : List Ref}
    (live : Lists refs (h.memory.Leads (· ∈ roots))) : h.memory.total refs ≤ h.used :=
  Scattered.total_le valid live.nodup fun r => (live.mem_iff r).mp

theorem grown_collected (bounded : s.heap.Bounded) (valid : s.heap.Holds s.roots) (request : Nat) :
    s.heap.Grown (s.collected request).heap := by
  obtain ⟨φ, order, collected⟩ := RootedM.collected_spec valid bounded.used_le_limit request
  have hle := valid.total_le collected.compaction.breadthFirst.lists
  obtain ⟨hlive, hmax, -⟩ := bounded.grownCapacity hle request
  refine ⟨⟨?_, ?_, bounded.max_le⟩, ?_, rfl⟩
  · rw [collected.used_eq, collected.capacity_eq]
    exact hlive
  · rw [collected.capacity_eq]
    exact hmax
  · rw [collected.capacity_eq, grownCapacity]
    exact Nat.le_min.mpr ⟨Nat.le_max_left _ _, bounded.capacity_le⟩

theorem grown_collect (bounded : s.heap.Bounded) (valid : s.heap.Holds s.roots) (request : Nat) :
    Ends (RootedM.collect request) s (fun _ s' => s.heap.Grown s'.heap) fun _ s' =>
      s.heap.Grown s'.heap := by
  have grown := grown_collected bounded valid request
  unfold Ends
  rw [RootedM.collect_eq]
  by_cases full : s.heap.grownCapacity s.compact.heap.used request < s.compact.heap.used + request
  · rw [if_pos full]
    exact grown
  · rw [if_neg full]
    exact grown

theorem grown_reserve (bounded : s.heap.Bounded) (valid : s.heap.Holds s.roots) (bytes : Nat) :
    Ends (RootedM.reserve bytes) s (fun _ s' => s.heap.Grown s'.heap) fun _ s' =>
      s.heap.Grown s'.heap := by
  by_cases enough : bytes ≤ s.heap.free
  · unfold Ends RootedM.reserve
    rw [if_pos enough]
    exact .refl bounded
  · exact .of_eq (if_neg enough) (grown_collect bounded valid bytes)

theorem grown_alloc (bounded : s.heap.Bounded) (valid : s.heap.Holds s.roots) (kind : Kind)
    (size : Nat) :
    Ends (RootedM.alloc kind size) s (fun _ s' => s.heap.Grown s'.heap) fun _ s' =>
      s.heap.Grown s'.heap := by
  refine .bind <| (grown_reserve bounded valid _).mono (fun _ s₁ grown => ?_) fun _ _ h => h
  have allocated := grown_tryAlloc grown.bounded kind size
  unfold Ends RootedM.onHeap
  cases run : HeapM.tryAlloc kind size s₁.heap with
  | ok r h' => exact grown.trans (allocated.of_ok run)
  | error e h' => exact grown.trans (allocated.of_error run)

theorem grown_copy (bounded : h.Bounded) {source : Heap} {v : Value}
    (valid : ∀ r, source.memory.Leads (· = v) r → ∃ s, source.memory.IsObject s r) :
    Ends (HeapM.copy source v) h (fun _ => h.Grown) fun _ => h.Grown := by
  obtain ⟨refs, -, lists⟩ := measure_spec valid
  refine (HeapM.ends_copy valid lists bounded.used_le
    (Nat.le_trans bounded.capacity_le bounded.max_le)).mono ?_ ?_
  · rintro w h' ⟨φ, order, copied⟩
    exact .of_memory bounded copied.same copied.used_le
  · rintro e h' cramped
    exact .of_memory bounded cramped.same cramped.used_le

/-- Whatever is done to a heap, it stays within its bounds. -/
theorem grown_step (bounded : h.Bounded) (step : h.Step h') : h.Grown h' := by
  cases step with
  | tryAlloc kind size => exact (grown_tryAlloc bounded kind size).leaves
  | alloc kind size valid => exact (grown_alloc (s := ⟨h, _⟩) bounded valid kind size).leaves
  | reserve bytes valid => exact (grown_reserve (s := ⟨h, _⟩) bounded valid bytes).leaves
  | collect request valid => exact (grown_collect (s := ⟨h, _⟩) bounded valid request).leaves
  | copy valid => exact (grown_copy bounded valid).leaves
  | write size => exact .of_memory bounded rfl (Nat.le_trans (Nat.le_of_eq size) bounded.used_le)

theorem Made.bounded (made : h.Made) : h.Bounded := by
  induction made with
  | create initial max => exact .create initial max
  | step _ step ih => exact (grown_step ih step).bounded

end Heap

/-! ## What is granted -/

/-- What becomes of a heap and its roots before `bytes` more bytes are used, where the roots lead to
`live` bytes: nothing, if so many are free; otherwise it is collected, and may hold twice what is
live and asked for. -/
inductive MakesRoom (bytes live : Nat) (s : Rooted) : Rooted → Prop
  | free (enough : bytes ≤ s.heap.free) : MakesRoom bytes live s s
  | collected {φ : Ref → Ref} {order : List Ref} {s' : Rooted} (short : s.heap.free < bytes)
    (collected : Collected φ order bytes s s')
    (capacity : s'.heap.capacity = min s.heap.maxCapacity
      (max s.heap.capacity (2 * (live + bytes)))) :
    MakesRoom bytes live s s'

/-- An object has been added at the end of a heap, with nothing but zeros in its payload, and
nothing else has changed. -/
structure Allocated (shape : Shape) (size : Nat) (s : Rooted) (r : Ref) (s' : Rooted) : Prop where
  same : s' = { s with heap := { s.heap with memory := s'.heap.memory } }
  extends_ : Extends s.heap.memory s'.heap.memory
  start : r.start = s.heap.used
  isObject : s'.heap.memory.IsObject shape r
  sizeAt : s'.heap.memory.sizeAt r = size
  zero : ∀ k, k < size → s'.heap.memory.byte (Heap.payloadOffset r + k) = 0
  slots : ∀ i, s'.heap.memory.slotAt r i = .nil
  apart : ∀ shape' t, s.heap.memory.IsObject shape' t →
    s'.heap.memory.IsObject shape' t ∧ s'.heap.memory.Apart t r

/-- Reserving `bytes` where the roots lead to `live` bytes: it is granted if both fit under the
bound. -/
structure Reserves (bytes live : Nat) (s : Rooted) : Prop where
  granted_iff : (∃ s', RootedM.reserve bytes s = .ok () s') ↔ live + bytes ≤ s.heap.maxCapacity
  spec : ∃ s', MakesRoom bytes live s s' ∧ (RootedM.reserve bytes s = .ok () s' ∨
    RootedM.reserve bytes s = .error (.outOfMemory bytes s.heap.maxCapacity) s')

/-- Allocating an object where the roots lead to `live` bytes: it is granted if both fit under the
bound. -/
structure Allocates (shape : Shape) (size live : Nat) (s : Rooted) : Prop where
  granted_iff : (∃ r s', RootedM.alloc (.object shape) size s = .ok r s') ↔
    live + allocSize size ≤ s.heap.maxCapacity
  spec : ∃ s₁, MakesRoom (allocSize size) live s s₁ ∧
    ((∃ r s', RootedM.alloc (.object shape) size s = .ok r s' ∧ Allocated shape size s₁ r s') ∨
      RootedM.alloc (.object shape) size s =
      .error (.outOfMemory (allocSize size) s.heap.maxCapacity) s₁)

namespace RootedM

variable {s : Rooted} {refs : List Ref} {bytes : Nat}

/-- Reserving is granted exactly where what is live leaves the room. -/
theorem reserve_spec (bounded : s.heap.Bounded) (valid : s.heap.Holds s.roots)
    (live : Lists refs (s.heap.memory.Leads (· ∈ s.roots))) (bytes : Nat) :
    ∃ s', MakesRoom bytes (s.heap.memory.total refs) s s' ∧ reserve bytes s =
      if s.heap.memory.total refs + bytes ≤ s.heap.maxCapacity then .ok () s'
      else .error (.outOfMemory bytes s.heap.maxCapacity) s' := by
  have hle := valid.total_le live
  have hused := bounded.used_le
  have hcapacity := bounded.capacity_le
  have hfree : s.heap.free = s.heap.capacity - s.heap.used := rfl
  by_cases enough : bytes ≤ s.heap.free
  · refine ⟨s, .free enough, ?_⟩
    rw [reserve, if_pos enough, if_pos (by omega)]
  · obtain ⟨φ, order, collected⟩ := collected_spec valid bounded.used_le_limit bytes
    have horder := collected.compaction.breadthFirst.lists.total_eq live s.heap.memory
    refine ⟨s.collected bytes, .collected (Nat.lt_of_not_le enough) collected ?_, ?_⟩
    · rw [collected.capacity_eq, horder, Heap.grownCapacity, Nat.min_comm, Nat.mul_comm]
    · have hlive : s.compact.heap.used = s.heap.memory.total refs := collected.used_eq.trans horder
      obtain ⟨-, -, hiff⟩ := bounded.grownCapacity hle bytes
      rw [reserve, if_neg enough, collect_eq, hlive]
      by_cases fits : s.heap.memory.total refs + bytes ≤ s.heap.maxCapacity
      · rw [if_pos fits, if_neg fun full => absurd (hiff.mp full) (Nat.not_lt.mpr fits)]
      · rw [if_neg fits, if_pos (hiff.mpr (Nat.lt_of_not_le fits))]

/-- Where there is room, an object is added. -/
theorem allocated_of_room (bounded : s.heap.Bounded) (shape : Shape) {size : Nat}
    (room : allocSize size ≤ s.heap.free) :
    ∃ r s', onHeap (HeapM.tryAlloc (.object shape) size) s = .ok r s' ∧
      Allocated shape size s r s' := by
  have hsize := le_allocSize size
  have hcapacity := Nat.le_trans bounded.capacity_le bounded.max_le
  have hfree : s.heap.free = s.heap.capacity - s.heap.used := rfl
  have small : size < 2 ^ 32 := by
    have hlimit : Heap.sizeLimit < 2 ^ 32 := by decide
    omega
  have hstart : (Ref.ofNat s.heap.used).start = s.heap.memory.size :=
    Ref.start_ofNat bounded.used_le_limit
  have run : onHeap (HeapM.tryAlloc (.object shape) size) s = .ok (.ofNat s.heap.used)
      { s with
        heap := { s.heap with memory := s.heap.memory.allocated (.object shape) size } } := by
    unfold onHeap
    rw [HeapM.tryAlloc_eq (Nat.le_sub_one_of_lt small) room]
  have zero := byte_allocated hstart (.object shape) size
  have ext := extends_allocated s.heap.memory (.object shape) size
  refine ⟨_, _, run, rfl, ext, hstart, isObject_allocated hstart small,
    sizeAt_allocated hstart small,
    fun k _ => zero k, slotAt_eq_nil fun k => ?_, fun shape' t obj => ⟨?_, .inl ?_⟩⟩
  · rw [Nat.add_assoc]
    exact zero (8 + k)
  · exact (ext.sameObject obj).isObject obj
  · rw [(ext.sameObject obj).endAt, hstart]
    exact obj.inside

theorem reserves (bounded : s.heap.Bounded) (valid : s.heap.Holds s.roots)
    (live : Lists refs (s.heap.memory.Leads (· ∈ s.roots))) (bytes : Nat) :
    Reserves bytes (s.heap.memory.total refs) s := by
  obtain ⟨s', makes, run⟩ := reserve_spec bounded valid live bytes
  by_cases fits : s.heap.memory.total refs + bytes ≤ s.heap.maxCapacity
  · rw [if_pos fits] at run
    exact ⟨⟨fun _ => fits, fun _ => ⟨s', run⟩⟩, s', makes, .inl run⟩
  · rw [if_neg fits] at run
    refine ⟨⟨fun ⟨_, granted⟩ => ?_, fun h => absurd h fits⟩, s', makes, .inr run⟩
    rw [run] at granted
    cases granted

theorem allocates (bounded : s.heap.Bounded) (valid : s.heap.Holds s.roots)
    (live : Lists refs (s.heap.memory.Leads (· ∈ s.roots))) (shape : Shape) (size : Nat) :
    Allocates shape size (s.heap.memory.total refs) s := by
  obtain ⟨s₁, makes, run⟩ := reserve_spec bounded valid live (allocSize size)
  by_cases fits : s.heap.memory.total refs + allocSize size ≤ s.heap.maxCapacity
  · rw [if_pos fits] at run
    obtain ⟨bounded', room⟩ := room_of_reserve bounded run
    obtain ⟨r, s', halloc, allocated⟩ := allocated_of_room bounded' shape room
    have granted : alloc (.object shape) size s = .ok r s' := (bind_of_ok run).trans halloc
    exact ⟨⟨fun _ => fits, fun _ => ⟨r, s', granted⟩⟩, s₁, makes, .inl ⟨r, s', granted, allocated⟩⟩
  · rw [if_neg fits] at run
    have refused : alloc (.object shape) size s = .error _ s₁ := bind_of_error run
    refine ⟨⟨fun ⟨_, _, granted⟩ => ?_, fun h => absurd h fits⟩, s₁, makes, .inr refused⟩
    rw [refused] at granted
    cases granted

end RootedM

/-- A heap that has come about in any way. It is within its bounds, and whatever is done to it, it
stays so, may hold no less, and keeps the greatest bound. Where roots lead to objects without a
common byte, it is what these take up that decides whether an object of any shape and size is
allocated and whether room is reserved. The heap is collected exactly if less is free than is asked
for; then, and also if memory has run out, all that the roots lead to is kept. -/
theorem Heap.sizing {h : Heap} (made : h.Made) :
    (h.used ≤ h.capacity ∧ h.capacity ≤ h.maxCapacity ∧ h.maxCapacity ≤ 2 ^ 32 - 1) ∧
    (∀ h', h.Step h' → h.capacity ≤ h'.capacity ∧ h'.maxCapacity = h.maxCapacity) ∧
    ∀ roots, h.Holds roots → ∃ refs, Lists refs (h.memory.Leads (· ∈ roots)) ∧
      (∀ bytes, Reserves bytes (h.memory.total refs) ⟨h, roots⟩) ∧
      ∀ shape size, Allocates shape size (h.memory.total refs) ⟨h, roots⟩ := by
  have bounded := made.bounded
  refine ⟨⟨bounded.used_le, bounded.capacity_le, bounded.max_le⟩, fun h' step => ?_,
    fun roots valid => ?_⟩
  · have grown := grown_step bounded step
    exact ⟨grown.capacity_le, grown.maxCapacity_eq⟩
  · obtain ⟨φ, refs, collected⟩ :=
      RootedM.collected_spec (s := ⟨h, roots⟩) valid bounded.used_le_limit 0
    have live := collected.compaction.breadthFirst.lists
    exact ⟨refs, live, RootedM.reserves (s := ⟨h, roots⟩) bounded valid live,
      RootedM.allocates (s := ⟨h, roots⟩) bounded valid live⟩

namespace Heap

/-- The heap with the tuple that holds itself comes about by two allocations and what is written
then. -/
theorem made_knot : knot.Made := by
  have first : (create 64 80).Step
      { create 64 80 with memory := Memory.allocated ByteArray.empty (.object .tuple) 8 } :=
    .tryAlloc (.object .tuple) 8
  have second : Step
      { create 64 80 with memory := Memory.allocated ByteArray.empty (.object .tuple) 8 }
      { create 64 80 with memory :=
        (Memory.allocated ByteArray.empty (.object .tuple) 8).allocated (.object .tuple) 24 } :=
    .tryAlloc (.object .tuple) 24
  exact .step (.step (.step (.create 64 80) first) second)
    (.write ((size_storeValue _ _ _).trans (size_store _ _ _ _)))

/-- The bound is eighty bytes, and forty are live: twenty-four bytes and their header fit besides,
although no byte is free, and one byte more does not. -/
theorem sizing_knot :
    (∃ r s', RootedM.alloc (.object .string) 24 ⟨knot, #[.object .tuple (.ofNat 24)]⟩ = .ok r s') ∧
    ¬∃ r s', RootedM.alloc (.object .string) 25 ⟨knot, #[.object .tuple (.ofNat 24)]⟩ =
    .ok r s' := by
  have first : .object .tuple (.ofNat 24) ∈ #[Value.object .tuple (.ofNat 24)] := by simp
  have only : ∀ s r, .object s r ∈ #[Value.object .tuple (.ofNat 24)] → r = .ofNat 24 := by simp
  obtain ⟨-, -, granted⟩ := sizing made_knot
  obtain ⟨refs, live, -, allocates⟩ := granted _ (scattered_knot first only)
  have htotal : knot.memory.total refs = 40 := by
    rw [live.total_eq (lists_knot first only)]
    decide +kernel
  rw [htotal] at allocates
  rw [(allocates .string 24).granted_iff, (allocates .string 25).granted_iff]
  decide

end Heap

end ActorMachine
