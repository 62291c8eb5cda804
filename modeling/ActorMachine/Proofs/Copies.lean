import ActorMachine.Proofs.Collections
import ActorMachine.Proofs.Copying

/-!
# What a deep copy adds

`HeapM.copy_exact`: the measure of a value is the room that the objects take up that it leads to, a
deep copy succeeds if and only if this much is free, and then it adds exact copies of these objects
and nothing else. It never collects, and what has been in the receiving heap stays, even if it runs
out of memory on the way. The heap that it copies from is only read. So a copy never fails for which
room has been reserved.
-/

namespace ActorMachine

open Memory

namespace DeepCopy

variable {φ : Ref → Ref} {order : List Ref} {m : Memory} {v w : Value} {target target' : Heap}

theorem leads (h : DeepCopy φ order m v target w target') {r : Ref} (hr : r ∈ order) :
    m.Leads (· = v) r :=
  (h.lists.mem_iff r).mp hr

/-- The value at the new place is what the copied value has become. -/
theorem eq_iff (h : DeepCopy φ order m v target w target') (x : Value) :
    x = w ↔ ∃ u, u = v ∧ u.relocate φ = x := by
  rw [h.value_eq]
  exact ⟨fun hx => ⟨v, rfl, hx.symm⟩, fun ⟨_, hu, hx⟩ =>
    hx.symm.trans (congrArg (Value.relocate φ) hu)⟩

/-- The value at the new place leads to the copies, and to nothing else. -/
theorem leads_iff (h : DeepCopy φ order m v target w target')
    (objects : ∀ r, m.Leads (· = v) r → ∃ s, m.IsObject s r) {t : Ref} :
    target'.memory.Leads (· = w) t ↔ ∃ r, m.Leads (· = v) r ∧ φ r = t :=
  h.replica.leads_iff h.lists.mem_iff (fun r hr => objects r (h.leads hr)) h.eq_iff

/-- A reference in a copy leads to the copy of what the object refers to in the same slot. -/
theorem slot_of_copy (h : DeepCopy φ order m v target w target')
    (objects : ∀ r, m.Leads (· = v) r → ∃ s, m.IsObject s r) {r t : Ref} (hr : r ∈ order) {i : Nat}
    {s : Shape} (hi : i < target'.memory.slotsIn (φ r))
    (hslot : target'.memory.slotAt (φ r) i = .object s t) :
    ∃ r' ∈ order, m.slotAt r i = .object s r' ∧ φ r' = t := by
  obtain ⟨_, obj⟩ := objects r (h.leads hr)
  rw [(h.replica.copies r hr).slotsIn_eq obj] at hi
  rw [(h.replica.copies r hr).slots i hi] at hslot
  obtain ⟨r', heq, ht⟩ := Value.relocate_eq_object hslot
  exact ⟨r', (h.lists.mem_iff r').mpr (.slot (h.leads hr) hi heq), heq, ht⟩

end DeepCopy

/-- What has been made room for is within the bounds of the heap. -/
theorem RootedM.room_of_reserve {s s' : Rooted} {bytes : Nat} (bounded : s.heap.Bounded)
    (run : reserve bytes s = .ok () s') : s'.heap.Bounded ∧ bytes ≤ s'.heap.free := by
  unfold reserve at run
  split at run
  next enough =>
    cases run
    exact ⟨bounded, enough⟩
  next =>
    rw [collect_eq] at run
    split at run
    · cases run
    next room =>
      cases run
      have hcapacity : (s.collected bytes).heap.capacity =
        s.heap.grownCapacity s.compact.heap.used bytes := rfl
      have hused : (s.collected bytes).heap.used = s.compact.heap.used := rfl
      refine ⟨⟨?_, ?_, bounded.max_le⟩, ?_⟩
      · omega
      · exact Nat.min_le_right _ _
      · rw [Heap.free, hcapacity, hused]
        omega

namespace HeapM

/-- A deep copy of a value that leads to objects only, into any heap. There is a measure, and it
decides: if so much is free, exact copies of the objects are added, to which the value at its new
place leads and which refer to one another only; if not, the copy runs out of memory. Apart from its
memory the receiving heap is as it was, and the memory begins with what it held. Where room has been
reserved first, the copy succeeds. -/
theorem copy_exact {source target : Heap} {v : Value}
    (objects : ∀ r, source.memory.Leads (· = v) r → ∃ s, source.memory.IsObject s r)
    (bounded : target.Bounded) :
    ∃ refs, Lists refs (source.memory.Leads (· = v)) ∧
      source.measure v = .ok (source.memory.total refs) ∧
      (source.memory.total refs ≤ target.free →
        ∃ (w : Value) (target' : Heap) (φ : Ref → Ref) (order : List Ref),
        copy source v target = .ok w target' ∧ DeepCopy φ order source.memory v target w target' ∧
        target'.used = target.used + source.memory.total refs ∧
        (∀ r ∈ order, ∀ t ∈ order, φ r = φ t → r = t) ∧
        (∀ t, target'.memory.Leads (· = w) t ↔ ∃ r ∈ order, φ r = t) ∧
        (∀ r ∈ order, target.used ≤ (φ r).start ∧ ∀ i s t, i < target'.memory.slotsIn (φ r) →
          target'.memory.slotAt (φ r) i = .object s t →
            ∃ r' ∈ order, source.memory.slotAt r i = .object s r' ∧ φ r' = t)) ∧
      (target.free < source.memory.total refs → ∃ requested target',
        copy source v target = .error (.outOfMemory requested target.maxCapacity) target' ∧
        target' = { target with memory := target'.memory } ∧ Extends target.memory target'.memory) ∧
      ∀ roots s', RootedM.reserve (source.memory.total refs) ⟨target, roots⟩ = .ok () s' →
        ∃ w target', copy source v s'.heap = .ok w target' := by
  obtain ⟨refs, hmeasure, lists⟩ := Heap.measure_spec objects
  -- What is said of the copying is said for every receiving heap, since reserving makes another
  -- one.
  have ends : ∀ {target : Heap}, target.Bounded → Ends (copy source v) target
      (fun w target' => ∃ φ order, DeepCopy φ order source.memory v target w target')
      (CrampedCopy source.memory refs target) := fun bounded =>
    ends_copy objects lists bounded.used_le (Nat.le_trans bounded.capacity_le bounded.max_le)
  have succeeds : ∀ {target : Heap}, target.Bounded → source.memory.total refs ≤ target.free →
      ∃ w target', copy source v target = .ok w target' := by
    intro target bounded room
    cases run : copy source v target with
    | ok w target' => exact ⟨w, target', rfl⟩
    | error e target' =>
      have full := ((ends bounded).of_error run).room
      have hused := bounded.used_le
      rw [Heap.free] at room
      omega
  refine ⟨refs, lists, hmeasure, fun room => ?_, fun full => ?_, fun roots s' run => ?_⟩
  · obtain ⟨w, target', run⟩ := succeeds bounded room
    obtain ⟨φ, order, copied⟩ := (ends bounded).of_ok run
    have hobjects : ∀ r ∈ order, ∃ s, source.memory.IsObject s r :=
      fun r hr => objects r (copied.leads hr)
    refine ⟨w, target', φ, order, run, copied, ?_, fun r hr t ht =>
      copied.replica.injective hobjects hr ht,
      fun t => ?_, fun r hr => ⟨copied.replica.base_le hr, fun i s t hi hslot =>
        copied.slot_of_copy objects hr hi hslot⟩⟩
    · rw [← copied.lists.total_eq lists]
      exact copied.replica.size
    · simp only [copied.leads_iff objects, copied.lists.mem_iff]
  · cases run : copy source v target with
    | ok w target' =>
      obtain ⟨φ, order, copied⟩ := (ends bounded).of_ok run
      have hused : target'.used = target.used + source.memory.total order := copied.replica.size
      have hle := copied.used_le
      rw [copied.lists.total_eq lists] at hused
      rw [Heap.free] at full
      omega
    | error e target' =>
      have cramped := (ends bounded).of_error run
      obtain ⟨requested, rfl⟩ := cramped.error
      exact ⟨requested, target', rfl, cramped.same, cramped.extends_⟩
  · obtain ⟨bounded', room⟩ := RootedM.room_of_reserve bounded run
    exact succeeds bounded' room

/-- Of the tuple that holds itself there is room for a copy in a heap of forty bytes, but not in one
of thirty-nine. -/
theorem copy_exact_knot :
    (∃ w target', copy .knot (.object .tuple (.ofNat 24)) (.create 40 40) = .ok w target' ∧
      target'.used = 40) ∧
    ∃ requested target', copy .knot (.object .tuple (.ofNat 24)) (.create 39 39) =
      .error (.outOfMemory requested 39) target' := by
  have only : ∀ s r, Value.object s r = .object .tuple (.ofNat 24) → r = .ofNat 24 := by simp
  have lists : Lists [.ofNat 24] (Heap.knot.memory.Leads (· = .object .tuple (.ofNat 24))) :=
    Heap.lists_knot rfl only
  have scattered : Scattered (Heap.knot.memory.Leads (· = .object .tuple (.ofNat 24)))
      Heap.knot.memory :=
    Heap.scattered_knot rfl only
  have objects : ∀ r, Heap.knot.memory.Leads (· = .object .tuple (.ofNat 24)) r →
      ∃ s, Heap.knot.memory.IsObject s r := fun r hr => scattered.isObject hr
  have htotal : ∀ refs, Lists refs (Heap.knot.memory.Leads (· = .object .tuple (.ofNat 24))) →
      Heap.knot.memory.total refs = 40 := fun refs hrefs => by
    rw [hrefs.total_eq lists]
    decide +kernel
  constructor
  · obtain ⟨refs, hrefs, -, fits, -⟩ := copy_exact objects (Heap.Bounded.create 40 40)
    obtain ⟨w, target', _, _, run, -, hused, -⟩ := fits (by rw [htotal refs hrefs]; decide)
    exact ⟨w, target', run, hused.trans (by rw [htotal refs hrefs]; rfl)⟩
  · obtain ⟨refs, hrefs, -, -, full, -⟩ := copy_exact objects (Heap.Bounded.create 39 39)
    obtain ⟨requested, target', run, -⟩ := full (by rw [htotal refs hrefs]; decide)
    exact ⟨requested, target', run⟩

end HeapM

end ActorMachine
