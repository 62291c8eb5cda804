import ActorMachine.Proofs.Writing

/-!
# Tuples and arrays in the heap

What the operations of the heap on tuples and arrays answer, and what they make of the contents of
the objects. An array whose store is full gets another one without a change of what it holds
(`Named.rehouse`), and then has room for one more element (`Named.arrayPush`).
-/

namespace ActorMachine

open Memory

namespace Heap

variable {h : Heap} {r u : Ref}

theorem arrayStoreAt_eq (obj : h.memory.IsObject .array r) (index : Int) :
    h.arrayStoreAt r index =
      if index < 0 ∨ (h.memory.lengthAt r : Int) ≤ index then
        .error (.indexOutOfBounds index (h.memory.lengthAt r))
      else match (h.memory.slotAt r 0).ref? with
        | some u => .ok u
        | none => .error (.invalidRef r) := by
  unfold arrayStoreAt
  rw [arrayLength_eq obj, arrayStore_eq obj]
  generalize h.memory.lengthAt r = n
  generalize (h.memory.slotAt r 0).ref? = store
  by_cases hindex : index < 0 ∨ (n : Int) ≤ index
  · simp only [bind, Except.bind, if_pos hindex]
    rfl
  · simp only [bind, Except.bind, if_neg hindex]
    cases store <;> rfl

theorem arrayCapacity_eq (obj : h.memory.IsObject .array r) (store : h.memory.IsObject .tuple u)
    (slot : h.memory.slotAt r 0 = .object .tuple u) :
    h.arrayCapacity r = .ok (h.memory.lengthAt u) := by
  unfold arrayCapacity
  rw [arrayStore_eq obj, slot]
  exact tupleLength_eq store

end Heap

/-- What appending an element to an array writes. -/
theorem HeapM.arrayPush_eq {h : Heap} {r u : Ref} {v : Value} {n : Nat} {m : Memory}
    (obj : h.memory.IsObject .array r) (store : h.memory.IsObject .tuple u)
    (slot : h.memory.slotAt r 0 = .object .tuple u) (length : h.memory.lengthAt r = n)
    (room : n < h.memory.lengthAt u) (small : n < 2 ^ 63)
    (first : h.memory.store (Heap.payloadOffset r) 8 (n + 1) = m) (obj₁ : m.IsObject .array r)
    (store₁ : m.IsObject .tuple u) (slot₁ : m.slotAt r 0 = .object .tuple u)
    (length₁ : m.lengthAt r = n + 1) (room₁ : n < m.lengthAt u) :
    arrayPush r v h = .ok () { h with memory := m.storeValue (slotOffset u.start n) v } := by
  have hindex : indexOfLength n = n := indexOfLength_eq small
  have hread : h.arrayLength r = .ok n := by rw [Heap.arrayLength_eq obj, length]
  have hset : setArrayLength r (n + 1) h = .ok () { h with memory := m } := by
    rw [setArrayLength_eq obj, first]
  have hstore : Heap.arrayStoreAt { h with memory := m } r n = .ok u := by
    rw [Heap.arrayStoreAt_eq (h := { h with memory := m }) obj₁, length₁, if_neg (by omega), slot₁]
    rfl
  have helement := @tupleSet_eq { h with memory := m } u n store₁ v
  rw [if_pos ⟨Int.natCast_nonneg n, Int.ofNat_lt.mpr room₁⟩] at helement
  unfold arrayPush
  rw [bind_of_ok (read_ok hread), bind_of_ok (read_ok (Heap.arrayCapacity_eq obj store slot)),
    if_neg (Nat.not_le_of_lt room)]
  show (setArrayLength r (n + 1) >>= fun _ => arraySet r (indexOfLength n) v) h = _
  unfold arraySet
  rw [bind_of_ok hset, hindex, bind_of_ok (read_ok hstore), helement]
  rfl

namespace Named

variable {ν : Naming} {M : Contents} {σ : Matching} {h : Heap} {i : Nat} {r u : Ref}
    {xs : List Item} {x : Item} {v : Value}

/-- What is known of a tuple. -/
theorem tuple (named : Named ν M σ h.memory) (hi : ν .tuple i r) (hc : M[i]? = some (.tuple xs)) :
    h.memory.lengthAt r = xs.length ∧ h.memory.Row ν r xs := by
  obtain ⟨-, hlies⟩ := named.lies hi hc
  refine ⟨hlies.count nofun, fun k x hk => ?_⟩
  obtain ⟨u, hu, hx⟩ := hlies.items k x hk
  cases hu with
  | tuple => exact hx
  | store hs _ => rcases hs with h | h <;> cases h

theorem tupleLength (named : Named ν M σ h.memory) (hi : ν .tuple i r)
    (hc : M[i]? = some (.tuple xs)) :
    h.tupleLength r = .ok xs.length := by
  rw [Heap.tupleLength_eq (named.isObject hi), (named.tuple hi hc).1]

theorem tupleGet (named : Named ν M σ h.memory) (hi : ν .tuple i r) (hc : M[i]? = some (.tuple xs))
    (index : Int) : ∃ v, h.tupleGet r index =
        (if Item.Within xs index then .ok v else .error (.indexOutOfBounds index xs.length)) ∧
      (Item.Within xs index → (xs.getD index.toNat .nil).At ν v) := by
  obtain ⟨hlength, row⟩ := named.tuple hi hc
  refine ⟨h.memory.slotAt r index.toNat, ?_, fun hindex => row.get ?_⟩
  · rw [Heap.tupleGet_eq (named.isObject hi), hlength]
    rfl
  · have := hindex.1
    have := hindex.2
    omega

/-- An element of a tuple is replaced. -/
theorem storeElement (named : Named ν M σ h.memory) (hi : ν .tuple i r)
    (hc : M[i]? = some (.tuple xs)) (hx : x.At ν v) {k : Nat} (hk : k < xs.length) :
    Named ν (M.set i (.tuple (xs.set k x))) σ (h.memory.storeValue (slotOffset r.start k) v) := by
  obtain ⟨hlength, row⟩ := named.tuple hi hc
  have hr := named.within hi
  have hk' : k < h.memory.slotsAt r .tuple := show k < h.memory.lengthAt r by omega
  have hslots := slotAt_storeSlot (slot_inside (named.typed hi) hk') v (named.isObject hi)
  refine named.update hi ((Written.element named.iso hr hk' (hx.still named.within)).mono
    fun _ => .inl) rfl
    ⟨fun _ h => (nomatch h), fun _ => ?_, fun j y hj => ⟨r, .tuple, row.set hx hslots j y hj⟩⟩ ?_
  · rw [lengthAt_storeSlot, hlength]
    exact (List.length_set).symm
  · rintro u (h | h) <;> cases h

theorem tupleSet (named : Named ν M σ h.memory) (hi : ν .tuple i r) (hc : M[i]? = some (.tuple xs))
    (hx : x.At ν v) (index : Int) : ∃ m₁, HeapM.tupleSet r index v h =
        (if Item.Within xs index then .ok () { h with memory := m₁ }
          else .error (.indexOutOfBounds index xs.length) h) ∧
      (Item.Within xs index → m₁.size = h.memory.size ∧
        Named ν (M.set i (.tuple (xs.set index.toNat x))) σ m₁) := by
  obtain ⟨hlength, -⟩ := named.tuple hi hc
  refine ⟨h.memory.storeValue (slotOffset r.start index.toNat) v, ?_, fun hindex =>
    ⟨size_storeValue _ _ _, named.storeElement hi hc hx ?_⟩⟩
  · rw [HeapM.tupleSet_eq (named.isObject hi), hlength]
    rfl
  · have := hindex.1
    have := hindex.2
    omega

/-! ## Arrays -/

theorem arrayLength (named : Named ν M σ h.memory) (hi : ν .array i r)
    (hc : M[i]? = some (.array xs)) :
    h.arrayLength r = .ok xs.length := by
  rw [Heap.arrayLength_eq (named.isObject hi), (named.lies hi hc).2.count nofun]
  rfl

/-- What is known of an array. -/
theorem array (named : Named ν M σ h.memory) (hi : ν .array i r) (hc : M[i]? = some (.array xs)) :
    (h.memory.slotAt r 0 = .nil ∧ xs = []) ∨
      ∃ u, h.memory.slotAt r 0 = .object .tuple u ∧ σ .tuple u u ∧ xs.length ≤ h.memory.lengthAt u ∧
        h.memory.Private ν r u ∧ h.memory.Row ν u xs :=
  named.stored (c := .array xs) hi (named.lies hi hc).2 (.inl rfl)

/-- The store of an array has an element if the array has it. -/
theorem arrayStoreAt (named : Named ν M σ h.memory) (hi : ν .array i r)
    (hc : M[i]? = some (.array xs)) (index : Int) : h.arrayStoreAt r index =
      if Item.Within xs index then
        match (h.memory.slotAt r 0).ref? with
        | some u => .ok u
        | none => .error (.invalidRef r)
      else .error (.indexOutOfBounds index xs.length) := by
  have hlength : h.memory.lengthAt r = xs.length := (named.lies hi hc).2.count nofun
  rw [Heap.arrayStoreAt_eq (named.isObject hi), hlength]
  by_cases hindex : Item.Within xs index
  · have := hindex.1
    have := hindex.2
    rw [if_pos hindex, if_neg (by omega)]
  · rw [if_neg hindex, if_pos (by unfold Item.Within at hindex; omega)]

theorem arrayGet (named : Named ν M σ h.memory) (hi : ν .array i r) (hc : M[i]? = some (.array xs))
    (index : Int) : ∃ v, h.arrayGet r index =
        (if Item.Within xs index then .ok v else .error (.indexOutOfBounds index xs.length)) ∧
      (Item.Within xs index → (xs.getD index.toNat .nil).At ν v) := by
  unfold Heap.arrayGet
  rw [named.arrayStoreAt hi hc]
  by_cases hindex : Item.Within xs index
  · obtain ⟨-, rfl⟩ | ⟨u, slot, hu, room, -, row⟩ := named.array hi hc
    · exact absurd hindex.2 (by have := hindex.1; simpa using this)
    · have := hindex.1
      have := hindex.2
      refine ⟨h.memory.slotAt u index.toNat, ?_, fun _ => row.get (by omega)⟩
      rw [if_pos hindex, if_pos hindex, slot]
      show h.tupleGet u index = _
      rw [Heap.tupleGet_eq (named.iso.left.isObject ⟨_, hu⟩), if_pos (by omega)]
  · exact ⟨.nil, by rw [if_neg hindex, if_neg hindex]; rfl, fun h => absurd h hindex⟩

theorem arraySet (named : Named ν M σ h.memory) (hi : ν .array i r) (hc : M[i]? = some (.array xs))
    (hx : x.At ν v) (index : Int) : ∃ m₁, HeapM.arraySet r index v h =
        (if Item.Within xs index then .ok () { h with memory := m₁ }
          else .error (.indexOutOfBounds index xs.length) h) ∧
      (Item.Within xs index → m₁.size = h.memory.size ∧
        Named ν (M.set i (.array (xs.set index.toNat x))) σ m₁) := by
  have hstore := named.arrayStoreAt hi hc index
  unfold HeapM.arraySet
  by_cases hindex : Item.Within xs index
  · obtain ⟨-, rfl⟩ | ⟨u, slot, hu, room, own, row⟩ := named.array hi hc
    · exact absurd hindex.2 (by have := hindex.1; simpa using this)
    · have := hindex.1
      have := hindex.2
      have hr := named.within hi
      have hlt : index.toNat < h.memory.lengthAt u := by omega
      have hne : ¬r = u := fun heq => own.unnamed _ _ (heq ▸ hi)
      obtain ⟨m₁, run, written, -, hslots⟩ :=
        HeapM.tupleSet_written named.iso hu hlt (hx.still named.within)
      rw [Int.toNat_of_nonneg hindex.1] at run
      rw [if_pos hindex, slot] at hstore
      refine ⟨m₁, ?_, fun _ =>
        ⟨written.size, named.restore (c := .array (xs.set index.toNat x)) hi (.inl rfl) own
          (written.mono fun _ => .inr) ?_ ?_ (row.set hx hslots)⟩⟩
      · rw [if_pos hindex, bind_of_ok (HeapM.read_ok hstore), run]
      · exact (written.slotAt named.iso hr hne (k := 0) Nat.one_pos).trans slot
      · rw [written.lengthAt named.iso hr hne, (named.lies hi hc).2.count nofun]
        exact List.length_set.symm
  · rw [if_neg hindex] at hstore
    exact ⟨h.memory, by rw [if_neg hindex,
      bind_of_error (HeapM.read_error hstore)], fun h => absurd h hindex⟩

/-- An element is appended to an array whose store has room for it. -/
theorem arrayPush (named : Named ν M σ h.memory) (hi : ν .array i r) (hc : M[i]? = some (.array xs))
    (hx : x.At ν v) (slot : h.memory.slotAt r 0 = .object .tuple u)
    (room : xs.length < h.memory.lengthAt u) :
    ∃ m₁, HeapM.arrayPush r v h = .ok () { h with memory := m₁ } ∧
      m₁.size = h.memory.size ∧ Named ν (M.set i (.array (xs ++ [x]))) σ m₁ := by
  obtain ⟨hnil, -⟩ | ⟨u', slot', hu, -, own, row⟩ := named.array hi hc
  · rw [slot] at hnil
    cases hnil
  rw [slot] at slot'
  cases slot'
  have hr := named.within hi
  have hne : ¬r = u := fun heq => own.unnamed _ _ (heq ▸ hi)
  have small := lengthAt_lt (named.iso.left.typed ⟨_, hu⟩)
  have obj := named.isObject hi
  -- First the array gets its new length, and then its store the element.
  have first := Written.length named.iso hr (.inl rfl) slot (n := xs.length + 1) (by omega) (by
    rw [slotsNeeded_array]
    exact room)
  have hlength := lengthAt_storeLength (xs.length + 1) (eight_le_sizeAt (named.typed hi))
    obj (by omega)
  have hstoreLength := first.lengthAt named.iso hu (Ne.symm hne)
  generalize hm : h.memory.store (Heap.payloadOffset r) 8 (xs.length + 1) =
    m at first hlength hstoreLength
  have slot₁ : m.slotAt r 0 = .object .tuple u := by
    rw [← hm, slotAt_storeLength]
    exact slot
  have row₁ : m.Row ν u xs := row.congr fun k hk => first.slotAt named.iso hu (Ne.symm hne)
    (show k < h.memory.lengthAt u by omega)
  have hlt : xs.length < m.lengthAt u := by omega
  have second := Written.element first.iso hu hlt (hx.still named.within)
  have hslots := slotAt_storeSlot (slot_inside (first.iso.left.typed ⟨_, hu⟩)
    (show xs.length < m.slotsAt u .tuple from hlt)) v (first.iso.left.isObject ⟨_, hu⟩)
  refine ⟨m.storeValue (slotOffset u.start xs.length) v, ?_, ?_,
    named.restore (c := .array (xs ++ [x])) hi
    (.inl rfl) own ((first.mono fun _ => .inl).trans (second.mono fun _ => .inr)) ?_ ?_
      (row₁.append hx hslots)⟩
  · exact HeapM.arrayPush_eq obj (named.iso.left.isObject ⟨_, hu⟩) slot
      ((named.lies hi hc).2.count nofun)
      room (by omega) hm (first.iso.left.isObject ⟨_, hr⟩) (first.iso.left.isObject ⟨_, hu⟩)
        slot₁ hlength hlt
  · rw [size_storeValue]
    exact first.size
  · exact (second.slotAt first.iso hr hne (k := 0) Nat.one_pos).trans slot₁
  · rw [second.lengthAt first.iso hr hne, hlength]
    exact (@List.length_append _ xs [x]).symm

end Named

end ActorMachine
