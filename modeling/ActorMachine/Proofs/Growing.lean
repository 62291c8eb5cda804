import ActorMachine.Proofs.Serving

/-!
# How arrays and tables grow

An array or a table whose store is full gets another store with room for more
(`Native.ends_growArray`, `Native.ends_growTable`). Making it may move all objects, the array or the
table and what is to be put into it among them; all of them are found again where they have come to
be, and none has changed. So appending to an array always appends (`Native.serves_arrayPush`), and
setting the value of a key always sets it (`Native.serves_tableSet`), unless there is no memory for
the greater store. Then nothing has changed at all.
-/

namespace ActorMachine

open Memory
open ActorM (reserve readHeap onHeap Serves)

/-- An argument that is seen to be an object is found. -/
theorem Actor.ShowsAt.object_of {ν : Naming} {σ : Matching} {V : Sight} {a : Actor}
    (h : a.ShowsAt ν σ V) {height count i j : Nat} {s : Shape}
    (seen : (V.arguments height count).getD i .nil = .object s j) :
    ∃ r, ν s j r ∧ (Arguments.below height count).object s i a = .ok r a := by
  obtain ⟨j', r, harg, hj, hr⟩ | ⟨hne, -⟩ := h.object height count s i
  · rw [seen] at harg
    cases harg
    exact ⟨r, hj, hr⟩
  · exact absurd seen (hne j)

/-- How many elements an array has room for: at least those that it has. -/
theorem Named.arrayCapacity {ν : Naming} {M : Contents} {σ : Matching} {h : Heap} {i : Nat}
    {r : Ref} {xs : List Item} (named : Named ν M σ h.memory) (hi : ν .array i r)
    (hc : M[i]? = some (.array xs)) :
    ∃ n, h.arrayCapacity r = .ok n ∧ xs.length ≤ n ∧ (h.memory.slotAt r 0 = .nil → n = 0) ∧
      ∀ u, h.memory.slotAt r 0 = .object .tuple u → n = h.memory.lengthAt u := by
  unfold Heap.arrayCapacity
  rw [Heap.arrayStore_eq (named.isObject hi)]
  obtain ⟨hnil, rfl⟩ | ⟨u, slot, hu, room, -⟩ := named.array hi hc
  · rw [hnil]
    exact ⟨0, rfl, Nat.le_refl _, fun _ => rfl, nofun⟩
  · rw [slot]
    refine ⟨h.memory.lengthAt u, Heap.tupleLength_eq (named.iso.left.isObject ⟨_, hu⟩), room, nofun,
      fun u' heq => ?_⟩
    cases heq
    rfl

theorem Native.lt_grownCapacity (n : Nat) : n < grownCapacity n := by
  rw [grownCapacity, minCapacity]
  omega

namespace Native

variable {ν : Naming} {σ : Matching} {V : Sight} {a : Actor}

/-- Nothing is seen of a new store. -/
theorem ends_newStore (h : a.ShowsAt ν σ V) (n : Nat) :
    Ends (ActorM.newTupleRef n) a
      (fun p b => ∃ ν' σ', b.ShowsAt ν' σ' V ∧ b.heap.memory.Spare ν' p ∧ σ' .tuple p p ∧
        b.heap.memory.lengthAt p = n)
      fun e b => e.IsOutOfMemory ∧ ∃ ν' σ', b.ShowsAt ν' σ' V := by
  rw [ActorM.newTupleRef, ActorM.alloc, bind_assoc]
  refine (h.ends_spare (ActorM.makes_tuple n)).mono ?_ fun _ _ h => h
  rintro _ b ⟨ν', σ', p, rfl, h'⟩
  exact ⟨ν', σ', h'⟩

/-! ## Arrays -/

/-- The elements of an array move to another store. -/
theorem ends_moveElements (h : a.ShowsAt ν σ V) {j : Nat} {r p : Ref} {xs : List Item}
    (hc : V.objects[j]? = some (.array xs)) (hj : ν .array j r) (spare : a.heap.memory.Spare ν p)
    (hp : σ .tuple p p) (room : xs.length < a.heap.memory.lengthAt p) :
    Ends (do
        match ← readHeap (·.arrayStore r) with
        | some old =>
          let length ← readHeap (·.arrayLength r)
          onHeap (HeapM.copySlots old p 0 (indexOfLength length).toNat)
        | none => pure ()
        onHeap (HeapM.setArrayStore r p) : ActorM Unit) a
      (fun _ b => b.ShowsAt ν σ V ∧ ∃ u, b.heap.memory.slotAt r 0 = .object .tuple u ∧
        xs.length < b.heap.memory.lengthAt u)
      fun _ _ => False := by
  have small := lengthAt_lt (h.named.iso.left.typed ⟨_, hp⟩)
  have hcount : (indexOfLength xs.length).toNat = (Content.array xs).items.length := by
    rw [indexOfLength_eq (by omega), Int.toNat_natCast]
    rfl
  -- Whatever has been copied, the array gets the store.
  have rest : ∀ m₁, Filled ν σ (Content.array xs).items p a.heap.memory m₁ →
      Ends (onHeap (HeapM.setArrayStore r p)) { a with heap := { a.heap with memory := m₁ } }
        (fun _ b => b.ShowsAt ν σ V ∧ ∃ u, b.heap.memory.slotAt r 0 = .object .tuple u ∧
          xs.length < b.heap.memory.lengthAt u) fun _ _ => False := by
    intro m₁ filled
    obtain ⟨named, hsize, slot, hlength⟩ :=
      h.named.rehouse (c := .array xs) hj hc (.inl rfl) spare hp (Nat.le_of_lt room) filled
    have iso := filled.written.iso
    refine .returns
      (ActorM.onHeap_ok (HeapM.setArrayStore_eq (iso.left.isObject ⟨_, h.named.within hj⟩)
      (iso.left.isObject ⟨_, hp⟩))) ⟨h.rewrite named hsize, p, slot, ?_⟩
    rw [hlength]
    exact room
  refine .of_eq (bind_of_ok (ActorM.readHeap_ok (Heap.arrayStore_eq (h.named.isObject hj)))) ?_
  obtain ⟨hnil, filled⟩ | ⟨u, m₁, slot, run, filled⟩ :=
    h.named.copied (c := .array xs) hj hc (.inl rfl) spare hp (Nat.le_of_lt room)
  · rw [hnil]
    exact rest _ filled
  · rw [slot]
    show Ends (readHeap (·.arrayLength r) >>= fun length =>
      onHeap (HeapM.copySlots u p 0 (indexOfLength length).toNat) >>= fun _ => _) a _ _
    refine .of_eq (bind_of_ok (ActorM.readHeap_ok (h.named.arrayLength hj hc))) ?_
    rw [hcount]
    exact .of_eq (bind_of_ok (ActorM.onHeap_ok run)) (rest m₁ filled)

variable {height count : Nat}

/-- An array that has no more room gets a greater store, and is seen to be the same. -/
theorem ends_growArray (h : a.ShowsAt ν σ V) {j : Nat} {r : Ref} {xs : List Item}
    (hc : V.objects[j]? = some (.array xs)) (hj : ν .array j r)
    (seen : (V.arguments height count).getD 0 .nil = .object .array j) :
    Ends (growArray (.below height count)) a
      (fun _ b => ∃ ν' σ' r' u, b.ShowsAt ν' σ' V ∧ ν' .array j r' ∧
        b.heap.memory.slotAt r' 0 = .object .tuple u ∧ xs.length < b.heap.memory.lengthAt u)
      fun e b => e.IsOutOfMemory ∧ ∃ ν' σ', b.ShowsAt ν' σ' V := by
  obtain ⟨r₀, hj₀, hr₀⟩ := h.object_of seen
  obtain ⟨-, rfl⟩ := h.named.shape_unique hj hj₀
  obtain ⟨n, capacity, hle, -⟩ := h.named.arrayCapacity hj hc
  unfold growArray
  refine .of_eq (bind_of_ok hr₀) (.of_eq (bind_of_ok (ActorM.readHeap_ok capacity)) ?_)
  refine .bind ((ends_newStore h (grownCapacity n)).mono ?_ fun _ _ h => h)
  intro p b ⟨ν', σ', h', spare, hp, hlength⟩
  obtain ⟨r', hj', hr'⟩ := h'.object_of seen
  refine .of_eq (bind_of_ok hr') ((ends_moveElements h' hc hj' spare hp ?_).mono ?_
    fun _ _ h => h.elim)
  · rw [hlength]
    exact Nat.lt_of_le_of_lt hle (lt_grownCapacity n)
  · intro _ c ⟨h'', u, slot, room⟩
    exact ⟨ν', σ', r', u, h'', hj', slot, room⟩

/-- Appending to an array whose store has room. -/
theorem serves_append (h : a.ShowsAt ν σ V) {j : Nat} {r u : Ref} {xs : List Item} {v : Value}
    (hc : V.objects[j]? = some (.array xs)) (hj : ν .array j r)
    (slot : a.heap.memory.slotAt r 0 = .object .tuple u)
    (room : xs.length < a.heap.memory.lengthAt u)
    (hv : ((V.arguments height count).getD 1 .nil).At ν v)
    (call : V.objects.call .arrayPush (V.arguments height count) = .ok (.count (xs.length + 1),
      V.objects.set j (.array (xs ++ [(V.arguments height count).getD 1 .nil])))) :
    Serves V .arrayPush (V.arguments height count) (do
      onHeap (HeapM.arrayPush r v)
      return ofNat (← readHeap (·.arrayLength r))) a := by
  obtain ⟨m₁, run, hsize, named⟩ := h.named.arrayPush hj hc hv slot room
  have hlt : j < V.objects.length := (List.getElem?_eq_some_iff.mp hc).1
  have length := Named.arrayLength (h := { a.heap with memory := m₁ }) named hj
    (List.getElem?_set_self hlt)
  rw [List.length_append, List.length_singleton] at length
  refine .writes h ?_ hsize named (at_ofNat ν _) call
  rw [bind_of_ok (ActorM.onHeap_ok run)]
  exact bind_of_ok (ActorM.readHeap_ok length)

theorem serves_arrayPush (h : a.ShowsAt ν σ V) :
    Serves V .arrayPush (V.arguments height count) (arrayPush (.below height count)) a := by
  refine .bind_atLeast h (fun few => ?_) fun enough => ?_
  · unfold Contents.call
    simp only [V.length_arguments, if_pos few]
    rfl
  have hcall : V.objects.call .arrayPush (V.arguments height count) =
      V.objects.array (V.arguments height count) >>= fun given => pure (.count (given.2.length + 1),
        V.objects.set given.1 (.array (given.2 ++ [(V.arguments height count).getD 1 .nil]))) := by
    unfold Contents.call
    simp only [V.length_arguments, if_neg enough]
  refine .bind_array h hcall fun j xs r hc hj seen call => ?_
  -- Once there is room, the element is appended.
  have append : ∀ {ν' σ' b r' u}, b.ShowsAt ν' σ' V → ν' .array j r' →
      b.heap.memory.slotAt r' 0 = .object .tuple u → xs.length < b.heap.memory.lengthAt u →
      Serves V .arrayPush (V.arguments height count) (do
        let r ← (Arguments.below height count).object .array 0
        onHeap (HeapM.arrayPush r (← (Arguments.below height count).get 1))
        return ofNat (← readHeap (·.arrayLength r))) b := by
    intro ν' σ' b r' u h' hj' slot room
    obtain ⟨r₁, hj₁, hr₁⟩ := h'.object_of seen
    obtain ⟨-, rfl⟩ := h'.named.shape_unique hj' hj₁
    exact .of_eq (bind_of_ok hr₁) (Serves.bind_get h' fun v hv =>
      serves_append h' hc hj' slot room hv call)
  obtain ⟨n, capacity, -, hzero, hlength⟩ := h.named.arrayCapacity hj hc
  refine .of_eq (bind_of_ok (ActorM.readHeap_ok capacity))
    (.of_eq (bind_of_ok (ActorM.readHeap_ok (h.named.arrayLength hj hc))) ?_)
  refine .ite (fun full => ?_) fun room => ?_
  · refine .bind ((ends_growArray h hc hj seen).mono ?_ ?_)
    · intro _ b ⟨ν', σ', r', u, h', hj', slot, room⟩
      exact append h' hj' slot room
    · rintro _ b ⟨⟨requested, limit, rfl⟩, ν', σ', h'⟩
      exact ⟨ν', σ', h', .full call (by decide)⟩
  · obtain ⟨hnil, -⟩ | ⟨u, slot, -⟩ := h.named.array hj hc
    · rw [hzero hnil] at room
      exact absurd (Nat.zero_le _) room
    · rw [hlength u slot] at room
      exact append h hj slot (Nat.lt_of_not_le room)

/-! ## Tables -/

/-- A table that has no more room gets a greater store, and then the value of the key is set. -/
theorem serves_growTable (h : a.ShowsAt ν σ V) {j : Nat} {entries : List (Item × Item)} {n : Nat}
    (hc : V.objects[j]? = some (.table entries)) (full : entries.length ≤ n)
    (seen : (V.arguments height count).getD 0 .nil = .object .table j)
    (call : V.objects.call .tableSet (V.arguments height count) = .ok (.nil, V.objects.set j (.table
      (V.objects.put ((V.arguments height count).getD 1 .nil)
        ((V.arguments height count).getD 2 .nil) entries)))) :
    Serves V .tableSet (V.arguments height count) (do
      let store ← ActorM.newTupleRef (grownCapacity n * 2)
      let r ← (Arguments.below height count).object .table 0
      let key ← (Arguments.below height count).get 1
      let v ← (Arguments.below height count).get 2
      onHeap (HeapM.setTableStore r store)
      let _ ← onHeap (HeapM.tableTrySet r key v)
      return .nil) a := by
  have hmore := lt_grownCapacity n
  refine .bind ((ends_newStore h (grownCapacity n * 2)).mono ?_ ?_)
  · intro p b ⟨ν', σ', h', spare, hp, hlength⟩
    obtain ⟨r, hj, hr⟩ := h'.object_of seen
    refine .of_eq (bind_of_ok hr) (Serves.bind_get h' fun key hkey => .bind_get h' fun v hv => ?_)
    obtain ⟨m₁, run, hsize, named, slot, hroom⟩ := h'.named.setTableStore hj hc spare hp (by omega)
    refine .of_eq (bind_of_ok (ActorM.onHeap_ok run)) ?_
    have h₁ := h'.rewrite named hsize
    obtain ⟨n', capacity, -, -, hhalf⟩ :=
      Named.tableCapacity (h := { b.heap with memory := m₁ }) named hj hc
    have hn' : n' = m₁.lengthAt p / 2 := hhalf p slot
    have set := Named.tableTrySet (h := { b.heap with memory := m₁ }) named hj hc hkey hv capacity
    rw [if_pos (.inr (by omega))] at set
    obtain ⟨m₂, run', hsize', named'⟩ := set
    exact Serves.writes h₁ (bind_of_ok (ActorM.onHeap_ok run')) hsize' named' (.inline rfl) call
  · rintro _ b ⟨⟨requested, limit, rfl⟩, ν', σ', h'⟩
    exact ⟨ν', σ', h', .full call (by decide)⟩

theorem serves_tableSet (h : a.ShowsAt ν σ V) :
    Serves V .tableSet (V.arguments height count) (tableSet (.below height count)) a := by
  refine .bind_atLeast h (fun few => ?_) fun enough => ?_
  · unfold Contents.call
    simp only [V.length_arguments, if_pos few]
    rfl
  have hcall : V.objects.call .tableSet (V.arguments height count) =
      V.objects.table (V.arguments height count) >>= fun given =>
        pure (.nil, V.objects.set given.1 (.table
        (V.objects.put ((V.arguments height count).getD 1 .nil)
          ((V.arguments height count).getD 2 .nil)
          given.2))) := by
    unfold Contents.call
    simp only [V.length_arguments, if_neg enough]
  refine .bind_table h hcall fun j entries r hc hj seen call => .bind_get h fun key hkey =>
    .bind_get h fun v hv => ?_
  obtain ⟨n, capacity, hle, -⟩ := h.named.tableCapacity hj hc
  have set := h.named.tableTrySet hj hc hkey hv capacity
  by_cases room : (V.objects.find? ((V.arguments height count).getD 1 .nil) entries).isSome ∨
    entries.length < n
  · rw [if_pos room] at set
    obtain ⟨m₁, run, hsize, named⟩ := set
    exact Serves.writes h (bind_of_ok (ActorM.onHeap_ok run)) hsize named (.inline rfl) call
  · rw [if_neg room] at set
    refine .of_eq (bind_of_ok (ActorM.onHeap_ok set)) ?_
    refine .of_eq (bind_of_ok (ActorM.readHeap_ok capacity)) (serves_growTable h hc hle seen call)

end Native

end ActorMachine
