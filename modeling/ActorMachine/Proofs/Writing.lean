import ActorMachine.Proofs.Naming

/-!
# Writing to the objects of a program

The single writes of which operations on tuples, arrays and tables consist write to one object and
keep the others (`Memory.Written`). Elements are copied from tuple to tuple in their order
(`HeapM.copySlots_written`). An array or a table holds what has been written to its store, whether
the store is the one that it has had or another one that is its own (`Named.restore`).
-/

namespace ActorMachine

open Memory

namespace Memory.Written

variable {σ : Matching} {m : Memory} {s : Shape} {r u : Ref}

/-- An element of a tuple is written. -/
theorem element (iso : Iso σ m m) (hr : σ .tuple r r) {k : Nat} (hk : k < m.lengthAt r) {v : Value}
    (hv : v.Match σ v) : Written σ (· = r) m (m.storeValue (slotOffset r.start k) v) :=
  .of_within iso (iso.storeElement hr hk hv) hr
    (within_storeSlot (slot_inside (iso.left.typed ⟨_, hr⟩) (show k < m.slotsAt r .tuple from hk))
      v)

/-- An array or a table gets a store with room for what it holds. -/
theorem store (iso : Iso σ m m) (hr : σ s r r) (hs : s.Stores) (hu : σ .tuple u u)
    (room : slotsNeeded s (m.lengthAt r) ≤ m.lengthAt u) :
    Written σ (· = r) m (m.storeValue (slotOffset r.start 0) (.object .tuple u)) :=
  .of_within iso (iso.storeStore hr hs hu room) hr
    (within_storeSlot (slot_inside (iso.left.typed ⟨_, hr⟩)
      (by rcases hs with rfl | rfl <;> exact Nat.one_pos)) _)

/-- An array or a table gets a length for which its store has room. -/
theorem length (iso : Iso σ m m) (hr : σ s r r) (hs : s.Stores)
    (slot : m.slotAt r 0 = .object .tuple u) {n : Nat} (small : n < 2 ^ 64)
    (room : slotsNeeded s n ≤ m.lengthAt u) :
    Written σ (· = r) m (m.store (Heap.payloadOffset r) 8 n) := by
  refine .of_within iso (iso.storeLength hr hs small ?_ ?_) hr
    (within_storeLength n (eight_le_sizeAt (iso.left.typed ⟨_, hr⟩)))
  · rintro _ rfl
    rw [slot]
    exact room
  · rintro _ rfl
    rw [slot]
    exact room

variable {m₁ : Memory} {T : Ref → Prop}

/-- Nothing has happened to the slots of an object that has not been written to. -/
theorem slotAt (h : Written σ T m m₁) (iso : Iso σ m m) (hr : σ s r r) (hT : ¬T r) {k : Nat}
    (hk : k < m.slotsAt r s) : m₁.slotAt r k = m.slotAt r k :=
  (h.same hr hT).slotAt (slot_inside (iso.left.typed ⟨_, hr⟩) hk)

theorem lengthAt (h : Written σ T m m₁) (iso : Iso σ m m) (hr : σ s r r) (hT : ¬T r) :
    m₁.lengthAt r = m.lengthAt r :=
  (h.same hr hT).lengthAt (eight_le_sizeAt (iso.left.typed ⟨_, hr⟩))

end Memory.Written

/-- An element of a tuple is set. Its other elements stay, and so do all other objects. -/
theorem HeapM.tupleSet_written {σ : Matching} {h : Heap} {u : Ref} {v : Value}
    (iso : Iso σ h.memory h.memory) (hu : σ .tuple u u) {n : Nat} (hn : n < h.memory.lengthAt u)
    (hv : v.Match σ v) :
    ∃ m₁, tupleSet u n v h = .ok () { h with memory := m₁ } ∧ Written σ (· = u) h.memory m₁ ∧
      m₁.lengthAt u = h.memory.lengthAt u ∧
      ∀ k, m₁.slotAt u k = if k = n then v else h.memory.slotAt u k := by
  have obj := iso.left.isObject ⟨_, hu⟩
  refine ⟨h.memory.storeValue (slotOffset u.start n) v, ?_, .element iso hu hn hv,
    lengthAt_storeSlot v, slotAt_storeSlot (slot_inside (iso.left.typed ⟨_, hu⟩)
      (show n < h.memory.slotsAt u .tuple from hn)) v obj⟩
  rw [tupleSet_eq obj, if_pos ⟨Int.natCast_nonneg n, Int.ofNat_lt.mpr hn⟩]
  rfl

/-- Some elements of a tuple are copied to the same places in another. -/
theorem HeapM.copySlots_written {σ : Matching} {h : Heap} {r u : Ref}
    (iso : Iso σ h.memory h.memory) (hr : σ .tuple r r) (hu : σ .tuple u u) (hne : r ≠ u)
    (index count : Nat) (source : index + count ≤ h.memory.lengthAt r)
    (target : index + count ≤ h.memory.lengthAt u) :
    ∃ m₁, copySlots r u index count h = .ok () { h with memory := m₁ } ∧
      Written σ (· = u) h.memory m₁ ∧ m₁.lengthAt u = h.memory.lengthAt u ∧
      ∀ k, m₁.slotAt u k = if index ≤ k ∧ k < index + count then h.memory.slotAt r k
        else h.memory.slotAt u k := by
  induction count generalizing h index with
  | zero => exact ⟨h.memory, rfl, .refl iso, rfl, fun k => (if_neg (by omega)).symm⟩
  | succ count ih =>
    have hmatch := (iso.alike hr).slots index (show index < h.memory.lengthAt r by omega)
    obtain ⟨m₀, hset, first, hlength, hslot⟩ :=
      tupleSet_written iso hu (n := index) (by omega) hmatch
    have hread : read (·.tupleGet r index) h = .ok (h.memory.slotAt r index) h := by
      refine read_ok ?_
      rw [Heap.tupleGet_eq (iso.left.isObject ⟨_, hr⟩), if_pos (by omega)]
      rfl
    have hsource := first.lengthAt iso hr hne
    obtain ⟨m₁, run, rest, hlength', hslots⟩ :=
      ih (h := { h with memory := m₀ }) first.iso (index + 1)
      (by show _ ≤ m₀.lengthAt r; omega) (by show _ ≤ m₀.lengthAt u; omega)
    refine ⟨m₁, ?_, first.trans rest, hlength'.trans hlength, fun k => ?_⟩
    · unfold copySlots
      rw [bind_of_ok hread, bind_of_ok hset]
      exact run
    · rw [hslots k]
      show (if _ then m₀.slotAt r k else m₀.slotAt u k) = _
      rw [hslot k]
      by_cases hfirst : k = index
      · subst hfirst
        rw [if_neg (by omega), if_pos rfl, if_pos (by omega)]
      · by_cases hrest : index + 1 ≤ k ∧ k < index + 1 + count
        · rw [if_pos hrest, if_pos (by omega)]
          exact first.slotAt iso hr hne (show k < h.memory.lengthAt r by omega)
        · rw [if_neg hrest, if_neg hfirst, if_neg (by omega)]

/-- The first slots of a tuple hold some items. -/
def Memory.Row (ν : Naming) (m : Memory) (u : Ref) (xs : List Item) : Prop :=
  ∀ (k : Nat) (x : Item), xs[k]? = some x → x.At ν (m.slotAt u k)

namespace Memory.Row

variable {ν : Naming} {m m₁ : Memory} {u u' : Ref} {xs : List Item} {x : Item} {v : Value}

theorem nil (ν : Naming) (m : Memory) (u : Ref) : m.Row ν u [] := fun _ _ h => nomatch h

/-- Only the slots of the items matter. -/
theorem congr (h : m.Row ν u xs) (slots : ∀ k, k < xs.length → m₁.slotAt u' k = m.slotAt u k) :
    m₁.Row ν u' xs := by
  intro k x hk
  rw [slots k (List.getElem?_eq_some_iff.mp hk).1]
  exact h k x hk

theorem get (h : m.Row ν u xs) {k : Nat} (hk : k < xs.length) :
    (xs.getD k .nil).At ν (m.slotAt u k) :=
  h k _ (by rw [List.getD_eq_getElem?_getD, List.getElem?_eq_getElem hk]; rfl)

theorem set (h : m.Row ν u xs) (hx : x.At ν v) {k : Nat}
    (slots : ∀ j, m₁.slotAt u j = if j = k then v else m.slotAt u j) : m₁.Row ν u (xs.set k x) := by
  intro j y hj
  rw [slots j]
  rw [List.getElem?_set] at hj
  by_cases heq : k = j
  · rw [if_pos heq] at hj
    rw [if_pos heq.symm]
    split at hj
    · cases hj
      exact hx
    · cases hj
  · rw [if_neg heq] at hj
    rw [if_neg (Ne.symm heq)]
    exact h j y hj

theorem append (h : m.Row ν u xs) (hx : x.At ν v)
    (slots : ∀ j, m₁.slotAt u j = if j = xs.length then v else m.slotAt u j) :
    m₁.Row ν u (xs ++ [x]) := by
  intro j y hj
  rw [slots j]
  by_cases hlt : j < xs.length
  · rw [List.getElem?_append_left hlt] at hj
    rw [if_neg (Nat.ne_of_lt hlt)]
    exact h j y hj
  · rw [List.getElem?_append_right (Nat.le_of_not_lt hlt), List.getElem?_singleton] at hj
    split at hj
    · cases hj
      rw [if_pos (by omega)]
      exact hx
    · cases hj

end Memory.Row

namespace Named

variable {ν : Naming} {M : Contents} {σ : Matching} {m m₁ : Memory} {s : Shape}
    {i : Nat} {r u : Ref} {c : Content}

/-- Where an array or a table holds its items. -/
theorem stored (h : Named ν M σ m) (hi : ν c.shape i r) (hlies : c.Lies ν m r)
    (hs : c.shape.Stores) :
    (m.slotAt r 0 = .nil ∧ c.items = []) ∨
      ∃ u, m.slotAt r 0 = .object .tuple u ∧ σ .tuple u u ∧ c.items.length ≤ m.lengthAt u ∧
        m.Private ν r u ∧ m.Row ν u c.items := by
  have hcount : m.lengthAt r = c.count := hlies.count (by
    intro heq
    rcases hs with h | h <;> rw [h] at heq <;> cases heq)
  obtain ⟨hnil, -, hnone⟩ | ⟨u, _, slot, -, -, -⟩ := h.iso.stores (h.within hi) hs
  · rw [hcount, ← c.length_items hs] at hnone
    exact .inl ⟨hnil, List.eq_nil_of_length_eq_zero hnone⟩
  · have hu : m.Home c.shape r u := .store hs slot
    obtain ⟨hσ, hle⟩ := h.home hi hlies hu
    refine .inr ⟨u, slot, hσ, hle, h.hidden hi hs slot, fun k x hk => ?_⟩
    obtain ⟨u', hu', hx⟩ := hlies.items k x hk
    generalize c.shape = s at hs hu'
    cases hu' with
    | tuple => rcases hs with h | h <;> cases h
    | store _ slot' =>
      rw [slot] at slot'
      cases slot'
      exact hx

/-- An array or a table holds what has been written to a store that is its own. -/
theorem restore (h : Named ν M σ m) (hi : ν c.shape i r) (hs : c.shape.Stores)
    (own : m.Private ν r u) (written : Written σ (fun r' => r' = r ∨ r' = u) m m₁)
    (slot : m₁.slotAt r 0 = .object .tuple u) (length : m₁.lengthAt r = c.count)
    (row : m₁.Row ν u c.items) : Named ν (M.set i c) σ m₁ := by
  refine h.update hi (written.mono ?_) rfl ⟨fun bytes hc => ?_, fun _ => length,
    fun k x hk => ⟨u, .store hs slot, row k x hk⟩⟩ ?_
  · rintro r' (rfl | rfl)
    · exact .inl rfl
    · exact .inr own
  · rw [hc] at hs
    rcases hs with h | h <;> cases h
  · intro u' _ slot'
    rw [slot] at slot'
    cases slot'
    exact own

end Named

/-! ## Greater stores -/

/-- Another tuple has been filled with some items. -/
structure Memory.Filled (ν : Naming) (σ : Matching) (xs : List Item) (p : Ref)
    (m m₁ : Memory) : Prop where
  written : Written σ (· = p) m m₁
  length : m₁.lengthAt p = m.lengthAt p
  row : m₁.Row ν p xs

namespace Named

variable {ν : Naming} {M : Contents} {σ : Matching} {i : Nat} {r p : Ref} {c : Content}

/-- What an array or a table holds is copied to another tuple, if it holds anything. -/
theorem copied {h : Heap} (named : Named ν M σ h.memory) (hi : ν c.shape i r) (hc : M[i]? = some c)
    (hs : c.shape.Stores) (spare : h.memory.Spare ν p) (hp : σ .tuple p p)
    (room : c.items.length ≤ h.memory.lengthAt p) :
    (h.memory.slotAt r 0 = .nil ∧ Filled ν σ c.items p h.memory h.memory) ∨
      ∃ u m₁, h.memory.slotAt r 0 = .object .tuple u ∧
        HeapM.copySlots u p 0 c.items.length h = .ok () { h with memory := m₁ } ∧
        Filled ν σ c.items p h.memory m₁ := by
  obtain ⟨hnil, hnone⟩ | ⟨u, slot, hu, hle, -, row⟩ := named.stored hi (named.lies hi hc).2 hs
  · refine .inl ⟨hnil, .refl named.iso, rfl, ?_⟩
    rw [hnone]
    exact .nil _ _ _
  · have hne : u ≠ p := by
      rintro rfl
      exact spare.unstored _ _ _ hi hs slot
    obtain ⟨m₁, run, written, hlength, hslots⟩ :=
      HeapM.copySlots_written named.iso hu hp hne 0 c.items.length
      (by omega) (by omega)
    refine .inr ⟨u, m₁, slot, run, written, hlength, row.congr fun k hk => ?_⟩
    rw [hslots k, if_pos (by omega)]

/-- Arrays and tables lose nothing when they get another store. -/
theorem rehouse {m m₁ : Memory} (named : Named ν M σ m) (hi : ν c.shape i r) (hc : M[i]? = some c)
    (hs : c.shape.Stores) (spare : m.Spare ν p) (hp : σ .tuple p p)
    (room : c.items.length ≤ m.lengthAt p) (filled : Filled ν σ c.items p m m₁) :
    Named ν M σ (m₁.storeValue (slotOffset r.start 0) (.object .tuple p)) ∧
      (m₁.storeValue (slotOffset r.start 0) (.object .tuple p)).size = m.size ∧
      (m₁.storeValue (slotOffset r.start 0) (.object .tuple p)).slotAt r 0 = .object .tuple p ∧
      (m₁.storeValue (slotOffset r.start 0) (.object .tuple p)).lengthAt p = m.lengthAt p := by
  have hr := named.within hi
  have hne : ¬r = p := fun heq => spare.unnamed _ _ (heq ▸ hi)
  have iso := filled.written.iso
  have hlength : m.lengthAt r = c.count := (named.lies hi hc).2.count (by
    intro heq
    rcases hs with h | h <;> rw [h] at heq <;> cases heq)
  have hlength₁ : m₁.lengthAt r = c.count :=
    (filled.written.lengthAt named.iso hr hne).trans hlength
  have second := Written.store iso hr hs hp (by
    rw [hlength₁, ← c.length_items hs, filled.length]
    exact room)
  have hfirst : 0 < m₁.slotsAt r c.shape := by rcases hs with h | h <;> rw [h] <;> exact Nat.one_pos
  have slot := slotAt_storeSlot (slot_inside (iso.left.typed ⟨_, hr⟩) hfirst) (.object .tuple p)
    (iso.left.isObject ⟨_, hr⟩) 0
  rw [if_pos rfl] at slot
  have hlength₂ := second.lengthAt iso hp (Ne.symm hne)
  have named' := named.restore hi hs (spare.own r)
    ((filled.written.mono fun _ => .inr).trans (second.mono fun _ => .inl)) slot
    ((lengthAt_storeSlot _).trans hlength₁) (filled.row.congr fun k hk =>
      second.slotAt iso hp (Ne.symm hne) (show k < m₁.lengthAt p by
        rw [filled.length]
        omega))
  obtain ⟨hlt, rfl⟩ := List.getElem?_eq_some_iff.mp hc
  rw [List.set_getElem_self] at named'
  exact ⟨named', (size_storeValue _ _ _).trans filled.written.size, slot,
    hlength₂.trans filled.length⟩

end Named

end ActorMachine
