import ActorMachine.Heap.Equality
import ActorMachine.Proofs.Together
import ActorMachine.Proofs.Vouching

/-!
# Reading isomorphic heaps

Every operation that reads an object gives the same in isomorphic heaps, or values that match, or it
fails there in the same way. It never fails because a reference is wrong: all that can be wrong is
an index (`HeapError.Benign`).
-/

namespace ActorMachine

open Memory

namespace HeapError

/-- A failure that a program can cause on a heap whose references are right. -/
def Benign : HeapError → Prop
  | outOfMemory .. | indexOutOfBounds .. => True
  | invalidRef _ | kindMismatch .. => False

/-- The same failure of two heaps whose references are right. -/
def Same (e e' : HeapError) : Prop := e = e' ∧ e.Benign

theorem Same.index (index : Int) (length : Nat) :
    Same (.indexOutOfBounds index length) (.indexOutOfBounds index length) := ⟨rfl, trivial⟩

end HeapError

theorem indexOfLength_eq {n : Nat} (h : n < 2 ^ 63) : indexOfLength n = n :=
  Int64.toInt_ofNat_of_lt h

/-! ## What reading an object comes to -/

namespace Heap

variable {h : Heap} {s : Shape} {r : Ref}

theorem stringBytes_eq (obj : h.memory.IsObject .string r) :
    h.stringBytes r = .ok (h.memory.stringAt r) := by
  unfold stringBytes
  rw [expect_eq obj]
  rfl

theorem stringHash_eq (obj : h.memory.IsObject .string r) :
    h.stringHash r = .ok (UInt32.ofNat (h.memory.word (payloadOffset r) 4)) := by
  unfold stringHash
  rw [expect_eq obj]
  rfl

theorem tupleLength_eq (obj : h.memory.IsObject .tuple r) :
    h.tupleLength r = .ok (h.memory.lengthAt r) := by
  unfold tupleLength
  rw [expect_eq obj]
  rfl

theorem arrayLength_eq (obj : h.memory.IsObject .array r) :
    h.arrayLength r = .ok (h.memory.lengthAt r) := by
  unfold arrayLength
  rw [expect_eq obj]
  rfl

theorem tableLength_eq (obj : h.memory.IsObject .table r) :
    h.tableLength r = .ok (h.memory.lengthAt r) := by
  unfold tableLength
  rw [expect_eq obj]
  rfl

theorem arrayStore_eq (obj : h.memory.IsObject .array r) :
    h.arrayStore r = .ok (h.memory.slotAt r 0).ref? := by
  unfold arrayStore
  rw [expect_eq obj]
  rfl

theorem tableStore_eq (obj : h.memory.IsObject .table r) :
    h.tableStore r = .ok (h.memory.slotAt r 0).ref? := by
  unfold tableStore
  rw [expect_eq obj]
  rfl

theorem tupleSlot_eq (obj : h.memory.IsObject .tuple r) (index : Int) :
    h.tupleSlot r index = if 0 ≤ index ∧ index < h.memory.lengthAt r then
      .ok (slotOffset r.start index.toNat)
    else .error (.indexOutOfBounds index (h.memory.lengthAt r)) := by
  unfold tupleSlot
  rw [tupleLength_eq obj]
  rfl

theorem tupleGet_eq (obj : h.memory.IsObject .tuple r) (index : Int) :
    h.tupleGet r index = if 0 ≤ index ∧ index < h.memory.lengthAt r then
      .ok (h.memory.slotAt r index.toNat)
    else .error (.indexOutOfBounds index (h.memory.lengthAt r)) := by
  unfold tupleGet
  rw [tupleSlot_eq obj]
  by_cases hindex : 0 ≤ index ∧ index < h.memory.lengthAt r
  · rw [if_pos hindex, if_pos hindex]
    rfl
  · rw [if_neg hindex, if_neg hindex]
    rfl

end Heap

/-! ## Stores -/

/-- The stores of two matched arrays or tables. -/
inductive StoresMatch (ρ : Matching) (m m' : Memory) (n : Nat) : Option Ref → Option Ref → Prop
  | none (h : n = 0) : StoresMatch ρ m m' n .none .none
  | some {u u' : Ref} (h : ρ .tuple u u') (room : n ≤ m.lengthAt u) :
    StoresMatch ρ m m' n (.some u) (.some u')

namespace Iso

variable {ρ : Matching} {m m' : Memory} {s : Shape} {r t : Ref}

/-- Matched arrays and tables have no stores, or matched ones with room for what they hold. -/
theorem stores (iso : Iso ρ m m') (hrt : ρ s r t) (hs : s = .array ∨ s = .table) :
    (m.slotAt r 0 = .nil ∧ m'.slotAt t 0 = .nil ∧ slotsNeeded s (m.lengthAt r) = 0) ∨
      ∃ u u', m.slotAt r 0 = .object .tuple u ∧ m'.slotAt t 0 = .object .tuple u' ∧
        ρ .tuple u u' ∧ slotsNeeded s (m.lengthAt r) ≤ m.lengthAt u := by
  have hpos : 0 < m.slotsAt r s := by rcases hs with rfl | rfl <;> exact Nat.one_pos
  have hslot := (iso.alike hrt).slots 0 hpos
  have hfits : m.StoreFits (m.slotAt r 0) (slotsNeeded s (m.lengthAt r)) := by
    have typed := iso.left.typed ⟨t, hrt⟩
    rcases hs with rfl | rfl
    · exact typed.2
    · exact typed.2
  generalize m.slotAt r 0 = v at hslot hfits
  generalize m'.slotAt t 0 = w at hslot
  cases hslot with
  | inline hinline =>
    unfold StoreFits at hfits
    split at hfits
    · exact .inl ⟨rfl, rfl, hfits⟩
    · cases hinline
    · exact hfits.elim
  | @object s' u u' hu =>
    cases s' with
    | tuple => exact .inr ⟨u, u', rfl, rfl, hu, hfits⟩
    | _ => exact hfits.elim

theorem storesMatch (iso : Iso ρ m m') (hrt : ρ s r t) (hs : s = .array ∨ s = .table) :
    StoresMatch ρ m m' (slotsNeeded s (m.lengthAt r)) (m.slotAt r 0).ref?
      (m'.slotAt t 0).ref? := by
  rcases iso.stores hrt hs with ⟨h1, h2, h3⟩ | ⟨u, u', h1, h2, hu, hroom⟩
  · rw [h1, h2]
    exact .none h3
  · rw [h1, h2]
    exact .some hu hroom

end Iso

/-- A tuple has fewer elements than indices can count. -/
theorem Memory.lengthAt_lt_index {m : Memory} {r : Ref} {n : Nat} (typed : m.WellTyped r .tuple)
    (h : n ≤ m.lengthAt r) : n < 2 ^ 63 :=
  Nat.lt_of_le_of_lt h (Nat.lt_trans (lengthAt_lt typed) (by decide))

/-! ## Reading two isomorphic heaps -/

namespace Heap

open HeapError (Same)

/-- Matched values that have been read. They are vouched for if all is that matched objects hold. -/
structure Found (ρ : Matching) (h : Heap) (v w : Value) : Prop where
  alike : v.Match ρ w
  vouched : ∀ {F : Value → Prop}, h.memory.Vouched F (fun s r => ∃ t, ρ s r t) → v.Vouched F

variable {ρ : Matching} {h h' : Heap} {r t : Ref} (iso : Iso ρ h.memory h'.memory)

include iso

theorem both_stringBytes (hrt : ρ .string r t) :
    Both Eq Same (h.stringBytes r) (h'.stringBytes t) := by
  rw [stringBytes_eq (iso.left.isObject ⟨t, hrt⟩), stringBytes_eq (iso.right.isObject ⟨r, hrt⟩)]
  exact (iso.alike hrt).string rfl

theorem both_stringLength (hrt : ρ .string r t) :
    Both Eq Same (h.stringLength r) (h'.stringLength t) := by
  refine (both_stringBytes iso hrt).bind fun a b heq => ?_
  rw [heq]
  exact .ok rfl

/-- Values agree where what they are matched with does: references do if they are to the same
object. -/
theorem agrees_eq {v w v' w' : Value} (hv : v.Match ρ v') (hw : w.Match ρ w') :
    v.agrees w = v'.agrees w' := by
  cases hv with
  | inline hv =>
    cases hw with
    | inline hw => rfl
    | object hw => cases v <;> first | rfl | cases hv
  | @object s r t hrt =>
    cases hw with
    | inline hw => cases w <;> first | rfl | cases hw
    | @object s' r' t' hrt' =>
      show (Value.object s r == .object s' r') = (Value.object s t == .object s' t')
      rw [Bool.eq_iff_iff, beq_iff_eq, beq_iff_eq, Value.object.injEq, Value.object.injEq,
        iso.unique hrt hrt']

theorem recordedHash_eq (hrt : ρ .string r t) :
    h.memory.word (payloadOffset r) 4 = h'.memory.word (payloadOffset t) 4 := by
  have hlength := (iso.alike hrt).length
  have hlow := word_lt h.memory (payloadOffset r) 4
  have hlow' := word_lt h'.memory (payloadOffset t) 4
  rw [lengthAt_eq_add, lengthAt_eq_add] at hlength
  omega

/-- Strings are compared by what is matched: the places, the hashes that are recorded, and the
bytes. -/
theorem both_equal_string {r' t' : Ref} (hrt : ρ .string r t) (hrt' : ρ .string r' t') :
    Both Eq Same (h.equal (.object .string r) (.object .string r'))
      (h'.equal (.object .string t) (.object .string t')) := by
  unfold equal
  dsimp only
  rw [stringHash_eq (iso.left.isObject ⟨t, hrt⟩), stringHash_eq (iso.left.isObject ⟨t', hrt'⟩),
    stringHash_eq (iso.right.isObject ⟨r, hrt⟩), stringHash_eq (iso.right.isObject ⟨r', hrt'⟩),
    stringBytes_eq (iso.left.isObject ⟨t, hrt⟩), stringBytes_eq (iso.left.isObject ⟨t', hrt'⟩),
    stringBytes_eq (iso.right.isObject ⟨r, hrt⟩), stringBytes_eq (iso.right.isObject ⟨r', hrt'⟩),
    (iso.alike hrt).string rfl, (iso.alike hrt').string rfl, recordedHash_eq iso hrt,
    recordedHash_eq iso hrt']
  by_cases heq : r = r'
  · simp only [heq, (iso.unique hrt hrt').mp heq, if_true]
    exact .ok rfl
  · simp only [heq, mt (iso.unique hrt hrt').mpr heq, if_false]
    simp only [bind, Except.bind]
    split <;> exact .ok rfl

theorem both_equal {v w v' w' : Value} (hv : v.Match ρ v') (hw : w.Match ρ w') :
    Both Eq Same (h.equal v w) (h'.equal v' w') := by
  -- Two strings are looked into; all other values are compared as they are.
  have plain : h.equal v w = .ok (v.agrees w) → h'.equal v' w' = .ok (v'.agrees w') →
      Both Eq Same (h.equal v w) (h'.equal v' w') := by
    intro h1 h2
    rw [h1, h2]
    exact .ok (agrees_eq iso hv hw)
  cases hv with
  | inline hv =>
    exact plain (by cases v <;> first | rfl | cases hv) (by cases v <;> first | rfl | cases hv)
  | @object s r t hrt =>
    cases hw with
    | inline hw =>
      exact plain (by cases s <;> cases w <;> first | rfl | cases hw)
        (by cases s <;> cases w <;> first | rfl | cases hw)
    | @object s' r' t' hrt' =>
      cases s with
      | string =>
        cases s' with
        | string => exact both_equal_string iso hrt hrt'
        | _ => exact plain rfl rfl
      | _ => exact plain rfl rfl

theorem both_tupleLength (hrt : ρ .tuple r t) :
    Both Eq Same (h.tupleLength r) (h'.tupleLength t) := by
  rw [tupleLength_eq (iso.left.isObject ⟨t, hrt⟩), tupleLength_eq (iso.right.isObject ⟨r, hrt⟩)]
  exact (iso.alike hrt).length

theorem both_tupleGet (hrt : ρ .tuple r t) (index : Int) :
    Both (Found ρ h) Same (h.tupleGet r index) (h'.tupleGet t index) := by
  rw [tupleGet_eq (iso.left.isObject ⟨t, hrt⟩), tupleGet_eq (iso.right.isObject ⟨r, hrt⟩),
    ← (iso.alike hrt).length]
  by_cases hindex : 0 ≤ index ∧ index < h.memory.lengthAt r
  · rw [if_pos hindex, if_pos hindex]
    have hlt : index.toNat < h.memory.slotsAt r .tuple := (by omega : _ < h.memory.lengthAt r)
    exact ⟨(iso.alike hrt).slots _ hlt, fun vouched => vouched ⟨t, hrt⟩ _ hlt⟩
  · rw [if_neg hindex, if_neg hindex]
    exact .index _ _

theorem both_arrayLength (hrt : ρ .array r t) :
    Both Eq Same (h.arrayLength r) (h'.arrayLength t) := by
  rw [arrayLength_eq (iso.left.isObject ⟨t, hrt⟩), arrayLength_eq (iso.right.isObject ⟨r, hrt⟩)]
  exact (iso.alike hrt).length

theorem both_arrayStore (hrt : ρ .array r t) :
    Both (StoresMatch ρ h.memory h'.memory (h.memory.lengthAt r)) Same (h.arrayStore r)
      (h'.arrayStore t) := by
  rw [arrayStore_eq (iso.left.isObject ⟨t, hrt⟩), arrayStore_eq (iso.right.isObject ⟨r, hrt⟩)]
  have := iso.storesMatch hrt (.inl rfl)
  rwa [slotsNeeded_array] at this

theorem both_arrayCapacity (hrt : ρ .array r t) :
    Both Eq Same (h.arrayCapacity r) (h'.arrayCapacity t) := by
  refine (both_arrayStore iso hrt).bind fun a b hstores => ?_
  cases hstores with
  | none => exact .ok rfl
  | some hu => exact both_tupleLength iso hu

theorem both_arrayStoreAt (hrt : ρ .array r t) (index : Int) :
    Both (ρ .tuple) Same (h.arrayStoreAt r index) (h'.arrayStoreAt t index) := by
  unfold arrayStoreAt
  rw [arrayLength_eq (iso.left.isObject ⟨t, hrt⟩), arrayLength_eq (iso.right.isObject ⟨r, hrt⟩),
    ← (iso.alike hrt).length]
  show Both (ρ .tuple) Same (if index < 0 ∨ (h.memory.lengthAt r : Int) ≤ index then _ else _)
    (if index < 0 ∨ (h.memory.lengthAt r : Int) ≤ index then _ else _)
  by_cases hindex : index < 0 ∨ (h.memory.lengthAt r : Int) ≤ index
  · simp only [if_pos hindex]
    exact .error (.index _ _)
  · simp only [if_neg hindex]
    refine (both_arrayStore iso hrt).bind fun a b hstores => ?_
    cases hstores with
    | none hempty => omega
    | some hu => exact .ok hu

theorem both_arrayGet (hrt : ρ .array r t) (index : Int) :
    Both (Found ρ h) Same (h.arrayGet r index) (h'.arrayGet t index) :=
  (both_arrayStoreAt iso hrt index).bind fun _ _ hu => both_tupleGet iso hu index

theorem both_tableLength (hrt : ρ .table r t) :
    Both Eq Same (h.tableLength r) (h'.tableLength t) := by
  rw [tableLength_eq (iso.left.isObject ⟨t, hrt⟩), tableLength_eq (iso.right.isObject ⟨r, hrt⟩)]
  exact (iso.alike hrt).length

theorem both_tableStore (hrt : ρ .table r t) :
    Both (StoresMatch ρ h.memory h'.memory (h.memory.lengthAt r * 2)) Same (h.tableStore r)
      (h'.tableStore t) := by
  rw [tableStore_eq (iso.left.isObject ⟨t, hrt⟩), tableStore_eq (iso.right.isObject ⟨r, hrt⟩)]
  have := iso.storesMatch hrt (.inr rfl)
  rwa [slotsNeeded_table] at this

theorem both_tableCapacity (hrt : ρ .table r t) :
    Both Eq Same (h.tableCapacity r) (h'.tableCapacity t) := by
  refine (both_tableStore iso hrt).bind fun a b hstores => ?_
  cases hstores with
  | none => exact .ok rfl
  | some hu => exact (both_tupleLength iso hu).bind fun a b heq => by rw [heq]; exact .ok rfl

theorem both_findEntry {u u' : Ref} (hu : ρ .tuple u u') {key key' : Value}
    (hkey : key.Match ρ key') (entry count : Nat) :
    Both Eq Same (h.findEntry u key entry count) (h'.findEntry u' key' entry count) := by
  induction count generalizing entry with
  | zero => exact .ok rfl
  | succ count ih =>
    refine (both_tupleGet iso hu _).bind fun v w hvw => ?_
    refine (both_equal iso hvw.alike hkey).bind fun a b heq => ?_
    rw [heq]
    cases b with
    | true => exact .ok rfl
    | false => exact ih (entry + 1)

theorem both_tableFind (hrt : ρ .table r t) {key key' : Value} (hkey : key.Match ρ key') :
    Both (Option.Rel fun a b => ρ .tuple a.1 b.1 ∧ a.2 = b.2) Same (h.tableFind r key)
      (h'.tableFind t key') := by
  refine (both_tableLength iso hrt).bind fun n n' hn => ?_
  rw [hn]
  refine (both_tableStore iso hrt).bind fun a b hstores => ?_
  cases hstores with
  | none => exact .ok .none
  | some hu =>
    refine (both_findEntry iso hu hkey 0 _).bind fun e e' he => ?_
    rw [he]
    cases e' with
    | none => exact .ok .none
    | some entry => exact .ok (.some ⟨hu, rfl⟩)

theorem both_tableGet (hrt : ρ .table r t) {key key' : Value} (hkey : key.Match ρ key') :
    Both (Found ρ h) Same (h.tableGet r key) (h'.tableGet t key') := by
  unfold tableGet
  refine (both_tableFind iso hrt hkey).bind fun a b hab => ?_
  cases hab with
  | none => exact .ok ⟨.inline rfl, fun _ => nofun⟩
  | @some a b hab =>
    obtain ⟨u, entry⟩ := a
    obtain ⟨u', entry'⟩ := b
    obtain ⟨hu, rfl⟩ := hab
    exact both_tupleGet iso hu _

end Heap

end ActorMachine
