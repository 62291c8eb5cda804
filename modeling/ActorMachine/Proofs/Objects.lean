import ActorMachine.Heap.Tables
import ActorMachine.Proofs.Bytes

/-!
# Objects

What makes a place of a memory an object of a shape (`Memory.IsObject`) and what a well-typed
payload is (`Memory.WellTyped`). All of it depends on the bytes of the object (`Memory.SameObject`),
except that an array or a table needs a store that is long enough. Writing a slot or the length of
an object changes nothing outside of its payload (`Memory.Within`).
-/

namespace ActorMachine

namespace Memory

variable {m m' m₁ : Memory} {s : Shape} {r : Ref}

/-- The size that a header claims. -/
def sizeAt (m : Memory) (r : Ref) : Nat := m.word (r.start + 4) 4

/-- The first eight bytes of a payload: the length of a tuple, an array or a table. -/
def lengthAt (m : Memory) (r : Ref) : Nat := m.word (Heap.payloadOffset r) 8

/-- The value in a slot of an object. -/
def slotAt (m : Memory) (r : Ref) (i : Nat) : Value := m.value (slotOffset r.start i)

/-- The end of an object, padding included. -/
def endAt (m : Memory) (r : Ref) : Nat := r.start + allocSize (m.sizeAt r)

/-- An object that has not moved lies at the place, all of it within the memory. -/
structure IsObject (m : Memory) (s : Shape) (r : Ref) : Prop where
  header : m.header? r.start = some ⟨.object s, m.sizeAt r, none⟩
  inside : m.endAt r ≤ m.size

theorem le_allocSize (size : Nat) : headerWidth + size ≤ allocSize size := by
  rw [allocSize, align8]
  omega

theorem headerWidth_le_allocSize (size : Nat) : headerWidth ≤ allocSize size :=
  Nat.le_add_right _ _

theorem sizeAt_lt (m : Memory) (r : Ref) : m.sizeAt r < 2 ^ 32 := word_lt m _ 4

theorem sizeAt_of_header {h : ObjectHeader} (header : m.header? r.start = some h) :
    m.sizeAt r = h.size := by
  unfold header? at header
  split at header
  · obtain ⟨kind, -, rfl⟩ := Option.map_eq_some_iff.mp header
    rfl
  · cases header

theorem IsObject.intro {n : Nat} (header : m.header? r.start = some ⟨.object s, n, none⟩)
    (inside : r.start + allocSize n ≤ m.size) : m.IsObject s r := by
  have hsize := sizeAt_of_header header
  exact ⟨by rw [header, hsize], by rwa [endAt, hsize]⟩

theorem IsObject.shape_unique {s' : Shape} (h : m.IsObject s r)
    (h' : m.IsObject s' r) : s = s' := by
  have := h.header.symm.trans h'.header
  simp only [Option.some.injEq, ObjectHeader.mk.injEq, Kind.object.injEq] at this
  exact this.1

/-- Two objects have no byte in common. -/
def Apart (m : Memory) (r r' : Ref) : Prop := m.endAt r ≤ r'.start ∨ m.endAt r' ≤ r.start

theorem start_lt_endAt (m : Memory) (r : Ref) : r.start < m.endAt r := by
  have := headerWidth_le_allocSize (m.sizeAt r)
  rw [headerWidth] at this
  rw [endAt]
  omega

/-- The store of an array or a table: without one there is room for nothing. -/
def StoreFits (m : Memory) (store : Value) (n : Nat) : Prop :=
  match store with
  | .nil => n = 0
  | .object .tuple t => n ≤ m.lengthAt t
  | _ => False

/-- The number of slots that the store of an array or a table with `n` elements or entries must
have. -/
def slotsNeeded (s : Shape) (n : Nat) : Nat :=
  if s = .array then n else n * 2

theorem slotsNeeded_array (n : Nat) : slotsNeeded .array n = n := rfl

theorem slotsNeeded_table (n : Nat) : slotsNeeded .table n = n * 2 := rfl

/-- The bytes of a string object. -/
def stringAt (m : Memory) (r : Ref) : ByteArray :=
  m.extract (Heap.payloadOffset r + 8) (Heap.payloadOffset r + m.sizeAt r)

/-- The payload of an object is what payloads of its shape are. -/
def WellTyped (m : Memory) (r : Ref) : Shape → Prop
  | .string =>
    m.sizeAt r = Heap.stringSize (m.word (Heap.payloadOffset r + 4) 4) ∧
      m.word (Heap.payloadOffset r) 4 = (hashBytes (m.stringAt r)).toNat
  | .tuple => m.sizeAt r = Heap.tupleSize (m.lengthAt r)
  | .array => m.sizeAt r = Heap.containerSize ∧ m.StoreFits (m.slotAt r 0) (m.lengthAt r)
  | .table => m.sizeAt r = Heap.containerSize ∧ m.StoreFits (m.slotAt r 0) (m.lengthAt r * 2)

/-- The number of slots of an object. -/
def slotsAt (m : Memory) (r : Ref) : Shape → Nat
  | .string => 0
  | .tuple => m.lengthAt r
  | .array | .table => 1

theorem slotsAt_congr {t : Ref} (h : m.lengthAt r = m'.lengthAt t) (s : Shape) :
    m.slotsAt r s = m'.slotsAt t s := by
  cases s with
  | tuple => exact h
  | _ => rfl

/-- The slots of an object are those that a collection visits. -/
theorem slotCount_eq (h : m.IsObject s r) (typed : m.WellTyped r s) :
    m.slotCount r.start ⟨.object s, m.sizeAt r, none⟩ = m.slotsAt r s := by
  cases s with
  | string => rfl
  | tuple =>
    have hsize : m.sizeAt r = 8 + m.lengthAt r * 16 := typed
    show min (m.lengthAt r) ((m.sizeAt r - 8) / 16) = m.lengthAt r
    omega
  | array =>
    have hsize : m.sizeAt r = 24 := typed.1
    show min ((m.sizeAt r - 8) / 16) 1 = 1
    omega
  | table =>
    have hsize : m.sizeAt r = 24 := typed.1
    show min ((m.sizeAt r - 8) / 16) 1 = 1
    omega

/-- A slot lies in the payload of its object. -/
theorem slot_inside (typed : m.WellTyped r s) {i : Nat} (hi : i < m.slotsAt r s) :
    slotOffset r.start i + slotWidth ≤ Heap.payloadOffset r + m.sizeAt r := by
  rw [slotOffset, slotWidth, Heap.payloadOffset, headerWidth]
  cases s with
  | string => exact absurd hi (Nat.not_lt_zero i)
  | tuple =>
    have hsize : m.sizeAt r = 8 + m.lengthAt r * 16 := typed
    have hi : i < m.lengthAt r := hi
    omega
  | array | table =>
    have hsize : m.sizeAt r = 24 := typed.1
    have hi : i < 1 := hi
    omega

theorem payload_le_endAt (m : Memory) (r : Ref) :
    Heap.payloadOffset r + m.sizeAt r ≤ m.endAt r := by
  have := le_allocSize (m.sizeAt r)
  rw [Heap.payloadOffset, endAt]
  omega

/-! ## What depends on the bytes of an object only -/

/-- The payload of an object of one memory is, byte for byte, that of an object of another. -/
structure SamePayload (m m' : Memory) (r t : Ref) : Prop where
  sizeAt : m'.sizeAt t = m.sizeAt r
  bytes : ∀ k, k < m.sizeAt r →
    m.byte (Heap.payloadOffset r + k) = m'.byte (Heap.payloadOffset t + k)

namespace SamePayload

variable {t : Ref}

theorem word (h : SamePayload m m' r t) {i width : Nat} (hi : i + width ≤ m.sizeAt r) :
    m'.word (Heap.payloadOffset t + i) width = m.word (Heap.payloadOffset r + i) width := by
  refine (word_congr fun k hk => ?_).symm
  rw [Nat.add_assoc, Nat.add_assoc]
  exact h.bytes (i + k) (by omega)

theorem lengthAt (h : SamePayload m m' r t) (h8 : 8 ≤ m.sizeAt r) :
    m'.lengthAt t = m.lengthAt r :=
  h.word (i := 0) (by omega)

theorem slotAt (h : SamePayload m m' r t) {i : Nat}
    (hi : slotOffset r.start i + slotWidth ≤ Heap.payloadOffset r + m.sizeAt r) :
    m'.slotAt t i = m.slotAt r i := by
  have hoffset : ∀ u : Ref, slotOffset u.start i = Heap.payloadOffset u + (8 + i * slotWidth) :=
    fun u => by
      rw [slotOffset, Heap.payloadOffset]
      omega
  rw [hoffset] at hi
  unfold Memory.slotAt
  rw [hoffset, hoffset]
  refine (value_congr fun k hk => ?_).symm
  generalize 8 + i * slotWidth = j at *
  rw [Nat.add_assoc, Nat.add_assoc]
  exact h.bytes (j + k) (by omega)

theorem stringAt (h : SamePayload m m' r t) (h8 : 8 ≤ m.sizeAt r)
    (hr : Heap.payloadOffset r + m.sizeAt r ≤ m.size)
    (ht : Heap.payloadOffset t + m.sizeAt r ≤ m'.size) : m'.stringAt t = m.stringAt r := by
  have e : ∀ u : Ref, Heap.payloadOffset u + m.sizeAt r =
      Heap.payloadOffset u + 8 + (m.sizeAt r - 8) := fun u => by omega
  rw [Memory.stringAt, Memory.stringAt, h.sizeAt, e, e]
  refine (extract_congr (by omega) (by omega) fun k hk => ?_).symm
  rw [Nat.add_assoc, Nat.add_assoc]
  exact h.bytes (8 + k) (by omega)

end SamePayload

/-- The object at a place of one memory is, byte for byte, at a place of another. -/
structure SameObject (m m' : Memory) (r t : Ref) : Prop where
  bytes : ∀ k, k < allocSize (m.sizeAt r) → m.byte (r.start + k) = m'.byte (t.start + k)
  inside : t.start + allocSize (m.sizeAt r) ≤ m'.size

namespace SameObject

variable {t : Ref}

theorem sizeAt (h : SameObject m m' r t) : m'.sizeAt t = m.sizeAt r := by
  refine (word_congr fun k hk => ?_).symm
  have hle := headerWidth_le_allocSize (m.sizeAt r)
  rw [headerWidth] at hle
  rw [Nat.add_assoc, Nat.add_assoc]
  exact h.bytes (4 + k) (by omega)

theorem payload (h : SameObject m m' r t) : SamePayload m m' r t where
  sizeAt := h.sizeAt
  bytes k hk := by
    have hle := le_allocSize (m.sizeAt r)
    rw [Heap.payloadOffset, Heap.payloadOffset, Nat.add_assoc, Nat.add_assoc]
    exact h.bytes (headerWidth + k) (by omega)

theorem isObject (h : SameObject m m' r t) (obj : m.IsObject s r) : m'.IsObject s t := by
  have hle := headerWidth_le_allocSize (m.sizeAt r)
  have hinside := obj.inside
  have hinside' := h.inside
  rw [endAt] at hinside
  refine .intro (n := m.sizeAt r) ?_ h.inside
  rw [← obj.header]
  exact (header?_congr (by omega) (by omega) fun k hk => h.bytes k (by omega)).symm

theorem lengthAt (h : SameObject m m' r t) (h8 : 8 ≤ m.sizeAt r) :
    m'.lengthAt t = m.lengthAt r :=
  h.payload.lengthAt h8

theorem slotAt (h : SameObject m m' r t) {i : Nat}
    (hi : slotOffset r.start i + slotWidth ≤ Heap.payloadOffset r + m.sizeAt r) :
    m'.slotAt t i = m.slotAt r i :=
  h.payload.slotAt hi

theorem stringAt (h : SameObject m m' r t) (obj : m.IsObject s r) (h8 : 8 ≤ m.sizeAt r) :
    m'.stringAt t = m.stringAt r := by
  have hle := le_allocSize (m.sizeAt r)
  have hinside := obj.inside
  have hinside' := h.inside
  rw [endAt] at hinside
  refine h.payload.stringAt h8 ?_ ?_ <;> rw [Heap.payloadOffset] <;> omega

theorem slotsAt (h : SameObject m m' r t) (obj : s = .string ∨ 8 ≤ m.sizeAt r) :
    m'.slotsAt t s = m.slotsAt r s := by
  cases s with
  | tuple =>
    rcases obj with h' | h8
    · cases h'
    · exact h.lengthAt h8
  | _ => rfl

theorem trans {m'' : Memory} {u : Ref} (h : SameObject m m' r t) (h' : SameObject m' m'' t u) :
    SameObject m m'' r u where
  bytes k hk := (h.bytes k hk).trans (h'.bytes k (by rwa [h.sizeAt]))
  inside := by
    have := h'.inside
    rwa [h.sizeAt] at this

end SameObject

theorem eight_le_sizeAt (typed : m.WellTyped r s) : 8 ≤ m.sizeAt r := by
  cases s with
  | string => exact Nat.le_trans (Nat.le_add_right 8 _) (Nat.le_of_eq typed.1.symm)
  | tuple =>
    have : m.sizeAt r = 8 + _ := typed
    omega
  | array | table =>
    have : m.sizeAt r = 24 := typed.1
    omega

end Memory

/-! ## Changes of a memory -/

namespace Memory

variable {m m₁ : Memory} {s s' : Shape} {r r' : Ref}

/-- Nothing but the payload of one object has changed. -/
structure Within (m m₁ : Memory) (r : Ref) : Prop where
  size : m₁.size = m.size
  before : SameOn m m₁ 0 (Heap.payloadOffset r)
  after : SameOn m m₁ (m.endAt r) m.size

theorem Within.sizeAt (h : Within m m₁ r) : m₁.sizeAt r = m.sizeAt r := by
  refine (word_congr fun k hk => ?_).symm
  exact h.before _ (Nat.zero_le _) (by rw [Heap.payloadOffset, headerWidth]; omega)

theorem Within.isObject (h : Within m m₁ r) (obj : m.IsObject s r) : m₁.IsObject s r := by
  have hinside := obj.inside
  have hle := headerWidth_le_allocSize (m.sizeAt r)
  rw [endAt] at hinside
  refine .intro (n := m.sizeAt r) ?_ (by rw [h.size]; exact hinside)
  rw [← obj.header]
  exact (header?_congr (by omega) (by rw [h.size]; omega) fun k hk =>
    h.before _ (Nat.zero_le _) (by rw [Heap.payloadOffset]; omega)).symm

/-- What has no byte in common with the object is as it was, whatever its kind. -/
theorem Within.sameObject_of_inside (h : Within m m₁ r) (inside : m.endAt r' ≤ m.size)
    (apart : m.Apart r r') : SameObject m m₁ r' r' where
  bytes k hk := by
    rw [endAt] at inside
    rcases apart with hafter | hbefore
    · exact h.after _ (by omega) (by omega)
    · refine h.before _ (Nat.zero_le _) ?_
      rw [endAt] at hbefore
      rw [Heap.payloadOffset]
      omega
  inside := by
    rw [h.size]
    exact inside

/-- The other objects are as they were. -/
theorem Within.sameObject (h : Within m m₁ r) (obj' : m.IsObject s' r')
    (apart : m.Apart r r') : SameObject m m₁ r' r' :=
  h.sameObject_of_inside obj'.inside apart

/-- All that has been there is as it was; something may have been added. -/
structure Extends (m m₁ : Memory) : Prop where
  size : m.size ≤ m₁.size
  bytes : SameOn m m₁ 0 m.size

theorem Extends.sameObject_of_inside (h : Extends m m₁) (inside : m.endAt r ≤ m.size) :
    SameObject m m₁ r r where
  bytes k hk := by
    rw [endAt] at inside
    exact h.bytes _ (Nat.zero_le _) (by omega)
  inside := Nat.le_trans inside h.size

theorem Extends.sameObject (h : Extends m m₁) (obj : m.IsObject s r) : SameObject m m₁ r r :=
  h.sameObject_of_inside obj.inside

theorem Extends.refl (m : Memory) : Extends m m := ⟨Nat.le_refl _, .refl _ _ _⟩

theorem Extends.trans {m₂ : Memory} (h : Extends m m₁) (h' : Extends m₁ m₂) : Extends m m₂ where
  size := Nat.le_trans h.size h'.size
  bytes := h.bytes.trans (h'.bytes.mono (Nat.le_refl _) h.size)

/-- A store that fits fits still if the tuples of the memory have kept their lengths. -/
theorem StoreFits.congr {v : Value} {n : Nat} (h : m.StoreFits v n)
    (hlength : ∀ t, v = .object .tuple t → m₁.lengthAt t = m.lengthAt t) :
    m₁.StoreFits v n := by
  unfold StoreFits at *
  split at h
  · exact h
  · rw [hlength _ rfl]
    exact h
  · exact h.elim

theorem SameObject.wellTyped (h : SameObject m m₁ r r') (obj : m.IsObject s r)
    (typed : m.WellTyped r s)
    (hlength : ∀ t i, i < m.slotsAt r s → m.slotAt r i = .object .tuple t →
      m₁.lengthAt t = m.lengthAt t) : m₁.WellTyped r' s := by
  have h8 := eight_le_sizeAt typed
  have hle := le_allocSize (m.sizeAt r)
  rw [headerWidth] at hle
  cases s with
  | string =>
    have hhash : m₁.word (Heap.payloadOffset r' + 0) 4 = m.word (Heap.payloadOffset r + 0) 4 :=
      h.payload.word (by omega)
    refine ⟨?_, ?_⟩
    · rw [h.sizeAt, h.payload.word (by omega)]
      exact typed.1
    · rw [h.stringAt obj h8, ← typed.2]
      exact hhash
  | tuple =>
    show m₁.sizeAt r' = _
    rw [h.sizeAt, h.lengthAt h8]
    exact typed
  | array | table =>
    refine ⟨h.sizeAt.trans typed.1, ?_⟩
    have hslot := h.slotAt (slot_inside typed (i := 0) Nat.one_pos)
    rw [hslot, h.lengthAt h8]
    exact typed.2.congr fun t ht => hlength t 0 Nat.one_pos ht

theorem SameObject.endAt (h : SameObject m m₁ r r) : m₁.endAt r = m.endAt r := by
  rw [Memory.endAt, Memory.endAt, h.sizeAt]

end Memory

/-! ## Writing slots and lengths -/

namespace Memory

variable {m : Memory} {s : Shape} {r : Ref}

section Slot

variable {i : Nat} (hslot : slotOffset r.start i + slotWidth ≤ Heap.payloadOffset r + m.sizeAt r)
  (v : Value)

include hslot

theorem within_storeSlot : Within m (m.storeValue (slotOffset r.start i) v) r where
  size := size_storeValue _ _ _
  before := (sameOn_storeValue (.inl (by
    rw [slotOffset, Heap.payloadOffset, headerWidth]
    omega))).symm
  after := (sameOn_storeValue (.inr (Nat.le_trans hslot (payload_le_endAt m r)))).symm

omit hslot in
theorem lengthAt_storeSlot : (m.storeValue (slotOffset r.start i) v).lengthAt r = m.lengthAt r :=
  (sameOn_storeValue (.inl (by
    rw [slotOffset, Heap.payloadOffset, headerWidth]
    omega))).word

theorem slotAt_storeSlot (obj : m.IsObject s r) (j : Nat) :
    (m.storeValue (slotOffset r.start i) v).slotAt r j = if j = i then v else m.slotAt r j := by
  have hinside := obj.inside
  have hpayload := payload_le_endAt m r
  by_cases h : j = i
  · subst h
    rw [if_pos rfl]
    exact value_storeValue (by omega)
  · rw [if_neg h]
    refine (sameOn_storeValue ?_).value
    rw [slotOffset, slotOffset, slotWidth]
    omega

end Slot

section Length

variable (n : Nat)

theorem within_storeLength (h8 : 8 ≤ m.sizeAt r) :
    Within m (m.store (Heap.payloadOffset r) 8 n) r where
  size := size_store _ _ _ _
  before := (sameOn_store (.inl (Nat.le_refl _))).symm
  after := (sameOn_store (.inr (by
    have := payload_le_endAt m r
    omega))).symm

theorem lengthAt_storeLength (h8 : 8 ≤ m.sizeAt r) (obj : m.IsObject s r) (h : n < 2 ^ 64) :
    (m.store (Heap.payloadOffset r) 8 n).lengthAt r = n := by
  have hinside := obj.inside
  have hpayload := payload_le_endAt m r
  rw [lengthAt, word_store (by omega)]
  exact Nat.mod_eq_of_lt h

theorem slotAt_storeLength (i : Nat) :
    (m.store (Heap.payloadOffset r) 8 n).slotAt r i = m.slotAt r i :=
  (sameOn_store (.inr (by
    rw [slotOffset, Heap.payloadOffset]
    omega))).value

end Length

/-- The lengths of tuples are small, since their sizes are. -/
theorem lengthAt_lt (typed : m.WellTyped r .tuple) : m.lengthAt r < 2 ^ 28 := by
  have hsize : m.sizeAt r = 8 + m.lengthAt r * 16 := typed
  have := sizeAt_lt m r
  omega

end Memory

end ActorMachine
