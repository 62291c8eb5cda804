import ActorMachine.Proofs.Transfer

/-!
# New objects

What reading the header of an object and allocating a new one come to (`Heap.header_eq`,
`HeapM.tryAlloc_eq`). A new object leaves what has been there as it was, and an isomorphism takes in
a pair of new objects that hold the same (`Iso.addObject`). The objects that the machine makes are
strings with their bytes, tuples of nils, and arrays and tables that hold nothing.
-/

namespace ActorMachine

open Memory

namespace Heap

variable {h : Heap} {s : Shape} {r : Ref}

theorem header_eq (obj : h.memory.IsObject s r) :
    h.header r = .ok ⟨.object s, h.memory.sizeAt r, none⟩ := by
  unfold header
  rw [obj.header]
  exact if_pos obj.inside

theorem expect_eq (obj : h.memory.IsObject s r) :
    h.expect r (.object s) = .ok ⟨.object s, h.memory.sizeAt r, none⟩ := by
  unfold expect
  rw [header_eq obj]
  exact if_pos rfl

theorem payload_eq (obj : h.memory.IsObject s r) :
    h.payload r =
      .ok (h.memory.extract (payloadOffset r) (payloadOffset r + h.memory.sizeAt r)) := by
  unfold payload
  rw [header_eq obj]
  rfl

end Heap

/-! ## Allocation -/

/-- The memory with a new object at its end. -/
def Memory.allocated (m : Memory) (kind : Kind) (size : Nat) : Memory :=
  (m.grow (allocSize size)).storeHeader m.size ⟨kind, size, none⟩

namespace Memory

variable {m : Memory} {s : Shape} {size : Nat} {p : Ref}

theorem size_allocated (m : Memory) (kind : Kind) (size : Nat) :
    (m.allocated kind size).size = m.size + allocSize size := by
  rw [allocated, size_storeHeader, size_grow]

theorem extends_allocated (m : Memory) (kind : Kind) (size : Nat) :
    Extends m (m.allocated kind size) where
  size := by
    rw [size_allocated]
    exact Nat.le_add_right _ _
  bytes i h1 h2 := by
    rw [allocated, sameOn_storeHeader (j := 0) (k := m.size) (.inl (Nat.le_refl _)) i h1 h2,
      byte_grow]

theorem header?_allocated (m : Memory) (kind : Kind) (hsize : size < 2 ^ 32) :
    (m.allocated kind size).header? m.size = some ⟨kind, size, none⟩ := by
  have hwidth := headerWidth_le_allocSize size
  refine header?_storeHeader ?_ hsize fun r h => nomatch h
  rw [size_grow]
  omega

theorem isObject_allocated (hp : p.start = m.size) (hsize : size < 2 ^ 32) :
    (m.allocated (.object s) size).IsObject s p := by
  refine .intro (n := size) ?_ ?_
  · rw [hp]
    exact header?_allocated m (.object s) hsize
  · exact Nat.le_of_eq (by rw [hp, size_allocated])

theorem sizeAt_allocated (hp : p.start = m.size) (hsize : size < 2 ^ 32) :
    (m.allocated (.object s) size).sizeAt p = size := by
  refine sizeAt_of_header (h := ⟨.object s, size, none⟩) ?_
  rw [hp]
  exact header?_allocated m (.object s) hsize

/-- The payload of a new object is zeros. -/
theorem byte_allocated (hp : p.start = m.size) (kind : Kind) (size k : Nat) :
    (m.allocated kind size).byte (Heap.payloadOffset p + k) = 0 := by
  have h : (m.allocated kind size).byte (Heap.payloadOffset p + k) =
      (m.grow (allocSize size)).byte (Heap.payloadOffset p + k) := by
    refine sameOn_storeHeader (j := Heap.payloadOffset p) (.inr ?_) _ (Nat.le_add_right _ k)
      (Nat.lt_succ_self _)
    exact Nat.le_of_eq (by rw [Heap.payloadOffset, hp])
  rw [h, byte_grow]
  refine byte_of_size_le ?_
  rw [Heap.payloadOffset, hp]
  omega

theorem word_eq_zero {i width : Nat} (h : ∀ k, k < width → m.byte (i + k) = 0) :
    m.word i width = 0 := by
  induction width generalizing i with
  | zero => rfl
  | succ width ih =>
    have hhead := h 0 (Nat.succ_pos _)
    rw [Nat.add_zero] at hhead
    rw [word, hhead, ih fun k hk => ?_]
    · rfl
    · rw [Nat.add_assoc, Nat.add_comm 1 k]
      exact h (k + 1) (by omega)

/-- A slot of zeros is nil. -/
theorem slotAt_eq_nil (h : ∀ k, m.byte (Heap.payloadOffset p + 8 + k) = 0) (i : Nat) :
    m.slotAt p i = .nil := by
  have hbyte : ∀ k, m.byte (slotOffset p.start i + k) = 0 := fun k => by
    rw [slotOffset, Nat.add_assoc]
    exact h (i * slotWidth + k)
  have hword : m.word (slotOffset p.start i + 8) 8 = 0 := word_eq_zero fun k _ => by
    rw [Nat.add_assoc]
    exact hbyte (8 + k)
  have hkind := hbyte 0
  rw [Nat.add_zero] at hkind
  rw [slotAt, value, hkind, hword]
  rfl

end Memory

namespace HeapM

variable {h : Heap} {kind : Kind} {size : Nat}

theorem tryAlloc_eq (hsize : size ≤ Heap.sizeLimit) (room : allocSize size ≤ h.free) :
    tryAlloc kind size h =
      .ok (Ref.ofNat h.used) { h with memory := h.memory.allocated kind size } := by
  unfold tryAlloc
  rw [if_neg (by omega)]
  rfl

theorem tryAlloc_error (h' : Heap.sizeLimit < size ∨ h.free < allocSize size) :
    tryAlloc kind size h = .error (.outOfMemory (allocSize size) h.maxCapacity) h := by
  unfold tryAlloc
  rw [if_pos h']

end HeapM

/-! ## New objects in isomorphic memories -/

/-- A new object at the end of a memory, with nils in its slots. -/
structure NewObject (m m₁ : Memory) (s : Shape) (p : Ref) : Prop where
  extends_ : Extends m m₁
  start : p.start = m.size
  isObject : m₁.IsObject s p
  typed : m₁.WellTyped p s
  slots : ∀ i, i < m₁.slotsAt p s → m₁.slotAt p i = .nil

/-- New objects have no byte in common with those that have been there. -/
theorem Laid.apart_end {P : Shape → Ref → Prop} {m m₁ : Memory} {p : Ref} (laid : Laid P m)
    (ext : Extends m m₁) (hp : m.size ≤ p.start) {s' : Shape} {r : Ref} (hr : P s' r) :
    r ≠ p ∧ m₁.Apart r p := by
  have same := ext.sameObject (laid.isObject hr)
  have hinside := (laid.isObject hr).inside
  have hlt := start_lt_endAt m r
  refine ⟨?_, .inl ?_⟩
  · rintro rfl
    omega
  · rw [same.endAt]
    omega

namespace Iso

variable {ρ : Matching} {m m' m₁ m₁' : Memory} {s : Shape} {p p' : Ref}

/-- The isomorphism of two objects that refer to nothing. -/
theorem single (obj : m.IsObject s p) (obj' : m'.IsObject s p') (typed : m.WellTyped p s)
    (typed' : m'.WellTyped p' s) (alike : AlikeObjects (.single s p p') m m' s p p') :
    Iso (.single s p p') m m' where
  unique := by
    rintro _ _ _ _ _ _ ⟨-, rfl, rfl⟩ ⟨-, rfl, rfl⟩
    exact ⟨fun _ => rfl, fun _ => rfl⟩
  left := by
    refine ⟨?_, ?_, ?_⟩
    · rintro _ _ ⟨_, rfl, rfl, rfl⟩
      exact obj
    · rintro _ _ ⟨_, rfl, rfl, rfl⟩
      exact typed
    · rintro _ _ _ _ ⟨_, -, rfl, -⟩ ⟨_, -, rfl, -⟩ hne
      exact absurd rfl hne
  right := by
    refine ⟨?_, ?_, ?_⟩
    · rintro _ _ ⟨_, rfl, rfl, rfl⟩
      exact obj'
    · rintro _ _ ⟨_, rfl, rfl, rfl⟩
      exact typed'
    · rintro _ _ _ _ ⟨_, -, -, rfl⟩ ⟨_, -, -, rfl⟩ hne
      exact absurd rfl hne
  alike := by
    rintro _ _ _ ⟨rfl, rfl, rfl⟩
    exact alike

/-- An isomorphism takes in two new objects that hold the same. -/
theorem addObject (iso : Iso ρ m m') (new : NewObject m m₁ s p) (new' : NewObject m' m₁' s p')
    (size : m₁.sizeAt p = m₁'.sizeAt p') (length : m₁.lengthAt p = m₁'.lengthAt p')
    (string : s = .string → m₁.stringAt p = m₁'.stringAt p') :
    Iso (ρ.union (.single s p p')) m₁ m₁' := by
  have alike : AlikeObjects (.single s p p') m₁ m₁' s p p' := by
    refine ⟨size, length, string, fun i hi => ?_⟩
    rw [new.slots i hi, new'.slots i (by rwa [← slotsAt_congr length])]
    exact .inline rfl
  refine (iso.extend new.extends_ new'.extends_).union
    (single new.isObject new'.isObject new.typed new'.typed alike) ?_ ?_
  · rintro s₁ r t _ _ _ hrt ⟨-, rfl, -⟩
    exact iso.left.apart_end new.extends_ (Nat.le_of_eq new.start.symm) ⟨t, hrt⟩
  · rintro s₁ r t _ _ _ hrt ⟨-, -, rfl⟩
    exact iso.right.apart_end new'.extends_ (Nat.le_of_eq new'.start.symm) ⟨r, hrt⟩

end Iso

/-! ## The objects that the machine makes -/

section Making

variable {m : Memory} {s : Shape} {p : Ref}

/-- An array or a table that holds nothing. -/
theorem newObject_container (hs : s = .array ∨ s = .table) (hp : p.start = m.size) :
    NewObject m (m.allocated (.object s) Heap.containerSize) s p ∧
      (m.allocated (.object s) Heap.containerSize).lengthAt p = 0 := by
  have hzero := byte_allocated hp (.object s) Heap.containerSize
  have hslots := slotAt_eq_nil (p := p) fun k => by
    rw [Nat.add_assoc]
    exact hzero (8 + k)
  have hlength : (m.allocated (.object s) Heap.containerSize).lengthAt p = 0 :=
    word_eq_zero fun k _ => hzero k
  refine ⟨⟨extends_allocated _ _ _, hp, isObject_allocated hp (by decide), ?_,
    fun i _ => hslots i⟩, hlength⟩
  rcases hs with rfl | rfl
  · refine ⟨sizeAt_allocated hp (by decide), ?_⟩
    rw [hslots, hlength]
    rfl
  · refine ⟨sizeAt_allocated hp (by decide), ?_⟩
    rw [hslots, hlength]
    rfl

/-- What the payload of a new object is set to has no part in the objects that have been there. -/
theorem extends_of_within {m₁ m₂ : Memory} (ext : Extends m m₁) (within : Within m₁ m₂ p)
    (hp : p.start = m.size) : Extends m m₂ where
  size := by
    rw [within.size]
    exact ext.size
  bytes i h1 h2 := by
    rw [ext.bytes i h1 h2]
    refine within.before i h1 ?_
    rw [Heap.payloadOffset]
    omega

/-- A tuple of nils. -/
theorem newObject_tuple {m₁ : Memory} {n : Nat} (ext : Extends m m₁) (hp : p.start = m.size)
    (obj : m₁.IsObject .tuple p) (hsize : m₁.sizeAt p = Heap.tupleSize n)
    (zero : ∀ k, m₁.byte (Heap.payloadOffset p + k) = 0) :
    NewObject m (m₁.store (Heap.payloadOffset p) 8 n) .tuple p ∧
      (m₁.store (Heap.payloadOffset p) 8 n).lengthAt p = n := by
  have h8 : 8 ≤ m₁.sizeAt p := hsize ▸ Nat.le_add_right _ _
  have hlt := sizeAt_lt m₁ p
  have within := within_storeLength (r := p) n h8
  have hlength := lengthAt_storeLength n h8 obj (by
    rw [hsize, Heap.tupleSize, slotWidth] at hlt
    omega)
  have hslots := slotAt_eq_nil (p := p) fun k => by
    rw [Nat.add_assoc]
    exact zero (8 + k)
  have typed : (m₁.store (Heap.payloadOffset p) 8 n).WellTyped p .tuple :=
    within.sizeAt.trans (hsize.trans (congrArg Heap.tupleSize hlength.symm))
  exact ⟨⟨extends_of_within ext within hp, hp, within.isObject obj, typed, fun i _ =>
    (slotAt_storeLength n i).trans (hslots i)⟩, hlength⟩

/-- The payload of a string. -/
def Memory.withString (m : Memory) (p : Ref) (bytes : ByteArray) : Memory :=
  ((m.store (Heap.payloadOffset p) 4 (hashBytes bytes).toNat).store (Heap.payloadOffset p + 4) 4
    bytes.size).storeBytes (Heap.payloadOffset p + 8) bytes

/-- The hash and the length of a string are the halves of the first word of its payload. -/
theorem Memory.lengthAt_eq_add (m : Memory) (r : Ref) :
    m.lengthAt r = m.word (Heap.payloadOffset r) 4 +
      256 ^ 4 * m.word (Heap.payloadOffset r + 4) 4 := word_add m _ 4 4

section WithString

variable {bytes : ByteArray} (room : Heap.payloadOffset p + Heap.stringSize bytes.size ≤ m.size)

include room

theorem size_withString : (m.withString p bytes).size = m.size := by
  rw [Heap.stringSize] at room
  rw [withString, size_storeBytes (by rw [size_store, size_store]; omega), size_store, size_store]

theorem byte_withString_of_outside {i : Nat}
    (h : i < Heap.payloadOffset p ∨ Heap.payloadOffset p + Heap.stringSize bytes.size ≤ i) :
    (m.withString p bytes).byte i = m.byte i := by
  rw [Heap.stringSize] at room h
  rw [withString, byte_storeBytes (by rw [size_store, size_store]; omega), if_neg (by omega),
    byte_store_of_outside (by omega), byte_store_of_outside (by omega)]

end WithString

/-- Filling in a string changes nothing but its payload. -/
theorem within_withString {bytes : ByteArray} (obj : m.IsObject .string p)
    (hsize : m.sizeAt p = Heap.stringSize bytes.size) : Within m (m.withString p bytes) p := by
  have hinside := obj.inside
  have hpayload := payload_le_endAt m p
  rw [hsize] at hpayload
  have room := Nat.le_trans hpayload hinside
  exact ⟨size_withString room, fun i _ hi => (byte_withString_of_outside room (.inl hi)).symm,
    fun i hi _ => (byte_withString_of_outside room (.inr (Nat.le_trans hpayload hi))).symm⟩

/-- A string with its bytes. -/
theorem newObject_string {m₁ : Memory} {bytes : ByteArray} (ext : Extends m m₁)
    (hp : p.start = m.size) (obj : m₁.IsObject .string p)
    (hsize : m₁.sizeAt p = Heap.stringSize bytes.size) :
    NewObject m (m₁.withString p bytes) .string p ∧
      (m₁.withString p bytes).size = m₁.size ∧
      (m₁.withString p bytes).sizeAt p = Heap.stringSize bytes.size ∧
      (m₁.withString p bytes).lengthAt p = (hashBytes bytes).toNat + 256 ^ 4 * bytes.size ∧
      (m₁.withString p bytes).stringAt p = bytes := by
  have within := within_withString obj hsize
  have hinside := obj.inside
  have hpayload := payload_le_endAt m₁ p
  have hlt := sizeAt_lt m₁ p
  rw [hsize, Heap.stringSize] at hpayload hlt
  generalize ho : Heap.payloadOffset p = o at *
  generalize hm : (m₁.store o 4 (hashBytes bytes).toNat).store (o + 4) 4 bytes.size = m₂
  have hm₂ : m₂.size = m₁.size := by rw [← hm, size_store, size_store]
  have hroom : o + 8 + bytes.size ≤ m₂.size := by omega
  have hbyte := byte_storeBytes hroom
  have hm₃ : m₁.withString p bytes = m₂.storeBytes (o + 8) bytes := by rw [withString, ho, hm]
  rw [hm₃] at within ⊢
  clear hm₃
  generalize m₂.storeBytes (o + 8) bytes = m₃ at *
  -- The hash, the length and the bytes lie one behind the other, and what is written later spares
  -- the rest.
  have hhash : m₃.word o 4 = (hashBytes bytes).toNat := by
    have hsame : m₃.word o 4 = (m₁.store o 4 (hashBytes bytes).toNat).word o 4 :=
      word_congr fun k hk => by
        rw [hbyte, if_neg (by omega), ← hm, byte_store_of_outside (by omega)]
    rw [hsame, word_store (by omega)]
    exact Nat.mod_eq_of_lt (hashBytes bytes).toNat_lt
  have hcount : m₃.word (o + 4) 4 = bytes.size := by
    have hsame : m₃.word (o + 4) 4 = m₂.word (o + 4) 4 :=
      word_congr fun k hk => by rw [hbyte, if_neg (by omega)]
    rw [hsame, ← hm, word_store (by rw [size_store]; omega)]
    exact Nat.mod_eq_of_lt (by omega)
  have hsizeAt : m₃.sizeAt p = Heap.stringSize bytes.size :=
    within.sizeAt.trans hsize
  have hstring : m₃.stringAt p = bytes := by
    rw [stringAt, hsizeAt, ho, Heap.stringSize, ← Nat.add_assoc]
    have hsize₃ := within.size
    have hsame : m₃.extract (o + 8) (o + 8 + bytes.size) = bytes.extract 0 (0 + bytes.size) :=
      extract_congr (by omega) (by omega) fun k hk => by
        rw [hbyte, if_pos (by omega), Nat.zero_add]
        congr 1
        omega
    rw [hsame, Nat.zero_add]
    exact ByteArray.extract_zero_size
  refine ⟨⟨extends_of_within ext within hp, hp, within.isObject obj, ⟨?_, ?_⟩, fun i hi => ?_⟩,
    within.size, hsizeAt, ?_, hstring⟩
  · rw [hsizeAt, ho, hcount]
  · rw [hstring, ho, hhash]
  · exact absurd hi (Nat.not_lt_zero i)
  · rw [lengthAt_eq_add, ho, hhash, hcount]

end Making

namespace HeapM

variable {h : Heap} {r : Ref}

theorem initString_eq {bytes : ByteArray} (obj : h.memory.IsObject .string r)
    (hsize : h.memory.sizeAt r = Heap.stringSize bytes.size) :
    initString r bytes h = .ok () { h with memory := h.memory.withString r bytes } := by
  simp only [initString, read, write, bind, EStateM.bind, Heap.expect_eq obj, hsize, ne_eq,
    not_true_eq_false, if_false]
  rfl

theorem initTuple_eq {n : Nat} (obj : h.memory.IsObject .tuple r)
    (hsize : h.memory.sizeAt r = Heap.tupleSize n) :
    initTuple r n h =
      .ok () { h with memory := h.memory.store (Heap.payloadOffset r) 8 n } := by
  simp only [initTuple, read, write, bind, EStateM.bind, Heap.expect_eq obj, hsize, ne_eq,
    not_true_eq_false, if_false]
  rfl

end HeapM

end ActorMachine
