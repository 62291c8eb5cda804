import ActorMachine.Proofs.Collections
import ActorMachine.Proofs.HeapWrites

/-!
# Objects side by side

The objects of a heap lie one after the other, without a gap (`Memory.Tiled`). A new one is put at
the end of them (`Heap.Gains`). Whatever is written to an object stays within its payload, so the
others keep their headers and their payloads (`Heap.Updates`). `Heap.objects_framed` is what follows
for allocating, for filling in strings and tuples, for the elements of a tuple, and for the length
and the store of an array.
-/

namespace ActorMachine

open Memory

namespace Memory

/-- From an offset on a memory is nothing but the given objects, whatever their kinds: each begins
where the one before it ends, the last one ends where the memory does, and none of them has
moved. -/
def Tiled (m : Memory) : Nat → List Ref → Prop
  | start, [] => start = m.size
  | start, r :: refs =>
    r.start = start ∧ (∃ kind, m.header? r.start = some ⟨kind, m.sizeAt r, none⟩) ∧
      Tiled m (m.endAt r) refs

namespace Tiled

variable {m m₁ : Memory} {start : Nat} {refs more : List Ref} {r t p : Ref}

theorem le_size (h : m.Tiled start refs) : start ≤ m.size := by
  induction refs generalizing start with
  | nil => exact Nat.le_of_eq h
  | cons r refs ih =>
    have hlt := start_lt_endAt m r
    have hle := ih h.2.2
    have hstart := h.1
    omega

theorem header (h : m.Tiled start refs) (hr : r ∈ refs) :
    ∃ kind, m.header? r.start = some ⟨kind, m.sizeAt r, none⟩ := by
  induction refs generalizing start with
  | nil => cases hr
  | cons t refs ih =>
    rcases List.mem_cons.mp hr with rfl | hr
    · exact h.2.1
    · exact ih h.2.2 hr

theorem bounds (h : m.Tiled start refs) (hr : r ∈ refs) : start ≤ r.start ∧ m.endAt r ≤ m.size := by
  induction refs generalizing start with
  | nil => cases hr
  | cons t refs ih =>
    rcases List.mem_cons.mp hr with rfl | hr
    · exact ⟨Nat.le_of_eq h.1.symm, le_size h.2.2⟩
    · have hlt := start_lt_endAt m t
      obtain ⟨hle, hinside⟩ := ih h.2.2 hr
      have hstart := h.1
      exact ⟨by omega, hinside⟩

/-- Two of the objects have no byte in common. -/
theorem apart (h : m.Tiled start refs) (hr : r ∈ refs) (ht : t ∈ refs) (hne : r ≠ t) :
    m.Apart r t := by
  induction refs generalizing start with
  | nil => cases hr
  | cons u refs ih =>
    rcases List.mem_cons.mp hr with rfl | hr'
    · rcases List.mem_cons.mp ht with rfl | ht'
      · exact absurd rfl hne
      · exact .inl (bounds h.2.2 ht').1
    · rcases List.mem_cons.mp ht with rfl | ht'
      · exact .inr (bounds h.2.2 hr').1
      · exact ih h.2.2 hr' ht'

/-- What lies where depends on the headers only, so more objects may follow in another memory. -/
theorem graft (h : m.Tiled start refs)
    (headers : ∀ r ∈ refs, m₁.header? r.start = m.header? r.start)
    (rest : m₁.Tiled m.size more) : m₁.Tiled start (refs ++ more) := by
  induction refs generalizing start with
  | nil =>
    have hstart : start = m.size := h
    rwa [hstart]
  | cons r refs ih =>
    obtain ⟨hstart, ⟨kind, hheader⟩, htail⟩ := h
    have hheader₁ := (headers r List.mem_cons_self).trans hheader
    have hsize : m₁.sizeAt r = m.sizeAt r := sizeAt_of_header hheader₁
    refine ⟨hstart, ⟨kind, ?_⟩, ?_⟩
    · rwa [hsize]
    · rw [endAt, hsize]
      exact ih htail fun t ht => headers t (List.mem_cons_of_mem r ht)

theorem isObject (h : m.Tiled start refs) (hr : r ∈ refs) {s : Shape} {size : Nat}
    (header : m.header? r.start = some ⟨.object s, size, none⟩) : m.IsObject s r := by
  have hsize : m.sizeAt r = size := sizeAt_of_header header
  exact ⟨by rw [header, hsize], (h.bounds hr).2⟩

end Tiled

/-- The first bytes of a memory. -/
theorem extends_extract {m : Memory} {n : Nat} (h : n ≤ m.size) : Extends (m.extract 0 n) m where
  size := by
    rw [size_extract_of_le h]
    omega
  bytes i _ hi := by
    rw [size_extract_of_le h] at hi
    rw [byte_extract h hi, Nat.zero_add]

/-- A header is what its bytes are, as long as the object lies in both memories. -/
theorem SameObject.header? {m m₁ : Memory} {r t : Ref} (h : SameObject m m₁ r t)
    (inside : m.endAt r ≤ m.size) :
    m₁.header? t.start = m.header? r.start := by
  have hwidth := headerWidth_le_allocSize (m.sizeAt r)
  have hinside : t.start + allocSize (m.sizeAt r) ≤ m₁.size := h.inside
  have hin : r.start + allocSize (m.sizeAt r) ≤ m.size := inside
  exact (header?_congr (by omega) (by omega) fun k hk => h.bytes k (by omega)).symm

theorem Within.header? {m m₁ : Memory} {r : Ref} (h : Within m m₁ r) (inside : m.endAt r ≤ m.size) :
    m₁.header? r.start = m.header? r.start := by
  have hwidth := headerWidth_le_allocSize (m.sizeAt r)
  have hsize := h.size
  have hin : r.start + allocSize (m.sizeAt r) ≤ m.size := inside
  refine (header?_congr (by omega) (by omega) fun k hk => ?_).symm
  exact h.before _ (Nat.zero_le _) (by rw [Heap.payloadOffset]; omega)

end Memory

namespace Heap

variable {h h' : Heap} {refs : List Ref} {r : Ref} {s : Shape}

/-- An object is added at the end of the others. -/
structure Gains (h : Heap) (refs : List Ref) (p : Ref) (kind : Kind) (size : Nat)
    (h' : Heap) : Prop where
  same : h' = { h with memory := h'.memory }
  bounded : h'.Bounded
  start : p.start = h.used
  used : h'.used = h.used + allocSize size
  extends_ : Extends h.memory h'.memory
  header : h'.memory.header? p.start = some ⟨kind, size, none⟩
  zeros : ∀ k, h'.memory.byte (payloadOffset p + k) = 0
  tiled : h'.memory.Tiled 0 (refs ++ [p])

/-- Bytes from `lo` up to `hi`, which belong to the payload of `r`, are overwritten. -/
structure Updates (h : Heap) (refs : List Ref) (r : Ref) (lo hi : Nat) (h' : Heap) : Prop where
  same : h' = { h with memory := h'.memory }
  used : h'.used = h.used
  bytes : ∀ i, i < lo ∨ hi ≤ i → h'.memory.byte i = h.memory.byte i
  headers : ∀ t ∈ refs, h'.memory.header? t.start = h.memory.header? t.start
  payloads : ∀ t ∈ refs, t ≠ r → h'.payload t = h.payload t
  tiled : h'.memory.Tiled 0 refs

theorem header_of_tiled (tiled : h.memory.Tiled 0 refs) (hr : r ∈ refs) {hd : ObjectHeader}
    (header : h.memory.header? r.start = some hd) : h.header r = .ok hd := by
  have hinside := (tiled.bounds hr).2
  rw [endAt, sizeAt_of_header header] at hinside
  unfold Heap.header
  rw [header]
  exact if_pos hinside

theorem payload_of_tiled (tiled : h.memory.Tiled 0 refs) (hr : r ∈ refs) :
    h.payload r = .ok (h.memory.extract (payloadOffset r)
      (payloadOffset r + h.memory.sizeAt r)) := by
  obtain ⟨kind, hheader⟩ := tiled.header hr
  unfold payload
  rw [header_of_tiled tiled hr hheader]
  rfl

/-- An object of another kind is told apart. -/
theorem expect_of_tiled (tiled : h.memory.Tiled 0 refs) (hr : r ∈ refs)
    (obj : ¬h.memory.IsObject s r) :
    ∃ e, h.expect r (.object s) = .error e := by
  obtain ⟨kind, hheader⟩ := tiled.header hr
  have hkind : kind ≠ .object s := by
    rintro rfl
    exact obj (tiled.isObject hr hheader)
  refine ⟨.kindMismatch (.object s) kind, ?_⟩
  unfold expect
  rw [header_of_tiled tiled hr hheader]
  exact if_neg hkind

/-- What is written within a payload leaves the rest as it is. -/
theorem Updates.intro {lo hi : Nat} {m : Memory} (tiled : h.memory.Tiled 0 refs) (hr : r ∈ refs)
    (size : m.size = h.memory.size) (bytes : ∀ i, i < lo ∨ hi ≤ i → m.byte i = h.memory.byte i)
    (hlo : payloadOffset r ≤ lo) (hhi : hi ≤ h.memory.endAt r) :
    h.Updates refs r lo hi { h with memory := m } := by
  have within : Within h.memory m r :=
    ⟨size, fun i _ hi => (bytes i (.inl (by omega))).symm,
      fun i hi _ => (bytes i (.inr (by omega))).symm⟩
  have others : ∀ t ∈ refs, t ≠ r → SameObject h.memory m t t := fun t ht hne =>
    within.sameObject_of_inside (tiled.bounds ht).2 (tiled.apart hr ht hne.symm)
  have headers : ∀ t ∈ refs, m.header? t.start = h.memory.header? t.start := by
    intro t ht
    by_cases hne : t = r
    · rw [hne]
      exact within.header? (tiled.bounds hr).2
    · exact (others t ht hne).header? (tiled.bounds ht).2
  have tiled' : m.Tiled 0 refs := by
    have rest : m.Tiled h.memory.size [] := size.symm
    have kept := tiled.graft headers rest
    rwa [List.append_nil] at kept
  refine ⟨rfl, size, bytes, headers, fun t ht hne => ?_, tiled'⟩
  have same := others t ht hne
  have hpayload := payload_le_endAt h.memory t
  have hinside := (tiled.bounds ht).2
  rw [payload_of_tiled tiled ht, payload_of_tiled (h := { h with memory := m }) tiled' ht]
  show Except.ok (m.extract _ (_ + m.sizeAt t)) = _
  rw [same.sizeAt]
  refine congrArg Except.ok (extract_congr (by omega) (by omega) fun k hk => ?_).symm
  exact same.payload.bytes k hk

theorem gains_allocated (bounded : h.Bounded) (tiled : h.memory.Tiled 0 refs) (kind : Kind)
    {size : Nat} (hsize : size ≤ sizeLimit) (room : allocSize size ≤ h.free) :
    h.Gains refs (Ref.ofNat h.used) kind size
      { h with memory := h.memory.allocated kind size } := by
  have hstart : (Ref.ofNat h.used).start = h.used := Ref.start_ofNat bounded.used_le_limit
  have hused := size_allocated h.memory kind size
  have ext := extends_allocated h.memory kind size
  have hheader : (h.memory.allocated kind size).header? (Ref.ofNat h.used).start =
      some ⟨kind, size, none⟩ := by
    rw [hstart]
    exact header?_allocated h.memory kind (Nat.lt_succ_of_le hsize)
  have hsizeAt := sizeAt_of_header hheader
  refine ⟨rfl, ⟨?_, bounded.capacity_le, bounded.max_le⟩, hstart, hused, ext, hheader,
    byte_allocated hstart kind size, tiled.graft (fun t ht => ?_) ⟨hstart, ⟨kind, ?_⟩, ?_⟩⟩
  · show (h.memory.allocated kind size).size ≤ h.capacity
    have hfull : h.memory.size ≤ h.capacity := bounded.used_le
    rw [free, used] at room
    omega
  · exact (ext.sameObject_of_inside (tiled.bounds ht).2).header? (tiled.bounds ht).2
  · rw [hheader, hsizeAt]
  · show (h.memory.allocated kind size).endAt _ = _
    rw [endAt, hstart, hsizeAt, hused, used]

end Heap

/-! ## What the operations change -/

namespace HeapM

open Heap

variable {h : Heap} {refs : List Ref} {r : Ref}

/-- An object is allocated if and only if there is room for it. -/
theorem ends_tryAlloc (bounded : h.Bounded) (tiled : h.memory.Tiled 0 refs) (kind : Kind)
    (size : Nat) :
    Ends (tryAlloc kind size) h
      (fun p h' => (size ≤ sizeLimit ∧ allocSize size ≤ h.free) ∧ h.Gains refs p kind size h')
      fun e h' => ¬(size ≤ sizeLimit ∧ allocSize size ≤ h.free) ∧
        e = .outOfMemory (allocSize size) h.maxCapacity ∧ h' = h := by
  by_cases room : size ≤ sizeLimit ∧ allocSize size ≤ h.free
  · exact .returns (tryAlloc_eq room.1 room.2)
      ⟨room, gains_allocated bounded tiled kind room.1 room.2⟩
  · exact .fails (tryAlloc_error (by omega)) ⟨room, rfl, rfl⟩

theorem initString_error {bytes : ByteArray} (obj : h.memory.IsObject .string r)
    (hsize : h.memory.sizeAt r ≠ stringSize bytes.size) :
    initString r bytes h = .error (.invalidRef r) h := by
  unfold initString
  rw [bind_of_ok (read_ok (expect_eq obj)), if_pos hsize]
  rfl

theorem initTuple_error {n : Nat} (obj : h.memory.IsObject .tuple r)
    (hsize : h.memory.sizeAt r ≠ tupleSize n) : initTuple r n h = .error (.invalidRef r) h := by
  unfold initTuple
  rw [bind_of_ok (read_ok (expect_eq obj)), if_pos hsize]
  rfl

/-- A string is filled in if and only if the object has just the room for its bytes. -/
theorem ends_initString (tiled : h.memory.Tiled 0 refs) (hr : r ∈ refs) (bytes : ByteArray) :
    Ends (initString r bytes) h
      (fun _ h' => (h.memory.IsObject .string r ∧ h.memory.sizeAt r = stringSize bytes.size) ∧
        h.Updates refs r (payloadOffset r) (payloadOffset r + stringSize bytes.size) h' ∧
        h'.memory.WellTyped r .string ∧ h'.stringBytes r = .ok bytes)
      fun _ h' => ¬(h.memory.IsObject .string r ∧ h.memory.sizeAt r = stringSize bytes.size) ∧
        h' = h := by
  by_cases obj : h.memory.IsObject .string r
  · by_cases hsize : h.memory.sizeAt r = stringSize bytes.size
    · have hstart := Nat.le_trans (Nat.le_of_lt (start_lt_endAt h.memory r)) obj.inside
      obtain ⟨new, -, -, -, hstring⟩ := newObject_string (extends_extract hstart)
        (by rw [size_extract_of_le hstart, Nat.sub_zero]) obj hsize
      have hend := payload_le_endAt h.memory r
      rw [hsize] at hend
      have room := Nat.le_trans hend obj.inside
      refine .returns (initString_eq obj hsize) ⟨⟨obj, hsize⟩, ?_, new.typed, ?_⟩
      · exact .intro tiled hr (size_withString room) (fun i => byte_withString_of_outside room)
          (Nat.le_refl _) hend
      · rw [stringBytes_eq new.isObject, hstring]
    · exact .fails (initString_error obj hsize) ⟨fun h' => hsize h'.2, rfl⟩
  · obtain ⟨e, he⟩ := expect_of_tiled tiled hr obj
    exact .fails (bind_of_error (read_error he)) ⟨fun h' => obj h'.1, rfl⟩

/-- The length of a tuple is recorded if and only if the object has just the room for so many
elements. -/
theorem ends_initTuple (tiled : h.memory.Tiled 0 refs) (hr : r ∈ refs) (n : Nat) :
    Ends (initTuple r n) h
      (fun _ h' => (h.memory.IsObject .tuple r ∧ h.memory.sizeAt r = tupleSize n) ∧
        h.Updates refs r (payloadOffset r) (payloadOffset r + 8) h' ∧
        h'.memory.WellTyped r .tuple ∧ h'.tupleLength r = .ok n)
      fun _ h' => ¬(h.memory.IsObject .tuple r ∧ h.memory.sizeAt r = tupleSize n) ∧ h' = h := by
  by_cases obj : h.memory.IsObject .tuple r
  · by_cases hsize : h.memory.sizeAt r = tupleSize n
    · have h8 : 8 ≤ h.memory.sizeAt r := hsize ▸ Nat.le_add_right _ _
      have hend := payload_le_endAt h.memory r
      have hlt := sizeAt_lt h.memory r
      rw [hsize, tupleSize, slotWidth] at hlt
      have within := within_storeLength (r := r) n h8
      have obj' : ({ h with memory := h.memory.store (payloadOffset r) 8 n } : Heap).memory.IsObject
          .tuple r :=
        within.isObject obj
      have hlength := lengthAt_storeLength n h8 obj (by omega)
      refine .returns (initTuple_eq obj hsize) ⟨⟨obj, hsize⟩, ?_, ?_, ?_⟩
      · exact .intro tiled hr (size_store _ _ _ _) (fun i => byte_store_of_outside)
          (Nat.le_refl _) (by omega)
      · exact within.sizeAt.trans (hsize.trans (congrArg tupleSize hlength.symm))
      · rw [tupleLength_eq obj', hlength]
    · exact .fails (initTuple_error obj hsize) ⟨fun h' => hsize h'.2, rfl⟩
  · obtain ⟨e, he⟩ := expect_of_tiled tiled hr obj
    exact .fails (bind_of_error (read_error he)) ⟨fun h' => obj h'.1, rfl⟩

/-- Overwriting a slot changes sixteen bytes, and leaves the other slots and the length of the
object. -/
theorem updates_storeSlot (tiled : h.memory.Tiled 0 refs) (hr : r ∈ refs) {i : Nat}
    (hslot : slotOffset r.start i + slotWidth ≤ payloadOffset r + h.memory.sizeAt r) (v : Value) :
    h.Updates refs r (slotOffset r.start i) (slotOffset r.start i + slotWidth)
      { h with memory := h.memory.storeValue (slotOffset r.start i) v } := by
  have hend := payload_le_endAt h.memory r
  refine .intro tiled hr (size_storeValue _ _ _) (fun j hj => ?_) ?_ (by omega)
  · rcases hj with hj | hj
    · exact sameOn_storeValue (j := j) (k := j + 1) (.inl hj) j (Nat.le_refl j) (Nat.lt_succ_self j)
    · exact sameOn_storeValue (j := j) (k := j + 1) (.inr hj) j (Nat.le_refl j) (Nat.lt_succ_self j)
  · rw [slotOffset, payloadOffset]
    omega

/-- An element of a tuple is replaced, and nothing else. -/
theorem tupleSet_framed (tiled : h.memory.Tiled 0 refs) (hr : r ∈ refs)
    (obj : h.memory.IsObject .tuple r) (typed : h.memory.WellTyped r .tuple) {i : Int}
    (hi : 0 ≤ i ∧ i < h.memory.lengthAt r) (v : Value) :
    ∃ h', tupleSet r i v h = .ok () h' ∧
      h.Updates refs r (slotOffset r.start i.toNat) (slotOffset r.start i.toNat + slotWidth) h' ∧
      h'.tupleLength r = h.tupleLength r ∧
      ∀ j, h'.tupleGet r j = if j = i then .ok v else h.tupleGet r j := by
  have hslot := slot_inside typed (show i.toNat < h.memory.slotsAt r .tuple from by
    show i.toNat < h.memory.lengthAt r
    omega)
  have obj' : ({ h with memory := h.memory.storeValue (slotOffset r.start i.toNat) v } :
    Heap).memory.IsObject .tuple r := (within_storeSlot hslot v).isObject obj
  have hlength := lengthAt_storeSlot (m := h.memory) (r := r) (i := i.toNat) v
  refine ⟨_, by rw [tupleSet_eq obj,
    if_pos hi], updates_storeSlot tiled hr hslot v, ?_, fun j => ?_⟩
  · rw [tupleLength_eq obj', tupleLength_eq obj, hlength]
  · rw [tupleGet_eq obj', tupleGet_eq obj, hlength, slotAt_storeSlot hslot v obj]
    by_cases hj : 0 ≤ j ∧ j < h.memory.lengthAt r
    · have hsame : j.toNat = i.toNat ↔ j = i := by omega
      rw [if_pos hj]
      simp only [hsame]
      split <;> simp
    · have hne : j ≠ i := by
        rintro rfl
        exact hj hi
      rw [if_neg hj, if_neg hne, if_neg hj]

/-- The length of an array is recorded in 64 bits, and its store stays. -/
theorem setArrayLength_framed (tiled : h.memory.Tiled 0 refs) (hr : r ∈ refs)
    (obj : h.memory.IsObject .array r) (hsize : h.memory.sizeAt r = containerSize) (n : Nat) :
    ∃ h', setArrayLength r n h = .ok () h' ∧
      h.Updates refs r (payloadOffset r) (payloadOffset r + 8) h' ∧
      h'.arrayLength r = .ok (n % 2 ^ 64) ∧ h'.arrayStore r = h.arrayStore r := by
  have h8 : 8 ≤ h.memory.sizeAt r := hsize ▸ Nat.le_add_right _ _
  have hend := payload_le_endAt h.memory r
  have hinside := obj.inside
  have obj' : ({ h with memory := h.memory.store (payloadOffset r) 8 n } : Heap).memory.IsObject
      .array r :=
    (within_storeLength n h8).isObject obj
  refine ⟨_, setArrayLength_eq obj n, ?_, ?_, ?_⟩
  · exact .intro tiled hr (size_store _ _ _ _) (fun i => byte_store_of_outside)
      (Nat.le_refl _) (by omega)
  · rw [arrayLength_eq obj']
    exact congrArg Except.ok (word_store (by omega))
  · rw [arrayStore_eq obj', arrayStore_eq obj, slotAt_storeLength]

/-- An array gets a store, and its length stays. -/
theorem setArrayStore_framed (tiled : h.memory.Tiled 0 refs) (hr : r ∈ refs)
    (obj : h.memory.IsObject .array r) (hsize : h.memory.sizeAt r = containerSize) {u : Ref}
    (store : h.memory.IsObject .tuple u) :
    ∃ h', setArrayStore r u h = .ok () h' ∧
      h.Updates refs r (slotOffset r.start 0) (slotOffset r.start 0 + slotWidth) h' ∧
      h'.arrayStore r = .ok (some u) ∧ h'.arrayLength r = h.arrayLength r := by
  have hslot : slotOffset r.start 0 + slotWidth ≤ payloadOffset r + h.memory.sizeAt r := by
    rw [slotOffset, payloadOffset, hsize, containerSize]
    omega
  have obj' : ({ h with memory := h.memory.storeValue (slotOffset r.start 0) (.object .tuple u) } :
      Heap).memory.IsObject .array r := (within_storeSlot hslot (.object .tuple u)).isObject obj
  refine ⟨_, setArrayStore_eq obj store, updates_storeSlot tiled hr hslot _, ?_, ?_⟩
  · rw [arrayStore_eq obj', slotAt_storeSlot hslot _ obj, if_pos rfl]
    rfl
  · rw [arrayLength_eq obj', arrayLength_eq obj, lengthAt_storeSlot]

end HeapM

/-- Where the objects of a heap lie side by side, they still do after every operation on one of
them, whether it succeeds or fails, and a failure changes nothing.

An object is allocated at the end. Filling in a string or a tuple writes to its payload only. In a
tuple of `n` elements, the element with an index from 0 up to `n` can be replaced by any value,
which is then read there; its slot is all that has changed. Every other index is refused, for
reading and for writing. Recording the length of an array or giving it a store changes this one
field. -/
theorem Heap.objects_framed {h : Heap} {refs : List Ref} (bounded : h.Bounded)
    (tiled : h.memory.Tiled 0 refs) :
    (∀ kind size, Ends (HeapM.tryAlloc kind size) h
      (fun p h' => (size ≤ sizeLimit ∧ allocSize size ≤ h.free) ∧ h.Gains refs p kind size h')
      fun e h' => ¬(size ≤ sizeLimit ∧ allocSize size ≤ h.free) ∧
        e = .outOfMemory (allocSize size) h.maxCapacity ∧ h' = h) ∧
    ∀ r ∈ refs,
      (∀ bytes, Ends (HeapM.initString r bytes) h
        (fun _ h' => (h.memory.IsObject .string r ∧ h.memory.sizeAt r = stringSize bytes.size) ∧
          h.Updates refs r (payloadOffset r) (payloadOffset r + stringSize bytes.size) h' ∧
          h'.memory.WellTyped r .string ∧ h'.stringBytes r = .ok bytes)
        fun _ h' => ¬(h.memory.IsObject .string r ∧ h.memory.sizeAt r = stringSize bytes.size) ∧
          h' = h) ∧
      (∀ n, Ends (HeapM.initTuple r n) h
        (fun _ h' => (h.memory.IsObject .tuple r ∧ h.memory.sizeAt r = tupleSize n) ∧
          h.Updates refs r (payloadOffset r) (payloadOffset r + 8) h' ∧
          h'.memory.WellTyped r .tuple ∧ h'.tupleLength r = .ok n)
        fun _ h' => ¬(h.memory.IsObject .tuple r ∧ h.memory.sizeAt r = tupleSize n) ∧ h' = h) ∧
      (h.memory.IsObject .tuple r → h.memory.WellTyped r .tuple →
        ∃ n, h.tupleLength r = .ok n ∧ ∀ i : Int,
          (0 ≤ i ∧ i < n → ∀ v, ∃ h', HeapM.tupleSet r i v h = .ok () h' ∧
            h.Updates refs r (slotOffset r.start i.toNat)
              (slotOffset r.start i.toNat + slotWidth) h' ∧
            h'.tupleLength r = .ok n ∧ ∀ j, h'.tupleGet r j = if j = i then .ok v else
              h.tupleGet r j) ∧
          (¬(0 ≤ i ∧ i < n) → h.tupleGet r i = .error (.indexOutOfBounds i n) ∧
            ∀ v, HeapM.tupleSet r i v h = .error (.indexOutOfBounds i n) h)) ∧
      (h.memory.IsObject .array r → h.memory.sizeAt r = containerSize →
        (∀ n, ∃ h', HeapM.setArrayLength r n h = .ok () h' ∧
          h.Updates refs r (payloadOffset r) (payloadOffset r + 8) h' ∧
          h'.arrayLength r = .ok (n % 2 ^ 64) ∧ h'.arrayStore r = h.arrayStore r) ∧
        ∀ u, h.memory.IsObject .tuple u → ∃ h', HeapM.setArrayStore r u h = .ok () h' ∧
          h.Updates refs r (slotOffset r.start 0) (slotOffset r.start 0 + slotWidth) h' ∧
          h'.arrayStore r = .ok (some u) ∧ h'.arrayLength r = h.arrayLength r) := by
  refine ⟨HeapM.ends_tryAlloc bounded tiled, fun r hr => ⟨HeapM.ends_initString tiled hr,
    HeapM.ends_initTuple tiled hr, fun obj typed => ?_, fun obj hsize => ?_⟩⟩
  · have hlength := tupleLength_eq obj
    refine ⟨h.memory.lengthAt r, hlength, fun i => ⟨fun hi v => ?_, fun hi => ⟨?_, fun v => ?_⟩⟩⟩
    · have framed := HeapM.tupleSet_framed tiled hr obj typed hi v
      rwa [hlength] at framed
    · rw [tupleGet_eq obj, if_neg hi]
    · rw [HeapM.tupleSet_eq obj, if_neg hi]
  · exact ⟨HeapM.setArrayLength_framed tiled hr obj hsize,
      fun _ store => HeapM.setArrayStore_framed tiled hr obj hsize store⟩

/-- Beside a tuple of no elements, the only element of the tuple that holds itself is replaced by a
number. -/
theorem Heap.objects_framed_knot :
    knot.Bounded ∧ knot.memory.Tiled 0 [.ofNat 0, .ofNat 24] ∧
      ∃ h', HeapM.tupleSet (.ofNat 24) 0 (.integer 7) knot = .ok () h' ∧
        knot.Updates [.ofNat 0, .ofNat 24] (.ofNat 24) 48 64 h' ∧
        h'.tupleGet (.ofNat 24) 0 = .ok (.integer 7) := by
  have tiled : knot.memory.Tiled 0 [.ofNat 0, .ofNat 24] :=
    ⟨rfl, ⟨.object .tuple, by decide +kernel⟩,
      by decide +kernel, ⟨.object .tuple, by decide +kernel⟩,
      show _ = _ by decide +kernel⟩
  refine ⟨bounded_knot, tiled, ?_⟩
  obtain ⟨-, ops⟩ := objects_framed bounded_knot tiled
  obtain ⟨n, hlength, elements⟩ := (ops (.ofNat 24) (by simp)).2.2.1 isObject_knot
    (show knot.memory.sizeAt _ = tupleSize _ by decide +kernel)
  have hn : n = 1 := by
    rw [tupleLength_eq isObject_knot] at hlength
    exact (Except.ok.inj hlength).symm.trans (by decide +kernel)
  obtain ⟨h', run, updates, -, hget⟩ := (elements 0).1 (by omega) (.integer 7)
  exact ⟨h', run, updates, (hget 0).trans (if_pos rfl)⟩

end ActorMachine
