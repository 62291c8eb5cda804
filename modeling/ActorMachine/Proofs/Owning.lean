import ActorMachine.Proofs.HeapWrites
import ActorMachine.Proofs.Sizing
import ActorMachine.Proofs.Stocked

/-!
# The objects of an owner

`Heap.Owned P h`: the heap has come about by what its owner does to it, and the owner may hold
references to the objects of `P`. Objects are made, edited, collected and copied from heap to heap,
in any order and as often as the owner likes. All the time they are in order (`Heap.Owned.sound`):
no edit writes to a string, or to what is not an object of the owner (`HeapM.edits_run`), and
collections and copies take objects along as they are.
-/

namespace ActorMachine

open Memory

/-! ## Editing -/

/-- What an owner does to the objects that there are. -/
inductive Heap.Edit where
  | tupleSet (r : Ref) (index : Int) (v : Value)
  | arrayLength (r : Ref) (length : Nat)
  | arrayStore (r store : Ref)
  | arraySet (r : Ref) (index : Int) (v : Value)
  | arrayPush (r : Ref) (v : Value)
  | tableStore (r store : Ref)
  | tableTrySet (r : Ref) (key v : Value)

namespace Heap.Edit

/-- The values that an edit is given, the edited object among them. -/
def values : Edit → List Value
  | tupleSet r _ v => [.object .tuple r, v]
  | arrayLength r _ => [.object .array r]
  | arrayStore r store => [.object .array r, .object .tuple store]
  | arraySet r _ v => [.object .array r, v]
  | arrayPush r v => [.object .array r, v]
  | tableStore r store => [.object .table r, .object .tuple store]
  | tableTrySet r key v => [.object .table r, key, v]

/-- Carries out an edit. It may fail, with part of it done. -/
def run : Edit → HeapM Unit
  | tupleSet r index v => HeapM.tupleSet r index v
  | arrayLength r length => HeapM.setArrayLength r length
  | arrayStore r store => HeapM.setArrayStore r store
  | arraySet r index v => HeapM.arraySet r index v
  | arrayPush r v => HeapM.arrayPush r v
  | tableStore r store => HeapM.setTableStore r store
  | tableTrySet r key v => do
    let _ ← HeapM.tableTrySet r key v
    return

end Heap.Edit

/-- Objects have been written to: nothing has been added, and they are in order as before. -/
structure Heap.Edited (P : Shape → Ref → Prop) (h h₁ : Heap) : Prop where
  same : h₁ = { h with memory := h₁.memory }
  used : h₁.used = h.used
  stocked : Stocked P h₁.memory

/-- Whether or not it fails, the computation does no more than write to objects. -/
def HeapM.Edits (P : Shape → Ref → Prop) (m : HeapM α) (h : Heap) : Prop :=
  Ends m h (fun _ => h.Edited P) fun _ => h.Edited P

namespace HeapM

open Heap

variable {P : Shape → Ref → Prop} {h : Heap} {s s' : Shape} {r u store : Ref} {v : Value}
    {α β : Type}

theorem edited_refl (stocked : Stocked P h.memory) : h.Edited P h := ⟨rfl, rfl, stocked⟩

theorem edits_pure (stocked : Stocked P h.memory) (x : α) :
    Edits P (pure x) h := .pure (edited_refl stocked)

theorem edits_throw (stocked : Stocked P h.memory) (e : HeapError) :
    Edits P (throw e : HeapM α) h :=
  .throw (edited_refl stocked)

theorem edits_write {f : Memory → Memory} (size : (f h.memory).size = h.memory.size)
    (stocked : Stocked P (f h.memory)) : Edits P (write f) h :=
  .modify ⟨rfl, size, stocked⟩

theorem Edits.bind {m : HeapM α} {f : α → HeapM β} (first : Edits P m h)
    (rest : ∀ x h₁, Stocked P h₁.memory → Edits P (f x) h₁) : Edits P (m >>= f) h := by
  refine Ends.bind (Ends.mono first (fun x h₁ edited => ?_) fun _ _ edited => edited)
  have chain : ∀ {h₂}, h₁.Edited P h₂ → h.Edited P h₂ := fun edited' =>
    ⟨by rw [edited'.same, edited.same], edited'.used.trans edited.used, edited'.stocked⟩
  exact (rest x h₁ edited.stocked).mono (fun _ _ => chain) fun _ _ => chain

/-- What is read is known to the rest. -/
theorem edits_read_bind (stocked : Stocked P h.memory) {f : Heap → Except HeapError α}
    {g : α → HeapM β} (rest : ∀ x, f h = .ok x → Edits P (g x) h) : Edits P (read f >>= g) h := by
  cases hx : f h with
  | ok x => exact .of_eq (bind_of_ok (read_ok hx)) (rest x hx)
  | error e => exact .fails (bind_of_error (read_error hx)) (edited_refl stocked)

/-- Objects of other shapes than that which is asked for are not accepted. -/
theorem shape_eq_of_expect (obj : h.memory.IsObject s r) {header : ObjectHeader}
    (found : h.expect r (.object s') = .ok header) : s = s' := by
  unfold expect at found
  rw [header_eq obj] at found
  by_cases hkind : Kind.object s = .object s'
  · exact Kind.object.inj hkind
  · have failed : (if Kind.object s = .object s' then pure _ else
      throw _ : Except HeapError ObjectHeader) =
      .ok header := found
    rw [if_neg hkind] at failed
    cases failed

theorem shape_eq_of_tupleSlot (obj : h.memory.IsObject s r) {index : Int} {offset : Nat}
    (found : h.tupleSlot r index = .ok offset) : s = .tuple := by
  obtain ⟨n, hlength, -⟩ := exists_of_bind_ok found
  obtain ⟨header, hheader, -⟩ := exists_of_bind_ok hlength
  exact shape_eq_of_expect obj hheader

/-- What an index is accepted for is a slot of a tuple. -/
theorem slot_of_tupleSlot (proper : Proper P h.memory s r) {index : Int} {offset : Nat}
    (found : h.tupleSlot r index = .ok offset) :
    offset = slotOffset r.start index.toNat ∧ index.toNat < h.memory.slotsIn r := by
  obtain ⟨obj, formed, -⟩ := proper
  obtain rfl := shape_eq_of_tupleSlot obj found
  rw [tupleSlot_eq obj] at found
  split at found
  next hindex =>
    refine ⟨(Except.ok.inj found).symm, ?_⟩
    rw [formed.slotsIn_eq obj]
    show _ < h.memory.lengthAt r
    omega
  next => cases found

/-- The owner may hold a reference to the store of an array or a table, if there is one. -/
theorem among_store (stocked : Stocked P h.memory) (hp : P s r) (hs : s = .array ∨ s = .table)
    (found : (h.memory.slotAt r 0).ref? = some u) : ∃ s', P s' u := by
  obtain ⟨obj, formed, slots⟩ := stocked.proper hp
  have hpos : 0 < h.memory.slotsIn r := by
    rw [formed.slotsIn_eq obj, slotsAt_container hs]
    exact Nat.one_pos
  cases hv : h.memory.slotAt r 0 with
  | object s' t =>
    rw [hv] at found
    obtain rfl := Option.some.inj found
    exact ⟨s', slots 0 hpos s' t hv⟩
  | _ => rw [hv] at found; cases found

theorem edits_tupleSet (stocked : Stocked P h.memory) (hp : P s r) (index : Int) (hv : v.Among P) :
    Edits P (tupleSet r index v) h := by
  refine edits_read_bind stocked fun offset found => ?_
  obtain ⟨rfl, hindex⟩ := slot_of_tupleSlot (stocked.proper hp) found
  exact edits_write (size_storeValue _ _ _) (stocked.storeSlot hp hindex hv)

/-- What is copied are references that the owner may hold. -/
theorem edits_copySlots (stocked : Stocked P h.memory) (hp : P s r) (hp' : P s' u)
    (index count : Nat) :
    Edits P (copySlots r u index count) h := by
  -- Each element is read from a heap in which the elements before it have been written.
  induction count generalizing index h with
  | zero => exact edits_pure stocked _
  | succ count ih =>
    refine edits_read_bind stocked fun v found => ?_
    obtain ⟨offset, hslot, found⟩ := exists_of_bind_ok found
    obtain ⟨rfl, hindex⟩ := slot_of_tupleSlot (stocked.proper hp) hslot
    obtain rfl := Except.ok.inj found
    exact (edits_tupleSet stocked hp' index ((stocked.proper hp).slots _ hindex)).bind
      fun _ h₁ stocked₁ => ih stocked₁ (index + 1)

theorem edits_setArrayLength (stocked : Stocked P h.memory) (hp : P .array r) (n : Nat) :
    Edits P (setArrayLength r n) h :=
  edits_read_bind stocked fun _ _ =>
    edits_write (size_store _ _ _ _) (stocked.storeLength hp (.inl rfl) n)

theorem edits_storeStore (stocked : Stocked P h.memory) (hp : P s r) (hs : s = .array ∨ s = .table)
    (hstore : P .tuple store) :
    Edits P (write (·.storeValue (slotOffset r.start 0) (.object .tuple store))) h := by
  obtain ⟨obj, formed, -⟩ := stocked.proper hp
  refine edits_write (size_storeValue _ _ _) (stocked.storeSlot hp ?_ ?_)
  · rw [formed.slotsIn_eq obj, slotsAt_container hs]
    exact Nat.one_pos
  · rintro _ _ ⟨⟩
    exact hstore

theorem edits_setArrayStore (stocked : Stocked P h.memory) (hp : P .array r)
    (hstore : P .tuple store) :
    Edits P (setArrayStore r store) h :=
  edits_read_bind stocked fun _ _ => edits_read_bind stocked fun _ _ =>
    edits_storeStore stocked hp (.inl rfl) hstore

theorem edits_arraySet (stocked : Stocked P h.memory) (hp : P .array r) (index : Int)
    (hv : v.Among P) :
    Edits P (arraySet r index v) h := by
  refine edits_read_bind stocked fun u found => ?_
  have obj := stocked.isObject hp
  obtain ⟨length, -, found⟩ := exists_of_bind_ok found
  by_cases outside : index < 0 ∨ (length : Int) ≤ index
  · simp only [if_pos outside] at found
    cases found
  simp only [if_neg outside] at found
  obtain ⟨store, hstore, found⟩ := exists_of_bind_ok found
  rw [arrayStore_eq obj] at hstore
  cases store with
  | none => cases found
  | some u' =>
    obtain rfl := Except.ok.inj found
    obtain ⟨s', hp'⟩ := among_store stocked hp (.inl rfl) (Except.ok.inj hstore)
    exact edits_tupleSet stocked hp' index hv

theorem edits_arrayPush (stocked : Stocked P h.memory) (hp : P .array r) (hv : v.Among P) :
    Edits P (arrayPush r v) h := by
  refine edits_read_bind stocked fun length _ => edits_read_bind stocked fun capacity _ => ?_
  by_cases full : capacity ≤ length
  · simp only [if_pos full]
    exact edits_throw stocked _
  · simp only [if_neg full]
    exact (edits_setArrayLength stocked hp (length + 1)).bind fun _ _ stocked₁ =>
      edits_arraySet stocked₁ hp (indexOfLength length) hv

theorem edits_setTableStore (stocked : Stocked P h.memory) (hp : P .table r)
    (hstore : P .tuple store) :
    Edits P (setTableStore r store) h := by
  refine edits_read_bind stocked fun length _ => edits_read_bind stocked fun room _ => ?_
  by_cases few : room < length * 2
  · simp only [if_pos few]
    exact edits_throw stocked _
  simp only [if_neg few]
  refine edits_read_bind stocked fun old found => ?_
  cases old with
  | none => exact edits_storeStore stocked hp (.inr rfl) hstore
  | some u =>
    rw [tableStore_eq (stocked.isObject hp)] at found
    obtain ⟨s', hp'⟩ := among_store stocked hp (.inr rfl) (Except.ok.inj found)
    exact (edits_copySlots stocked hp' hstore 0 _).bind fun _ _ stocked₁ =>
      edits_storeStore stocked₁ hp (.inr rfl) hstore

theorem store_of_tableFind {key : Value} {entry : Nat}
    (found : h.tableFind r key = .ok (some (u, entry))) :
    h.tableStore r = .ok (some u) := by
  obtain ⟨length, -, found⟩ := exists_of_bind_ok found
  obtain ⟨store, hstore, found⟩ := exists_of_bind_ok found
  cases store with
  | none => cases found
  | some u' =>
    obtain ⟨entry', -, found⟩ := exists_of_bind_ok found
    cases entry' with
    | none => cases found
    | some e =>
      cases found
      exact hstore

theorem edits_tableTrySet (stocked : Stocked P h.memory) (hp : P .table r) {key : Value}
    (hkey : key.Among P) (hv : v.Among P) : Edits P (tableTrySet r key v) h := by
  have among : ∀ {u}, h.tableStore r = .ok (some u) → ∃ s', P s' u := fun found => by
    rw [tableStore_eq (stocked.isObject hp)] at found
    exact among_store stocked hp (.inr rfl) (Except.ok.inj found)
  refine edits_read_bind stocked fun place found => ?_
  cases place with
  | some place =>
    obtain ⟨u, entry⟩ := place
    obtain ⟨s', hp'⟩ := among (store_of_tableFind found)
    exact (edits_tupleSet stocked hp' _ hv).bind fun _ _ stocked₁ => edits_pure stocked₁ _
  | none =>
    refine edits_read_bind stocked fun length _ => edits_read_bind stocked fun capacity _ => ?_
    by_cases full : capacity ≤ length
    · simp only [if_pos full]
      exact edits_pure stocked _
    simp only [if_neg full]
    refine edits_read_bind stocked fun old found => ?_
    cases old with
    | none => exact edits_throw stocked _
    | some u =>
      obtain ⟨s', hp'⟩ := among found
      refine (edits_tupleSet stocked hp' _ hkey).bind fun _ _ stocked₁ => ?_
      refine (edits_tupleSet stocked₁ hp' _ hv).bind fun _ _ stocked₂ => ?_
      refine Edits.bind (edits_write (size_store _ _ _ _)
        (stocked₂.storeLength hp (.inr rfl) (length + 1)))
        fun _ _ stocked₃ => edits_pure stocked₃ _

/-- Editing objects of the owner, with values of the owner, leaves them in order. -/
theorem edits_run (stocked : Stocked P h.memory) (e : Edit) (own : ∀ v ∈ e.values, v.Among P) :
    Edits P e.run h := by
  cases e with
  | tupleSet r index v =>
    obtain ⟨hr, hv⟩ : P .tuple r ∧ v.Among P := by simpa [Edit.values] using own
    exact edits_tupleSet stocked hr index hv
  | arrayLength r length =>
    have hr : P .array r := by simpa [Edit.values] using own
    exact edits_setArrayLength stocked hr length
  | arrayStore r store =>
    obtain ⟨hr, hstore⟩ : P .array r ∧ P .tuple store := by simpa [Edit.values] using own
    exact edits_setArrayStore stocked hr hstore
  | arraySet r index v =>
    obtain ⟨hr, hv⟩ : P .array r ∧ v.Among P := by simpa [Edit.values] using own
    exact edits_arraySet stocked hr index hv
  | arrayPush r v =>
    obtain ⟨hr, hv⟩ : P .array r ∧ v.Among P := by simpa [Edit.values] using own
    exact edits_arrayPush stocked hr hv
  | tableStore r store =>
    obtain ⟨hr, hstore⟩ : P .table r ∧ P .tuple store := by simpa [Edit.values] using own
    exact edits_setTableStore stocked hr hstore
  | tableTrySet r key v =>
    obtain ⟨hr, hkey, hv⟩ : P .table r ∧ key.Among P ∧ v.Among P := by simpa [Edit.values] using own
    exact (edits_tableTrySet stocked hr hkey hv).bind fun _ _ stocked₁ => edits_pure stocked₁ _

end HeapM

/-! ## Histories of heaps -/

/-- What a new object is to be. -/
inductive Heap.Draft where
  | string (bytes : ByteArray)
  | tuple (length : Nat)
  | array
  | table

namespace Heap.Draft

def shape : Draft → Shape
  | string _ => .string
  | tuple _ => .tuple
  | array => .array
  | table => .table

/-- Makes a new object. The bytes of a string and the length of a tuple are filled in. -/
def make : Draft → HeapM Ref
  | string bytes => do
    let r ← HeapM.tryAlloc (.object .string) (stringSize bytes.size)
    HeapM.initString r bytes
    return r
  | tuple length => do
    let r ← HeapM.tryAlloc (.object .tuple) (tupleSize length)
    HeapM.initTuple r length
    return r
  | array => HeapM.tryAlloc (.object .array) containerSize
  | table => HeapM.tryAlloc (.object .table) containerSize

end Heap.Draft

/-- The heap has come about by what is done to it one after the other, and its owner may refer to
the objects of `P`. The heap begins empty. An object is made. Objects are edited, by means of values
that the owner may hold, or garbage is collected, and either may fail; after a collection the owner
may refer to what the roots lead to then. A value of any other heap that has come about so is
copied, and with it come the copies of what it leads to, unless there is no room for them. To
reserve room is to collect or to do nothing. -/
inductive Heap.Owned : (Shape → Ref → Prop) → Heap → Prop
  | create (initial max : Nat) : Owned (fun _ _ => False) (create initial max)
  | make {P : Shape → Ref → Prop} {h h' : Heap} {r : Ref} (owned : Owned P h) (d : Draft)
    (run : d.make h = .ok r h') : Owned (fun s' r' => P s' r' ∨ s' = d.shape ∧ r' = r) h'
  | edit {P : Shape → Ref → Prop} {h : Heap} (owned : Owned P h) (e : Edit)
    (own : ∀ v ∈ e.values, v.Among P) :
    Owned P (leaves e.run h)
  | collect {P : Shape → Ref → Prop} {h : Heap} (owned : Owned P h) (roots : Array Value)
    (request : Nat) (held : ∀ v ∈ roots, v.Among P) :
    Owned ((leaves (RootedM.collect request) ⟨h, roots⟩).heap.memory.LedTo
      (· ∈ (leaves (RootedM.collect request) ⟨h, roots⟩).roots))
      (leaves (RootedM.collect request) ⟨h, roots⟩).heap
  | copy {P Q : Shape → Ref → Prop} {h h' source : Heap} {v w : Value} (owned : Owned P h)
    (source_owned : Owned Q source) (held : v.Among Q) (run : HeapM.copy source v h = .ok w h') :
    Owned (fun s r => P s r ∨ h'.memory.LedTo (· = w) s r) h'
  | cramped {P Q : Shape → Ref → Prop} {h h' source : Heap} {v : Value} {e : HeapError}
    (owned : Owned P h) (source_owned : Owned Q source) (held : v.Among Q)
    (run : HeapM.copy source v h = .error e h') :
    Owned P h'

/-- Whether or not it finds the room, a collection leaves the same. -/
theorem RootedM.collect_cases (s : Rooted) (request : Nat) :
    collect request s = .ok () (s.collected request) ∨
    collect request s = .error (.outOfMemory request s.heap.maxCapacity) (s.collected request) := by
  rw [collect_eq]
  split
  · exact .inr rfl
  · exact .inl rfl

theorem leaves_collect (s : Rooted) (request : Nat) :
    leaves (RootedM.collect request) s = s.collected request := by
  rcases RootedM.collect_cases s request with run | run <;> rw [leaves, run]

namespace Heap

variable {P Q : Shape → Ref → Prop} {h h' source : Heap} {r : Ref} {v : Value}

/-- What is allocated comes at the end. -/
theorem tryAlloc_spec (bounded : h.Bounded) {s : Shape} {size : Nat} {h₁ : Heap}
    (run : HeapM.tryAlloc (.object s) size h = .ok r h₁) :
    h₁.Bounded ∧ r.start = h.memory.size ∧ h₁.memory = h.memory.allocated (.object s) size ∧
      h₁.memory.IsObject s r ∧ h₁.memory.sizeAt r = size := by
  have bounded₁ := ((grown_tryAlloc bounded (.object s) size).of_ok run).bounded
  by_cases full : sizeLimit < size ∨ h.free < allocSize size
  · rw [HeapM.tryAlloc_error full] at run
    cases run
  · rw [not_or, Nat.not_lt, Nat.not_lt] at full
    rw [HeapM.tryAlloc_eq full.1 full.2] at run
    cases run
    have hstart : (Ref.ofNat h.used).start = h.memory.size := Ref.start_ofNat bounded.used_le_limit
    have hsize : size < 2 ^ 32 := Nat.lt_succ_of_le full.1
    exact ⟨bounded₁, hstart, rfl, isObject_allocated hstart hsize, sizeAt_allocated hstart hsize⟩

/-- Writing leaves a heap within its bounds. -/
theorem Bounded.written (bounded : h.Bounded) {m : Memory} (size : m.size = h.memory.size) :
    Bounded { h with memory := m } := by
  refine (Grown.of_memory bounded rfl ?_).bounded
  show m.size ≤ h.capacity
  rw [size]
  exact bounded.used_le

/-- An object that has been made is a new one, and filled in. -/
theorem made_spec (bounded : h.Bounded) {d : Draft} (run : d.make h = .ok r h') :
    h'.Bounded ∧ NewObject h.memory h'.memory d.shape r := by
  cases d with
  | string bytes =>
    cases halloc : HeapM.tryAlloc (.object .string) (stringSize bytes.size) h with
    | error e h₁ =>
      rw [Draft.make, bind_of_error halloc] at run
      cases run
    | ok r₁ h₁ =>
      obtain ⟨bounded₁, hstart, hmemory, obj, hsizeAt⟩ := tryAlloc_spec bounded halloc
      have ext : Extends h.memory h₁.memory := hmemory ▸ extends_allocated _ _ _
      rw [Draft.make, bind_of_ok halloc, bind_of_ok (HeapM.initString_eq obj hsizeAt)] at run
      cases run
      obtain ⟨new, hsame, -⟩ := newObject_string ext hstart obj hsizeAt
      exact ⟨bounded₁.written hsame, new⟩
  | tuple length =>
    cases halloc : HeapM.tryAlloc (.object .tuple) (tupleSize length) h with
    | error e h₁ =>
      rw [Draft.make, bind_of_error halloc] at run
      cases run
    | ok r₁ h₁ =>
      obtain ⟨bounded₁, hstart, hmemory, obj, hsizeAt⟩ := tryAlloc_spec bounded halloc
      have ext : Extends h.memory h₁.memory := hmemory ▸ extends_allocated _ _ _
      rw [Draft.make, bind_of_ok halloc, bind_of_ok (HeapM.initTuple_eq obj hsizeAt)] at run
      cases run
      exact ⟨bounded₁.written (size_store _ _ _ _),
        (newObject_tuple ext hstart obj hsizeAt (hmemory ▸ byte_allocated hstart _ _)).1⟩
  | array =>
    obtain ⟨bounded', hstart, hmemory, -⟩ := tryAlloc_spec bounded run
    exact ⟨bounded', hmemory ▸ (newObject_container (.inl rfl) hstart).1⟩
  | table =>
    obtain ⟨bounded', hstart, hmemory, -⟩ := tryAlloc_spec bounded run
    exact ⟨bounded', hmemory ▸ (newObject_container (.inr rfl) hstart).1⟩

/-- What an owned value leads to has been copied, or there has been no room for it. -/
theorem ends_copy_owned (bounded : h.Bounded) (stocked : Stocked Q source.memory)
    (held : v.Among Q) :
    Ends (HeapM.copy source v) h (fun w h' => h'.Bounded ∧
      ∃ φ order, DeepCopy φ order source.memory v h w h')
      fun e h' => h'.Bounded ∧ ∃ refs, CrampedCopy source.memory refs h e h' := by
  have objects : ∀ r, source.memory.Leads (· = v) r → ∃ s, source.memory.IsObject s r := fun r hr =>
    stocked.objects (by rintro _ rfl; exact held) hr
  obtain ⟨refs, -, lists⟩ := measure_spec objects
  have copies := HeapM.ends_copy objects lists bounded.used_le
    (Nat.le_trans bounded.capacity_le bounded.max_le)
  exact ((grown_copy bounded objects).and copies).mono
    (fun _ _ ⟨grown, copied⟩ => ⟨grown.bounded, copied⟩)
    fun _ _ ⟨grown, cramped⟩ => ⟨grown.bounded, refs, cramped⟩

/-- The copies of what a value leads to are in order, and come after all that has been there. -/
theorem stocked_copy (stocked : Stocked P h.memory) (source_stocked : Stocked Q source.memory)
    (held : v.Among Q) {w : Value} {φ : Ref → Ref} {order : List Ref}
    (copied : DeepCopy φ order source.memory v h w h') :
    Stocked (fun s r => P s r ∨ h'.memory.LedTo (· = w) s r) h'.memory := by
  have held : ∀ u, u = v → u.Among Q := by
    rintro _ rfl
    exact held
  obtain ⟨copies, images⟩ :=
    source_stocked.replica held copied.replica copied.lists.mem_iff copied.eq_iff
  refine stocked.append copied.extends_ copies fun image => ?_
  obtain ⟨r, hr, rfl⟩ := images.mp image
  exact copied.replica.base_le ((copied.lists.mem_iff r).mpr hr.1)

/-- Whatever has been done to a heap, it is within its bounds, and the objects of its owner are in
order. -/
theorem Owned.sound (owned : Owned P h) : h.Bounded ∧ Stocked P h.memory := by
  -- What is copied comes from a heap with a history of its own, of which the same holds.
  induction owned with
  | create initial max => exact ⟨.create initial max, fun hp => hp.elim, fun hp => hp.elim⟩
  | make _ d run ih =>
    obtain ⟨bounded, new⟩ := made_spec ih.1 run
    refine ⟨bounded, ih.2.append new.extends_ (.of_newObject new) ?_⟩
    rintro _ _ ⟨-, rfl⟩
    exact Nat.le_of_eq new.start.symm
  | @edit P h _ e own ih =>
    have edited : h.Edited P (leaves e.run h) := (HeapM.edits_run ih.2 e own).leaves
    refine ⟨?_, edited.stocked⟩
    rw [edited.same]
    exact ih.1.written edited.used
  | @collect P h _ roots request held ih =>
    obtain ⟨φ, order, collected⟩ := RootedM.collected_spec (s := ⟨h, roots⟩) (ih.2.scattered held)
      ih.1.used_le_limit request
    rw [leaves_collect]
    exact ⟨(grown_collected (s := ⟨h, roots⟩) ih.1 (ih.2.scattered held) request).bounded,
      (ih.2.replica held collected.compaction.replica collected.compaction.breadthFirst.mem_iff
        collected.mem_roots_iff).1⟩
  | copy _ _ held run ih source_ih =>
    obtain ⟨bounded, φ, order, copied⟩ := (ends_copy_owned ih.1 source_ih.2 held).of_ok run
    exact ⟨bounded, stocked_copy ih.2 source_ih.2 held copied⟩
  | cramped _ _ held run ih source_ih =>
    obtain ⟨bounded, refs, full⟩ := (ends_copy_owned ih.1 source_ih.2 held).of_error run
    exact ⟨bounded, ih.2.extend full.extends_⟩

end Heap

end ActorMachine
