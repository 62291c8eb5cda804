import ActorMachine.Proofs.Allocation
import ActorMachine.Proofs.Replicas

/-!
# Objects in order

`Stocked P m`: the objects of `P` are what their shapes ask for, no two of them have a byte in
common, and they refer to one another only. The hash that is recorded in a string is the hash of its
bytes, and the length of a tuple is the one that it has room for; but an array or a table may claim
any length, whatever its store has room for. A memory stays in order when something is added to it
(`Stocked.append`) and when slots and lengths are written (`Stocked.storeSlot`,
`Stocked.storeLength`), and exact copies of what some values lead to are in order again
(`Stocked.replica`).
-/

namespace ActorMachine

open Memory

/-- The object of a value is one of `P`. Inline values have none. -/
def Value.Among (P : Shape → Ref → Prop) (v : Value) : Prop := ∀ s r, v = .object s r → P s r

@[simp]
theorem Value.among_object {P : Shape → Ref → Prop} {s : Shape} {r : Ref} :
    (Value.object s r).Among P ↔ P s r := by
  constructor
  · exact fun h => h s r rfl
  · rintro h _ _ ⟨⟩
    exact h

theorem Value.Among.relocate {P Q : Shape → Ref → Prop} {φ : Ref → Ref} {v : Value} (h : v.Among P)
    (image : ∀ {s r}, P s r → Q s (φ r)) : (v.relocate φ).Among Q := by
  intro s t heq
  obtain ⟨r, rfl, rfl⟩ := relocate_eq_object heq
  exact image (h s r rfl)

theorem Value.relocate_id (v : Value) : v.relocate id = v := by
  cases v <;> rfl

/-! ## Objects in order -/

namespace Memory

variable {m m' : Memory} {s : Shape} {r t : Ref}

/-- The objects of their shapes that some values lead to. -/
def LedTo (m : Memory) (roots : Value → Prop) (s : Shape) (r : Ref) : Prop :=
  m.Leads roots r ∧ m.IsObject s r

/-- The payload of an object can be read as one of its shape. An array or a table may claim any
length. -/
def Formed (m : Memory) (r : Ref) : Shape → Prop
  | .string => m.WellTyped r .string
  | .tuple => m.WellTyped r .tuple
  | .array | .table => m.sizeAt r = Heap.containerSize

theorem formed_of_typed (typed : m.WellTyped r s) : m.Formed r s := by
  cases s with
  | string | tuple => exact typed
  | array | table => exact typed.1

theorem formed_container (hs : s = .array ∨ s = .table) :
    m.Formed r s ↔ m.sizeAt r = Heap.containerSize := by
  rcases hs with rfl | rfl <;> exact Iff.rfl

theorem slotsAt_container (hs : s = .array ∨ s = .table) : m.slotsAt r s = 1 := by
  rcases hs with rfl | rfl <;> rfl

theorem Formed.eight_le (formed : m.Formed r s) : 8 ≤ m.sizeAt r := by
  cases s with
  | string => exact eight_le_sizeAt (s := .string) formed
  | tuple => exact eight_le_sizeAt (s := .tuple) formed
  | array | table =>
    have hsize : m.sizeAt r = 24 := formed
    omega

theorem Formed.slotsIn_eq (formed : m.Formed r s) (obj : m.IsObject s r) :
    m.slotsIn r = m.slotsAt r s := by
  cases s with
  | string | tuple => exact slotsIn_of_typed obj formed
  | array | table =>
    have hsize : m.sizeAt r = 24 := formed
    rw [Memory.slotsIn_eq obj, slotCount, hsize]
    rfl

/-- The object is what its shape asks for, and refers to objects of `P` only. -/
structure Proper (P : Shape → Ref → Prop) (m : Memory) (s : Shape) (r : Ref) : Prop where
  isObject : m.IsObject s r
  formed : m.Formed r s
  slots : ∀ i, i < m.slotsIn r → (m.slotAt r i).Among P

/-- What stays where it is, byte for byte, is a copy of itself. -/
theorem SameObject.faithful (same : SameObject m m' r r) (obj : m.IsObject s r) :
    FaithfulCopy id m m' r where
  header := by
    rw [id, (same.isObject obj).header, obj.header, same.sizeAt]
  inside := (same.isObject obj).inside
  slots i hi := by
    rw [id, Value.relocate_id, same.slotAt (slot_room obj hi)]
  bytes k hk _ := (same.payload.bytes k hk).symm

/-- A copy of a proper object refers to the copies of what the object refers to. -/
theorem Proper.copied {P Q : Shape → Ref → Prop} {φ : Ref → Ref} (proper : Proper P m s r)
    (copy : FaithfulCopy φ m m' r) (image : ∀ {s r}, P s r → Q s (φ r)) : Proper Q m' s (φ r) := by
  have obj := proper.isObject
  have formed := proper.formed
  have h8 := formed.eight_le
  have hsize := copy.sizeAt_eq obj
  refine ⟨copy.isObject obj, ?_, fun i hi => ?_⟩
  · cases s with
    | string =>
      have hhash : m'.word (Heap.payloadOffset (φ r) + 0) 4 = m.word (Heap.payloadOffset r + 0) 4 :=
        copy.word_eq (by omega) (by omega)
      refine ⟨?_, hhash.trans ?_⟩
      · rw [hsize, copy.word_eq (by omega) (by omega)]
        exact formed.1
      · rw [copy.stringAt_eq obj h8]
        exact formed.2
    | tuple =>
      show m'.sizeAt (φ r) = _
      rw [hsize, copy.lengthAt_eq h8]
      exact formed
    | array | table => exact hsize.trans formed
  · rw [copy.slotsIn_eq obj] at hi
    rw [copy.slots i hi]
    exact (proper.slots i hi).relocate image

end Memory

/-- The objects of `P` are in order, no two of them have a byte in common, and they refer to one
another only. -/
structure Stocked (P : Shape → Ref → Prop) (m : Memory) : Prop where
  proper : ∀ {s r}, P s r → Proper P m s r
  apart : ∀ {s r s' r'}, P s r → P s' r' → r ≠ r' → m.Apart r r'

namespace Stocked

variable {P Q : Shape → Ref → Prop} {m m₁ : Memory} {s : Shape} {r : Ref}
    {roots roots' : Value → Prop}

theorem isObject (stocked : Stocked P m) (hp : P s r) :
    m.IsObject s r := (stocked.proper hp).isObject

/-- Objects that keep their places and sizes stay apart. -/
theorem congr (stocked : Stocked P m) (sizes : ∀ {s r}, P s r → m₁.sizeAt r = m.sizeAt r)
    (proper : ∀ {s r}, P s r → Proper P m₁ s r) : Stocked P m₁ where
  proper := proper
  apart hp hp' hne := by
    have hapart := stocked.apart hp hp' hne
    rw [Apart, endAt, endAt] at hapart ⊢
    rwa [sizes hp, sizes hp']

theorem extend (stocked : Stocked P m) (ext : Extends m m₁) : Stocked P m₁ :=
  have same : ∀ {s r}, P s r → SameObject m m₁ r r := fun hp => ext.sameObject (stocked.isObject hp)
  stocked.congr (fun hp => (same hp).sizeAt) fun hp =>
    (stocked.proper hp).copied ((same hp).faithful (stocked.isObject hp)) id

/-- The payload of one object is changed. -/
theorem of_within (stocked : Stocked P m) (hp : P s r) (within : Within m m₁ r)
    (proper : Proper P m₁ s r) :
    Stocked P m₁ := by
  have others : ∀ {s' r'}, P s' r' → r ≠ r' → SameObject m m₁ r' r' := fun hp' hne =>
    within.sameObject (stocked.isObject hp') (stocked.apart hp hp' hne)
  refine stocked.congr (fun {s' r'} hp' => ?_) fun {s' r'} hp' => ?_
  -- One place holds objects of one shape only, so no other object begins where the changed one
  -- does.
  · by_cases heq : r = r'
    · rw [← heq]
      exact within.sizeAt
    · exact (others hp' heq).sizeAt
  · by_cases heq : r = r'
    · obtain rfl := heq
      obtain rfl := (stocked.isObject hp).shape_unique (stocked.isObject hp')
      exact proper
    · exact (stocked.proper hp').copied ((others hp' heq).faithful (stocked.isObject hp')) id

theorem union (first : Stocked P m) (second : Stocked Q m)
    (apart : ∀ {s r s' r'}, P s r → Q s' r' → m.Apart r r') :
    Stocked (fun s r => P s r ∨ Q s r) m where
  proper := by
    rintro s r (hp | hq)
    · obtain ⟨obj, formed, slots⟩ := first.proper hp
      exact ⟨obj, formed, fun i hi s' r' heq => .inl (slots i hi s' r' heq)⟩
    · obtain ⟨obj, formed, slots⟩ := second.proper hq
      exact ⟨obj, formed, fun i hi s' r' heq => .inr (slots i hi s' r' heq)⟩
  apart := by
    rintro s r s' r' (hp | hq) (hp' | hq') hne
    · exact first.apart hp hp' hne
    · exact apart hp hq'
    · exact (apart hp' hq).symm
    · exact second.apart hq hq' hne

/-- What is put behind the objects of a memory has no byte in common with them. -/
theorem append (stocked : Stocked P m) (ext : Extends m m₁) (new : Stocked Q m₁)
    (behind : ∀ {s r}, Q s r → m.size ≤ r.start) : Stocked (fun s r => P s r ∨ Q s r) m₁ := by
  refine (stocked.extend ext).union new fun {s r s' r'} hp hq => .inl ?_
  have obj := stocked.isObject hp
  rw [(ext.sameObject obj).endAt]
  exact Nat.le_trans obj.inside (behind hq)

/-- A new object holds nothing. -/
theorem of_newObject (new : NewObject m m₁ s r) : Stocked (fun s' r' => s' = s ∧ r' = r) m₁ where
  proper := by
    rintro _ _ ⟨rfl, rfl⟩
    have formed := formed_of_typed new.typed
    refine ⟨new.isObject, formed, fun i hi => ?_⟩
    rw [formed.slotsIn_eq new.isObject] at hi
    rw [new.slots i hi]
    exact nofun
  apart := by
    rintro _ _ _ _ ⟨rfl, rfl⟩ ⟨rfl, rfl⟩ hne
    exact absurd rfl hne

/-! ### What values lead to -/

theorem leads (stocked : Stocked P m) (held : ∀ v, roots v → v.Among P) (h : m.Leads roots r) :
    ∃ s, P s r := by
  refine h.subset (P := fun r => ∃ s, P s r) ?_ fun s r hr => ⟨s, held _ hr s r rfl⟩
  rintro r i s r' ⟨s', hp⟩ hi hslot
  exact ⟨s, (stocked.proper hp).slots i hi s r' hslot⟩

theorem ledTo_iff (stocked : Stocked P m) (held : ∀ v, roots v → v.Among P) :
    m.LedTo roots s r ↔ m.Leads roots r ∧ P s r := by
  refine and_congr_right fun h => ⟨fun obj => ?_, fun hp => stocked.isObject hp⟩
  obtain ⟨s', hp⟩ := stocked.leads held h
  rwa [obj.shape_unique (stocked.isObject hp)]

theorem ledTo (stocked : Stocked P m) (held : ∀ v, roots v → v.Among P) :
    Stocked (m.LedTo roots) m where
  proper {s r} h := by
    obtain ⟨hleads, hp⟩ := (stocked.ledTo_iff held).mp h
    obtain ⟨obj, formed, slots⟩ := stocked.proper hp
    exact ⟨obj, formed, fun i hi s' r' heq =>
      (stocked.ledTo_iff held).mpr ⟨.slot hleads hi heq, slots i hi s' r' heq⟩⟩
  apart h h' := stocked.apart ((stocked.ledTo_iff held).mp h).2 ((stocked.ledTo_iff held).mp h').2

theorem objects (stocked : Stocked P m) (held : ∀ v, roots v → v.Among P) (h : m.Leads roots r) :
    ∃ s, m.IsObject s r := by
  obtain ⟨s, hp⟩ := stocked.leads held h
  exact ⟨s, stocked.isObject hp⟩

theorem scattered (stocked : Stocked P m) (held : ∀ v, roots v → v.Among P) :
    Scattered (m.Leads roots) m where
  isObject := stocked.objects held
  apart h h' := by
    obtain ⟨_, hp⟩ := stocked.leads held h
    obtain ⟨_, hp'⟩ := stocked.leads held h'
    exact stocked.apart hp hp'

/-- The copies of what values lead to are in order, as the objects are. -/
theorem replica (stocked : Stocked P m) (held : ∀ v, roots v → v.Among P) {φ : Ref → Ref}
    {order : List Ref} {base : Nat} (replica : Replica φ m order base m₁)
    (horder : ∀ r, r ∈ order ↔ m.Leads roots r)
    (hroots : ∀ w, roots' w ↔ ∃ v, roots v ∧ v.relocate φ = w) :
    Stocked (m₁.LedTo roots') m₁ ∧ ∀ {s t}, m₁.LedTo roots' s t ↔ ∃ r, m.LedTo roots s r ∧
      φ r = t := by
  have hobj : ∀ r ∈ order, ∃ s, m.IsObject s r :=
    fun r hr => stocked.objects held ((horder r).mp hr)
  have copies : ∀ {s r}, m.LedTo roots s r → FaithfulCopy φ m m₁ r := fun h =>
    replica.copies _ ((horder _).mpr h.1)
  have images : ∀ {s t}, m₁.LedTo roots' s t ↔ ∃ r, m.LedTo roots s r ∧ φ r = t := by
    intro s t
    constructor
    · rintro ⟨hleads, obj⟩
      obtain ⟨r, hr, rfl⟩ := (replica.leads_iff horder hobj hroots).mp hleads
      obtain ⟨s', obj'⟩ := stocked.objects held hr
      obtain rfl := obj.shape_unique ((copies ⟨hr, obj'⟩).isObject obj')
      exact ⟨r, ⟨hr, obj'⟩, rfl⟩
    · rintro ⟨r, h, rfl⟩
      exact ⟨(replica.leads_iff horder hobj hroots).mpr ⟨r, h.1, rfl⟩, (copies h).isObject h.2⟩
  refine ⟨⟨fun h => ?_, fun h h' hne => ?_⟩, images⟩
  · obtain ⟨r, hr, rfl⟩ := images.mp h
    exact ((stocked.ledTo held).proper hr).copied (copies hr) fun hr' => images.mpr ⟨_, hr', rfl⟩
  · obtain ⟨r, hr, rfl⟩ := images.mp h
    obtain ⟨r', hr', rfl⟩ := images.mp h'
    exact replica.apart hobj ((horder r).mpr hr.1) ((horder r').mpr hr'.1) fun heq =>
      hne (congrArg φ heq)

/-! ### Writing -/

theorem storeSlot (stocked : Stocked P m) (hp : P s r) {i : Nat} (hi : i < m.slotsIn r) {v : Value}
    (hv : v.Among P) : Stocked P (m.storeValue (slotOffset r.start i) v) := by
  obtain ⟨obj, formed, slots⟩ := stocked.proper hp
  have within := within_storeSlot (slot_room obj hi) v
  have hlength : (m.storeValue (slotOffset r.start i) v).lengthAt r = m.lengthAt r :=
    lengthAt_storeSlot v
  refine stocked.of_within hp within ⟨within.isObject obj, ?_, fun j hj => ?_⟩
  · cases s with
    | string =>
      have none : m.slotsIn r = 0 := slotsIn_eq obj
      omega
    | tuple =>
      show _ = _
      rw [within.sizeAt, hlength]
      exact formed
    | array | table => exact within.sizeAt.trans formed
  · rw [slotsIn_congr obj (within.isObject obj) within.sizeAt fun _ => hlength] at hj
    rw [slotAt_storeSlot (slot_room obj hi) v obj]
    split
    · exact hv
    · exact slots j hj

theorem storeLength (stocked : Stocked P m) (hp : P s r) (hs : s = .array ∨ s = .table) (n : Nat) :
    Stocked P (m.store (Heap.payloadOffset r) 8 n) := by
  obtain ⟨obj, formed, slots⟩ := stocked.proper hp
  have within := within_storeLength n formed.eight_le
  have formed' : (m.store (Heap.payloadOffset r) 8 n).Formed r s :=
    (formed_container hs).mpr (within.sizeAt.trans ((formed_container hs).mp formed))
  have hslots : (m.store (Heap.payloadOffset r) 8 n).slotsIn r = m.slotsIn r := by
    rw [formed'.slotsIn_eq (within.isObject obj), formed.slotsIn_eq obj, slotsAt_container hs,
      slotsAt_container hs]
  refine stocked.of_within hp within ⟨within.isObject obj, formed', fun i hi => ?_⟩
  rw [slotAt_storeLength]
  exact slots i (hslots ▸ hi)

end Stocked

end ActorMachine
