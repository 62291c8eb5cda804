import ActorMachine.Fault
import ActorMachine.Proofs.MatchedValues
import ActorMachine.Proofs.Allocation

/-!
# Values that are vouched for

A program cannot make up functions and natives: it has those that it has been handed. So what holds
of all of these when they are handed out goes on holding of them wherever they are. Here `F` is what
is to hold of such a value, and `Value.Vouched` says that it does. The slots of objects hold vouched
values only (`Memory.Vouched`), however the objects are moved, and as long as only such values are
written to them.
-/

namespace ActorMachine

/-- `F` holds of the value, if the value can be called. -/
def Value.Vouched (F : Value → Prop) (v : Value) : Prop :=
  v.isCallable → F v

section Values

variable {F G : Value → Prop} {v w : Value} {ρ : Matching}

theorem Value.Vouched.of_forall (h : ∀ v, F v) : v.Vouched F :=
  fun _ => h v

theorem Value.Vouched.mono (h : v.Vouched F) (himp : ∀ v, F v → G v) : v.Vouched G :=
  fun hcallable => himp v (h hcallable)

/-- Values that match are the same one, if they can be called. -/
theorem Value.Match.vouched (h : v.Match ρ w) (hv : v.Vouched F) : w.Vouched F := by
  cases h with
  | inline _ => exact hv
  | object _ => exact nofun

theorem Value.MatchAll.vouched {vs ws : Array Value} (h : MatchAll ρ vs ws)
    (hvs : ∀ v ∈ vs, v.Vouched F) : ∀ w ∈ ws, w.Vouched F := by
  intro w hw
  obtain ⟨v, hv, hvw⟩ := h.of_mem_right hw
  exact hvw.vouched (hvs v hv)

/-- Matched values, the left one of which is vouched for. -/
structure Value.Held (F : Value → Prop) (ρ : Matching) (v w : Value) : Prop where
  alike : v.Match ρ w
  vouched : v.Vouched F

theorem Value.Held.object {s : Shape} {r t : Ref} (h : ρ s r t) :
    Held F ρ (.object s r) (.object s t) :=
  ⟨.object h, nofun⟩

/-- The faults that tell of a function or a native that is not there. -/
inductive Fault.Dangling : Fault → Prop
  | function (f : FuncRef) : Dangling (.invalidFunction f)
  | native (id : UInt32) : Dangling (.unknownNative id)

end Values

/-! ## Some of the elements -/

section Elements

variable {α : Type} {xs : Array α} {x : α}

theorem mem_of_mem_pop (h : x ∈ xs.pop) : x ∈ xs := by
  rw [← Array.mem_toList_iff, Array.toList_pop] at h
  exact Array.mem_toList_iff.mp (List.dropLast_subset _ h)

theorem mem_of_mem_shrink {n : Nat} (h : x ∈ xs.shrink n) : x ∈ xs := by
  rw [Array.shrink_eq_take, Array.take_eq_extract, ← Array.mem_toList_iff,
    Array.toList_extract] at h
  exact Array.mem_toList_iff.mp (List.mem_of_mem_take h)

theorem mem_of_mem_eraseIdxIfInBounds {i : Nat} (h : x ∈ xs.eraseIdxIfInBounds i) : x ∈ xs := by
  rw [← Array.mem_toList_iff, Array.toList_eraseIdxIfInBounds] at h
  exact Array.mem_toList_iff.mp (List.mem_of_mem_eraseIdx h)

end Elements

namespace Memory

/-- All values in the slots of the objects at the places of `P` are vouched for. -/
def Vouched (F : Value → Prop) (P : Shape → Ref → Prop) (m : Memory) : Prop :=
  ∀ ⦃s r⦄, P s r → ∀ i, i < m.slotsAt r s → (m.slotAt r i).Vouched F

namespace Vouched

variable {F G : Value → Prop} {P Q : Shape → Ref → Prop} {m m₁ m' : Memory}
    {γ : Matching} {s : Shape} {r p : Ref}

theorem mono (h : m.Vouched F P) (himp : ∀ v, F v → G v) : m.Vouched G P :=
  fun _ _ hp i hi => (h hp i hi).mono himp

theorem subset (h : m.Vouched F P) (hsub : ∀ {s r}, Q s r → P s r) : m.Vouched F Q :=
  fun _ _ hq => h (hsub hq)

theorem or (h : m.Vouched F P) (h' : m.Vouched F Q) : m.Vouched F fun s r => P s r ∨ Q s r := by
  intro s r hpq
  cases hpq with
  | inl hp => exact h hp
  | inr hq => exact h' hq

/-- Objects hold the same wherever they have been moved. -/
theorem move (h : m.Vouched F P) (iso : Iso γ m m') :
    m'.Vouched F fun s t => ∃ r, P s r ∧ γ s r t := by
  intro s t ⟨r, hp, hrt⟩ i hi
  have alike := iso.alike hrt
  rw [← alike.slotsAt_eq] at hi
  exact (alike.slots i hi).vouched (h hp i hi)

theorem of_same (h : m.Vouched F P) (typed : ∀ {s r}, P s r → m.WellTyped r s)
    (same : ∀ {s r}, P s r → SameObject m m₁ r r) : m₁.Vouched F P := by
  intro s r hp i hi
  have typed := typed hp
  rw [(same hp).slotsAt (.inr (eight_le_sizeAt typed))] at hi
  rw [(same hp).slotAt (slot_inside typed hi)]
  exact h hp i hi

/-- One of the objects may change what it holds. -/
theorem update (h : m.Vouched F P) (laid : Laid P m) (hp : P s r) (within : Within m m₁ r)
    (slots : ∀ i, i < m₁.slotsAt r s → (m₁.slotAt r i).Vouched F) : m₁.Vouched F P := by
  intro s' r' hp'
  by_cases heq : r = r'
  · subst heq
    obtain rfl := (laid.isObject hp).shape_unique (laid.isObject hp')
    exact slots
  · -- The other objects have no byte in common with this one.
    have other : m₁.Vouched F fun s₁ r₁ => s₁ = s' ∧ r₁ = r' := by
      refine of_same (m := m) ?_ ?_ ?_
      · rintro _ _ ⟨rfl, rfl⟩
        exact h hp'
      · rintro _ _ ⟨rfl, rfl⟩
        exact laid.typed hp'
      · rintro _ _ ⟨rfl, rfl⟩
        exact within.sameObject (laid.isObject hp') (laid.apart hp hp' heq)
    exact other ⟨rfl, rfl⟩

/-- A vouched value is written to a slot. -/
theorem storeSlot (h : m.Vouched F P) (laid : Laid P m) (hp : P s r) {i : Nat}
    (hi : i < m.slotsAt r s)
    {v : Value} (hv : v.Vouched F) : Vouched F P (m.storeValue (slotOffset r.start i) v) := by
  have inside := slot_inside (laid.typed hp) hi
  refine h.update laid hp (within_storeSlot inside v) fun j hj => ?_
  rw [slotsAt_congr (lengthAt_storeSlot v) s] at hj
  rw [slotAt_storeSlot inside v (laid.isObject hp)]
  split
  · exact hv
  · exact h hp j hj

/-- An array or a table gets another length. -/
theorem storeLength (h : m.Vouched F P) (laid : Laid P m) (hp : P s r)
    (hs : s = .array ∨ s = .table)
    (n : Nat) : Vouched F P (m.store (Heap.payloadOffset r) 8 n) := by
  refine h.update laid hp (within_storeLength n (eight_le_sizeAt (laid.typed hp))) fun j hj => ?_
  rw [slotAt_storeLength]
  refine h hp j ?_
  rcases hs with rfl | rfl <;> exact (show j < 1 from hj)

/-- A new object holds nothing but nils. -/
theorem addObject (h : m.Vouched F P) (laid : Laid P m) (new : NewObject m m₁ s p) :
    m₁.Vouched F fun s' r => P s' r ∨ (s' = s ∧ r = p) := by
  refine (h.of_same laid.typed fun hp => new.extends_.sameObject (laid.isObject hp)).or ?_
  rintro _ _ ⟨rfl, rfl⟩ i hi
  rw [new.slots i hi]
  exact nofun

end Vouched

end Memory

end ActorMachine
