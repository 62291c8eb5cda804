import ActorMachine.Proofs.Graphs

/-!
# Exact copies

`FaithfulCopy` is what an exact copy of an object is: the same header and the same payload, but for
the references in its slots, which lead to the new places. `Replica` says that the objects of a list
have been copied so, one behind the other. They make up the same graph then (`Replica.leads_iff`),
and where the objects are well-typed the two memories are isomorphic (`Replica.iso`).
-/

namespace ActorMachine

open Memory

/-- A value with its object at another place. Inline values stay as they are. -/
def Value.relocate (φ : Ref → Ref) : Value → Value
  | .object s r => .object s (φ r)
  | v => v

theorem Value.relocate_of_inline {v : Value} (h : v.ref? = none) (φ : Ref → Ref) :
    v.relocate φ = v := by
  cases v with
  | object s r => cases h
  | _ => rfl

theorem Value.relocate_eq_object {φ : Ref → Ref} {v : Value} {s : Shape} {t : Ref}
    (h : v.relocate φ = .object s t) : ∃ r, v = .object s r ∧ φ r = t := by
  cases v with
  | object s r =>
    cases h
    exact ⟨r, rfl, rfl⟩
  | _ => cases h

/-- A byte of a payload belongs to a reference in one of the first slots. -/
def Memory.RefByte (m : Memory) (r : Ref) (count k : Nat) : Prop :=
  ∃ i s t, i < count ∧ i < m.slotsIn r ∧ m.slotAt r i = .object s t ∧
    8 + i * slotWidth ≤ k ∧ k < 8 + (i + 1) * slotWidth

theorem Memory.not_refByte_of_lt {m : Memory} {r : Ref} {count k : Nat} (h : k < 8) :
    ¬m.RefByte r count k := by
  rintro ⟨i, s, t, -, -, -, hle, -⟩
  omega

/-- The object at a place has been copied to its place under `φ`: the payload is the same, except
that the references in its slots lead to places under `φ`. -/
structure FaithfulCopy (φ : Ref → Ref) (m m' : Memory) (r : Ref) : Prop where
  header : m'.header? (φ r).start = m.header? r.start
  inside : m'.endAt (φ r) ≤ m'.size
  slots : ∀ i, i < m.slotsIn r → m'.slotAt (φ r) i = (m.slotAt r i).relocate φ
  bytes : ∀ k, k < m.sizeAt r → ¬m.RefByte r (m.slotsIn r) k →
    m'.byte (Heap.payloadOffset (φ r) + k) = m.byte (Heap.payloadOffset r + k)

namespace FaithfulCopy

variable {φ : Ref → Ref} {m m' : Memory} {s : Shape} {r : Ref}

theorem sizeAt_eq (h : FaithfulCopy φ m m' r) (obj : m.IsObject s r) :
    m'.sizeAt (φ r) = m.sizeAt r :=
  sizeAt_of_header (h.header.trans obj.header)

theorem isObject (h : FaithfulCopy φ m m' r) (obj : m.IsObject s r) : m'.IsObject s (φ r) := by
  have inside := h.inside
  rw [endAt, h.sizeAt_eq obj] at inside
  exact .intro (h.header.trans obj.header) inside

/-- There are no references in the first eight bytes. -/
theorem word_eq (h : FaithfulCopy φ m m' r) {i width : Nat} (h8 : i + width ≤ 8)
    (hi : i + width ≤ m.sizeAt r) :
    m'.word (Heap.payloadOffset (φ r) + i) width = m.word (Heap.payloadOffset r + i) width := by
  refine word_congr fun k hk => ?_
  rw [Nat.add_assoc, Nat.add_assoc]
  exact h.bytes (i + k) (by omega) (not_refByte_of_lt (by omega))

theorem lengthAt_eq (h : FaithfulCopy φ m m' r) (h8 : 8 ≤ m.sizeAt r) :
    m'.lengthAt (φ r) = m.lengthAt r :=
  h.word_eq (i := 0) (Nat.le_refl _) (by omega)

theorem slotsIn_eq (h : FaithfulCopy φ m m' r) (obj : m.IsObject s r) :
    m'.slotsIn (φ r) = m.slotsIn r :=
  slotsIn_congr obj (h.isObject obj) (h.sizeAt_eq obj) h.lengthAt_eq

/-- Where there are no slots, all bytes are the same. -/
theorem stringAt_eq (h : FaithfulCopy φ m m' r) (obj : m.IsObject .string r) (h8 : 8 ≤ m.sizeAt r) :
    m'.stringAt (φ r) = m.stringAt r := by
  have none : m.slotsIn r = 0 := Memory.slotsIn_eq obj
  have payload : SamePayload m m' r (φ r) := ⟨h.sizeAt_eq obj, fun k hk => (h.bytes k hk (by
    rintro ⟨i, s, t, hi, -⟩
    omega)).symm⟩
  have copy := h.isObject obj
  have size := h.sizeAt_eq obj
  exact payload.stringAt h8 (Nat.le_trans (payload_le_endAt m r) obj.inside)
    (size ▸ Nat.le_trans (payload_le_endAt m' (φ r)) copy.inside)

/-- A copy of a well-typed object holds the same, up to the places of objects. -/
theorem alike {ρ : Matching} (h : FaithfulCopy φ m m' r) (obj : m.IsObject s r)
    (typed : m.WellTyped r s)
    (hslots : ∀ i s' r', i < m.slotsAt r s → m.slotAt r i = .object s' r' → ρ s' r' (φ r')) :
    AlikeObjects ρ m m' s r (φ r) where
  size := (h.sizeAt_eq obj).symm
  length := (h.lengthAt_eq (eight_le_sizeAt typed)).symm
  string := by
    rintro rfl
    exact (h.stringAt_eq obj (eight_le_sizeAt typed)).symm
  slots i hi := by
    rw [h.slots i (by rwa [slotsIn_of_typed obj typed])]
    cases hv : m.slotAt r i with
    | object s' r' => exact .object (hslots i s' r' hi hv)
    | _ => exact .inline rfl

/-- Exact copies of all that some values lead to make up the same graph. -/
theorem leads_iff {roots roots' : Value → Prop} {t : Ref}
    (copies : ∀ r, m.Leads roots r → FaithfulCopy φ m m' r)
    (objects : ∀ r, m.Leads roots r → ∃ s, m.IsObject s r)
    (hroots : ∀ w, roots' w ↔ ∃ v, roots v ∧ v.relocate φ = w) :
    m'.Leads roots' t ↔ ∃ r, m.Leads roots r ∧ φ r = t := by
  constructor
  · intro ht
    induction ht with
    | root hw =>
      obtain ⟨v, hv, heq⟩ := (hroots _).mp hw
      obtain ⟨r, rfl, hr⟩ := Value.relocate_eq_object heq
      exact ⟨r, .root hv, hr⟩
    | slot _ hi hslot ih =>
      obtain ⟨r, hr, rfl⟩ := ih
      obtain ⟨s, obj⟩ := objects r hr
      rw [(copies r hr).slotsIn_eq obj] at hi
      rw [(copies r hr).slots _ hi] at hslot
      obtain ⟨r', heq, hr'⟩ := Value.relocate_eq_object hslot
      exact ⟨r', .slot hr hi heq, hr'⟩
  · rintro ⟨r, hr, rfl⟩
    induction hr with
    | root hv => exact .root ((hroots _).mpr ⟨_, hv, rfl⟩)
    | @slot s' r r' i hr hi hslot ih =>
      obtain ⟨s, obj⟩ := objects r hr
      refine .slot (s := s') (i := i) ih ?_ ?_
      · rwa [(copies r hr).slotsIn_eq obj]
      · rw [(copies r hr).slots i hi, hslot]
        rfl

/-- What is added to the other memory leaves a copy as it is. -/
theorem extend (h : FaithfulCopy φ m m' r) (obj : m.IsObject s r) {m'' : Memory}
    (ext : Extends m' m'') :
    FaithfulCopy φ m m'' r := by
  have copy := h.isObject obj
  have same := ext.sameObject copy
  have size := h.sizeAt_eq obj
  refine ⟨?_, ?_, fun i hi => ?_, fun k hk hbyte => ?_⟩
  · rw [(same.isObject copy).header, obj.header, same.sizeAt, size]
  · exact (same.isObject copy).inside
  · rw [← h.slots i hi]
    exact same.slotAt (slot_room copy (by rwa [h.slotsIn_eq obj]))
  · rw [← h.bytes k hk hbyte]
    exact (same.payload.bytes k (by rwa [size])).symm

end FaithfulCopy

/-- The objects of a list have been copied to another memory, one behind the other from `base`
on. -/
structure Replica (φ : Ref → Ref) (m : Memory) (order : List Ref) (base : Nat)
    (m' : Memory) : Prop where
  copies : ∀ r ∈ order, FaithfulCopy φ m m' r
  placed : ∀ before r after, order = before ++ r :: after → (φ r).start = base + m.total before
  size : m'.size = base + m.total order

namespace Replica

variable {φ : Ref → Ref} {m m' : Memory} {order : List Ref} {base : Nat}
    {roots roots' : Value → Prop} {r r' t : Ref}

theorem base_le (h : Replica φ m order base m') (hr : r ∈ order) : base ≤ (φ r).start := by
  obtain ⟨before, after, heq⟩ := List.append_of_mem hr
  rw [h.placed before r after heq]
  exact Nat.le_add_right _ _

/-- Of two copies one stands behind the other. -/
theorem apart (h : Replica φ m order base m') (hobj : ∀ r ∈ order, ∃ s, m.IsObject s r)
    (hr : r ∈ order) (hr' : r' ∈ order) (hne : r ≠ r') : m'.Apart (φ r) (φ r') := by
  -- One that stands later in the list begins where the other has ended.
  have later : ∀ {r r' : Ref} {before after : List Ref}, order = before ++ r :: after → r' ∈ after →
      m'.endAt (φ r) ≤ (φ r').start := by
    intro r r' before after heq hr'
    obtain ⟨between, rest, rfl⟩ := List.append_of_mem hr'
    have hmem : r ∈ order := heq ▸ List.mem_append_right _ List.mem_cons_self
    obtain ⟨s, obj⟩ := hobj r hmem
    rw [endAt, (h.copies r hmem).sizeAt_eq obj, h.placed before r _ heq,
      h.placed (before ++ r :: between) r' rest (by simpa using heq), total_append, total_cons]
    omega
  obtain ⟨before, after, heq⟩ := List.append_of_mem hr
  rw [heq] at hr'
  rcases List.mem_append.mp hr' with hb | ha
  · obtain ⟨first, between, rfl⟩ := List.append_of_mem hb
    have heq : order = first ++ r' :: (between ++ r :: after) := by simpa using heq
    exact .inr (later heq (List.mem_append_right _ List.mem_cons_self))
  · exact .inl (later heq ((List.mem_cons.mp ha).resolve_left (Ne.symm hne)))

theorem injective (h : Replica φ m order base m') (hobj : ∀ r ∈ order, ∃ s, m.IsObject s r)
    (hr : r ∈ order) (hr' : r' ∈ order) (heq : φ r = φ r') : r = r' := by
  refine Classical.byContradiction fun hne => ?_
  have hlt := start_lt_endAt m' (φ r')
  have := h.apart hobj hr hr' hne
  rw [heq] at this
  rcases this with hle | hle <;> omega

/-- The copies make up the same graph. -/
theorem leads_iff (h : Replica φ m order base m') (horder : ∀ r, r ∈ order ↔ m.Leads roots r)
    (hobj : ∀ r ∈ order, ∃ s, m.IsObject s r)
    (hroots : ∀ w, roots' w ↔ ∃ v, roots v ∧ v.relocate φ = w) :
    m'.Leads roots' t ↔ ∃ r, m.Leads roots r ∧ φ r = t :=
  FaithfulCopy.leads_iff (fun r hr => h.copies r ((horder r).mpr hr))
    (fun r hr => hobj r ((horder r).mpr hr)) hroots

/-- The copies of well-typed objects are isomorphic to them. -/
theorem iso {P : Shape → Ref → Prop} (h : Replica φ m order base m') (laid : Laid P m)
    (closed : Closed P m)
    (horder : ∀ r, r ∈ order ↔ ∃ s, P s r) : Iso (fun s r t => P s r ∧ φ r = t) m m' := by
  have mem : ∀ {s r}, P s r → r ∈ order := fun hp => (horder _).mpr ⟨_, hp⟩
  have hobj : ∀ r ∈ order, ∃ s, m.IsObject s r := by
    intro r hr
    obtain ⟨s, hp⟩ := (horder r).mp hr
    exact ⟨s, laid.isObject hp⟩
  have alike : ∀ {s r}, P s r → AlikeObjects (fun s r t => P s r ∧ φ r = t) m m' s r
      (φ r) := fun hp =>
    (h.copies _ (mem hp)).alike (laid.isObject hp) (laid.typed hp) fun i s' r' hi hslot =>
      ⟨closed hp hi hslot, rfl⟩
  refine ⟨?_, laid.mono ?_, ⟨?_, ?_, ?_⟩, ?_⟩
  · rintro s r _ s' r' _ ⟨hp, rfl⟩ ⟨hp', rfl⟩
    exact ⟨congrArg φ, h.injective hobj (mem hp) (mem hp')⟩
  · rintro s r ⟨_, hp, -⟩
    exact hp
  · rintro s _ ⟨r, hp, rfl⟩
    exact (h.copies r (mem hp)).isObject (laid.isObject hp)
  · rintro s _ ⟨r, hp, rfl⟩
    refine (alike hp).wellTyped (laid.typed hp) ?_
    rintro u _ ⟨hu, rfl⟩
    exact (alike hu).length
  · rintro s _ s' _ ⟨r, hp, rfl⟩ ⟨r', hp', rfl⟩ hne
    exact h.apart hobj (mem hp) (mem hp') fun heq => hne (congrArg φ heq)
  · rintro s r _ ⟨hp, rfl⟩
    exact alike hp

end Replica

/-- A value of well-typed objects matches the value at the new place. -/
theorem Value.match_relocate {P : Shape → Ref → Prop} {φ : Ref → Ref} {v : Value}
    (hv : ∀ s r, v = .object s r → P s r) :
    v.Match (fun s r t => P s r ∧ φ r = t) (v.relocate φ) := by
  cases v with
  | object s r => exact .object ⟨hv s r rfl, rfl⟩
  | _ => exact .inline rfl

end ActorMachine
