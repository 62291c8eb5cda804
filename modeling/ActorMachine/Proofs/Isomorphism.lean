import ActorMachine.Proofs.Objects

/-!
# Isomorphic memories

When two memories hold the same objects up to their places: a `Matching` relates the places of one
to those of the other, and matched objects have the same size, the same bytes and matched slots
(`Iso`). Isomorphisms are symmetric and compose, and they survive what is done to both sides alike:
adding (`Iso.extend`, `Iso.union`), and writing slots and lengths of matched objects.
-/

namespace ActorMachine

/-- A relation between the places of objects in two memories. -/
abbrev Matching := Shape → Ref → Ref → Prop

namespace Matching

/-- The matching the other way round. -/
def inverse (ρ : Matching) : Matching := fun s r t => ρ s t r

/-- One matching after the other. -/
def comp (ρ σ : Matching) : Matching := fun s r t => ∃ u, ρ s r u ∧ σ s u t

/-- Either of two matchings. -/
def union (ρ σ : Matching) : Matching := fun s r t => ρ s r t ∨ σ s r t

/-- The matching of two places. -/
def single (s : Shape) (r t : Ref) : Matching := fun s' r' t' => s' = s ∧ r' = r ∧ t' = t

/-- No place is matched. -/
def empty : Matching := fun _ _ _ => False

end Matching

/-- The same value up to the places of objects. -/
inductive Value.Match (ρ : Matching) : Value → Value → Prop
  | inline {v : Value} (h : v.ref? = none) : Match ρ v v
  | object {s : Shape} {r t : Ref} (h : ρ s r t) : Match ρ (.object s r) (.object s t)

namespace Value.Match

variable {ρ σ : Matching} {v w : Value}

theorem kind_eq (h : Match ρ v w) : v.kind = w.kind := by
  cases h <;> rfl

theorem mono (h : Match ρ v w) (himp : ∀ {s r t}, ρ s r t → σ s r t) : Match σ v w := by
  cases h with
  | inline h => exact .inline h
  | object h => exact .object (himp h)

theorem symm (h : Match ρ v w) : Match ρ.inverse w v := by
  cases h with
  | inline h => exact .inline h
  | object h => exact .object h

theorem trans {x : Value} (h : Match ρ v w) (h' : Match σ w x) : Match (ρ.comp σ) v x := by
  cases h with
  | inline h =>
    cases h' with
    | inline _ => exact .inline h
    | object _ => cases h
  | object h =>
    cases h' with
    | inline h' => cases h'
    | object h' => exact .object ⟨_, h, h'⟩

/-- A value that is matched with something is matched in whatever it refers to. -/
theorem exists_of_object (h : Match ρ v w) {s : Shape} {r : Ref} (heq : v = .object s r) :
    ∃ t, ρ s r t := by
  cases h with
  | inline h =>
    rw [heq] at h
    cases h
  | object h =>
    cases heq
    exact ⟨_, h⟩

theorem eq_of_inline (h : Match ρ v w) (hv : v.ref? = none) : w = v := by
  cases h with
  | inline _ => rfl
  | object _ => cases hv

theorem isCollectable_eq (h : Match ρ v w) : v.isCollectable = w.isCollectable := by
  cases h <;> rfl

end Value.Match

open Memory

/-- Objects of a memory, one for each place of `P`, with no byte in common. -/
structure Laid (P : Shape → Ref → Prop) (m : Memory) : Prop where
  isObject : ∀ {s r}, P s r → m.IsObject s r
  typed : ∀ {s r}, P s r → m.WellTyped r s
  apart : ∀ {s r s' r'}, P s r → P s' r' → r ≠ r' → m.Apart r r'

/-- Two objects hold the same, up to the places of objects. -/
structure AlikeObjects (ρ : Matching) (m m' : Memory) (s : Shape) (r t : Ref) : Prop where
  size : m.sizeAt r = m'.sizeAt t
  length : m.lengthAt r = m'.lengthAt t
  string : s = .string → m.stringAt r = m'.stringAt t
  slots : ∀ i, i < m.slotsAt r s → (m.slotAt r i).Match ρ (m'.slotAt t i)

/-- The matched objects of two memories hold the same, up to their places. -/
structure Iso (ρ : Matching) (m m' : Memory) : Prop where
  unique : ∀ {s r t s' r' t'}, ρ s r t → ρ s' r' t' → (r = r' ↔ t = t')
  left : Laid (fun s r => ∃ t, ρ s r t) m
  right : Laid (fun s t => ∃ r, ρ s r t) m'
  alike : ∀ {s r t}, ρ s r t → AlikeObjects ρ m m' s r t

theorem Laid.mono {P Q : Shape → Ref → Prop} {m : Memory} (h : Laid P m)
    (himp : ∀ {s r}, Q s r → P s r) : Laid Q m where
  isObject hq := h.isObject (himp hq)
  typed hq := h.typed (himp hq)
  apart hq hq' := h.apart (himp hq) (himp hq')

theorem AlikeObjects.slotsAt_eq {ρ : Matching} {m m' : Memory} {s : Shape} {r t : Ref}
    (h : AlikeObjects ρ m m' s r t) : m.slotsAt r s = m'.slotsAt t s :=
  slotsAt_congr h.length s

namespace Iso

variable {ρ σ : Matching} {m m' m'' : Memory}

/-- Memories of which no object matters. -/
theorem empty (m m' : Memory) : Iso .empty m m' where
  unique h := h.elim
  left := ⟨fun ⟨_, h⟩ => h.elim, fun ⟨_, h⟩ => h.elim, fun ⟨_, h⟩ => h.elim⟩
  right := ⟨fun ⟨_, h⟩ => h.elim, fun ⟨_, h⟩ => h.elim, fun ⟨_, h⟩ => h.elim⟩
  alike h := h.elim

theorem symm (h : Iso ρ m m') : Iso ρ.inverse m' m where
  unique h1 h2 := (h.unique h1 h2).symm
  left := h.right
  right := h.left
  alike h1 := by
    have halike := h.alike h1
    refine ⟨halike.size.symm, halike.length.symm, fun hs => (halike.string hs).symm, ?_⟩
    intro i hi
    rw [← halike.slotsAt_eq] at hi
    exact (halike.slots i hi).symm

theorem trans (h : Iso ρ m m') (h' : Iso σ m' m'') : Iso (ρ.comp σ) m m'' where
  unique := by
    rintro s r t s' r' t' ⟨u, h1, h2⟩ ⟨u', h1', h2'⟩
    exact (h.unique h1 h1').trans (h'.unique h2 h2')
  left := h.left.mono fun ⟨_, u, h1, _⟩ => ⟨u, h1⟩
  right := h'.right.mono fun ⟨_, u, _, h2⟩ => ⟨u, h2⟩
  alike := by
    rintro s r t ⟨u, h1, h2⟩
    have a := h.alike h1
    have a' := h'.alike h2
    refine ⟨a.size.trans a'.size, a.length.trans a'.length,
      fun hs => (a.string hs).trans (a'.string hs), fun i hi => ?_⟩
    exact (a.slots i hi).trans (a'.slots i (a.slotsAt_eq ▸ hi))

/-- What a matched object refers to is matched. -/
theorem closed_left (h : Iso ρ m m') {s s' : Shape} {r t r' : Ref} (hrt : ρ s r t) {i : Nat}
    (hi : i < m.slotsAt r s) (hslot : m.slotAt r i = .object s' r') : ∃ t', ρ s' r' t' := by
  have := (h.alike hrt).slots i hi
  rw [hslot] at this
  generalize m'.slotAt t i = w at this
  cases this with
  | inline h => cases h
  | object h => exact ⟨_, h⟩

theorem shape_unique (h : Iso ρ m m') {s s' : Shape} {r t t' : Ref} (h1 : ρ s r t)
    (h2 : ρ s' r t') : s = s' ∧ t = t' :=
  ⟨(h.left.isObject ⟨_, h1⟩).shape_unique (h.left.isObject ⟨_, h2⟩), (h.unique h1 h2).mp rfl⟩

end Iso

/-- The objects of a memory refer to one another only. -/
def Closed (P : Shape → Ref → Prop) (m : Memory) : Prop :=
  ∀ {s r i s' r'}, P s r → i < m.slotsAt r s → m.slotAt r i = .object s' r' → P s' r'

namespace Laid

variable {P : Shape → Ref → Prop} {m m₁ : Memory}

theorem congr (h : Laid P m) (hisObject : ∀ {s r}, P s r → m₁.IsObject s r)
    (htyped : ∀ {s r}, P s r → m₁.WellTyped r s)
    (hsize : ∀ {s r}, P s r → m₁.sizeAt r = m.sizeAt r) : Laid P m₁ where
  isObject := hisObject
  typed := htyped
  apart hp hp' hne := by
    have := h.apart hp hp' hne
    unfold Apart Memory.endAt at *
    rwa [hsize hp, hsize hp']

/-- Objects are not affected by what does not touch them. -/
theorem of_same (h : Laid P m) (closed : Closed P m)
    (same : ∀ {s r}, P s r → SameObject m m₁ r r) : Laid P m₁ := by
  refine h.congr (fun hp => (same hp).isObject (h.isObject hp)) (fun hp => ?_)
    fun hp => (same hp).sizeAt
  refine (same hp).wellTyped (h.isObject hp) (h.typed hp) fun t i hi ht => ?_
  have ht := closed hp hi ht
  exact (same ht).lengthAt (eight_le_sizeAt (h.typed ht))

/-- One of the objects may change its payload; if it is a tuple it keeps its length. -/
theorem update (h : Laid P m) (closed : Closed P m) {s₀ : Shape} {r₀ : Ref} (h₀ : P s₀ r₀)
    (within : Within m m₁ r₀) (hlength : s₀ = .tuple → m₁.lengthAt r₀ = m.lengthAt r₀)
    (typed : m₁.WellTyped r₀ s₀) : Laid P m₁ := by
  have same : ∀ {s r}, P s r → r ≠ r₀ → SameObject m m₁ r r := fun hp hne =>
    within.sameObject (h.isObject hp) (h.apart h₀ hp (Ne.symm hne))
  have shape : ∀ {s}, P s r₀ → s = s₀ := fun hp =>
    (h.isObject hp).shape_unique (h.isObject h₀)
  refine h.congr (fun {s r} hp => ?_) (fun {s r} hp => ?_) fun {s r} hp => ?_
  · by_cases heq : r = r₀
    · subst heq
      exact within.isObject (h.isObject hp)
    · exact (same hp heq).isObject (h.isObject hp)
  · by_cases heq : r = r₀
    · subst heq
      rwa [shape hp]
    · refine (same hp heq).wellTyped (h.isObject hp) (h.typed hp) fun t i hi ht => ?_
      have ht := closed hp hi ht
      by_cases heq' : t = r₀
      · subst heq'
        exact hlength (shape ht).symm
      · exact (same ht heq').lengthAt (eight_le_sizeAt (h.typed ht))
  · by_cases heq : r = r₀
    · subst heq
      exact within.sizeAt
    · exact (same hp heq).sizeAt

end Laid

/-- An object that is the same in both memories of a pair of memories is alike as before. -/
theorem AlikeObjects.congr {ρ : Matching} {m m' m₁ m₁' : Memory} {s : Shape} {r t : Ref}
    (h : AlikeObjects ρ m m' s r t) (obj : m.IsObject s r) (obj' : m'.IsObject s t)
    (typed : m.WellTyped r s) (typed' : m'.WellTyped t s) (same : SameObject m m₁ r r)
    (same' : SameObject m' m₁' t t) : AlikeObjects ρ m₁ m₁' s r t where
  size := by rw [same.sizeAt, same'.sizeAt, h.size]
  length := by rw [same.lengthAt (eight_le_sizeAt typed), same'.lengthAt (eight_le_sizeAt typed'),
    h.length]
  string hs := by rw [same.stringAt obj (eight_le_sizeAt typed),
    same'.stringAt obj' (eight_le_sizeAt typed'), h.string hs]
  slots i hi := by
    rw [same.slotsAt (.inr (eight_le_sizeAt typed))] at hi
    rw [same.slotAt (slot_inside typed hi),
      same'.slotAt (slot_inside typed' (h.slotsAt_eq ▸ hi))]
    exact h.slots i hi

/-- An object that holds the same as a well-typed one is well-typed, if the stores are as long. -/
theorem AlikeObjects.wellTyped {ρ : Matching} {m m' : Memory} {s : Shape} {r t : Ref}
    (h : AlikeObjects ρ m m' s r t) (typed : m.WellTyped r s)
    (hlength : ∀ u u', ρ .tuple u u' → m.lengthAt u = m'.lengthAt u') : m'.WellTyped t s := by
  have hfits : 0 < m.slotsAt r s → ∀ n, m.StoreFits (m.slotAt r 0) n →
      m'.StoreFits (m'.slotAt t 0) n := by
    intro hpos n hfits
    have hslot := h.slots 0 hpos
    generalize m.slotAt r 0 = v at hslot hfits
    generalize m'.slotAt t 0 = w at hslot
    cases hslot with
    | inline hv =>
      unfold StoreFits at hfits ⊢
      split at hfits
      · exact hfits
      · cases hv
      · exact hfits.elim
    | @object s u u' hu =>
      cases s with
      | tuple =>
        show n ≤ m'.lengthAt u'
        rw [← hlength u u' hu]
        exact hfits
      | _ => exact hfits.elim
  cases s with
  | string =>
    -- The length and the hash are the halves of the first word of the payload.
    have hword : m.word (Heap.payloadOffset r) (4 + 4) = m'.word (Heap.payloadOffset t) (4 + 4) :=
      h.length
    have hlow := word_lt m (Heap.payloadOffset r) 4
    have hlow' := word_lt m' (Heap.payloadOffset t) 4
    rw [word_add, word_add] at hword
    obtain ⟨hsize, hhash⟩ := typed
    refine ⟨?_, ?_⟩
    · rw [← h.size, hsize]
      congr 1
      omega
    · rw [← h.string rfl, ← hhash]
      omega
  | tuple =>
    show m'.sizeAt t = Heap.tupleSize (m'.lengthAt t)
    rw [← h.size, ← h.length]
    exact typed
  | array | table =>
    refine ⟨h.size.symm.trans typed.1, ?_⟩
    rw [← h.length]
    exact hfits Nat.one_pos _ typed.2

theorem AlikeObjects.mono {ρ σ : Matching} {m m' : Memory} {s : Shape} {r t : Ref}
    (h : AlikeObjects ρ m m' s r t) (himp : ∀ {s r t}, ρ s r t → σ s r t) :
    AlikeObjects σ m m' s r t :=
  ⟨h.size, h.length, h.string, fun i hi => (h.slots i hi).mono himp⟩

namespace Iso

variable {ρ σ : Matching} {m m' m₁ m₁' : Memory}

theorem closedLeft (h : Iso ρ m m') : Closed (fun s r => ∃ t, ρ s r t) m :=
  fun ⟨_, hrt⟩ hi hslot => h.closed_left hrt hi hslot

theorem closedRight (h : Iso ρ m m') : Closed (fun s t => ∃ r, ρ s r t) m' :=
  h.symm.closedLeft

/-- An isomorphism is not affected by changes to other objects. -/
theorem of_same (h : Iso ρ m m') (left : ∀ {s r t}, ρ s r t → SameObject m m₁ r r)
    (right : ∀ {s r t}, ρ s r t → SameObject m' m₁' t t) : Iso ρ m₁ m₁' where
  unique := h.unique
  left := h.left.of_same h.closedLeft fun ⟨_, hrt⟩ => left hrt
  right := h.right.of_same h.closedRight fun ⟨_, hrt⟩ => right hrt
  alike hrt := (h.alike hrt).congr (h.left.isObject ⟨_, hrt⟩) (h.right.isObject ⟨_, hrt⟩)
    (h.left.typed ⟨_, hrt⟩) (h.right.typed ⟨_, hrt⟩) (left hrt) (right hrt)

/-- An isomorphism is not affected by what is added to the memories. -/
theorem extend (h : Iso ρ m m') (left : Extends m m₁) (right : Extends m' m₁') : Iso ρ m₁ m₁' :=
  h.of_same (fun hrt => left.sameObject (h.left.isObject ⟨_, hrt⟩))
    fun hrt => right.sameObject (h.right.isObject ⟨_, hrt⟩)

/-- Matched objects may change their payloads in the same way; tuples keep their lengths. -/
theorem update (h : Iso ρ m m') {s : Shape} {r t : Ref} (hrt : ρ s r t) (left : Within m m₁ r)
    (right : Within m' m₁' t) (hleft : s = .tuple → m₁.lengthAt r = m.lengthAt r)
    (hright : s = .tuple → m₁'.lengthAt t = m'.lengthAt t) (typed : m₁.WellTyped r s)
    (typed' : m₁'.WellTyped t s) (alike : AlikeObjects ρ m₁ m₁' s r t) : Iso ρ m₁ m₁' where
  unique := h.unique
  left := h.left.update h.closedLeft ⟨t, hrt⟩ left hleft typed
  right := h.right.update h.closedRight ⟨r, hrt⟩ right hright typed'
  alike {s' r' t'} hrt' := by
    by_cases heq : r' = r
    · obtain rfl := heq
      obtain ⟨rfl, rfl⟩ := h.shape_unique hrt hrt'
      exact alike
    · have heq' : t' ≠ t := fun h' => heq ((h.unique hrt' hrt).mpr h')
      have obj := h.left.isObject ⟨_, hrt'⟩
      have obj' := h.right.isObject ⟨_, hrt'⟩
      exact (h.alike hrt').congr obj obj' (h.left.typed ⟨_, hrt'⟩) (h.right.typed ⟨_, hrt'⟩)
        (left.sameObject obj (h.left.apart ⟨_, hrt⟩ ⟨_, hrt'⟩ (Ne.symm heq)))
        (right.sameObject obj' (h.right.apart ⟨_, hrt⟩ ⟨_, hrt'⟩ (Ne.symm heq')))

/-- Two isomorphisms between the same memories make one if their objects are not the same. -/
theorem union (h : Iso ρ m m') (h' : Iso σ m m')
    (left : ∀ {s r t s' r' t'}, ρ s r t → σ s' r' t' → r ≠ r' ∧ m.Apart r r')
    (right : ∀ {s r t s' r' t'}, ρ s r t → σ s' r' t' → t ≠ t' ∧ m'.Apart t t') :
    Iso (ρ.union σ) m m' where
  unique := by
    rintro s r t s' r' t' (h1 | h1) (h2 | h2)
    · exact h.unique h1 h2
    · exact ⟨fun heq => absurd heq (left h1 h2).1, fun heq => absurd heq (right h1 h2).1⟩
    · exact ⟨fun heq => absurd heq.symm (left h2 h1).1, fun heq => absurd heq.symm (right h2 h1).1⟩
    · exact h'.unique h1 h2
  left := by
    refine ⟨?_, ?_, ?_⟩
    · rintro s r ⟨t, h1 | h1⟩
      · exact h.left.isObject ⟨t, h1⟩
      · exact h'.left.isObject ⟨t, h1⟩
    · rintro s r ⟨t, h1 | h1⟩
      · exact h.left.typed ⟨t, h1⟩
      · exact h'.left.typed ⟨t, h1⟩
    · rintro s r s' r' ⟨t, h1 | h1⟩ ⟨t', h2 | h2⟩ hne
      · exact h.left.apart ⟨t, h1⟩ ⟨t', h2⟩ hne
      · exact (left h1 h2).2
      · exact (left h2 h1).2.symm
      · exact h'.left.apart ⟨t, h1⟩ ⟨t', h2⟩ hne
  right := by
    refine ⟨?_, ?_, ?_⟩
    · rintro s t ⟨r, h1 | h1⟩
      · exact h.right.isObject ⟨r, h1⟩
      · exact h'.right.isObject ⟨r, h1⟩
    · rintro s t ⟨r, h1 | h1⟩
      · exact h.right.typed ⟨r, h1⟩
      · exact h'.right.typed ⟨r, h1⟩
    · rintro s t s' t' ⟨r, h1 | h1⟩ ⟨r', h2 | h2⟩ hne
      · exact h.right.apart ⟨r, h1⟩ ⟨r', h2⟩ hne
      · exact (right h1 h2).2
      · exact (right h2 h1).2.symm
      · exact h'.right.apart ⟨r, h1⟩ ⟨r', h2⟩ hne
  alike := by
    rintro s r t (h1 | h1)
    · exact (h.alike h1).mono .inl
    · exact (h'.alike h1).mono .inr

end Iso

namespace Iso

variable {ρ : Matching} {m m' : Memory} {s : Shape} {r t : Ref}

/-- Matched objects may get matched values in the same slot, if these suit the objects. -/
theorem storeSlot (h : Iso ρ m m') (hrt : ρ s r t) {i : Nat} (hi : i < m.slotsAt r s) {v w : Value}
    (hvw : v.Match ρ w)
    (typed : (m.storeValue (slotOffset r.start i) v).WellTyped r s)
    (typed' : (m'.storeValue (slotOffset t.start i) w).WellTyped t s) :
    Iso ρ (m.storeValue (slotOffset r.start i) v) (m'.storeValue (slotOffset t.start i) w) := by
  have old := h.alike hrt
  have hi' : i < m'.slotsAt t s := old.slotsAt_eq ▸ hi
  have obj := h.left.isObject ⟨t, hrt⟩
  have obj' := h.right.isObject ⟨r, hrt⟩
  have htyped := h.left.typed ⟨t, hrt⟩
  have htyped' := h.right.typed ⟨r, hrt⟩
  have within := within_storeSlot (slot_inside htyped hi) v
  have within' := within_storeSlot (slot_inside htyped' hi') w
  refine h.update hrt within within' (fun _ => lengthAt_storeSlot v)
    (fun _ => lengthAt_storeSlot w) typed typed' ⟨?_, ?_, ?_, ?_⟩
  · rw [within.sizeAt, within'.sizeAt, old.size]
  · rw [lengthAt_storeSlot, lengthAt_storeSlot, old.length]
  · rintro rfl
    exact absurd hi (Nat.not_lt_zero i)
  · intro j hj
    rw [slotsAt_congr (lengthAt_storeSlot v) s] at hj
    rw [slotAt_storeSlot (slot_inside htyped hi) v obj,
      slotAt_storeSlot (slot_inside htyped' hi') w obj']
    by_cases heq : j = i
    · rw [if_pos heq, if_pos heq]
      exact hvw
    · rw [if_neg heq, if_neg heq]
      exact old.slots j hj

/-- Matched tuples may get matched elements. -/
theorem storeElement (h : Iso ρ m m') (hrt : ρ .tuple r t) {i : Nat} (hi : i < m.lengthAt r)
    {v w : Value} (hvw : v.Match ρ w) :
    Iso ρ (m.storeValue (slotOffset r.start i) v) (m'.storeValue (slotOffset t.start i) w) := by
  have typed := h.left.typed ⟨t, hrt⟩
  have typed' := h.right.typed ⟨r, hrt⟩
  have hi' : i < m'.slotsAt t .tuple := by
    rw [← (h.alike hrt).slotsAt_eq]
    exact hi
  refine h.storeSlot hrt hi hvw ?_ ?_
  · show Memory.sizeAt _ r = Heap.tupleSize (Memory.lengthAt _ r)
    rw [(within_storeSlot (slot_inside typed (show i < m.slotsAt r .tuple from hi)) v).sizeAt,
      lengthAt_storeSlot]
    exact typed
  · show Memory.sizeAt _ t = Heap.tupleSize (Memory.lengthAt _ t)
    rw [(within_storeSlot (slot_inside typed' hi') w).sizeAt, lengthAt_storeSlot]
    exact typed'

/-- Matched arrays and tables may get matched stores, if these have room for their elements. -/
theorem storeStore (h : Iso ρ m m') (hrt : ρ s r t) (hs : s = .array ∨ s = .table) {u u' : Ref}
    (huu : ρ .tuple u u')
    (room : slotsNeeded s (m.lengthAt r) ≤ m.lengthAt u) :
    Iso ρ (m.storeValue (slotOffset r.start 0) (.object .tuple u))
      (m'.storeValue (slotOffset t.start 0) (.object .tuple u')) := by
  have old := h.alike hrt
  have store := h.alike huu
  have typed := h.left.typed ⟨t, hrt⟩
  have typed' := h.right.typed ⟨r, hrt⟩
  have obj := h.left.isObject ⟨t, hrt⟩
  have obj' := h.right.isObject ⟨r, hrt⟩
  have hi : 0 < m.slotsAt r s := by rcases hs with rfl | rfl <;> exact Nat.one_pos
  have hi' : 0 < m'.slotsAt t s := old.slotsAt_eq ▸ hi
  have within := within_storeSlot (slot_inside typed hi) (.object .tuple u)
  have within' := within_storeSlot (slot_inside typed' hi') (.object .tuple u')
  -- The store is another object, so it has kept its length.
  have hne : r ≠ u := by
    rintro rfl
    have := (h.shape_unique hrt huu).1
    rcases hs with rfl | rfl <;> cases this
  have hne' : t ≠ u' := fun heq => hne ((h.unique hrt huu).mpr heq)
  have hu := (within.sameObject (h.left.isObject ⟨_, huu⟩)
    (h.left.apart ⟨_, hrt⟩ ⟨_, huu⟩ hne)).lengthAt (eight_le_sizeAt (h.left.typed ⟨_, huu⟩))
  have hu' := (within'.sameObject (h.right.isObject ⟨_, huu⟩)
    (h.right.apart ⟨_, hrt⟩ ⟨_, huu⟩ hne')).lengthAt (eight_le_sizeAt (h.right.typed ⟨_, huu⟩))
  have hslot := slotAt_storeSlot (slot_inside typed hi) (.object .tuple u) obj 0
  have hslot' := slotAt_storeSlot (slot_inside typed' hi') (.object .tuple u') obj' 0
  rw [if_pos rfl] at hslot hslot'
  have hlength := lengthAt_storeSlot (m := m) (r := r) (i := 0) (.object .tuple u)
  have hlength' := lengthAt_storeSlot (m := m') (r := t) (i := 0) (.object .tuple u')
  have hold := old.length
  have hstore := store.length
  refine h.storeSlot hrt hi (.object huu) ?_ ?_
  · rcases hs with rfl | rfl
    · refine ⟨within.sizeAt.trans typed.1, ?_⟩
      rw [hslot, hlength]
      show m.lengthAt r ≤ Memory.lengthAt _ u
      rw [hu]
      exact room
    · refine ⟨within.sizeAt.trans typed.1, ?_⟩
      rw [hslot, hlength]
      show m.lengthAt r * 2 ≤ Memory.lengthAt _ u
      rw [hu]
      exact room
  · rcases hs with rfl | rfl
    · refine ⟨within'.sizeAt.trans typed'.1, ?_⟩
      rw [hslot', hlength']
      show m'.lengthAt t ≤ Memory.lengthAt _ u'
      rw [hu', ← hold, ← hstore]
      exact room
    · refine ⟨within'.sizeAt.trans typed'.1, ?_⟩
      rw [hslot', hlength']
      show m'.lengthAt t * 2 ≤ Memory.lengthAt _ u'
      rw [hu', ← hold, ← hstore]
      exact room

/-- Matched arrays and tables may get the same length, if their stores have room for it. -/
theorem storeLength (h : Iso ρ m m') (hrt : ρ s r t) (hs : s = .array ∨ s = .table) {n : Nat}
    (small : n < 2 ^ 64)
    (room : ∀ store, m.slotAt r 0 = store → m.StoreFits store (slotsNeeded s n))
    (room' : ∀ store, m'.slotAt t 0 = store →
      m'.StoreFits store (slotsNeeded s n)) :
    Iso ρ (m.store (Heap.payloadOffset r) 8 n) (m'.store (Heap.payloadOffset t) 8 n) := by
  have old := h.alike hrt
  have typed := h.left.typed ⟨t, hrt⟩
  have typed' := h.right.typed ⟨r, hrt⟩
  have obj := h.left.isObject ⟨t, hrt⟩
  have obj' := h.right.isObject ⟨r, hrt⟩
  have within := within_storeLength n (eight_le_sizeAt typed)
  have within' := within_storeLength n (eight_le_sizeAt typed')
  have hlength := lengthAt_storeLength n (eight_le_sizeAt typed) obj small
  have hlength' := lengthAt_storeLength n (eight_le_sizeAt typed') obj' small
  have hne : s ≠ .tuple := by rcases hs with rfl | rfl <;> exact fun heq => nomatch heq
  have fits : ∀ {m m₁ : Memory} {r : Ref} {P : Shape → Ref → Prop} (laid : Laid P m)
      (closed : Closed P m) (hp : P s r) (within : Within m m₁ r)
      (hroom : m.StoreFits (m.slotAt r 0) (slotsNeeded s n)),
      m₁.StoreFits (m.slotAt r 0) (slotsNeeded s n) := by
    intro m m₁ r P laid closed hp within hroom
    refine hroom.congr fun u hu => ?_
    have hpu : P .tuple u := closed hp (i := 0)
      (by rcases hs with rfl | rfl <;> exact Nat.one_pos) hu
    have hru : r ≠ u := by
      rintro rfl
      exact hne ((laid.isObject hp).shape_unique (laid.isObject hpu))
    exact (within.sameObject (laid.isObject hpu) (laid.apart hp hpu hru)).lengthAt
      (eight_le_sizeAt (laid.typed hpu))
  have hfits := fits h.left h.closedLeft ⟨t, hrt⟩ within (room _ rfl)
  have hfits' := fits h.right h.closedRight ⟨r, hrt⟩ within' (room' _ rfl)
  refine h.update hrt within within' (fun heq => absurd heq hne) (fun heq => absurd heq hne)
    ?_ ?_ ⟨?_, ?_, ?_, ?_⟩
  · rcases hs with rfl | rfl <;> refine ⟨within.sizeAt.trans typed.1, ?_⟩ <;>
      rw [slotAt_storeLength, hlength] <;> exact hfits
  · rcases hs with rfl | rfl <;> refine ⟨within'.sizeAt.trans typed'.1, ?_⟩ <;>
      rw [slotAt_storeLength, hlength'] <;> exact hfits'
  · rw [within.sizeAt, within'.sizeAt, old.size]
  · rw [hlength, hlength']
  · rintro rfl
    rcases hs with hs | hs <;> cases hs
  · intro i hi
    rw [slotAt_storeLength, slotAt_storeLength]
    refine old.slots i ?_
    rcases hs with rfl | rfl <;> exact (show i < 1 from hi)

end Iso

end ActorMachine
