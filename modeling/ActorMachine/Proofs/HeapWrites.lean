import ActorMachine.Proofs.HeapReads

/-!
# Writing isomorphic heaps

Every operation that writes to objects keeps heaps isomorphic under the same matching, and comes to
the same (`Heap.Agree`). It leaves the limits of the heap, the sizes of the objects and the bytes of
the strings as they are (`Heap.Kept`), and writes vouched values if it is given such values.
-/

namespace ActorMachine

open Memory
open HeapError (Same)

theorem HeapM.read_ok {f : Heap → Except HeapError α} {h : Heap} {x : α} (hx : f h = .ok x) :
    HeapM.read f h = .ok x h := by
  unfold read
  rw [hx]

theorem HeapM.read_error {f : Heap → Except HeapError α} {h : Heap} {e : HeapError}
    (he : f h = .error e) : HeapM.read f h = .error e h := by
  unfold read
  rw [he]

namespace Heap

/-- The objects of a heap are where they have been, with their sizes; strings have not changed, and
neither have objects that have no byte in common with those of `P`. -/
structure Kept (P : Shape → Ref → Prop) (h h₁ : Heap) : Prop where
  same : h₁ = { h with memory := h₁.memory }
  used : h₁.used = h.used
  sizeAt : ∀ {s r}, P s r → h₁.memory.sizeAt r = h.memory.sizeAt r
  stringAt : ∀ {r}, P .string r → h₁.memory.stringAt r = h.memory.stringAt r
  others : ∀ {s r}, h.memory.IsObject s r → (∀ {s' r'}, P s' r' → h.memory.Apart r' r) →
    SameObject h.memory h₁.memory r r

namespace Kept

variable {P : Shape → Ref → Prop} {h h₁ h₂ : Heap}

theorem refl (h : Heap) : Kept P h h :=
  ⟨rfl, rfl, fun _ => rfl, fun _ => rfl, fun obj _ => (Extends.refl _).sameObject obj⟩

theorem apart (first : Kept P h h₁) {s : Shape} {r r' : Ref} (hp : P s r)
    (same : SameObject h.memory h₁.memory r' r') (hapart : h.memory.Apart r r') :
    h₁.memory.Apart r r' := by
  unfold Apart at hapart ⊢
  rw [same.endAt, endAt, first.sizeAt hp]
  exact hapart

theorem trans (first : Kept P h h₁) (second : Kept P h₁ h₂) : Kept P h h₂ where
  same := by
    rw [second.same, first.same]
  used := second.used.trans first.used
  sizeAt hp := (second.sizeAt hp).trans (first.sizeAt hp)
  stringAt hp := (second.stringAt hp).trans (first.stringAt hp)
  others obj hapart := by
    have same := first.others obj hapart
    exact same.trans (second.others (same.isObject obj) fun hp => first.apart hp same (hapart hp))

/-- A change of the payload of an object that is not a string. -/
theorem of_within (laid : Laid P h.memory) {s : Shape} {r : Ref} (hp : P s r) (hs : s ≠ .string)
    {m₁ : Memory} (within : Within h.memory m₁ r) : Kept P h { h with memory := m₁ } where
  same := rfl
  used := within.size
  sizeAt {s' r'} hp' := by
    by_cases heq : r = r'
    · rw [← heq]
      exact within.sizeAt
    · exact (within.sameObject (laid.isObject hp') (laid.apart hp hp' heq)).sizeAt
  stringAt {r'} hp' := by
    have hne : r ≠ r' := by
      rintro rfl
      exact hs ((laid.isObject hp).shape_unique (laid.isObject hp'))
    exact (within.sameObject (laid.isObject hp') (laid.apart hp hp' hne)).stringAt
      (laid.isObject hp') (eight_le_sizeAt (laid.typed hp'))
  others obj hapart := within.sameObject obj (hapart hp)

end Kept

/-- What has become of two isomorphic heaps by writing to their objects. -/
structure Rewritten (F : Value → Prop) (ρ : Matching) (h h' h₁ h₁' : Heap) : Prop where
  iso : Iso ρ h₁.memory h₁'.memory
  left : Kept (fun s r => ∃ t, ρ s r t) h h₁
  right : Kept (fun s t => ∃ r, ρ s r t) h' h₁'
  vouched : h.memory.Vouched F (fun s r => ∃ t, ρ s r t) → h₁.memory.Vouched F fun s r =>
    ∃ t, ρ s r t

namespace Rewritten

variable {F : Value → Prop} {ρ : Matching} {h h' h₁ h₁' h₂ h₂' : Heap}

theorem refl (iso : Iso ρ h.memory h'.memory) :
    Rewritten F ρ h h' h h' := ⟨iso, .refl _, .refl _, id⟩

theorem trans (first : Rewritten F ρ h h' h₁ h₁') (second : Rewritten F ρ h₁ h₁' h₂ h₂') :
    Rewritten F ρ h h' h₂ h₂' :=
  ⟨second.iso, first.left.trans second.left, first.right.trans second.right,
    fun hv => second.vouched (first.vouched hv)⟩

end Rewritten

/-- On two heaps, computations come to the same, and keep the heaps isomorphic; all values of the
first one stay vouched for. -/
def Agree (F : Value → Prop) (ρ : Matching) (m m' : HeapM α) (h h' : Heap)
    (Q : α → Heap → α → Heap → Prop) : Prop :=
  Together m m' h h' (fun x h₁ y h₁' => Rewritten F ρ h h' h₁ h₁' ∧ Q x h₁ y h₁')
    fun e h₁ e' h₁' => Same e e' ∧ Rewritten F ρ h h' h₁ h₁'

namespace Agree

variable {F : Value → Prop} {ρ : Matching} {h h' : Heap} {α β : Type} {m m' : HeapM α}
  {Q : α → Heap → α → Heap → Prop}

theorem pure (iso : Iso ρ h.memory h'.memory) {x y : α} (hq : Q x h y h') :
    Agree F ρ (pure x) (pure y) h h' Q := Together.pure ⟨.refl iso, hq⟩

theorem throw (iso : Iso ρ h.memory h'.memory) {e e' : HeapError} (he : Same e e') :
    Agree F ρ (throw e) (throw e') h h' Q := Together.throw ⟨he, .refl iso⟩

theorem bind {f f' : α → HeapM β} {S : β → Heap → β → Heap → Prop} (first : Agree F ρ m m' h h' Q)
    (rest : ∀ x h₁ y h₁', Rewritten F ρ h h' h₁ h₁' → Q x h₁ y h₁' →
      Agree F ρ (f x) (f' y) h₁ h₁' S) : Agree F ρ (m >>= f) (m' >>= f') h h' S := by
  refine Together.bind <| Together.mono first ?_ fun _ _ _ _ h => h
  rintro x h₁ y h₁' ⟨hr, hq⟩
  refine (rest x h₁ y h₁' hr hq).mono ?_ ?_
  · rintro x h₂ y h₂' ⟨hr', hs⟩
    exact ⟨hr.trans hr', hs⟩
  · rintro e h₂ e' h₂' ⟨he, hr'⟩
    exact ⟨he, hr.trans hr'⟩

theorem mono {S : α → Heap → α → Heap → Prop} (first : Agree F ρ m m' h h' Q)
    (himp : ∀ x h₁ y h₁', Q x h₁ y h₁' → S x h₁ y h₁') : Agree F ρ m m' h h' S :=
  Together.mono first (fun _ _ _ _ ⟨hr, hq⟩ => ⟨hr, himp _ _ _ _ hq⟩) fun _ _ _ _ h => h

/-- Reading gives matched results and changes nothing. -/
theorem read_bind (iso : Iso ρ h.memory h'.memory) {f f' : Heap → Except HeapError α}
    {R : α → α → Prop} {g g' : α → HeapM β} {S : β → Heap → β → Heap → Prop}
    (hread : Both R Same (f h) (f' h'))
    (rest : ∀ x y, f h = .ok x → R x y → Agree F ρ (g x) (g' y) h h' S) :
    Agree F ρ (HeapM.read f >>= g) (HeapM.read f' >>= g') h h' S := by
  cases hx : f h with
  | ok x =>
    cases hy : f' h' with
    | ok y =>
      rw [hx, hy] at hread
      exact Together.bind <| .ok_ok (HeapM.read_ok hx) (HeapM.read_ok hy) (rest x y hx hread)
    | error e => rw [hx, hy] at hread; exact hread.elim
  | error e =>
    cases hy : f' h' with
    | ok y => rw [hx, hy] at hread; exact hread.elim
    | error e' =>
      rw [hx, hy] at hread
      exact Together.bind <| .error_error (HeapM.read_error hx) (HeapM.read_error hy)
        ⟨hread, .refl iso⟩

end Agree

/-- Matched objects have the lengths and the stores that they had. -/
structure KeepsStores (ρ : Matching) (h h₁ : Heap) : Prop where
  length : ∀ {s r t}, ρ s r t → h₁.memory.lengthAt r = h.memory.lengthAt r
  store : ∀ {s r t}, ρ s r t → s = .array ∨ s = .table →
    h₁.memory.slotAt r 0 = h.memory.slotAt r 0

namespace KeepsStores

variable {ρ : Matching} {h h₁ h₂ : Heap}

theorem refl (ρ : Matching) (h : Heap) : KeepsStores ρ h h := ⟨fun _ => rfl, fun _ _ => rfl⟩

theorem trans (first : KeepsStores ρ h h₁) (second : KeepsStores ρ h₁ h₂) : KeepsStores ρ h h₂ where
  length hrt := (second.length hrt).trans (first.length hrt)
  store hrt hs := (second.store hrt hs).trans (first.store hrt hs)

end KeepsStores

end Heap

namespace HeapM

open Heap

variable {F : Value → Prop} {ρ : Matching} {h h' : Heap} {r t : Ref}

theorem tupleSet_eq {index : Int} (obj : h.memory.IsObject .tuple r) (v : Value) :
    tupleSet r index v h = if 0 ≤ index ∧ index < h.memory.lengthAt r then
      .ok () { h with memory := h.memory.storeValue (slotOffset r.start index.toNat) v }
    else .error (.indexOutOfBounds index (h.memory.lengthAt r)) h := by
  unfold tupleSet
  show EStateM.bind _ _ h = _
  unfold EStateM.bind HeapM.read
  simp only [tupleSlot_eq obj]
  by_cases hindex : 0 ≤ index ∧ index < h.memory.lengthAt r
  · simp only [if_pos hindex]
    rfl
  · simp only [if_neg hindex]

theorem setArrayLength_eq (obj : h.memory.IsObject .array r) (n : Nat) :
    setArrayLength r n h = .ok () { h with memory := h.memory.store (payloadOffset r) 8 n } := by
  unfold setArrayLength
  rw [bind_of_ok (read_ok (expect_eq obj))]
  rfl

theorem setArrayStore_eq {u : Ref} (obj : h.memory.IsObject .array r)
    (store : h.memory.IsObject .tuple u) :
    setArrayStore r u h = .ok ()
      { h with memory := h.memory.storeValue (slotOffset r.start 0) (.object .tuple u) } := by
  unfold setArrayStore
  rw [bind_of_ok (read_ok (expect_eq obj)), bind_of_ok (read_ok (expect_eq store))]
  rfl

variable (iso : Iso ρ h.memory h'.memory)

include iso

/-- Replacing an element of matched tuples. -/
theorem agree_tupleSet (hrt : ρ .tuple r t) {index : Int} {v w : Value} (hvw : v.Match ρ w)
    (hv : h.memory.Vouched F (fun s r => ∃ t, ρ s r t) → v.Vouched F) :
    Agree F ρ (tupleSet r index v) (tupleSet t index w) h h' fun _ h₁ _ _ =>
      KeepsStores ρ h h₁ ∧ 0 ≤ index ∧ index < h.memory.lengthAt r := by
  have hlength := (iso.alike hrt).length
  unfold Agree Together
  rw [tupleSet_eq (iso.left.isObject ⟨t, hrt⟩),
    tupleSet_eq (iso.right.isObject ⟨r, hrt⟩), ← hlength]
  by_cases hindex : 0 ≤ index ∧ index < h.memory.lengthAt r
  · rw [if_pos hindex, if_pos hindex]
    have hi : index.toNat < h.memory.lengthAt r := by omega
    have hi' : index.toNat < h'.memory.lengthAt t := by omega
    have typed := iso.left.typed ⟨t, hrt⟩
    have typed' := iso.right.typed ⟨r, hrt⟩
    have within := within_storeSlot
      (slot_inside typed (show index.toNat < h.memory.slotsAt r .tuple from hi)) v
    have within' := within_storeSlot
      (slot_inside typed' (show index.toNat < h'.memory.slotsAt t .tuple from hi')) w
    have others : ∀ {s' r' t'}, ρ s' r' t' → r ≠ r' → SameObject h.memory
        (h.memory.storeValue (slotOffset r.start index.toNat) v) r' r' := fun hrt' hne =>
      within.sameObject (iso.left.isObject ⟨_, hrt'⟩) (iso.left.apart ⟨t, hrt⟩ ⟨_, hrt'⟩ hne)
    refine ⟨⟨iso.storeElement hrt hi hvw, .of_within iso.left ⟨t, hrt⟩ nofun within,
      .of_within iso.right ⟨r, hrt⟩ nofun within', fun vouched => ?_⟩, ⟨?_, ?_⟩, hindex⟩
    · exact vouched.storeSlot iso.left ⟨t, hrt⟩
        (show index.toNat < h.memory.slotsAt r .tuple from hi)
        (hv vouched)
    · intro s' r' t' hrt'
      by_cases heq : r = r'
      · rw [← heq]
        exact lengthAt_storeSlot v
      · exact (others hrt' heq).lengthAt (eight_le_sizeAt (iso.left.typed ⟨t', hrt'⟩))
    · intro s' r' t' hrt' hs
      have hne : r ≠ r' := by
        rintro rfl
        have := (iso.shape_unique hrt hrt').1
        rcases hs with rfl | rfl <;> cases this
      refine (others hrt' hne).slotAt (slot_inside (iso.left.typed ⟨t', hrt'⟩) ?_)
      rcases hs with rfl | rfl <;> exact Nat.one_pos
  · rw [if_neg hindex, if_neg hindex]
    exact ⟨.index _ _, .refl iso⟩

/-- Copying elements from tuple to tuple. It succeeds only if there is room for them. -/
theorem agree_copySlots {u u' : Ref} (hrt : ρ .tuple r t) (huu : ρ .tuple u u')
    (index count : Nat) :
    Agree F ρ (copySlots r u index count) (copySlots t u' index count) h h' fun _ h₁ _ _ =>
      KeepsStores ρ h h₁ ∧ (0 < count → index + count ≤ h.memory.lengthAt u) := by
  induction count generalizing index h h' with
  | zero => exact .pure iso ⟨.refl _ _, fun hpos => absurd hpos (Nat.lt_irrefl 0)⟩
  | succ count ih =>
    refine .read_bind iso (both_tupleGet iso hrt _) fun v w _ hvw => ?_
    refine (agree_tupleSet iso huu hvw.alike fun vouched => hvw.vouched vouched).bind ?_
    rintro _ h₁ _ h₁' hr ⟨hkeeps, -, hlt⟩
    refine (ih hr.iso (index + 1)).mono ?_
    rintro _ h₂ _ h₂' ⟨hkeeps', hroom⟩
    refine ⟨hkeeps.trans hkeeps', fun _ => ?_⟩
    rw [hkeeps.length huu] at hroom
    omega

/-- Replacing an element of matched arrays. -/
theorem agree_arraySet (hrt : ρ .array r t) {index : Int} {v w : Value} (hvw : v.Match ρ w)
    (hv : v.Vouched F) :
    Agree F ρ (arraySet r index v) (arraySet t index w) h h' fun _ _ _ _ => True :=
  .read_bind iso (both_arrayStoreAt iso hrt index) fun _ _ _ hu =>
    (agree_tupleSet iso hu hvw fun _ => hv).mono fun _ _ _ _ _ => trivial

/-- Matched arrays or tables get the same length, for which there is room. -/
theorem rewritten_storeLength {s : Shape} (hrt : ρ s r t) (hs : s = .array ∨ s = .table) {n : Nat}
    (small : n < 2 ^ 64) {u : Ref}
    (hslot : h.memory.slotAt r 0 = .object .tuple u)
    (room : slotsNeeded s n ≤ h.memory.lengthAt u) :
    Rewritten F ρ h h' { h with memory := h.memory.store (payloadOffset r) 8 n }
      { h' with memory := h'.memory.store (payloadOffset t) 8 n } := by
  have hstring : s ≠ .string := by rcases hs with rfl | rfl <;> exact nofun
  have hpos : 0 < h.memory.slotsAt r s := by rcases hs with rfl | rfl <;> exact Nat.one_pos
  refine ⟨iso.storeLength hrt hs small ?_ ?_,
    .of_within iso.left ⟨t, hrt⟩ hstring
      (within_storeLength n (eight_le_sizeAt (iso.left.typed ⟨t, hrt⟩))),
    .of_within iso.right ⟨r, hrt⟩ hstring
      (within_storeLength n (eight_le_sizeAt (iso.right.typed ⟨r, hrt⟩))),
    fun vouched => vouched.storeLength iso.left ⟨t, hrt⟩ hs n⟩
  · rintro _ rfl
    rw [hslot]
    exact room
  · rintro _ rfl
    have hmatch := (iso.alike hrt).slots 0 hpos
    rw [hslot] at hmatch
    generalize h'.memory.slotAt t 0 = w at hmatch
    cases hmatch with
    | inline h => cases h
    | object hu' =>
      show slotsNeeded s n ≤ _
      rw [← (iso.alike hu').length]
      exact room

theorem both_expect {s : Shape} (hrt : ρ s r t) :
    Both (fun _ _ => True) Same (h.expect r (.object s)) (h'.expect t (.object s)) := by
  rw [expect_eq (iso.left.isObject ⟨t, hrt⟩), expect_eq (iso.right.isObject ⟨r, hrt⟩)]
  exact .ok trivial

/-- Matched arrays get stores that have room for their elements. -/
theorem agree_setArrayStore (hrt : ρ .array r t) {u u' : Ref} (hu : ρ .tuple u u')
    (room : h.memory.lengthAt r ≤ h.memory.lengthAt u) :
    Agree F ρ (setArrayStore r u) (setArrayStore t u') h h' fun _ _ _ _ => True := by
  refine .read_bind iso (both_expect iso hrt) fun _ _ _ _ => ?_
  refine .read_bind iso (both_expect iso hu) fun _ _ _ _ => ?_
  have typed := iso.left.typed ⟨t, hrt⟩
  have typed' := iso.right.typed ⟨r, hrt⟩
  exact Together.modify ⟨⟨iso.storeStore hrt (.inl rfl) hu room,
    .of_within iso.left ⟨t, hrt⟩ nofun (within_storeSlot
      (slot_inside typed (show 0 < h.memory.slotsAt r .array from Nat.one_pos)) _),
    .of_within iso.right ⟨r, hrt⟩ nofun (within_storeSlot
      (slot_inside typed' (show 0 < h'.memory.slotsAt t .array from Nat.one_pos)) _),
    fun vouched => vouched.storeSlot iso.left ⟨t, hrt⟩
      (show 0 < h.memory.slotsAt r .array from Nat.one_pos)
      nofun⟩, trivial⟩

/-- Matched tables get stores that have room for their entries. -/
theorem rewritten_storeTableStore (hrt : ρ .table r t) {u u' : Ref} (hu : ρ .tuple u u')
    (room : h.memory.lengthAt r * 2 ≤ h.memory.lengthAt u) :
    Rewritten F ρ h h'
      { h with memory := h.memory.storeValue (slotOffset r.start 0) (.object .tuple u) }
      { h' with memory := h'.memory.storeValue (slotOffset t.start 0) (.object .tuple u') } := by
  have typed := iso.left.typed ⟨t, hrt⟩
  have typed' := iso.right.typed ⟨r, hrt⟩
  exact ⟨iso.storeStore hrt (.inr rfl) hu room,
    .of_within iso.left ⟨t, hrt⟩ nofun (within_storeSlot
      (slot_inside typed (show 0 < h.memory.slotsAt r .table from Nat.one_pos)) _),
    .of_within iso.right ⟨r, hrt⟩ nofun (within_storeSlot
      (slot_inside typed' (show 0 < h'.memory.slotsAt t .table from Nat.one_pos)) _),
    fun vouched => vouched.storeSlot iso.left ⟨t, hrt⟩
      (show 0 < h.memory.slotsAt r .table from Nat.one_pos)
      nofun⟩

/-- Appending an element to matched arrays. -/
theorem agree_arrayPush (hrt : ρ .array r t) {v w : Value} (hvw : v.Match ρ w) (hv : v.Vouched F) :
    Agree F ρ (arrayPush r v) (arrayPush t w) h h' fun _ _ _ _ => True := by
  have obj := iso.left.isObject ⟨t, hrt⟩
  have obj' := iso.right.isObject ⟨r, hrt⟩
  refine .read_bind iso (both_arrayLength iso hrt) fun n n' hn heq => ?_
  rw [arrayLength_eq obj] at hn
  obtain rfl := Except.ok.inj hn
  subst heq
  refine .read_bind iso (both_arrayCapacity iso hrt) fun c c' hc heq => ?_
  subst heq
  by_cases hfull : c ≤ h.memory.lengthAt r
  · simp only [if_pos hfull]
    exact .throw iso (.index _ _)
  simp only [if_neg hfull]
  unfold arrayCapacity at hc
  rw [arrayStore_eq obj] at hc
  rcases iso.stores hrt (.inl rfl) with ⟨hslot, -, -⟩ | ⟨u, u', hslot, -, hu, -⟩
  · rw [hslot] at hc
    cases hc
    omega
  · have hlt := lengthAt_lt (iso.left.typed ⟨u', hu⟩)
    rw [hslot] at hc
    have hc : h.tupleLength u = .ok c := hc
    rw [tupleLength_eq (iso.left.isObject ⟨u', hu⟩)] at hc
    obtain rfl := Except.ok.inj hc
    have hr := rewritten_storeLength (F := F) iso hrt (.inl rfl)
      (n := h.memory.lengthAt r + 1) (by omega)
      hslot (by rw [slotsNeeded_array]; omega)
    refine Agree.bind (Q := fun _ _ _ _ => True) ?_ fun _ h₁ _ h₁' hr _ =>
      agree_arraySet hr.iso hrt hvw hv
    exact .read_bind iso (both_expect iso hrt) fun _ _ _ _ => Together.modify ⟨hr, trivial⟩

/-- Moving the entries of matched tables to other stores. -/
theorem agree_setTableStore (hrt : ρ .table r t) {u u' : Ref} (hu : ρ .tuple u u') :
    Agree F ρ (setTableStore r u) (setTableStore t u') h h' fun _ _ _ _ => True := by
  refine .read_bind iso (both_tableLength iso hrt) fun n n' hn heq => ?_
  rw [tableLength_eq (iso.left.isObject ⟨t, hrt⟩)] at hn
  have hn := Except.ok.inj hn
  subst heq
  refine .read_bind iso (both_tupleLength iso hu) fun c c' hc heq => ?_
  rw [tupleLength_eq (iso.left.isObject ⟨u', hu⟩)] at hc
  have hc := Except.ok.inj hc
  subst heq
  by_cases hfew : c < n * 2
  · simp only [if_pos hfew]
    exact .throw iso (.index _ _)
  simp only [if_neg hfew]
  refine .read_bind iso (both_tableStore iso hrt) fun a b _ hstores => ?_
  -- Moving the entries changes the length of neither the table nor the new store.
  have rest : ∀ h₁ h₁', Rewritten F ρ h h' h₁ h₁' → KeepsStores ρ h h₁ →
      Agree F ρ (HeapM.write (·.storeValue (slotOffset r.start 0) (.object .tuple u)))
        (HeapM.write (·.storeValue (slotOffset t.start 0) (.object .tuple u'))) h₁ h₁'
        fun _ _ _ _ => True := fun h₁ h₁' hr hkeeps =>
    Together.modify ⟨rewritten_storeTableStore hr.iso hrt hu (by
      rw [hkeeps.length hrt, hkeeps.length hu, hn, hc]
      exact Nat.not_lt.mp hfew), trivial⟩
  cases hstores with
  | none => exact rest h h' (.refl iso) (.refl _ _)
  | some hold =>
    exact (agree_copySlots iso hold hu 0 _).bind fun _ h₁ _ h₁' hr hq => rest h₁ h₁' hr hq.1

/-- What the store of a table has room for. -/
theorem tableCapacity_cases (hrt : ρ .table r t) {c : Nat} (hc : h.tableCapacity r = .ok c) :
    c = 0 ∨ ∃ u u', h.memory.slotAt r 0 = .object .tuple u ∧
      h'.memory.slotAt t 0 = .object .tuple u' ∧ ρ .tuple u u' ∧ c * 2 ≤ h.memory.lengthAt u := by
  unfold tableCapacity at hc
  rw [tableStore_eq (iso.left.isObject ⟨t, hrt⟩)] at hc
  rcases iso.stores hrt (.inr rfl) with ⟨hslot, -, -⟩ | ⟨u, u', hslot, hslot', hu, -⟩
  · rw [hslot] at hc
    exact .inl (Except.ok.inj hc).symm
  · rw [hslot] at hc
    have hc : (do return (← h.tupleLength u) / 2 : Except HeapError Nat) = .ok c := hc
    rw [tupleLength_eq (iso.left.isObject ⟨u', hu⟩)] at hc
    have hc := Except.ok.inj hc
    refine .inr ⟨u, u', hslot, hslot', hu, ?_⟩
    rw [← hc]
    exact Nat.div_mul_le_self _ 2

/-- Setting the value of a key of matched tables, if there is room for it. -/
theorem agree_tableTrySet (hrt : ρ .table r t) {key key' v w : Value} (hkey : key.Match ρ key')
    (hvw : v.Match ρ w) (hk : key.Vouched F) (hv : v.Vouched F) :
    Agree F ρ (tableTrySet r key v) (tableTrySet t key' w) h h' fun x _ y _ => x = y := by
  have obj := iso.left.isObject ⟨t, hrt⟩
  have obj' := iso.right.isObject ⟨r, hrt⟩
  refine .read_bind iso (both_tableFind iso hrt hkey) fun a b _ hfound => ?_
  cases hfound with
  | @some a b hab =>
    obtain ⟨u, entry⟩ := a
    obtain ⟨u', entry'⟩ := b
    obtain ⟨hu, rfl⟩ := hab
    exact (agree_tupleSet iso hu hvw fun _ => hv).bind fun _ h₁ _ h₁' hr _ => .pure hr.iso rfl
  | none =>
    refine .read_bind iso (both_tableLength iso hrt) fun n n' hn heq => ?_
    rw [tableLength_eq obj] at hn
    have hn := Except.ok.inj hn
    subst heq
    refine .read_bind iso (both_tableCapacity iso hrt) fun c c' hc heq => ?_
    subst heq
    by_cases hfull : c ≤ n
    · simp only [if_pos hfull]
      exact .pure iso rfl
    simp only [if_neg hfull]
    obtain hzero | ⟨u, u', hslot, hslot', hu, hroom⟩ := tableCapacity_cases iso hrt hc
    · omega
    refine .read_bind (R := fun a b => a = some u ∧ b = some u') iso ?_ fun a b _ hab => ?_
    · rw [tableStore_eq obj, tableStore_eq obj', hslot, hslot']
      exact .ok ⟨rfl, rfl⟩
    obtain ⟨rfl, rfl⟩ := hab
    refine (agree_tupleSet iso hu hkey fun _ => hk).bind fun _ h₁ _ h₁' hr hq => ?_
    refine (agree_tupleSet hr.iso hu hvw fun _ => hv).bind fun _ h₂ _ h₂' hr' hq' => ?_
    -- The table has kept its store, which has room for one more entry.
    have hkeeps := hq.1.trans hq'.1
    have hlt := lengthAt_lt (iso.left.typed ⟨u', hu⟩)
    have hmore := rewritten_storeLength (F := F) hr'.iso hrt (.inr rfl) (n := n + 1) (by omega)
      ((hkeeps.store hrt (.inr rfl)).trans hslot) (by
        rw [slotsNeeded_table, hkeeps.length hu]
        omega)
    exact Agree.bind (Q := fun _ _ _ _ => True) (Together.modify ⟨hmore, trivial⟩)
      fun _ h₃ _ h₃' hr _ => .pure hr.iso rfl

end HeapM

end ActorMachine
