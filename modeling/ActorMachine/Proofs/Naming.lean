import ActorMachine.Proofs.Contents
import ActorMachine.Proofs.Library

/-!
# Where the objects of a program are

A naming says at which places of a memory the objects are that a program knows by their numbers
(`Naming`). The memory of a program holds their contents there (`Named`), and it hides the stores of
arrays and tables: no store has a number, and no two arrays or tables have the same one. All this
goes with the objects when they are moved (`Named.move`), and survives whatever changes only one
object and what is hidden in it (`Named.update`).
-/

namespace ActorMachine

open Memory

/-- Which object is at which place. -/
abbrev Naming := Shape → Nat → Ref → Prop

/-- The places to which the objects have been moved. -/
def Naming.move (ν : Naming) (γ : Matching) : Naming := fun s i t => ∃ r, ν s i r ∧ γ s r t

/-- The objects of the second naming have been made after `n` others. -/
def Naming.join (ν : Naming) (n : Nat) (ν' : Naming) : Naming := fun s i r =>
  ν s i r ∨ ∃ j, i = n + j ∧ ν' s j r

theorem Naming.join_empty (ν : Naming) (n : Nat) : ν.join n (fun _ _ _ => False) = ν := by
  funext s i r
  simp [join]

/-- Only one object has a number. -/
def Naming.single (s : Shape) (p : Ref) : Naming := fun s' i r => s' = s ∧ i = 0 ∧ r = p

/-- What the value of an item is. -/
inductive Item.At (ν : Naming) : Item → Value → Prop
  | inline {v : Value} (h : v.ref? = none) : At ν (.inline v) v
  | object {s : Shape} {i : Nat} {r : Ref} (h : ν s i r) : At ν (.object s i) (.object s r)

namespace Item.At

variable {ν ν' : Naming} {γ : Matching} {x : Item} {v w : Value}

theorem mono (h : x.At ν v) (himp : ∀ {s i r}, ν s i r → ν' s i r) : x.At ν' v := by
  cases h with
  | inline h => exact .inline h
  | object h => exact .object (himp h)

theorem move (h : x.At ν v) (hvw : v.Match γ w) : x.At (ν.move γ) w := by
  cases hvw with
  | inline hv =>
    cases h with
    | inline h => exact .inline h
    | object _ => cases hv
  | object hrt =>
    cases h with
    | inline h => cases h
    | object h => exact .object ⟨_, h, hrt⟩

theorem shift {n : Nat} (h : x.At ν' v) : (x.shift n).At (ν.join n ν') v := by
  cases h with
  | inline h => exact .inline h
  | object h => exact .object (.inr ⟨_, rfl, h⟩)

/-- The value of an item is matched with itself. -/
theorem still {σ : Matching} (h : x.At ν v) (within : ∀ {s i r}, ν s i r → σ s r r) :
    v.Match σ v := by
  cases h with
  | inline h => exact .inline h
  | object h => exact .object (within h)

end Item.At

/-- Arrays and tables keep what they hold in stores. -/
def Shape.Stores (s : Shape) : Prop := s = .array ∨ s = .table

namespace Memory

/-- The tuple in whose slots the items of an object are: its store, if it has one. -/
inductive Home (m : Memory) : Shape → Ref → Ref → Prop
  | tuple {r : Ref} : Home m .tuple r r
  | store {s : Shape} {r u : Ref} (stores : s.Stores)
    (slot : m.slotAt r 0 = .object .tuple u) : Home m s r u

end Memory

namespace Content

/-- The object at a place holds the content. -/
structure Lies (ν : Naming) (m : Memory) (r : Ref) (c : Content) : Prop where
  string : ∀ bytes, c = .string bytes → m.stringAt r = bytes
  count : c.shape ≠ .string → m.lengthAt r = c.count
  items : ∀ (k : Nat) (x : Item), c.items[k]? = some x → ∃ u, m.Home c.shape r u ∧
    x.At ν (m.slotAt u k)

namespace Lies

variable {ν ν' : Naming} {m : Memory} {r : Ref} {c : Content}

theorem mono (h : c.Lies ν m r) (himp : ∀ {s i r}, ν s i r → ν' s i r) : c.Lies ν' m r :=
  ⟨h.string, h.count, fun k x hk => (h.items k x hk).imp fun _ ⟨hu, hx⟩ => ⟨hu, hx.mono himp⟩⟩

/-- An object keeps what it holds when its program is put after another one. -/
theorem shift (h : c.Lies ν' m r) (n : Nat) : (c.shift n).Lies (ν.join n ν') m r where
  string bytes hbytes := by
    refine h.string bytes ?_
    cases c <;> cases hbytes
    rfl
  count hne := by
    rw [count_shift]
    exact h.count (shape_shift _ c ▸ hne)
  items k x hk := by
    rw [items_shift, List.getElem?_map, Option.map_eq_some_iff] at hk
    obtain ⟨y, hy, rfl⟩ := hk
    obtain ⟨u, hu, hx⟩ := h.items k y hy
    exact ⟨u, by rwa [shape_shift], hx.shift⟩

end Lies

/-- As many slots are needed for the items of an array or a table. -/
theorem length_items {c : Content} (stores : c.shape.Stores) :
    c.items.length = slotsNeeded c.shape c.count := by
  cases c with
  | string | tuple => rcases stores with h | h <;> cases h
  | array xs => rfl
  | table entries =>
    show (entries.flatMap fun e => [e.1, e.2]).length = entries.length * 2
    clear stores
    induction entries with
    | nil => rfl
    | cons e entries ih =>
      rw [List.flatMap_cons, List.length_append, ih, List.length_cons]
      show 2 + entries.length * 2 = (entries.length + 1) * 2
      omega

end Content

/-- Nobody but the object at one place has to do with another place. -/
structure Memory.Private (ν : Naming) (m : Memory) (r u : Ref) : Prop where
  unnamed : ∀ s i, ¬ν s i u
  alone : ∀ s i r', ν s i r' → s.Stores → m.slotAt r' 0 = .object .tuple u → r' = r

/-- Nobody has to do with a place. -/
structure Memory.Spare (ν : Naming) (m : Memory) (u : Ref) : Prop where
  unnamed : ∀ s i, ¬ν s i u
  unstored : ∀ s i r, ν s i r → s.Stores → m.slotAt r 0 ≠ .object .tuple u

theorem Memory.Spare.own {ν : Naming} {m : Memory} {u : Ref} (h : m.Spare ν u) (r : Ref) :
    m.Private ν r u :=
  ⟨h.unnamed, fun s i r' hi hs slot => absurd slot (h.unstored s i r' hi hs)⟩

/-- What is private in two programs is so when the one is put after the other. -/
theorem Memory.Private.join {ν ν' : Naming} {m : Memory} {r u : Ref} (h : m.Private ν r u)
    (h' : m.Private ν' r u)
    (n : Nat) : m.Private (ν.join n ν') r u where
  unnamed := by
    rintro s i (hi | ⟨j, rfl, hj⟩)
    · exact h.unnamed s i hi
    · exact h'.unnamed s j hj
  alone := by
    rintro s i r' (hi | ⟨j, rfl, hj⟩) hs slot
    · exact h.alone s i r' hi hs slot
    · exact h'.alone s j r' hj hs slot

theorem Matching.still_single (s : Shape) (p : Ref) : (Matching.single s p p).Still := by
  rintro _ _ _ ⟨-, rfl, rfl⟩
  rfl

/-- A new object refers to nothing. -/
theorem NewObject.iso {m m₁ : Memory} {s : Shape} {p : Ref} (new : NewObject m m₁ s p) :
    Iso (.single s p p) m₁ m₁ :=
  .single new.isObject new.isObject new.typed new.typed
    ⟨rfl, rfl, fun _ => rfl, fun i hi => by rw [new.slots i hi]; exact .inline rfl⟩

/-- The objects of a program hold the contents, and their stores are hidden. -/
structure Named (ν : Naming) (M : Contents) (σ : Matching) (m : Memory) : Prop where
  iso : Iso σ m m
  still : σ.Still
  unique : ∀ {s i r s' i' r'}, ν s i r → ν s' i' r' → (i = i' ↔ r = r')
  within : ∀ {s i r}, ν s i r → σ s r r
  content : ∀ {s i r}, ν s i r → ∃ c, M[i]? = some c ∧ c.shape = s ∧ c.Lies ν m r
  hidden : ∀ {s i r u}, ν s i r → s.Stores → m.slotAt r 0 = .object .tuple u → m.Private ν r u

namespace Named

variable {ν : Naming} {M : Contents} {σ γ : Matching} {m m' m₁ : Memory} {s s' : Shape} {i j : Nat}
  {r r' u p : Ref} {c : Content}

theorem isObject (h : Named ν M σ m) (hi : ν s i r) : m.IsObject s r :=
  h.iso.left.isObject ⟨_, h.within hi⟩

theorem typed (h : Named ν M σ m) (hi : ν s i r) : m.WellTyped r s :=
  h.iso.left.typed ⟨_, h.within hi⟩

theorem shape_unique (h : Named ν M σ m) (hi : ν s i r) (hj : ν s' i r') : s = s' ∧ r = r' := by
  obtain rfl := (h.unique hi hj).mp rfl
  exact ⟨(h.isObject hi).shape_unique (h.isObject hj), rfl⟩

theorem lt_length (h : Named ν M σ m) (hi : ν s i r) : i < M.length := by
  obtain ⟨c, hc, -⟩ := h.content hi
  exact (List.getElem?_eq_some_iff.mp hc).1

/-- What a numbered object holds. -/
theorem lies (h : Named ν M σ m) (hi : ν s i r) (hc : M[i]? = some c) :
    c.shape = s ∧ c.Lies ν m r := by
  obtain ⟨c', hc', hshape, hlies⟩ := h.content hi
  rw [hc] at hc'
  cases hc'
  exact ⟨hshape, hlies⟩

/-- The items of an object are in a tuple that has slots for them. -/
theorem home (h : Named ν M σ m) (hi : ν c.shape i r) (hlies : c.Lies ν m r)
    (hu : m.Home c.shape r u) :
    σ .tuple u u ∧ c.items.length ≤ m.lengthAt u := by
  generalize hs : c.shape = s at hi hu
  cases hu with
  | tuple =>
    refine ⟨h.within hi, Nat.le_of_eq ?_⟩
    rw [hlies.count (by rw [hs]; exact nofun)]
    cases c <;> cases hs
    rfl
  | store stores slot =>
    have hpos : 0 < m.slotsAt r s := by rcases stores with rfl | rfl <;> exact Nat.one_pos
    obtain ⟨t, ht⟩ := h.iso.closed_left (h.within hi) hpos slot
    obtain rfl := h.still ht
    refine ⟨ht, ?_⟩
    have hlength : m.lengthAt r = c.count := hlies.count (by
      rw [hs]
      rcases stores with rfl | rfl <;> exact nofun)
    have hitems := c.length_items (hs ▸ stores)
    obtain ⟨hnil, -⟩ | ⟨u', _, hslot, -, -, room⟩ := h.iso.stores (h.within hi) stores
    · rw [hnil] at slot
      cases slot
    · rw [hslot] at slot
      cases slot
      rw [hitems, hs, ← hlength]
      exact room

/-- Objects hold the same items where they and their stores are the same. -/
theorem lies_of_same (h : Named ν M σ m) (hi : ν c.shape i r) (hlies : c.Lies ν m r)
    (same : SameObject m m₁ r r) (stores : ∀ u, m.Home c.shape r u → SameObject m m₁ u u) :
    c.Lies ν m₁ r where
  string bytes hc := by
    rw [same.stringAt (h.isObject hi) (eight_le_sizeAt (h.typed hi))]
    exact hlies.string bytes hc
  count hc := by
    rw [same.lengthAt (eight_le_sizeAt (h.typed hi))]
    exact hlies.count hc
  items k x hk := by
    obtain ⟨u, hu, hx⟩ := hlies.items k x hk
    obtain ⟨hσ, hle⟩ := h.home hi hlies hu
    have hlt : k < m.slotsAt u .tuple :=
      Nat.lt_of_lt_of_le (List.getElem?_eq_some_iff.mp hk).1 hle
    have hslot := (stores u hu).slotAt (slot_inside (h.iso.left.typed ⟨_, hσ⟩) hlt)
    refine ⟨u, ?_, by rw [hslot]; exact hx⟩
    have htyped := h.typed hi
    generalize c.shape = s at hi hu htyped
    cases hu with
    | tuple => exact .tuple
    | store hs slot =>
      refine .store hs ?_
      rw [same.slotAt (slot_inside htyped (by rcases hs with rfl | rfl <;> exact Nat.one_pos))]
      exact slot

/-! ## Objects that are moved -/

/-- Objects hold the same wherever they have been moved. -/
theorem move (h : Named ν M σ m) (iso : Iso γ m m') : Named (ν.move γ) M (γ.inverse.comp γ) m' where
  iso := iso.symm.trans iso
  still := by
    rintro s t t' ⟨r, hrt, hrt'⟩
    exact (iso.unique hrt hrt').mp rfl
  unique := by
    rintro s i t s' i' t' ⟨r, hi, hrt⟩ ⟨r', hi', hrt'⟩
    exact (h.unique hi hi').trans (iso.unique hrt hrt')
  within := by
    rintro s i t ⟨r, -, hrt⟩
    exact ⟨r, hrt, hrt⟩
  content := by
    rintro s i t ⟨r, hi, hrt⟩
    obtain ⟨c, hc, rfl, hlies⟩ := h.content hi
    have alike := iso.alike hrt
    refine ⟨c, hc, rfl, fun bytes hbytes => ?_, fun hne => ?_, fun k x hk => ?_⟩
    · rw [← alike.string (by rw [hbytes]; rfl)]
      exact hlies.string bytes hbytes
    · rw [← alike.length]
      exact hlies.count hne
    · obtain ⟨u, hu, hx⟩ := hlies.items k x hk
      obtain ⟨-, hle⟩ := h.home hi hlies hu
      have hlt : k < m.slotsAt u .tuple :=
        Nat.lt_of_lt_of_le (List.getElem?_eq_some_iff.mp hk).1 hle
      -- The slots are its own, or those of its store, which has been moved along with it.
      generalize c.shape = s at hi hu hrt alike
      cases hu with
      | tuple => exact ⟨t, .tuple, hx.move (alike.slots k hlt)⟩
      | store hs slot =>
        have hstore := alike.slots 0 (by rcases hs with rfl | rfl <;> exact Nat.one_pos)
        rw [slot] at hstore
        generalize hw : m'.slotAt t 0 = w at hstore
        cases hstore with
        | inline h => cases h
        | object huu => exact ⟨_, .store hs hw, hx.move ((iso.alike huu).slots k hlt)⟩
  hidden := by
    rintro s i t u' ⟨r, hi, hrt⟩ hs slot'
    have store : ∀ {s i r t}, ν s i r → γ s r t → s.Stores → m'.slotAt t 0 = .object .tuple u' →
        ∃ u, m.slotAt r 0 = .object .tuple u ∧ γ .tuple u u' := by
      intro s i r t hi hrt hs slot'
      have hstore := (iso.alike hrt).slots 0 (by rcases hs with rfl | rfl <;> exact Nat.one_pos)
      rw [slot'] at hstore
      generalize m.slotAt r 0 = v at hstore
      cases hstore with
      | inline h => cases h
      | object huu => exact ⟨_, rfl, huu⟩
    obtain ⟨u, slot, huu⟩ := store hi hrt hs slot'
    have hidden := h.hidden hi hs slot
    refine ⟨fun s₁ j ⟨r₁, hj, hr₁⟩ => ?_, fun s₁ j t₁ ⟨r₁, hj, hrt₁⟩ hs₁ slot₁ => ?_⟩
    · exact hidden.unnamed s₁ j ((iso.unique hr₁ huu).mpr rfl ▸ hj)
    · obtain ⟨u₁, slot₁, huu₁⟩ := store hj hrt₁ hs₁ slot₁
      obtain rfl := (iso.unique huu₁ huu).mpr rfl
      exact (iso.unique hrt₁ hrt).mp (hidden.alone s₁ j r₁ hj hs₁ slot₁)

/-! ## Objects that are added -/

/-- Objects hold the same where nothing has happened to them. -/
theorem of_same (h : Named ν M σ m) (same : ∀ {s r}, σ s r r → SameObject m m₁ r r) :
    Named ν M σ m₁ where
  iso := h.iso.of_same (fun hrt => by
    obtain rfl := h.still hrt
    exact same hrt) fun hrt => by
    obtain rfl := h.still hrt
    exact same hrt
  still := h.still
  unique := h.unique
  within := h.within
  content hi := by
    obtain ⟨c, hc, rfl, hlies⟩ := h.content hi
    exact ⟨c, hc, rfl, h.lies_of_same hi hlies (same (h.within hi)) fun u hu =>
      same (h.home hi hlies hu).1⟩
  hidden := by
    have hslot : ∀ {s i r}, ν s i r → s.Stores → m₁.slotAt r 0 = m.slotAt r 0 := fun hi hs =>
      (same (h.within hi)).slotAt (slot_inside (h.typed hi)
        (by rcases hs with rfl | rfl <;> exact Nat.one_pos))
    intro s i r u hi hs slot
    rw [hslot hi hs] at slot
    have hprivate := h.hidden hi hs slot
    refine ⟨hprivate.unnamed, fun s' j r' hj hs' slot' => ?_⟩
    rw [hslot hj hs'] at slot'
    exact hprivate.alone s' j r' hj hs' slot'

theorem extend (h : Named ν M σ m) (ext : Extends m m₁) : Named ν M σ m₁ :=
  h.of_same fun hr => ext.sameObject (h.iso.left.isObject ⟨_, hr⟩)

/-- The store of a numbered object is one of the objects. -/
theorem store (h : Named ν M σ m) (hi : ν s i r) (hs : s.Stores)
    (slot : m.slotAt r 0 = .object .tuple u) :
    σ .tuple u u := by
  obtain ⟨t, ht⟩ := h.iso.closed_left (h.within hi)
    (by rcases hs with rfl | rfl <;> exact Nat.one_pos) slot
  obtain rfl := h.still ht
  exact ht

/-- A program has nothing to do with what is none of its objects. -/
theorem spare (h : Named ν M σ m) (other : ∀ {s r}, σ s r r → r ≠ u) : m.Spare ν u where
  unnamed _ _ hi := other (h.within hi) rfl
  unstored _ _ _ hi hs slot := other (h.store hi hs slot) rfl

/-- The objects of two programs in one memory, those of the second made after those of the first. -/
theorem join {ν' : Naming} {M' : Contents} {σ' : Matching} (h : Named ν M σ m)
    (h' : Named ν' M' σ' m) (apart : ∀ {s r s' r'}, σ s r r → σ' s' r' r' → r ≠ r' ∧ m.Apart r r') :
    Named (ν.join M.length ν') (M ++ M'.map (Content.shift M.length)) (σ.union σ') m where
  iso := h.iso.union h'.iso
    (fun hrt hrt' => by
      obtain rfl := h.still hrt
      obtain rfl := h'.still hrt'
      exact apart hrt hrt')
    fun hrt hrt' => by
      obtain rfl := h.still hrt
      obtain rfl := h'.still hrt'
      exact apart hrt hrt'
  still := by
    rintro s r t (hrt | hrt)
    · exact h.still hrt
    · exact h'.still hrt
  unique := by
    rintro s₁ i r s₂ i' r' (hi | ⟨j, rfl, hj⟩) (hi' | ⟨j', rfl, hj'⟩)
    · exact h.unique hi hi'
    · refine ⟨fun heq => ?_, fun heq => absurd heq (apart (h.within hi) (h'.within hj')).1⟩
      have := h.lt_length hi
      omega
    · refine ⟨fun heq => ?_, fun heq => absurd heq.symm (apart (h.within hi') (h'.within hj)).1⟩
      have := h.lt_length hi'
      omega
    · rw [← h'.unique hj hj']
      omega
  within := by
    rintro s i r (hi | ⟨j, -, hj⟩)
    · exact .inl (h.within hi)
    · exact .inr (h'.within hj)
  content := by
    rintro s i r (hi | ⟨j, rfl, hj⟩)
    · obtain ⟨c, hc, hshape, hlies⟩ := h.content hi
      exact ⟨c, by rw [List.getElem?_append_left (h.lt_length hi), hc], hshape, hlies.mono .inl⟩
    · obtain ⟨c, hc, hshape, hlies⟩ := h'.content hj
      refine ⟨c.shift M.length, ?_, (c.shape_shift _).trans hshape, hlies.shift _⟩
      rw [List.getElem?_append_right (Nat.le_add_right _ _), Nat.add_sub_cancel_left,
        List.getElem?_map, hc]
      rfl
  hidden := by
    -- A store belongs to one of the programs, and is none of the objects of the other.
    rintro s i r u (hi | ⟨j, rfl, hj⟩) hs slot
    · have other := h'.spare fun hr => (apart (h.store hi hs slot) hr).1.symm
      exact (h.hidden hi hs slot).join (other.own r) _
    · have other := h.spare fun hr => (apart hr (h'.store hj hs slot)).1
      exact (other.own r).join (h'.hidden hj hs slot) _

/-- A new object has a number if it is given one. -/
theorem new (new : NewObject m m₁ s p) (shape : c.shape = s) (lies : c.Lies (.single s p) m₁ p) :
    Named (.single s p) [c] (.single s p p) m₁ where
  iso := new.iso
  still := Matching.still_single s p
  unique := by
    rintro _ _ _ _ _ _ ⟨-, rfl, rfl⟩ ⟨-, rfl, rfl⟩
    exact ⟨fun _ => rfl, fun _ => rfl⟩
  within := by
    rintro _ _ _ ⟨rfl, -, rfl⟩
    exact ⟨rfl, rfl, rfl⟩
  content := by
    rintro _ _ _ ⟨rfl, rfl, rfl⟩
    exact ⟨c, rfl, shape, lies⟩
  hidden := by
    rintro _ _ _ u ⟨rfl, -, rfl⟩ hs slot
    rw [new.slots 0 (by rcases hs with h | h <;> rw [h] <;> exact Nat.one_pos)] at slot
    cases slot

/-- No object has a number. -/
theorem nameless (iso : Iso σ m m) (still : σ.Still) : Named (fun _ _ _ => False) [] σ m where
  iso := iso
  still := still
  unique h := h.elim
  within h := h.elim
  content h := h.elim
  hidden h := h.elim

/-- A new object that no program knows may be the store of any array or table. -/
theorem hide (h : Named ν M σ m) (new : NewObject m m₁ s p) :
    Named ν M (σ.union (.single s p p)) m₁ ∧ m₁.Spare ν p := by
  have apart : ∀ {s' r s'' r'}, σ s' r r → Matching.single s p p s'' r' r' → r ≠ r' ∧
      m₁.Apart r r' := by
    rintro s' r s'' r' hr ⟨-, rfl, -⟩
    exact h.iso.left.apart_end new.extends_ (Nat.le_of_eq new.start.symm) ⟨_, hr⟩
  have h₁ := h.extend new.extends_
  refine ⟨?_, fun s' i hi => (apart (h.within hi) ⟨rfl, rfl, rfl⟩).1 rfl,
    fun s' i r hi hs slot => (apart (h₁.store hi hs slot) ⟨rfl, rfl, rfl⟩).1 rfl⟩
  have joined := h₁.join (nameless new.iso (Matching.still_single s p)) apart
  rwa [Naming.join_empty, List.map_nil, List.append_nil] at joined

end Named

/-! ## Objects that change -/

/-- The objects of a memory after some of them have been written to. -/
structure Memory.Written (σ : Matching) (T : Ref → Prop) (m m₁ : Memory) : Prop where
  iso : Iso σ m₁ m₁
  size : m₁.size = m.size
  same : ∀ {s r}, σ s r r → ¬T r → SameObject m m₁ r r

namespace Memory.Written

variable {σ : Matching} {T T' : Ref → Prop} {m m₁ m₂ : Memory} {s : Shape} {r : Ref}

theorem refl (iso : Iso σ m m) : Written σ T m m :=
  ⟨iso, rfl, fun hr _ => (Extends.refl m).sameObject (iso.left.isObject ⟨_, hr⟩)⟩

theorem trans (h : Written σ T m m₁) (h' : Written σ T m₁ m₂) : Written σ T m m₂ :=
  ⟨h'.iso, h'.size.trans h.size, fun hr hT => (h.same hr hT).trans (h'.same hr hT)⟩

theorem mono (h : Written σ T m m₁) (himp : ∀ r, T r → T' r) : Written σ T' m m₁ :=
  ⟨h.iso, h.size, fun hr hT => h.same hr fun h => hT (himp _ h)⟩

/-- One object has been written to. -/
theorem of_within (iso : Iso σ m m) (iso₁ : Iso σ m₁ m₁) (hr : σ s r r) (within : Within m m₁ r) :
    Written σ (· = r) m m₁ :=
  ⟨iso₁, within.size, fun hr' hne => within.sameObject (iso.left.isObject ⟨_, hr'⟩)
    (iso.left.apart ⟨_, hr⟩ ⟨_, hr'⟩ (Ne.symm hne))⟩

end Memory.Written

namespace Named

variable {ν : Naming} {M : Contents} {σ : Matching} {m m₁ : Memory} {s : Shape} {i : Nat} {r : Ref}
  {c : Content}

/-- An object and what is hidden in it may change. All others hold what they have held. -/
theorem update (h : Named ν M σ m) (hi : ν s i r)
    (written : Written σ (fun r' => r' = r ∨ m.Private ν r r') m m₁) (shape : c.shape = s)
    (lies : c.Lies ν m₁ r)
    (hidden : ∀ u, s.Stores → m₁.slotAt r 0 = .object .tuple u → m.Private ν r u) :
    Named ν (M.set i c) σ m₁ := by
  -- Another object is the same, and so is its store.
  have other : ∀ {s' j r'}, ν s' j r' → r' ≠ r → SameObject m m₁ r' r' := by
    intro s' j r' hj hne
    refine written.same (h.within hj) ?_
    rintro (heq | hprivate)
    · exact hne heq
    · exact hprivate.unnamed _ _ hj
  have store : ∀ {s' j r' u}, ν s' j r' → r' ≠ r → s'.Stores → m.slotAt r' 0 = .object .tuple u →
      SameObject m m₁ u u := by
    intro s' j r' u hj hne hs slot
    refine written.same (h.store hj hs slot) ?_
    rintro (rfl | hr)
    · exact (h.hidden hj hs slot).unnamed s i hi
    · exact hne (hr.alone s' j r' hj hs slot)
  have slot_eq : ∀ {s' j r'}, ν s' j r' → r' ≠ r → s'.Stores → m₁.slotAt r' 0 = m.slotAt r' 0 :=
    fun hj hne hs => (other hj hne).slotAt (slot_inside (h.typed hj)
      (by rcases hs with rfl | rfl <;> exact Nat.one_pos))
  refine ⟨written.iso, h.still, h.unique, h.within, fun {s' j r'} hj => ?_,
    fun {s' j r' u} hj hs slot => ?_⟩
  · by_cases heq : r' = r
    · subst heq
      obtain rfl := (h.unique hj hi).mpr rfl
      refine ⟨c, List.getElem?_set_self (h.lt_length hi), ?_, lies⟩
      rw [shape]
      exact (h.shape_unique hi hj).1
    · have hne : i ≠ j := fun hij => heq ((h.unique hj hi).mp hij.symm)
      obtain ⟨c', hc', rfl, hlies⟩ := h.content hj
      refine ⟨c', by rw [List.getElem?_set_ne hne,
        hc'], rfl, h.lies_of_same hj hlies (other hj heq) fun u hu => ?_⟩
      generalize c'.shape = s' at hj hu
      cases hu with
      | tuple => exact other hj heq
      | store hs slot => exact store hj heq hs slot
  · -- The stores of the others are still theirs alone.
    by_cases heq : r' = r
    · subst heq
      obtain rfl := (h.isObject hj).shape_unique (h.isObject hi)
      have hprivate := hidden u hs slot
      refine ⟨hprivate.unnamed, fun s₁ k r₁ hk hs₁ slot₁ => ?_⟩
      by_cases heq₁ : r₁ = r'
      · exact heq₁
      · rw [slot_eq hk heq₁ hs₁] at slot₁
        exact hprivate.alone s₁ k r₁ hk hs₁ slot₁
    · rw [slot_eq hj heq hs] at slot
      have hprivate := h.hidden hj hs slot
      refine ⟨hprivate.unnamed, fun s₁ k r₁ hk hs₁ slot₁ => ?_⟩
      by_cases heq₁ : r₁ = r
      · subst heq₁
        obtain rfl := (h.isObject hk).shape_unique (h.isObject hi)
        exact absurd ((hidden u hs₁ slot₁).alone s' j r' hj hs slot) heq
      · rw [slot_eq hk heq₁ hs₁] at slot₁
        exact hprivate.alone s₁ k r₁ hk hs₁ slot₁

end Named

end ActorMachine
