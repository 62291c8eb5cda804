import Mathlib.Data.List.Nodup
import ActorMachine.Proofs.Isomorphism

/-!
# Objects and what they refer to

The graph that a search of the heap sees: objects, whatever their payloads hold, and the references
in those of their slots that there is room for (`Memory.slotsIn`). `Memory.Leads` says which objects
some values lead to, and `Memory.BreadthFirst` in which order a breadth-first search finds them;
there is only one such order (`BreadthFirst.unique`). Objects without a common byte take up no more
room than there is in their memory (`Scattered.total_le`).
-/

namespace ActorMachine

open Memory

theorem Ref.start_inj {r t : Ref} (h : r.start = t.start) : r = t := by
  obtain ⟨r⟩ := r
  obtain ⟨t⟩ := t
  exact congrArg Ref.mk (UInt64.toNat_inj.mp h)

theorem Value.ref?_eq_some {v : Value} {r : Ref} : v.ref? = some r ↔ ∃ s, v = .object s r := by
  constructor
  · intro h
    cases v with
    | object s t =>
      cases h
      exact ⟨s, rfl⟩
    | _ => cases h
  · rintro ⟨s, rfl⟩
    rfl

theorem Value.mem_filterMap_ref? {vs : List Value} {r : Ref} :
    r ∈ vs.filterMap Value.ref? ↔ ∃ s, .object s r ∈ vs := by
  rw [List.mem_filterMap]
  constructor
  · rintro ⟨v, hv, hr⟩
    obtain ⟨s, rfl⟩ := ref?_eq_some.mp hr
    exact ⟨s, hv⟩
  · rintro ⟨s, hv⟩
    exact ⟨_, hv, rfl⟩

namespace Memory

variable {m m' : Memory} {s : Shape} {r t : Ref}

/-! ## Slots -/

/-- The number of slots of the object at a place. -/
def slotsIn (m : Memory) (r : Ref) : Nat :=
  match m.header? r.start with
  | some header => m.slotCount r.start header
  | none => 0

/-- The references in the slots of the object at a place. -/
def refsIn (m : Memory) (r : Ref) : List Ref :=
  ((List.range (m.slotsIn r)).map (m.slotAt r)).filterMap Value.ref?

theorem slotsIn_eq (obj : m.IsObject s r) :
    m.slotsIn r = m.slotCount r.start ⟨.object s, m.sizeAt r, none⟩ := by
  rw [slotsIn, obj.header]

/-- A well-typed object has the slots that its shape and its length ask for. -/
theorem slotsIn_of_typed (obj : m.IsObject s r) (typed : m.WellTyped r s) :
    m.slotsIn r = m.slotsAt r s := by
  rw [slotsIn_eq obj, slotCount_eq obj typed]

/-- Every slot lies in the payload, whatever length the payload claims. -/
theorem slot_room (obj : m.IsObject s r) {i : Nat} (hi : i < m.slotsIn r) :
    slotOffset r.start i + slotWidth ≤ Heap.payloadOffset r + m.sizeAt r := by
  have room : i < (m.sizeAt r - 8) / slotWidth := by
    rw [slotsIn_eq obj, slotCount] at hi
    dsimp only at hi
    split at hi
    · exact Nat.lt_of_lt_of_le hi (Nat.min_le_right _ _)
    · exact Nat.lt_of_lt_of_le hi (Nat.min_le_left _ _)
    · exact Nat.lt_of_lt_of_le hi (Nat.min_le_left _ _)
    · exact absurd hi (Nat.not_lt_zero i)
  rw [slotWidth] at room
  rw [slotOffset, Heap.payloadOffset, slotWidth]
  omega

/-- Objects of one shape and size have equally many slots, if they are equally long. The length is
not asked for where there is no room for a slot. -/
theorem slotsIn_congr (obj : m.IsObject s r) (obj' : m'.IsObject s t)
    (size : m'.sizeAt t = m.sizeAt r)
    (length : 8 ≤ m.sizeAt r → m'.lengthAt t = m.lengthAt r) : m'.slotsIn t = m.slotsIn r := by
  rw [slotsIn_eq obj, slotsIn_eq obj', size, slotCount, slotCount]
  cases s with
  | tuple =>
    show min (m'.lengthAt t) ((m.sizeAt r - 8) / 16) = min (m.lengthAt r) ((m.sizeAt r - 8) / 16)
    by_cases h8 : 8 ≤ m.sizeAt r
    · rw [length h8]
    · omega
  | _ => rfl

theorem mem_refsIn : t ∈ m.refsIn r ↔ ∃ i s, i < m.slotsIn r ∧ m.slotAt r i = .object s t := by
  rw [refsIn, Value.mem_filterMap_ref?]
  constructor
  · rintro ⟨s, hv⟩
    obtain ⟨i, hi, heq⟩ := List.mem_map.mp hv
    exact ⟨i, s, List.mem_range.mp hi, heq⟩
  · rintro ⟨i, s, hi, heq⟩
    exact ⟨s, List.mem_map.mpr ⟨i, List.mem_range.mpr hi, heq⟩⟩

/-! ## What values lead to -/

/-- The objects that some values lead to. -/
inductive Leads (m : Memory) (roots : Value → Prop) : Ref → Prop
  | root {s : Shape} {r : Ref} (h : roots (.object s r)) : Leads m roots r
  | slot {s : Shape} {r r' : Ref} {i : Nat} (h : Leads m roots r) (hi : i < m.slotsIn r)
    (hslot : m.slotAt r i = .object s r') : Leads m roots r'

/-- Places refer to one another only. -/
def ClosedUnder (m : Memory) (P : Ref → Prop) : Prop :=
  ∀ {r i s r'}, P r → i < m.slotsIn r → m.slotAt r i = .object s r' → P r'

/-- What holds of the roots and is passed on from slot to slot holds of all that they lead to. -/
theorem Leads.subset {roots : Value → Prop} {P : Ref → Prop} (closed : m.ClosedUnder P)
    (hroots : ∀ s r, roots (.object s r) → P r) (h : m.Leads roots r) : P r := by
  induction h with
  | root h => exact hroots _ _ h
  | slot _ hi hslot ih => exact closed ih hi hslot

theorem closedUnder_leads (m : Memory) (roots : Value → Prop) : m.ClosedUnder (m.Leads roots) :=
  fun h hi hslot => .slot h hi hslot

/-- An inline value leads to nothing. -/
theorem not_leads_of_inline {v : Value} (inline : v.ref? = none) : ¬m.Leads (· = v) r := by
  intro h
  refine h.subset (P := fun _ => False) (fun h => h.elim) fun s r heq => ?_
  rw [← heq] at inline
  cases inline

end Memory

/-- Places of objects, of which no two have a byte in common. -/
structure Scattered (P : Ref → Prop) (m : Memory) : Prop where
  isObject : ∀ {r}, P r → ∃ s, m.IsObject s r
  apart : ∀ {r r'}, P r → P r' → r ≠ r' → m.Apart r r'

theorem Scattered.mono {P Q : Ref → Prop} {m : Memory} (h : Scattered P m)
    (himp : ∀ {r}, Q r → P r) :
    Scattered Q m where
  isObject hq := h.isObject (himp hq)
  apart hq hq' := h.apart (himp hq) (himp hq')

theorem Laid.scattered {P : Shape → Ref → Prop} {m : Memory} (h : Laid P m) :
    Scattered (fun r => ∃ s, P s r) m where
  isObject := fun ⟨s, hp⟩ => ⟨s, h.isObject hp⟩
  apart := fun ⟨_, hp⟩ ⟨_, hp'⟩ hne => h.apart hp hp' hne

/-! ## The room that objects take up -/

/-- The number of bytes that some objects take up together. -/
def Memory.total (m : Memory) (refs : List Ref) : Nat :=
  (refs.map fun r => allocSize (m.sizeAt r)).sum

/-- The references are those of which `P` holds, each once. -/
structure Lists (refs : List Ref) (P : Ref → Prop) : Prop where
  nodup : refs.Nodup
  mem_iff : ∀ r, r ∈ refs ↔ P r

namespace Memory

variable {m : Memory}

theorem total_cons (m : Memory) (r : Ref) (refs : List Ref) :
    m.total (r :: refs) = allocSize (m.sizeAt r) + m.total refs := List.sum_cons

theorem total_append (m : Memory) (refs refs' : List Ref) :
    m.total (refs ++ refs') = m.total refs + m.total refs' := by
  rw [total, List.map_append, List.sum_append]
  rfl

end Memory

theorem countP_or {p q : α → Bool} {xs : List α} (apart : ∀ x ∈ xs, p x = true → q x = false) :
    xs.countP (fun x => p x || q x) = xs.countP p + xs.countP q := by
  induction xs with
  | nil => rfl
  | cons x xs ih =>
    rw [List.countP_cons, List.countP_cons, List.countP_cons,
      ih fun y hy => apart y (List.mem_cons_of_mem _ hy)]
    have := apart x List.mem_cons_self
    cases hp : p x
    · rw [Bool.false_or, if_neg Bool.false_ne_true]
      omega
    · rw [this hp, Bool.true_or, if_pos rfl, if_neg Bool.false_ne_true]
      omega

theorem countP_range_interval (lo hi n : Nat) :
    (List.range n).countP (fun i => decide (lo ≤ i ∧ i < hi)) = min n hi - lo := by
  induction n with
  | zero => rw [Nat.zero_min, Nat.zero_sub]; rfl
  | succ n ih =>
    rw [List.range_succ, List.countP_append, ih, List.countP_singleton]
    by_cases h : lo ≤ n ∧ n < hi
    · rw [if_pos (decide_eq_true h)]
      omega
    · rw [if_neg (by rwa [decide_eq_true_eq])]
      omega

/-- Numbers that belong to different things are together no more than those of the things that take
their places. -/
theorem sum_map_le {f : α → Nat} {g : β → Nat} (R : α → β → Prop) {xs : List α} {ys : List β}
    (nodup : xs.Nodup) (total : ∀ x ∈ xs, ∃ y ∈ ys, R x y) (le : ∀ x y, R x y → f x ≤ g y)
    (injective : ∀ x x' y, R x y → R x' y → x = x') : (xs.map f).sum ≤ (ys.map g).sum := by
  induction xs generalizing ys with
  | nil => exact Nat.zero_le _
  | cons x xs ih =>
    obtain ⟨hnotin, hnodup⟩ := List.nodup_cons.mp nodup
    obtain ⟨y, hy, hxy⟩ := total x List.mem_cons_self
    obtain ⟨ys₁, ys₂, rfl⟩ := List.append_of_mem hy
    have := @ih (ys₁ ++ ys₂) hnodup fun x' hx' => by
      obtain ⟨y', hy', hxy'⟩ := total x' (List.mem_cons_of_mem _ hx')
      refine ⟨y', ?_, hxy'⟩
      have hne : y' ≠ y := fun heq => hnotin (injective x x' y hxy (heq ▸ hxy') ▸ hx')
      rcases List.mem_append.mp hy' with h | h
      · exact List.mem_append_left _ h
      · exact List.mem_append_right _ ((List.mem_cons.mp h).resolve_left hne)
    have hfg := le x y hxy
    simp only [List.map_cons, List.map_append, List.sum_cons, List.sum_append] at *
    omega

/-- Different objects of a list take up no more room than all of them. -/
theorem Memory.total_le_of_subset (m : Memory) {refs refs' : List Ref} (nodup : refs.Nodup)
    (subset : refs ⊆ refs') : m.total refs ≤ m.total refs' :=
  sum_map_le Eq nodup (fun r hr => ⟨r, subset hr, rfl⟩) (fun _ _ heq => Nat.le_of_eq (by rw [heq]))
    fun _ _ _ h1 h2 => h1.trans h2.symm

/-- Objects that have no byte in common take up no more room than there is. -/
theorem Scattered.total_le {P : Ref → Prop} {m : Memory} (h : Scattered P m) {refs : List Ref}
    (nodup : refs.Nodup) (hrefs : ∀ r ∈ refs, P r) : m.total refs ≤ m.size := by
  -- The bytes of each object are counted among those of the memory.
  suffices hcount : m.total refs = (List.range m.size).countP
      (fun i => refs.any fun r => decide (r.start ≤ i ∧ i < m.endAt r)) by
    rw [hcount]
    exact Nat.le_trans List.countP_le_length (Nat.le_of_eq List.length_range)
  induction refs with
  | nil => exact (List.countP_eq_zero.mpr fun _ _ => Bool.false_ne_true).symm
  | cons r refs ih =>
    obtain ⟨hnotin, hnodup⟩ := List.nodup_cons.mp nodup
    have hp := hrefs r List.mem_cons_self
    obtain ⟨s, obj⟩ := h.isObject hp
    have hinside : m.endAt r ≤ m.size := obj.inside
    simp only [List.any_cons]
    rw [countP_or, countP_range_interval, ← ih hnodup fun r' hr' =>
      hrefs r' (List.mem_cons_of_mem _ hr'), total_cons]
    · rw [Nat.min_eq_right hinside, Memory.endAt, Nat.add_sub_cancel_left]
    · intro i _ hi
      rw [decide_eq_true_eq] at hi
      rw [List.any_eq_false]
      intro r' hr'
      have hp' := hrefs r' (List.mem_cons_of_mem _ hr')
      have hne : r ≠ r' := fun heq => hnotin (heq ▸ hr')
      rw [decide_eq_true_eq]
      rcases h.apart hp hp' hne with h1 | h1 <;> omega

/-- Different objects begin at different bytes of their memory. -/
theorem Memory.length_le_size {m : Memory} {refs : List Ref} (nodup : refs.Nodup)
    (hrefs : ∀ r ∈ refs, ∃ s, m.IsObject s r) : refs.length ≤ m.size := by
  have starts : (refs.map Ref.start).Nodup :=
    List.Nodup.map_on (fun _ _ _ _ => Ref.start_inj) nodup
  have inside : refs.map Ref.start ⊆ List.range m.size := fun i hi => by
    obtain ⟨r, hr, rfl⟩ := List.mem_map.mp hi
    obtain ⟨s, obj⟩ := hrefs r hr
    exact List.mem_range.mpr (Nat.lt_of_lt_of_le (start_lt_endAt m r) obj.inside)
  have := List.Nodup.length_le_of_subset starts inside
  rwa [List.length_map, List.length_range] at this

namespace Lists

variable {P : Ref → Prop} {refs refs' : List Ref}

theorem subset (h : Lists refs P) (h' : Lists refs' P) : refs ⊆ refs' := fun r hr =>
  (h'.mem_iff r).mpr ((h.mem_iff r).mp hr)

theorem total_eq (h : Lists refs P) (h' : Lists refs' P) (m : Memory) :
    m.total refs = m.total refs' :=
  Nat.le_antisymm (m.total_le_of_subset h.nodup (h.subset h'))
    (m.total_le_of_subset h'.nodup (h'.subset h))

end Lists

/-! ## The order of a search -/

/-- Adds the references that are not there yet, each once and in order. -/
def discover (found refs : List Ref) : List Ref :=
  refs.foldl (fun found r => if r ∈ found then found else found ++ [r]) found

theorem discover_append (found refs more : List Ref) :
    discover found (refs ++ more) = discover (discover found refs) more :=
  List.foldl_append

theorem discover_cons (found : List Ref) (r : Ref) (refs : List Ref) :
    discover found (r :: refs) = discover (if r ∈ found then found else found ++ [r]) refs := rfl

theorem prefix_discover (found refs : List Ref) : found <+: discover found refs := by
  induction refs generalizing found with
  | nil => exact List.prefix_rfl
  | cons r refs ih =>
    rw [discover_cons]
    split
    · exact ih found
    · exact (List.prefix_append found [r]).trans (ih _)

theorem mem_discover {found refs : List Ref} {t : Ref} :
    t ∈ discover found refs ↔ t ∈ found ∨ t ∈ refs := by
  induction refs generalizing found with
  | nil => exact ⟨.inl, fun h => h.resolve_right List.not_mem_nil⟩
  | cons r refs ih =>
    rw [discover_cons, ih, List.mem_cons]
    split
    next hr =>
      constructor
      · rintro (h | h)
        · exact .inl h
        · exact .inr (.inr h)
      · rintro (h | rfl | h)
        · exact .inl h
        · exact .inl hr
        · exact .inr h
    next => rw [List.mem_append, List.mem_singleton, or_assoc]

theorem nodup_concat {α : Type} {xs : List α} {x : α} (h : xs.Nodup) (new : x ∉ xs) :
    (xs ++ [x]).Nodup :=
  h.append (List.pairwise_singleton _ x) (List.disjoint_singleton.mpr new)

theorem nodup_discover {found refs : List Ref} (h : found.Nodup) : (discover found refs).Nodup := by
  induction refs generalizing found with
  | nil => exact h
  | cons r refs ih =>
    rw [discover_cons]
    split
    · exact ih h
    next new => exact ih (nodup_concat h new)

/-- The objects that some values lead to, in the order of a breadth-first search: first those of the
values themselves, then those in the slots of the objects in the list, object by object and slot by
slot, each where it is met for the first time. -/
structure Memory.BreadthFirst (m : Memory) (roots : Array Value) (order : List Ref) : Prop where
  mem_iff : ∀ r, r ∈ order ↔ m.Leads (· ∈ roots) r
  order_eq : order = discover [] (roots.toList.filterMap Value.ref? ++ order.flatMap m.refsIn)

namespace Memory.BreadthFirst

variable {m : Memory} {roots : Array Value} {order order' : List Ref}

theorem nodup (h : m.BreadthFirst roots order) : order.Nodup := by
  rw [h.order_eq]
  exact nodup_discover List.nodup_nil

theorem lists (h : m.BreadthFirst roots order) :
    Lists order (m.Leads (· ∈ roots)) := ⟨h.nodup, h.mem_iff⟩

/-- What the values and the first objects of the list lead to is found first. -/
theorem discover_prefix (h : m.BreadthFirst roots order) {start : List Ref}
    (hstart : start <+: order) :
    discover [] (roots.toList.filterMap Value.ref? ++ start.flatMap m.refsIn) <+: order := by
  obtain ⟨rest, hrest⟩ := hstart
  have split : roots.toList.filterMap Value.ref? ++ order.flatMap m.refsIn =
      (roots.toList.filterMap Value.ref? ++ start.flatMap m.refsIn) ++ rest.flatMap m.refsIn := by
    rw [← hrest, List.flatMap_append, List.append_assoc]
  have horder := h.order_eq
  rw [split, discover_append] at horder
  rw [horder]
  exact prefix_discover _ _

/-- A beginning of the list that leads to nothing but itself is all of the list. -/
theorem eq_of_complete (h : m.BreadthFirst roots order) {start : List Ref}
    (hstart : start <+: order)
    (complete : discover [] (roots.toList.filterMap Value.ref? ++ start.flatMap m.refsIn) <+:
      start) :
    start = order := by
  have all : ∀ r ∈ order, r ∈ start := by
    intro r hr
    refine ((h.mem_iff r).mp hr).subset (P := (· ∈ start)) ?_ ?_
    · intro r i s r' hr hi hslot
      refine complete.subset (mem_discover.mpr (.inr (List.mem_append_right _ ?_)))
      exact List.mem_flatMap.mpr ⟨r, hr, mem_refsIn.mpr ⟨i, s, hi, hslot⟩⟩
    · intro s r hr
      refine complete.subset (mem_discover.mpr (.inr (List.mem_append_left _ ?_)))
      exact Value.mem_filterMap_ref?.mpr ⟨s, Array.mem_toList_iff.mpr hr⟩
  exact hstart.eq_of_length_le (List.Nodup.length_le_of_subset h.nodup all)

/-- There is only one such order. -/
theorem unique (h : m.BreadthFirst roots order) (h' : m.BreadthFirst roots order') :
    order = order' := by
  -- Equal beginnings grow by the same reference as long as there is more to come.
  have same : ∀ k, order.take k = order'.take k := by
    intro k
    induction k with
    | zero => rfl
    | succ k ih =>
      have hstart := List.take_prefix k order
      have hstart' := List.take_prefix k order'
      rw [← ih] at hstart'
      have found := h.discover_prefix hstart
      have found' := h'.discover_prefix hstart'
      by_cases more : k + 1 ≤ (discover [] (roots.toList.filterMap Value.ref? ++
          (order.take k).flatMap m.refsIn)).length
      · have next : ∀ {xs ys : List Ref}, xs <+: ys → k + 1 ≤ xs.length →
            ys.take (k + 1) = xs.take (k + 1) := by
          rintro xs _ ⟨zs, rfl⟩ hle
          rw [List.take_append_of_le_length hle]
        rw [next found more, next found' more]
      · have complete : discover []
          (roots.toList.filterMap Value.ref? ++ (order.take k).flatMap m.refsIn) <+:
            order.take k := by
          refine List.prefix_of_prefix_length_le found hstart ?_
          have := found.length_le
          rw [List.length_take]
          omega
        rw [← h.eq_of_complete hstart complete, ← h'.eq_of_complete hstart' complete]
  have htake := same (order.length + order'.length)
  rwa [List.take_of_length_le (Nat.le_add_right _ _),
    List.take_of_length_le (Nat.le_add_left _ _)] at htake

end Memory.BreadthFirst

end ActorMachine
