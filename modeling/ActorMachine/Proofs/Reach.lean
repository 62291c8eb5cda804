import ActorMachine.Proofs.Graphs

/-!
# What values reach

The well-typed objects that some values reach (`Memory.Reaches`) are those that the values lead to
(`Memory.leads_iff`). They are the same in isomorphic memories, and so is the room that they take up
together (`total_eq_of_iso`).
-/

namespace ActorMachine

/-- The objects that some values reach. -/
inductive Memory.Reaches (m : Memory) (roots : Value → Prop) : Shape → Ref → Prop
  | root {s : Shape} {r : Ref} (h : roots (.object s r)) : Reaches m roots s r
  | slot {s s' : Shape} {r r' : Ref} {i : Nat} (h : Reaches m roots s r) (hi : i < m.slotsAt r s)
    (hslot : m.slotAt r i = .object s' r') : Reaches m roots s' r'

namespace Memory.Reaches

variable {m m' : Memory} {roots roots' : Value → Prop} {s : Shape} {r : Ref}

theorem closed (m : Memory) (roots : Value → Prop) : Closed (m.Reaches roots) m :=
  fun h hi hslot => .slot h hi hslot

/-- What holds of the roots and is passed on from slot to slot holds of all that they reach. -/
theorem subset {P : Shape → Ref → Prop} (closed : Closed P m)
    (hroots : ∀ s r, roots (.object s r) → P s r) (h : m.Reaches roots s r) : P s r := by
  induction h with
  | root h => exact hroots _ _ h
  | slot _ hi hslot ih => exact closed ih hi hslot

/-- What matched roots reach is matched. -/
theorem transport {ρ : Matching} (iso : Iso ρ m m')
    (hroots : ∀ v, roots v → ∃ w, roots' w ∧ v.Match ρ w) (h : m.Reaches roots s r) :
    ∃ t, ρ s r t ∧ m'.Reaches roots' s t := by
  induction h with
  | @root s r h =>
    obtain ⟨w, hw, hmatch⟩ := hroots _ h
    generalize hv : Value.object s r = v at hmatch
    cases hmatch with
    | inline hinline => rw [← hv] at hinline; cases hinline
    | object hrt => cases hv; exact ⟨_, hrt, .root hw⟩
  | @slot s s' r r' i _ hi hslot ih =>
    obtain ⟨t, hrt, ht⟩ := ih
    have halike := iso.alike hrt
    have hmatch := halike.slots i hi
    rw [hslot] at hmatch
    generalize hw : m'.slotAt t i = w at hmatch
    cases hmatch with
    | inline hinline => cases hinline
    | object hrt' => exact ⟨_, hrt', .slot ht (halike.slotsAt_eq ▸ hi) hw⟩

end Memory.Reaches

/-- Among well-typed objects it makes no difference whether the shapes are asked for. -/
theorem Memory.leads_iff {P : Shape → Ref → Prop} {m : Memory} {roots : Value → Prop} {r : Ref}
    (laid : Laid P m) (closed : Closed P m) (hroots : ∀ s r, roots (.object s r) → P s r) :
    m.Leads roots r ↔ ∃ s, m.Reaches roots s r := by
  have slots : ∀ {s r}, m.Reaches roots s r → m.slotsIn r = m.slotsAt r s := fun hreach =>
    slotsIn_of_typed (laid.isObject (hreach.subset closed hroots))
      (laid.typed (hreach.subset closed hroots))
  constructor
  · intro h
    induction h with
    | root h => exact ⟨_, .root h⟩
    | slot _ hi hslot ih =>
      obtain ⟨s, hreach⟩ := ih
      exact ⟨_, .slot hreach (slots hreach ▸ hi) hslot⟩
  · rintro ⟨s, h⟩
    induction h with
    | root h => exact .root h
    | slot hreach hi hslot ih => exact .slot ih ((slots hreach).symm ▸ hi) hslot

/-! ## The room that objects take up -/

/-- The references are those of the objects of which `P` holds, each once. -/
structure Enumerates (refs : List Ref) (P : Shape → Ref → Prop) : Prop where
  nodup : refs.Nodup
  mem_iff : ∀ r, r ∈ refs ↔ ∃ s, P s r

theorem Lists.enumerates {P : Ref → Prop} {Q : Shape → Ref → Prop} {refs : List Ref}
    (h : Lists refs P) (hiff : ∀ r, P r ↔ ∃ s, Q s r) : Enumerates refs Q :=
  ⟨h.nodup, fun r => (h.mem_iff r).trans (hiff r)⟩

/-- Objects that have no byte in common take up no more room than there is. -/
theorem Laid.total_le {P : Shape → Ref → Prop} {m : Memory} (h : Laid P m) {refs : List Ref}
    (nodup : refs.Nodup) (hrefs : ∀ r ∈ refs, ∃ s, P s r) : m.total refs ≤ m.size :=
  h.scattered.total_le nodup hrefs

/-- Different matched objects of one memory take up no more room than all matched objects of the
other. -/
theorem Iso.total_le {ρ : Matching} {m m' : Memory} (iso : Iso ρ m m') {refs refs' : List Ref}
    (nodup : refs.Nodup) (h : ∀ r ∈ refs, ∃ s t, ρ s r t ∧ t ∈ refs') :
    m.total refs ≤ m'.total refs' := by
  refine sum_map_le (fun r t => ∃ s, ρ s r t) nodup ?_ ?_ ?_
  · intro r hr
    obtain ⟨s, t, hrt, ht⟩ := h r hr
    exact ⟨t, ht, s, hrt⟩
  · rintro r t ⟨s, hrt⟩
    exact Nat.le_of_eq (congrArg allocSize (iso.alike hrt).size)
  · rintro r r' t ⟨s, hrt⟩ ⟨s', hrt'⟩
    exact (iso.unique hrt hrt').mpr rfl

/-- Matched roots reach objects that take up the same room. -/
theorem total_eq_of_iso {ρ : Matching} {m m' : Memory} (iso : Iso ρ m m')
    {roots roots' : Value → Prop} (hroots : ∀ v, roots v → ∃ w, roots' w ∧ v.Match ρ w)
    (hroots' : ∀ w, roots' w → ∃ v, roots v ∧ v.Match ρ w) {refs refs' : List Ref}
    (h : Enumerates refs (m.Reaches roots)) (h' : Enumerates refs' (m'.Reaches roots')) :
    m.total refs = m'.total refs' := by
  refine Nat.le_antisymm (iso.total_le h.nodup fun r hr => ?_)
    (iso.symm.total_le h'.nodup fun t ht => ?_)
  · obtain ⟨s, hs⟩ := (h.mem_iff r).mp hr
    obtain ⟨t, hrt, ht⟩ := hs.transport iso hroots
    exact ⟨s, t, hrt, (h'.mem_iff t).mpr ⟨s, ht⟩⟩
  · obtain ⟨s, hs⟩ := (h'.mem_iff t).mp ht
    obtain ⟨r, hrt, hr⟩ := hs.transport iso.symm fun w hw => by
      obtain ⟨v, hv, hmatch⟩ := hroots' w hw
      exact ⟨v, hv, hmatch.symm⟩
    exact ⟨s, r, hrt, (h.mem_iff r).mpr ⟨s, hr⟩⟩

/-- What matched roots reach takes up no more room than the other memory has. -/
theorem Iso.total_le_size {ρ : Matching} {m m' : Memory} (iso : Iso ρ m m') {refs : List Ref}
    (nodup : refs.Nodup) (h : ∀ r ∈ refs, ∃ s t, ρ s r t) : m.total refs ≤ m'.size := by
  suffices himages : ∃ refs' : List Ref, refs'.Nodup ∧ m'.total refs' = m.total refs ∧
      ∀ t ∈ refs', ∃ s r, ρ s r t ∧ r ∈ refs by
    obtain ⟨refs', hnodup, htotal, hmem⟩ := himages
    rw [← htotal]
    exact iso.right.total_le hnodup fun t ht => by
      obtain ⟨s, r, hrt, -⟩ := hmem t ht
      exact ⟨s, r, hrt⟩
  induction refs with
  | nil => exact ⟨[], List.nodup_nil, rfl, fun t ht => nomatch ht⟩
  | cons r refs ih =>
    obtain ⟨hnotin, hnodup⟩ := List.nodup_cons.mp nodup
    obtain ⟨refs', hnodup', htotal, hmem⟩ := ih hnodup fun r' hr' =>
      h r' (List.mem_cons_of_mem _ hr')
    obtain ⟨s, t, hrt⟩ := h r List.mem_cons_self
    refine ⟨t :: refs', List.nodup_cons.mpr ⟨fun ht => ?_, hnodup'⟩, ?_, ?_⟩
    · obtain ⟨s', r', hrt', hr'⟩ := hmem t ht
      exact hnotin ((iso.unique hrt hrt').mpr rfl ▸ hr')
    · show allocSize (m'.sizeAt t) + m'.total refs' = allocSize (m.sizeAt r) + m.total refs
      rw [htotal, (iso.alike hrt).size]
    · intro t' ht'
      rcases List.mem_cons.mp ht' with rfl | ht'
      · exact ⟨s, r, hrt, List.mem_cons_self⟩
      · obtain ⟨s', r', hrt', hr'⟩ := hmem t' ht'
        exact ⟨s', r', hrt', List.mem_cons_of_mem _ hr'⟩

end ActorMachine
