import ActorMachine.Heap.Reachable
import ActorMachine.Proofs.Allocation

/-!
# What a search finds

`Heap.measure_spec`: the search behind a value finds the objects that it leads to, each once, so
that the measure of a value is the room that these take up. What has been found leads to what has
been found or to what is still to be looked at.
-/

namespace ActorMachine

open Memory

namespace Heap

variable {h : Heap} {P : Ref → Prop}

theorem children_eq {s : Shape} {r : Ref} (obj : h.memory.IsObject s r) :
    h.children r = .ok (h.memory.refsIn r) := by
  unfold children slots
  rw [header_eq obj, refsIn, slotsIn_eq obj]
  rfl

/-- A search under way: what has been found leads to what has been found or is to be looked at. -/
structure Searching (P : Ref → Prop) (m : Memory) (seen : Std.TreeSet Nat) (found : Array Ref)
    (work : List Ref) : Prop where
  nodup : found.toList.Nodup
  seen_iff : ∀ r : Ref, r.start ∈ seen ↔ r ∈ found
  sound : ∀ r, r ∈ found ∨ r ∈ work → P r
  closed : ∀ {r r'}, r ∈ found → r' ∈ m.refsIn r → r' ∈ found ∨ r' ∈ work

namespace Searching

variable {P : Ref → Prop} {m : Memory} {seen : Std.TreeSet Nat} {found : Array Ref}
    {work : List Ref} {r : Ref}

theorem found_or_work (hr : r ∈ found) {r' : Ref} (h : r' ∈ found ∨ r' ∈ r :: work) :
    r' ∈ found ∨ r' ∈ work := by
  rcases h with h | h
  · exact .inl h
  · rcases List.mem_cons.mp h with rfl | h
    · exact .inl hr
    · exact .inr h

/-- What has been found is not looked at again. -/
theorem skip (h : Searching P m seen found (r :: work)) (hr : r ∈ found) :
    Searching P m seen found work where
  nodup := h.nodup
  seen_iff := h.seen_iff
  sound r' hr' := h.sound r' (hr'.imp id (List.mem_cons_of_mem _))
  closed hr₁ hr' := found_or_work hr (h.closed hr₁ hr')

theorem push_or_work {refs : List Ref} {r' : Ref} (h : r' ∈ found ∨ r' ∈ r :: work) :
    r' ∈ found.push r ∨ r' ∈ refs ++ work := by
  rcases h with h | h
  · exact .inl (Array.mem_push_of_mem _ h)
  · rcases List.mem_cons.mp h with rfl | h
    · exact .inl Array.mem_push_self
    · exact .inr (List.mem_append_right _ h)

/-- What has not been found before is found, and what it refers to is to be looked at. -/
theorem find (h : Searching P m seen found (r :: work)) (closed : m.ClosedUnder P)
    (hr : r ∉ found) :
    Searching P m (seen.insert r.start) (found.push r) ((m.refsIn r).reverse ++ work) where
  nodup := by
    rw [Array.toList_push]
    exact nodup_concat h.nodup fun hmem => hr (Array.mem_toList_iff.mp hmem)
  seen_iff r' := by
    rw [Std.TreeSet.mem_insert, Nat.compare_eq_eq, h.seen_iff, Array.mem_push]
    constructor
    · rintro (heq | hr')
      · exact .inr (Ref.start_inj heq).symm
      · exact .inl hr'
    · rintro (hr' | rfl)
      · exact .inr hr'
      · exact .inl rfl
  sound r' hr' := by
    have hp := h.sound r (.inr List.mem_cons_self)
    rcases hr' with hr' | hr'
    · rcases Array.mem_push.mp hr' with hr' | rfl
      · exact h.sound r' (.inl hr')
      · exact hp
    · rcases List.mem_append.mp hr' with hr' | hr'
      · obtain ⟨i, s', hi, hslot⟩ := mem_refsIn.mp (List.mem_reverse.mp hr')
        exact closed hp hi hslot
      · exact h.sound r' (.inr (List.mem_cons_of_mem _ hr'))
  closed hr₁ hr' := by
    rcases Array.mem_push.mp hr₁ with hr₁ | rfl
    · exact push_or_work (h.closed hr₁ hr')
    · exact .inr (List.mem_append_left _ (List.mem_reverse.mpr hr'))

end Searching

/-- A search ends with nothing left to look at. -/
theorem visit_spec (objects : ∀ r, P r → ∃ s, h.memory.IsObject s r)
    (closed : h.memory.ClosedUnder P) {seen : Std.TreeSet Nat} {found : Array Ref} {work : List Ref}
    (hsearch : Searching P h.memory seen found work) :
    ∃ seen' found', h.visit seen found work = .ok found' ∧
      Searching P h.memory seen' found' [] ∧ ∀ r, r ∈ found ∨ r ∈ work → r ∈ found' := by
  fun_induction h.visit seen found work with
  | case1 seen found =>
    exact ⟨seen, found, rfl, hsearch, fun r hr => hr.resolve_right List.not_mem_nil⟩
  | case2 seen found r work hseen ih =>
    have hfound : r ∈ found := (hsearch.seen_iff r).mp hseen
    obtain ⟨seen', found', hok, hdone, hsubset⟩ := ih (hsearch.skip hfound)
    exact ⟨seen', found', hok, hdone, fun r' hr' => hsubset r' (Searching.found_or_work hfound hr')⟩
  | case3 seen found r work hseen e failed =>
    obtain ⟨s, obj⟩ := objects r (hsearch.sound r (.inr List.mem_cons_self))
    rw [children_eq obj] at failed
    cases failed
  | case4 seen found r work hseen refs hok ih =>
    obtain ⟨s, obj⟩ := objects r (hsearch.sound r (.inr List.mem_cons_self))
    rw [children_eq obj] at hok
    cases hok
    have hnew : r ∉ found := fun hr => hseen ((hsearch.seen_iff r).mpr hr)
    obtain ⟨seen', found', hok, hdone, hsubset⟩ := ih (hsearch.find closed hnew)
    exact ⟨seen', found', hok, hdone, fun r' hr' => hsubset r' (Searching.push_or_work hr')⟩

theorem foldl_extent {refs : List Ref}
    (objects : ∀ r ∈ refs, ∃ s, h.memory.IsObject s r) (n : Nat) :
    refs.foldl (fun bytes r => bytes + h.extent r) n = n + h.memory.total refs := by
  induction refs generalizing n with
  | nil => rfl
  | cons r refs ih =>
    obtain ⟨s, obj⟩ := objects r List.mem_cons_self
    rw [List.foldl_cons, ih fun t ht => objects t (List.mem_cons_of_mem _ ht), extent,
      header_eq obj, total_cons, Nat.add_assoc]

/-- The measure of a value is the room that the objects take up that it leads to. -/
theorem measure_spec {v : Value}
    (objects : ∀ r, h.memory.Leads (· = v) r → ∃ s, h.memory.IsObject s r) :
    ∃ refs, h.measure v = .ok (h.memory.total refs) ∧ Lists refs (h.memory.Leads (· = v)) := by
  have inline : v.ref? = none → ∃ refs, h.measure v = .ok (h.memory.total refs) ∧
      Lists refs (h.memory.Leads (· = v)) := by
    intro hinline
    refine ⟨[], by rw [measure, hinline]; rfl, List.nodup_nil, fun r => ⟨nofun, fun hr => ?_⟩⟩
    exact absurd hr (not_leads_of_inline hinline)
  cases v with
  | object s r =>
    have start : Searching (h.memory.Leads (· = .object s r)) h.memory ∅ #[] [r] := by
      refine ⟨List.nodup_nil, fun r => by simp, fun r' hr' => ?_, fun hr => by simp at hr⟩
      obtain rfl : r' = r := by simpa using hr'
      exact .root rfl
    obtain ⟨seen, found, hok, hdone, hsubset⟩ := visit_spec objects (closedUnder_leads _ _) start
    have hmem : ∀ {r'}, h.memory.Leads (· = .object s r) r' → r' ∈ found := by
      intro r' hr'
      refine hr'.subset (P := (· ∈ found)) (fun hr hi hslot => ?_) fun s' r' heq => ?_
      · exact (hdone.closed hr (mem_refsIn.mpr ⟨_, _, hi, hslot⟩)).resolve_right List.not_mem_nil
      · cases heq
        exact hsubset _ (.inr List.mem_cons_self)
    have sound : ∀ r' ∈ found.toList, h.memory.Leads (· = .object s r) r' := fun r' hr' =>
      hdone.sound r' (.inl (Array.mem_toList_iff.mp hr'))
    refine ⟨found.toList, ?_, hdone.nodup, fun r' =>
      ⟨sound r', fun hr' => Array.mem_toList_iff.mpr (hmem hr')⟩⟩
    have hmeasure : h.measure (.object s r) =
        .ok (found.foldl (fun bytes r' => bytes + h.extent r') 0) := by
      show (do return (← h.visit ∅ #[] [r]).foldl (fun bytes r' => bytes + h.extent r') 0) = _
      rw [hok]
      rfl
    rw [hmeasure, ← Array.foldl_toList, foldl_extent fun r' hr' => objects r' (sound r' hr'),
      Nat.zero_add]
  | _ => exact inline rfl

/-- Among well-typed objects, they are those that the value reaches. -/
theorem measure_reaches {P : Shape → Ref → Prop} (laid : Laid P h.memory)
    (closed : Closed P h.memory) {v : Value} (hv : ∀ s r, v = .object s r → P s r) :
    ∃ refs, h.measure v = .ok (h.memory.total refs) ∧
      Enumerates refs (h.memory.Reaches (· = v)) := by
  have hroots : ∀ s r, Value.object s r = v → P s r := fun s r heq => hv s r heq.symm
  obtain ⟨refs, hmeasure, lists⟩ := measure_spec (h := h) (v := v) fun r hr => by
    obtain ⟨s, hreach⟩ := (leads_iff laid closed hroots).mp hr
    exact ⟨s, laid.isObject (hreach.subset closed hroots)⟩
  exact ⟨refs, hmeasure, lists.enumerates fun _ => leads_iff laid closed hroots⟩

end Heap

end ActorMachine
