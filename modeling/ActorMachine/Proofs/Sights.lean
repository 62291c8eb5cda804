import ActorMachine.Proofs.Maps
import ActorMachine.Proofs.Pairs

/-!
# What a program sees of its actor

A sight of an actor is what its objects hold and which items are on its stack and in its mailbox
(`Actor.ShowsAt`). Making room changes nothing of it, though it may move all objects
(`Actor.ShowsAt.ends_reserve`); making an object adds the object (`Actor.ShowsAt.ends_make`) or, if
nothing gets to know it, nothing at all (`Actor.ShowsAt.ends_spare`). Of the stores of arrays and
tables a program can see nothing (`Actor.ShowsAt.hides`).
-/

namespace ActorMachine

open Memory
open ActorM (reserve readHeap onHeap Makes)

/-- Values are those of some items, place by place. -/
structure Item.AllAt (ν : Naming) (xs : List Item) (vs : Array Value) : Prop where
  size : xs.length = vs.size
  get : ∀ (i : Nat) (x : Item) (v : Value), xs[i]? = some x → vs[i]? = some v → x.At ν v

namespace Item.AllAt

variable {ν ν' : Naming} {γ : Matching} {xs : List Item} {vs ws : Array Value}
    {x : Item} {v : Value}

theorem nil (ν : Naming) : AllAt ν [] #[] := ⟨rfl, fun _ _ _ h => nomatch h⟩

theorem mono (h : AllAt ν xs vs) (himp : ∀ {s i r}, ν s i r → ν' s i r) : AllAt ν' xs vs :=
  ⟨h.size, fun i x v hx hv => (h.get i x v hx hv).mono himp⟩

theorem push (h : AllAt ν xs vs) (hx : x.At ν v) : AllAt ν (xs ++ [x]) (vs.push v) where
  size := by rw [List.length_append, List.length_singleton, Array.size_push, h.size]
  get i y w hy hw := by
    rw [Array.getElem?_push] at hw
    by_cases heq : i = vs.size
    · rw [if_pos heq] at hw
      rw [List.getElem?_append_right (by rw [h.size, heq]), heq, h.size, Nat.sub_self] at hy
      cases hy
      cases hw
      exact hx
    · rw [if_neg heq] at hw
      have hlt : i < vs.size := (Array.getElem?_eq_some_iff.mp hw).1
      rw [List.getElem?_append_left (by rw [h.size]; exact hlt)] at hy
      exact h.get i y w hy hw

theorem pop (h : AllAt ν xs vs) : AllAt ν xs.dropLast vs.pop where
  size := by rw [List.length_dropLast, Array.size_pop, h.size]
  get i y w hy hw := by
    rw [Array.getElem?_pop] at hw
    rw [List.getElem?_dropLast] at hy
    split at hw
    · split at hy
      · exact h.get i y w hy hw
      · cases hy
    · cases hw

theorem move (h : AllAt ν xs vs) (moved : Value.MatchAll γ vs ws) : AllAt (ν.move γ) xs ws where
  size := h.size.trans moved.size
  get i x w hx hw := by
    have hlt : i < vs.size := by
      rw [moved.size]
      exact (Array.getElem?_eq_some_iff.mp hw).1
    have hv := Array.getElem?_eq_getElem hlt
    exact (h.get i x _ hx hv).move (moved.get i _ w hv hw)

theorem still {σ : Matching} (h : AllAt ν xs vs) (within : ∀ {s i r}, ν s i r → σ s r r) :
    Value.MatchAll σ vs vs where
  size := rfl
  get i v w hv hw := by
    have hlt : i < xs.length := by
      rw [h.size]
      exact (Array.getElem?_eq_some_iff.mp hv).1
    rw [hv] at hw
    cases hw
    exact (h.get i _ v (List.getElem?_eq_getElem hlt) hv).still within

theorem getD (h : AllAt ν xs vs) (i : Nat) : (xs.getD i .nil).At ν (vs.getD i .nil) := by
  rw [List.getD_eq_getElem?_getD, Array.getD_eq_getD_getElem?]
  by_cases hlt : i < vs.size
  · have hlt' : i < xs.length := by rw [h.size]; exact hlt
    rw [List.getElem?_eq_getElem hlt', Array.getElem?_eq_getElem hlt]
    exact h.get i _ _ (List.getElem?_eq_getElem hlt') (Array.getElem?_eq_getElem hlt)
  · rw [List.getElem?_eq_none (by rw [h.size]; omega), Array.getElem?_eq_none (by omega)]
    exact .inline rfl

end Item.AllAt

/-- Strings hold their bytes when they are made, tuples nothing but nil, and arrays and tables
nothing. -/
inductive Content.New : Shape → Nat → ByteArray → Content → Prop
  | string (length : Nat) (bytes : ByteArray) : New .string length bytes (.string bytes)
  | tuple (length : Nat) (bytes : ByteArray) :
    New .tuple length bytes (.tuple (List.replicate length .nil))
  | array (bytes : ByteArray) : New .array 0 bytes (.array [])
  | table (bytes : ByteArray) : New .table 0 bytes (.table [])

namespace Content.New

variable {s : Shape} {length : Nat} {content : ByteArray} {c : Content}

/-- What a new object holds lies there. -/
theorem lies (hc : New s length content c) {m m₁ : Memory} {p : Ref} (new : NewObject m m₁ s p)
    (hlength : m₁.lengthAt p = length) (hstring : s = .string → m₁.stringAt p = content)
    (ν : Naming) :
    c.shape = s ∧ c.Lies ν m₁ p := by
  cases hc with
  | string =>
    refine ⟨rfl, fun bytes hbytes => ?_, fun hne => absurd rfl hne, fun k x hk => nomatch hk⟩
    cases hbytes
    exact hstring rfl
  | tuple =>
    refine ⟨rfl, nofun, fun _ => hlength.trans List.length_replicate.symm,
      fun k x hk => ⟨p, .tuple, ?_⟩⟩
    have hk : (List.replicate length Item.nil)[k]? = some x := hk
    rw [List.getElem?_replicate] at hk
    split at hk
    · rename_i hlt
      cases hk
      rw [new.slots k (show k < m₁.lengthAt p from hlength ▸ hlt)]
      exact .inline rfl
    · cases hk
  | array | table => exact ⟨rfl, nofun, fun _ => hlength, fun k x hk => nomatch hk⟩

/-- New objects refer to no others. -/
theorem shift (hc : New s length content c) (n : Nat) : c.shift n = c := by
  cases hc with
  | string | array | table => rfl
  | tuple => exact congrArg Content.tuple List.map_replicate

end Content.New

/-- What a program sees of its actor: the objects that have been made, and which items are held. -/
structure Sight where
  objects : Contents
  stack : List Item
  messages : List Item

/-- An actor whose objects are at known places shows a sight. -/
structure Actor.ShowsAt (ν : Naming) (σ : Matching) (V : Sight) (a : Actor) : Prop where
  bounded : a.heap.Bounded
  named : Named ν V.objects σ a.heap.memory
  stack : Item.AllAt ν V.stack a.stack
  messages : Item.AllAt ν V.messages a.mailbox.messages

/-- A fault that is not one of the heap. -/
def Fault.Plain (e : Fault) : Prop := ∀ h, e ≠ .heap h

namespace Actor.ShowsAt

variable {ν : Naming} {σ γ : Matching} {V : Sight} {a b : Actor}

/-- What an actor that shows a sight holds is in its heap. -/
theorem equivalent (h : a.ShowsAt ν σ V) : a.Equivalent σ a where
  frames := rfl
  catches := rfl
  entry := rfl
  pendingReceive := rfl
  cursor := rfl
  limits := rfl
  maxCapacity := rfl
  left := h.bounded
  right := h.bounded
  iso := h.named.iso
  stack := h.stack.still h.named.within
  messages := h.messages.still h.named.within

/-- An actor shows the same wherever its objects have been moved. -/
theorem move (h : a.ShowsAt ν σ V) (moved : a.Equivalent γ b) :
    b.ShowsAt (ν.move γ) (γ.inverse.comp γ) V where
  bounded := moved.right
  named := h.named.move moved.iso
  stack := h.stack.move moved.stack
  messages := h.messages.move moved.messages

/-- The heap has changed, and what its objects hold with it. -/
theorem setMemory (h : a.ShowsAt ν σ V) {ν' : Naming} {σ' : Matching} {M : Contents} {m : Memory}
    (named : Named ν' M σ' m) (sub : ∀ {s i r}, ν s i r → ν' s i r)
    (room : m.size ≤ a.heap.capacity) :
    ShowsAt ν' σ' { V with objects := M } { a with heap := { a.heap with memory := m } } where
  bounded := ⟨room, h.bounded.capacity_le, h.bounded.max_le⟩
  named := named
  stack := h.stack.mono sub
  messages := h.messages.mono sub

/-- Objects have been written to. -/
theorem rewrite (h : a.ShowsAt ν σ V) {M : Contents} {m : Memory} (named : Named ν M σ m)
    (size : m.size = a.heap.memory.size) :
    ShowsAt ν σ { V with objects := M } { a with heap := { a.heap with memory := m } } :=
  h.setMemory named id (by rw [size]; exact h.bounded.used_le)

theorem push (h : a.ShowsAt ν σ V) {x : Item} {v : Value} (hx : x.At ν v) :
    ShowsAt ν σ { V with stack := V.stack ++ [x] } { a with stack := a.stack.push v } :=
  { h with stack := h.stack.push hx }

theorem pop (h : a.ShowsAt ν σ V) :
    ShowsAt ν σ { V with stack := V.stack.dropLast } { a with stack := a.stack.pop } :=
  { h with stack := h.stack.pop }

/-! ## Room and new objects -/

/-- Making room changes nothing that is seen, whether or not there is any. -/
theorem ends_reserve (h : a.ShowsAt ν σ V) (bytes : Nat) :
    Ends (reserve bytes) a (fun _ b => ∃ ν' σ', b.ShowsAt ν' σ' V ∧ bytes ≤ b.heap.free)
      fun e b => e.IsOutOfMemory ∧ ∃ ν' σ', b.ShowsAt ν' σ' V := by
  refine (ActorM.ends_reserve h.equivalent bytes).mono ?_ ?_
  · intro _ b ⟨γ, moved, room⟩
    exact ⟨_, _, h.move moved, room⟩
  · intro e b ⟨full, γ, moved⟩
    exact ⟨full, _, _, h.move moved⟩

variable {m : ActorM α} {bytes size length : Nat} {s : Shape} {content : ByteArray} {val : Ref → α}

/-- Nothing is seen of a new object that nothing gets to know. -/
theorem ends_spare (h : a.ShowsAt ν σ V) (makes : Makes m bytes s size length content val) :
    Ends (reserve bytes >>= fun _ => m) a
      (fun x b => ∃ ν' σ' p, x = val p ∧ b.ShowsAt ν' σ' V ∧ b.heap.memory.Spare ν' p ∧ σ' s p p ∧
        b.heap.memory.lengthAt p = length)
      fun e b => e.IsOutOfMemory ∧ ∃ ν' σ', b.ShowsAt ν' σ' V := by
  refine (ActorM.ends_making makes h.equivalent).mono ?_ ?_
  · rintro _ _ ⟨γ, a₀, p, m₁, rfl, moved, rfl, new, room, hlength, -⟩
    have h₀ := h.move moved
    obtain ⟨named, spare⟩ := h₀.named.hide new
    exact ⟨_, _, p, rfl, h₀.setMemory named id room, spare, .inr ⟨rfl, rfl, rfl⟩, hlength⟩
  · intro e b ⟨full, γ, moved⟩
    exact ⟨full, _, _, h.move moved⟩

/-- Making an object adds it to those that are seen. -/
theorem ends_make (h : a.ShowsAt ν σ V) (makes : Makes m bytes s size length content val)
    {c : Content} (hc : Content.New s length content c) :
    Ends (reserve bytes >>= fun _ => m) a
      (fun x b => ∃ ν' σ' p, x = val p ∧ ν' s V.objects.length p ∧
        b.ShowsAt ν' σ' { V with objects := V.objects ++ [c] })
      fun e b => e.IsOutOfMemory ∧ ∃ ν' σ', b.ShowsAt ν' σ' V := by
  refine (ActorM.ends_making makes h.equivalent).mono ?_ ?_
  · rintro _ _ ⟨γ, a₀, p, m₁, rfl, moved, rfl, new, room, hlength, hstring⟩
    obtain ⟨hshape, hlies⟩ := hc.lies new hlength hstring (.single s p)
    have h₀ := h.move moved
    have joined := (h₀.named.extend new.extends_).join (.new new hshape hlies) (by
      rintro s' r s'' r' hr ⟨-, rfl, -⟩
      exact h₀.named.iso.left.apart_end new.extends_ (Nat.le_of_eq new.start.symm) ⟨_, hr⟩)
    rw [List.map_singleton, hc.shift] at joined
    exact ⟨_, _, p, rfl, .inr ⟨0, rfl, rfl, rfl, rfl⟩, h₀.setMemory joined .inl room⟩
  · intro e b ⟨full, γ, moved⟩
    exact ⟨full, _, _, h.move moved⟩

end Actor.ShowsAt

/-! ## Hidden stores -/

/-- The values that a program can get hold of: those that it has, and those that objects hold which
it can get hold of. -/
inductive Actor.Visible (a : Actor) : Value → Prop
  | root {v : Value} (h : v ∈ a.roots) : Visible a v
  | element {r : Ref} {k : Nat} (tuple : Visible a (.object .tuple r))
    (h : k < a.heap.memory.lengthAt r) :
    Visible a (a.heap.memory.slotAt r k)
  | stored {s : Shape} {r u : Ref} {k : Nat} (container : Visible a (.object s r))
    (stores : s.Stores) (store : a.heap.memory.slotAt r 0 = .object .tuple u)
    (h : k < slotsNeeded s (a.heap.memory.lengthAt r)) :
    Visible a (a.heap.memory.slotAt u k)

/-- No program can get hold of the store of an array or a table, and no two of them have the same
one. -/
def Actor.Hides (a : Actor) : Prop :=
  ∀ (s : Shape) (r u : Ref), a.Visible (.object s r) → s.Stores →
    a.heap.memory.slotAt r 0 = .object .tuple u →
    ¬a.Visible (.object .tuple u) ∧ ∀ (s' : Shape)
      (r' : Ref), a.Visible (.object s' r') → s'.Stores →
      a.heap.memory.slotAt r' 0 = .object .tuple u → r' = r

namespace Actor.ShowsAt

variable {ν : Naming} {σ : Matching} {V : Sight} {a : Actor}

/-- The slots of an object hold what a program sees of it. -/
theorem exists_at_slot (h : a.ShowsAt ν σ V) {s : Shape} {i k : Nat} {r u : Ref} (hi : ν s i r)
    (home : a.heap.memory.Home s r u) (hne : s ≠ .string)
    (hk : ∀ c : Content, c.shape = s → a.heap.memory.lengthAt r = c.count → k < c.items.length) :
    ∃ x : Item, x.At ν (a.heap.memory.slotAt u k) := by
  obtain ⟨c, -, rfl, hlies⟩ := h.named.content hi
  have hlt : k < c.items.length := hk c rfl (hlies.count hne)
  obtain ⟨u', home', hx⟩ := hlies.items k _ (List.getElem?_eq_getElem hlt)
  suffices heq : u' = u from ⟨_, heq ▸ hx⟩
  generalize c.shape = s at home home'
  cases home with
  | tuple =>
    cases home' with
    | tuple => rfl
    | store stores => rcases stores with h | h <;> cases h
  | store stores slot =>
    cases home' with
    | tuple => rcases stores with h | h <;> cases h
    | store _ slot' =>
      rw [slot] at slot'
      cases slot'
      rfl

/-- Every value that a program can get hold of is one that it sees. -/
theorem exists_at (h : a.ShowsAt ν σ V) {v : Value} (visible : a.Visible v) :
    ∃ x : Item, x.At ν v := by
  induction visible with
  | root hv =>
    obtain hv | hv := Array.mem_append.mp hv
    · obtain ⟨i, hi⟩ := Array.mem_iff_getElem?.mp hv
      have := h.stack.getD i
      rw [Array.getD_eq_getD_getElem?, hi] at this
      exact ⟨_, this⟩
    · obtain ⟨i, hi⟩ := Array.mem_iff_getElem?.mp hv
      have := h.messages.getD i
      rw [Array.getD_eq_getD_getElem?, hi] at this
      exact ⟨_, this⟩
  | element _ hk ih =>
    obtain ⟨x, hx⟩ := ih
    cases hx with
    | inline hv => cases hv
    | object hi =>
      refine h.exists_at_slot hi .tuple nofun fun c hshape hcount => ?_
      cases c with
      | tuple xs => exact Nat.lt_of_lt_of_eq hk hcount
      | _ => cases hshape
  | stored _ stores store hk ih =>
    obtain ⟨x, hx⟩ := ih
    cases hx with
    | inline hv => cases hv
    | object hi =>
      refine h.exists_at_slot hi (.store stores store)
        (by rcases stores with rfl | rfl <;> nofun) ?_
      rintro c rfl hcount
      rwa [Content.length_items stores, ← hcount]

/-- The stores of an actor that shows a sight are hidden. -/
theorem hides (h : a.ShowsAt ν σ V) : a.Hides := by
  intro s r u visible stores slot
  have named : ∀ {s r}, a.Visible (.object s r) → ∃ i, ν s i r := by
    intro s r visible
    obtain ⟨x, hx⟩ := h.exists_at visible
    cases hx with
    | inline hv => cases hv
    | object hi => exact ⟨_, hi⟩
  obtain ⟨i, hi⟩ := named visible
  have hidden := h.named.hidden hi stores slot
  refine ⟨fun visible' => ?_, fun s' r' visible' stores' slot' => ?_⟩
  · obtain ⟨j, hj⟩ := named visible'
    exact hidden.unnamed _ _ hj
  · obtain ⟨j, hj⟩ := named visible'
    exact hidden.alone _ _ _ hj stores' slot'

end Actor.ShowsAt

end ActorMachine
