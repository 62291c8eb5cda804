import ActorMachine.Proofs.Stacks

/-!
# The outcomes of protected calls

What a protected call leaves is a pair in the heap (`Memory.PairAt`): the code and the message of a
fault, or zero and the result, and as many pairs of zero, one around the other, as protected calls
are settled with one return (`Memory.Wrapped`). Making a pair may collect, and then everything else
that the actor holds is where the collection has moved it: the actor is equivalent to what it was
(`ActorM.ends_pairing`, `ActorM.ends_settleGroup`, `ActorM.ends_reporting`).
-/

namespace ActorMachine

open Memory

/-- The heap could not make room. -/
def Fault.IsOutOfMemory (e : Fault) : Prop :=
  ∃ requested limit, e = .heap (.outOfMemory requested limit)

namespace Memory

variable {m m' : Memory}

/-- There is a pair of two values at a place. -/
structure PairAt (m : Memory) (p : Ref) (first second : Value) : Prop where
  isObject : m.IsObject .tuple p
  length : m.lengthAt p = 2
  first : m.slotAt p 0 = first
  second : m.slotAt p 1 = second

/-- Pairs of zero around a value, one around the other. -/
inductive Wrapped (m : Memory) (r : Value) : Nat → Value → Prop
  | none : Wrapped m r 0 r
  | pair {k : Nat} {p : Ref} {v : Value} (inner : Wrapped m r k v)
    (pair : m.PairAt p (.integer 0) v) : Wrapped m r (k + 1) (.object .tuple p)

/-- The report of a fault: a pair of its code and a string with its message. -/
def Reports (m : Memory) (e : Fault) (v : Value) : Prop :=
  ∃ p q, v = .object .tuple p ∧ m.PairAt p (.integer e.code) (.object .string q) ∧
    m.IsObject .string q ∧ m.stringAt q = e.message.toUTF8

/-- A pair is a pair wherever it is moved. -/
theorem PairAt.move {γ : Matching} {p q : Ref} {first second : Value}
    (pair : m.PairAt p first second) (iso : Iso γ m m') (hpq : γ .tuple p q) :
    ∃ first' second', m'.PairAt q first' second' ∧ first.Match γ first' ∧
      second.Match γ second' := by
  have halike := iso.alike hpq
  have hslots : m.slotsAt p .tuple = 2 := pair.length
  have hfirst := halike.slots 0 (by omega)
  have hsecond := halike.slots 1 (by omega)
  rw [pair.first] at hfirst
  rw [pair.second] at hsecond
  exact ⟨_, _, ⟨iso.right.isObject ⟨p, hpq⟩, halike.length ▸ pair.length, rfl, rfl⟩,
    hfirst, hsecond⟩

/-- The innermost value may be a pair itself. -/
theorem Wrapped.around {r v : Value} {k : Nat} {p : Ref} (h : m.Wrapped (.object .tuple p) k v)
    (pair : m.PairAt p (.integer 0) r) : m.Wrapped r (k + 1) v := by
  induction h with
  | none => exact .pair .none pair
  | pair _ outer ih => exact .pair ih outer

/-- Filling a new pair changes nothing that has been there before. -/
theorem fill_pair {m₁ : Memory} {p : Ref} (new : NewObject m m₁ .tuple p)
    (length : m₁.lengthAt p = 2) (v w : Value) :
    let m₂ := (m₁.storeValue (slotOffset p.start 0) v).storeValue (slotOffset p.start 1) w
    Extends m m₂ ∧ m₂.size = m₁.size ∧ m₂.PairAt p v w := by
  have hslots : m₁.slotsAt p .tuple = 2 := length
  have hzero := slot_inside new.typed (i := 0) (by omega)
  have hone := slot_inside new.typed (i := 1) (by omega)
  have within := within_storeSlot hzero v
  rw [← within.sizeAt] at hone
  have within' := within_storeSlot hone w
  have obj := within.isObject new.isObject
  have before : ∀ {m₁ m₂ : Memory}, Within m₁ m₂ p → SameOn m₁ m₂ 0 m.size := by
    intro m₁ m₂ hwithin
    refine hwithin.before.mono (Nat.le_refl _) ?_
    rw [← new.start, Heap.payloadOffset]
    omega
  refine ⟨⟨?_, ?_⟩, ?_, ⟨within'.isObject obj, ?_, ?_, ?_⟩⟩
  · rw [within'.size, within.size]
    exact new.extends_.size
  · exact (new.extends_.bytes.trans (before within)).trans (before within')
  · rw [within'.size, within.size]
  · rw [lengthAt_storeSlot, lengthAt_storeSlot]
    exact length
  · rw [slotAt_storeSlot hone w obj, if_neg (by omega), slotAt_storeSlot hzero v new.isObject,
      if_pos rfl]
  · rw [slotAt_storeSlot hone w obj, if_pos rfl]

end Memory

namespace Actor.Equivalent

variable {ρ : Matching} {a b : Actor}

/-- Nothing that an actor holds is affected by what is added to its heap. -/
theorem extend (h : a.Equivalent ρ b) {m₁ : Memory} (ext : Extends b.heap.memory m₁)
    (room : m₁.size ≤ b.heap.capacity) :
    a.Equivalent ρ { b with heap := { b.heap with memory := m₁ } } :=
  { h with
    right := ⟨room, h.right.capacity_le, h.right.max_le⟩
    iso := h.iso.extend (.refl _) ext }

theorem pop (h : a.Equivalent ρ b) :
    Actor.Equivalent ρ { a with stack := a.stack.pop } { b with stack := b.stack.pop } :=
  { h with stack := h.stack.pop }

theorem shrink (h : a.Equivalent ρ b) (height : Nat) :
    Actor.Equivalent ρ { a with stack := a.stack.shrink height }
      { b with stack := b.stack.shrink height } :=
  { h with stack := h.stack.shrink height }

theorem push (h : a.Equivalent ρ b) {v w : Value} (hvw : v.Match ρ w) :
    Actor.Equivalent ρ { a with stack := a.stack.push v } { b with stack := b.stack.push w } :=
  { h with stack := h.stack.push hvw }

theorem setCatches (h : a.Equivalent ρ b) (catches : List CatchPoint) :
    Actor.Equivalent ρ { a with catches } { b with catches } :=
  { h with catches := rfl }

theorem setFrames (h : a.Equivalent ρ b) (frames : Array Frame) :
    Actor.Equivalent ρ { a with frames } { b with frames } :=
  { h with frames := rfl }

/-- The tops of equivalent stacks match; without one there is nil. -/
theorem top (h : a.Equivalent ρ b) : (a.top?.getD .nil).Match ρ (b.top?.getD .nil) := by
  have hback := h.stack.back?
  unfold top?
  generalize a.stack.back? = x at *
  generalize b.stack.back? = y at *
  cases hback with
  | none => exact .inline rfl
  | some hvw => exact hvw

end Actor.Equivalent

namespace ActorM

variable {ρ : Matching} {a : Actor}

/-- Making room moves what the actor holds, if anything. -/
theorem ends_reserve (sound : a.Equivalent ρ a) (bytes : Nat) :
    Ends (reserve bytes) a (fun _ a₁ => ∃ γ, a.Equivalent γ a₁ ∧ bytes ≤ a₁.heap.free)
      fun e a₁ => e.IsOutOfMemory ∧ ∃ γ, a.Equivalent γ a₁ := by
  by_cases hfree : a.heap.free < bytes
  · obtain ⟨a₁, γ, refs, moved, -, run, free⟩ := collect_spec sound.iso.left sound.iso.closedLeft
      (fun _ _ => sound.matched_of_mem) sound.left bytes
    rw [← reserve_of_lt hfree] at run
    unfold Ends
    rw [run]
    split
    · rename_i heq
      split at heq
      · cases heq
      · cases heq
        exact ⟨γ, moved, free (by omega)⟩
    · rename_i heq
      split at heq
      · cases heq
        exact ⟨⟨_, _, rfl⟩, γ, moved⟩
      · cases heq
  · unfold Ends
    rw [reserve_of_le (Nat.le_of_not_lt hfree)]
    exact ⟨ρ, sound, Nat.le_of_not_lt hfree⟩

/-- Making an object moves what the actor holds, if anything, and adds the object. -/
theorem ends_making {m : ActorM α} {bytes size length : Nat} {s : Shape} {content : ByteArray}
    {val : Ref → α} (makes : Makes m bytes s size length content val) (sound : a.Equivalent ρ a) :
    Ends (reserve bytes >>= fun _ => m) a
      (fun x a₁ => ∃ γ a₀ p m₁, x = val p ∧ a.Equivalent γ a₀ ∧
        a₁ = { a₀ with heap := { a₀.heap with memory := m₁ } } ∧ NewObject a₀.heap.memory m₁ s p ∧
        m₁.size ≤ a₀.heap.capacity ∧ m₁.lengthAt p = length ∧
        (s = .string → m₁.stringAt p = content))
      fun e a₁ => e.IsOutOfMemory ∧ ∃ γ, a.Equivalent γ a₁ := by
  refine .bind <| (ends_reserve sound bytes).mono ?_ fun _ _ h => h
  intro _ a₀ h
  obtain ⟨γ, moved, room⟩ := h
  obtain ⟨p, m₁, run, new, hroom, -, hlength, hstring⟩ := makes a₀ moved.right room
  unfold Ends
  rw [run]
  exact ⟨γ, a₀, p, m₁, rfl, moved, rfl, new, hroom, hlength, hstring⟩

/-- Writing an element of a tuple. -/
theorem onHeap_tupleSet {p : Ref} (obj : a.heap.memory.IsObject .tuple p) {i : Nat}
    (hi : i < a.heap.memory.lengthAt p) (v : Value) :
    onHeap (HeapM.tupleSet p i v) a = .ok () { a with heap := { a.heap with
      memory := a.heap.memory.storeValue (slotOffset p.start i) v } } := by
  have hset : HeapM.tupleSet p i v a.heap = _ := HeapM.tupleSet_eq obj v
  rw [if_pos (by omega)] at hset
  exact onHeap_ok hset

/-- The two elements of a tuple are a value and the top of the stack. -/
def fillPair (p : Ref) (first : Value) : ActorM Value := do
  let second ← popRaw
  onHeap (HeapM.tupleSet p 0 first)
  onHeap (HeapM.tupleSet p 1 second)
  return .object .tuple p

/-- A pair is a new tuple that is filled. -/
theorem pairWithTop_of_ok {p : Ref} {b : Actor} (run : newTupleRef 2 a = .ok p b) (first : Value) :
    pairWithTop first a = fillPair p first b := by
  unfold pairWithTop
  rw [run]
  rfl

/-- Without a tuple, the top of the stack is taken away all the same. -/
theorem pairWithTop_of_error {e : Fault} {b : Actor} (run : newTupleRef 2 a = .error e b)
    (first : Value) : pairWithTop first a = .error e { b with stack := b.stack.pop } := by
  unfold pairWithTop
  rw [run]
  rfl

theorem fillPair_eq {p : Ref} (obj : a.heap.memory.IsObject .tuple p)
    (typed : a.heap.memory.WellTyped p .tuple) (length : a.heap.memory.lengthAt p = 2)
    (first : Value) :
    fillPair p first a = .ok (.object .tuple p) { a with
      stack := a.stack.pop
      heap := { a.heap with
        memory := Memory.storeValue (a.heap.memory.storeValue (slotOffset p.start 0) first)
          (slotOffset p.start 1) (a.top?.getD .nil) } } := by
  have hslots : a.heap.memory.slotsAt p .tuple = 2 := length
  have within := within_storeSlot (slot_inside typed (i := 0) (by omega)) first
  have hzero := onHeap_tupleSet (a := { a with stack := a.stack.pop }) obj (i := 0)
    (by rw [length]; omega) first
  have hone := onHeap_tupleSet (a := { a with
    stack := a.stack.pop
    heap := { a.heap with memory := a.heap.memory.storeValue (slotOffset p.start 0) first } })
    (within.isObject obj) (i := 1) (by rw [lengthAt_storeSlot, length]; omega) (a.top?.getD .nil)
  exact (bind_of_ok hzero).trans (bind_of_ok hone)

/-- The pair of a value and the top of the stack: the actor is what it was without the top, in other
places. -/
theorem ends_pairing (sound : a.Equivalent ρ a) (first : Value) :
    Ends (pairWithTop first) a
      (fun v a₁ => ∃ γ p r, v = .object .tuple p ∧
        Actor.Equivalent γ { a with stack := a.stack.pop } a₁ ∧ (a.top?.getD .nil).Match γ r ∧
        a₁.heap.memory.PairAt p first r)
      fun e a₁ => e.IsOutOfMemory ∧ ∃ γ, Actor.Equivalent γ { a with stack := a.stack.pop } a₁ := by
  have hnew := ends_making (makes_tuple 2) sound
  rw [← bind_assoc, ← alloc, ← newTupleRef] at hnew
  cases run : newTupleRef 2 a with
  | error e b =>
    obtain ⟨hmemory, γ, moved⟩ := hnew.of_error run
    unfold Ends
    rw [pairWithTop_of_error run]
    exact ⟨hmemory, γ, moved.pop⟩
  | ok p b =>
    obtain ⟨γ, a₀, q, m₁, rfl, moved, rfl, new, hroom, hlength, -⟩ := hnew.of_ok run
    obtain ⟨ext, hsize, pair⟩ := fill_pair new hlength first (a₀.top?.getD .nil)
    have hfill := fillPair_eq (a := { a₀ with heap := { a₀.heap with memory := m₁ } }) new.isObject
      new.typed hlength first
    unfold Ends
    rw [pairWithTop_of_ok run, hfill]
    exact ⟨γ, p, _, rfl, moved.pop.extend ext (Nat.le_trans (Nat.le_of_eq hsize) hroom),
      moved.top, pair⟩

/-- The value and the actor with it on top are sound, if the pair could be made. -/
theorem ends_pairing_sound {v : Value} (sound : Actor.Sound { a with stack := a.stack.push v })
    {first : Value} (hfirst : first.ref? = none) :
    Ends (pairWithTop first) { a with stack := a.stack.push v }
      (fun w b => Actor.Sound { b with stack := b.stack.push w }) fun _ b => b.Sound := by
  obtain ⟨ρ, h⟩ := sound
  have htop := together_pairWithTop (B := fun _ => True)
    (.of_equivalent h a.heap.memory : Actor.InStep ⟨a.heap.memory, #[], True⟩ ρ _ _)
    (by show 0 < (a.stack.push v).size; rw [Array.size_push]; omega) hfirst
  refine htop.ends.mono ?_ ?_
  · intro w b hb
    obtain ⟨ρ', hb, hmatch⟩ := hb
    exact ⟨ρ', hb.toEquivalent.push hmatch⟩
  · intro _ b hb
    obtain ⟨ρ', -, hb⟩ := hb
    exact ⟨ρ', hb.toEquivalent⟩

/-- A value on top of the stack is paired, and the pair is put in its place: what is below it is
what it was, in other places. -/
theorem ends_pairing_push {v : Value} (sound : Actor.Sound { a with stack := a.stack.push v })
    {first : Value} (hfirst : first.ref? = none) :
    Ends (pairWithTop first) { a with stack := a.stack.push v }
      (fun w b => ∃ γ p r, w = .object .tuple p ∧ a.Equivalent γ b ∧ v.Match γ r ∧
        b.heap.memory.PairAt p first r ∧ Actor.Sound { b with stack := b.stack.push w })
      fun e b => e.IsOutOfMemory ∧ b.Sound ∧ ∃ γ, a.Equivalent γ b := by
  have hsound := ends_pairing_sound sound hfirst
  obtain ⟨ρ, h⟩ := sound
  have hpop : (a.stack.push v).pop = a.stack := Array.pop_push
  have hpairing := ends_pairing h first
  simp only [hpop, Actor.top?, Array.back?_push, Option.getD_some] at hpairing
  refine (hpairing.and hsound).mono ?_ ?_
  · intro w b hb
    obtain ⟨⟨γ, p, r, hw, hab, hr, pair⟩, hb⟩ := hb
    exact ⟨γ, p, r, hw, hab, hr, pair, hb⟩
  · intro e b hb
    obtain ⟨⟨hmemory, γ, hab⟩, hb⟩ := hb
    exact ⟨hmemory, hb, γ, hab⟩

/-- Protected calls that have calls of their own are not over. -/
theorem settleAll_of_below {points : List CatchPoint}
    (below : ∀ c ∈ points, c.frameDepth < a.frames.size) : settleAll points a = .ok () a := by
  cases points with
  | nil => rfl
  | cons c outer =>
    have hlt := below c List.mem_cons_self
    have hne : ¬(c.frameDepth = a.frames.size ∧ c.stackHeight + 1 = a.stack.size) := by
      omega
    show (if c.frameDepth = a.frames.size ∧ c.stackHeight + 1 = a.stack.size then _
      else _ : ActorM Unit) _ = _
    rw [if_neg hne]
    rfl

/-- Settling the protected calls that are over together, and no others: the result is wrapped once
for each of them. If a pair cannot be made, the result is lost and the others are left. -/
theorem ends_settleGroup {points : List CatchPoint}
    (below : ∀ c ∈ points, c.frameDepth < a.frames.size) {k : Nat} {v : Value}
    (sound : Actor.Sound { a with stack := a.stack.push v })
    (catches : a.catches = List.replicate k ⟨a.frames.size, a.stack.size⟩ ++ points) :
    Ends (settleAll (List.replicate k ⟨a.frames.size, a.stack.size⟩ ++ points))
      { a with stack := a.stack.push v }
      (fun _ b => ∃ γ c w r, b = { c with stack := c.stack.push w } ∧
        Actor.Equivalent γ { a with catches := points } c ∧ v.Match γ r ∧
        c.heap.memory.Wrapped r k w ∧ b.Sound)
      fun e b => e.IsOutOfMemory ∧ b.Sound ∧ ∃ γ, ∃ j < k, Actor.Equivalent γ
        { a with catches := List.replicate j ⟨a.frames.size, a.stack.size⟩ ++ points } b := by
  induction k generalizing a v with
  | zero =>
    rw [List.replicate_zero, List.nil_append] at catches ⊢
    obtain ⟨ρ, h⟩ := id sound
    have hpop := h.pop
    simp only [Array.pop_push] at hpop
    have htop := h.top
    simp only [Actor.top?, Array.back?_push, Option.getD_some] at htop
    unfold Ends
    rw [settleAll_of_below (a := { a with stack := a.stack.push v }) below]
    refine ⟨ρ, a, v, v, rfl, ?_, htop, .none, sound⟩
    rw [← catches]
    exact hpop
  | succ k ih =>
    rw [List.replicate_succ, List.cons_append] at catches ⊢
    generalize houter : List.replicate k ⟨a.frames.size, a.stack.size⟩ ++ points =
      outer at catches ⊢
    refine .bind <| .get <| .ite (fun _ => .bind <| .modify <| .bind ?_) fun hne => ?_
    · have hsound : Actor.Sound { a with stack := a.stack.push v, catches := outer } :=
        sound.imp fun _ h => h.setCatches _
      refine (ends_pairing_push (a := { a with catches := outer }) hsound rfl).mono ?_ ?_
      · intro w b hb
        obtain ⟨γ, p, r, rfl, hab, hr, pair, hb⟩ := hb
        have hframes : b.frames.size = a.frames.size := congrArg Array.size hab.frames.symm
        have hsize : b.stack.size = a.stack.size := hab.size_eq.symm
        have hcatches : b.catches = outer := hab.catches.symm
        have hrest := ih (a := b) (by rw [hframes]; exact below) hb
          (by rw [hcatches, hframes, hsize, houter])
        rw [hframes, hsize, houter] at hrest
        refine .bind <| .modify <| hrest.mono ?_ ?_
        · intro _ d hd
          obtain ⟨γ', c, w, pair', rfl, hbc, hpair, hwrapped, hd⟩ := hd
          -- The pair that has just been made is wrapped in turn.
          cases hpair with
          | inline h => cases h
          | object hpq =>
            obtain ⟨zero, r', hpair, hzero, hr'⟩ := pair.move hbc.iso hpq
            obtain rfl : zero = .integer 0 := hzero.eq_of_inline rfl
            exact ⟨_, c, w, r', rfl, (hab.setCatches points).trans hbc, hr.trans hr',
              hwrapped.around hpair, hd⟩
        · intro e d hd
          obtain ⟨hmemory, hsound, γ', j, hj, hbd⟩ := hd
          exact ⟨hmemory, hsound, _, j, by omega, (hab.setCatches _).trans hbd⟩
      · intro e b hb
        obtain ⟨hmemory, hsound, γ, hab⟩ := hb
        refine ⟨hmemory, hsound, γ, k, Nat.lt_succ_self k, ?_⟩
        rw [houter]
        exact hab
    · exact absurd ⟨rfl, (Array.size_push _).symm⟩ hne

/-- Dropping the protected calls beyond a depth leaves the others. -/
theorem dropWhile_split {inner points : List CatchPoint} {depth : Nat}
    (above : ∀ c ∈ inner, depth < c.frameDepth) (below : ∀ c ∈ points, c.frameDepth ≤ depth) :
    (inner ++ points).dropWhile (fun c => decide (depth < c.frameDepth)) = points := by
  rw [List.dropWhile_append_of_pos fun c hc => decide_eq_true (above c hc)]
  cases points with
  | nil => rfl
  | cons c outer =>
    have hle := below c List.mem_cons_self
    rw [List.dropWhile_cons_of_neg (by simpa using hle)]

/-- Leaving a result where the protected calls that it ends have their outcomes. Those within the
calls that are gone are forgotten. -/
theorem ends_leaveGroup {inner points : List CatchPoint} {height k : Nat} {v : Value}
    (above : ∀ c ∈ inner, a.frames.size < c.frameDepth)
    (below : ∀ c ∈ points, c.frameDepth < a.frames.size) (sound : a.Equivalent ρ a)
    (hv : v.Match ρ v) (hle : height ≤ a.stack.size)
    (catches : a.catches = inner ++ (List.replicate k ⟨a.frames.size, height⟩ ++ points)) :
    Ends (leaveResult height v) a
      (fun _ b => ∃ γ c w r, b = { c with stack := c.stack.push w } ∧
        Actor.Equivalent γ { a with catches := points, stack := a.stack.shrink height } c ∧
        v.Match γ r ∧
        c.heap.memory.Wrapped r k w ∧ b.Sound)
      fun e b => e.IsOutOfMemory ∧ b.Sound ∧ ∃ γ, ∃ j < k, Actor.Equivalent γ
        { a with
          catches := List.replicate j ⟨a.frames.size, height⟩ ++ points
          stack := a.stack.shrink height } b := by
  have hsize : (a.stack.shrink height).size = height := by
    rw [Array.size_shrink]
    omega
  have hkept : a.catches.dropWhile (fun c => decide (a.frames.size < c.frameDepth)) =
      List.replicate k ⟨a.frames.size, height⟩ ++ points := by
    rw [catches]
    refine dropWhile_split above fun c hc => ?_
    rcases List.mem_append.mp hc with hgroup | hpoints
    · rw [List.eq_of_mem_replicate hgroup]
    · exact Nat.le_of_lt (below c hpoints)
  refine .bind <| .modify <| .bind <| .modify <| .bind <| .modify <| .bind <| .get ?_
  have hgroup := ends_settleGroup (a := { a with
    stack := a.stack.shrink height
    catches := List.replicate k ⟨a.frames.size, height⟩ ++ points }) (k := k) below
    ⟨ρ, ((sound.shrink height).push hv).setCatches _⟩ (by simp only [hsize])
  simp only [hsize] at hgroup
  simp only [hkept]
  exact hgroup

/-- A new string of a sound actor. -/
theorem ends_newString (sound : a.Sound) (bytes : ByteArray) :
    Ends (newString bytes) a
      (fun v b => ∃ p, v = .object .string p ∧ b.heap.memory.stringAt p = bytes ∧
        Actor.Sound { b with stack := b.stack.push v })
      fun e b => e.IsOutOfMemory ∧ b.Sound := by
  obtain ⟨ρ, h⟩ := sound
  have hnew := together_newString (B := fun _ => True)
    (.of_equivalent h a.heap.memory : Actor.InStep ⟨a.heap.memory, #[], True⟩ ρ _ _) bytes
  have hmemory := ends_making (makes_string bytes) h
  rw [← bind_assoc, ← alloc, ← newString] at hmemory
  refine (hnew.ends.and hmemory).mono ?_ ?_
  · intro v b hb
    obtain ⟨⟨ρ', p, p', hb, hpp, rfl, heq, hstring⟩, -⟩ := hb
    cases heq
    exact ⟨p, rfl, hstring, ρ', hb.toEquivalent.push (.object hpp)⟩
  · intro e b hb
    obtain ⟨⟨ρ', -, hb⟩, hmemory, -⟩ := hb
    exact ⟨hmemory, ρ', hb.toEquivalent⟩

/-- A report puts the code and the message of the fault on top of the stack, or the heap has no room
for them. -/
theorem ends_reporting (sound : a.Sound) (point : CatchPoint) (fault : Fault) :
    Ends (reportAt point fault) a
      (fun _ b => b.Sound ∧ ∃ v, b.stack.back? = some v ∧ b.heap.memory.Reports fault v)
      fun e b => e.IsOutOfMemory ∧ b.Sound := by
  have hcut : Actor.Sound { a with
      frames := a.frames.shrink point.frameDepth, pendingReceive := none
      stack := a.stack.shrink point.stackHeight } :=
    sound.imp fun _ h => { h.shrink point.stackHeight with frames := rfl, pendingReceive := rfl }
  refine .bind <| .modify <| .bind <| .modify <| .bind <|
    (ends_newString hcut fault.message.toUTF8).mono ?_ fun _ _ h => h
  intro text b hb
  obtain ⟨q, rfl, hstring, hb⟩ := hb
  refine .bind <| .modify <| .bind <| (ends_pairing_push hb rfl).mono ?_ ?_
  · intro w c hc
    obtain ⟨γ, p, r, rfl, hbc, hr, pair, hc⟩ := hc
    cases hr with
    | inline h => cases h
    | @object _ _ t hqt =>
      refine .modify ⟨hc, _, Array.back?_push .., p, t, rfl, pair,
        hbc.iso.right.isObject ⟨q, hqt⟩, ?_⟩
      rw [← (hbc.iso.alike hqt).string rfl]
      exact hstring
  · intro e c hc
    exact ⟨hc.1, hc.2.1⟩

end ActorM

end ActorMachine
