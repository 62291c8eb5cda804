import ActorMachine.Proofs.ProtectedCalls

/-!
# The stack below the base of a call

A call finds its arguments and all that its callers hold below its base. It may replace its
arguments, and its return takes them away; whatever else it does, and whatever the calls within it
do, leaves every place below the base alone (`Exec.keepsBelow_advance`). If it replaces one of its
locals, arguments included, the other places stay as they are (`Exec.keepsOthers_advance`). Places
are compared by `Value.Relocated`, as collections move the objects of the values there, and
`Value.mask` takes places out of the comparison.
-/

namespace ActorMachine

open Memory

namespace Value

/-! ## Places that are not compared -/

/-- Values with nil for those at the given indices, which count from a base. -/
def mask (base : Nat) (indices : List Int) (vs : Array Value) : Array Value :=
  vs.mapIdx fun i v => if (i : Int) - base ∈ indices then .nil else v

variable {base : Nat} {indices more : List Int} {vs ws : Array Value} {m m' : Memory}

@[simp] theorem size_mask : (mask base indices vs).size = vs.size := Array.size_mapIdx

theorem getElem?_mask (i : Nat) : (mask base indices vs)[i]? =
    if (i : Int) - base ∈ indices then vs[i]?.map fun _ => .nil else vs[i]? := by
  unfold mask
  rw [Array.getElem?_mapIdx]
  split <;> cases vs[i]? <;> simp_all

@[simp] theorem mask_nil : mask base [] vs = vs := by
  apply Array.ext_getElem?
  intro i
  rw [getElem?_mask, if_neg List.not_mem_nil]

theorem mask_mask : mask base more (mask base indices vs) = mask base (more ++ indices) vs := by
  apply Array.ext_getElem?
  intro i
  simp only [getElem?_mask, List.mem_append]
  by_cases hmore : (i : Int) - base ∈ more <;> by_cases hold : (i : Int) - base ∈ indices <;>
    cases vs[i]? <;> simp [hmore, hold]

theorem mask_extract (n : Nat) :
    mask base indices (vs.extract 0 n) = (mask base indices vs).extract 0 n := by
  apply Array.ext_getElem?
  intro i
  rw [getElem?_mask, Array.getElem?_extract, Array.getElem?_extract, getElem?_mask, size_mask,
    Nat.zero_add]
  by_cases hi : i < min n vs.size - 0
  · simp only [if_pos hi]
  · simp only [if_neg hi, Option.map_none, ite_self]

/-- What has been relocated still has if fewer places are compared. -/
theorem Relocated.mask (h : Relocated m m' vs ws) (base : Nat) (indices : List Int) :
    Relocated m m' (mask base indices vs) (mask base indices ws) := by
  have unmasked : ∀ {xs : Array Value} {i : Nat} {v : Value}, (i : Int) - base ∉ indices →
      (Value.mask base indices xs)[i]? = some v → xs[i]? = some v := by
    intro xs i v hi hv
    rwa [getElem?_mask, if_neg hi] at hv
  have masked : ∀ {xs : Array Value} {i : Nat} {v : Value}, (i : Int) - base ∈ indices →
      (Value.mask base indices xs)[i]? = some v → v = .nil := by
    intro xs i v hi hv
    rw [getElem?_mask, if_pos hi] at hv
    obtain ⟨_, _, rfl⟩ := Option.map_eq_some_iff.mp hv
    rfl
  have compared : ∀ {s r t}, between (Value.mask base indices vs)
    (Value.mask base indices ws) s r t →
      between vs ws s r t := by
    rintro s r t ⟨i, hv, hw⟩
    by_cases hi : (i : Int) - base ∈ indices
    · cases masked hi hv
    · exact ⟨i, unmasked hi hv, unmasked hi hw⟩
  refine ⟨?_, fun i v w hv hw => ?_, fun hb hb' => h.unique (compared hb) (compared hb'),
    fun hb => h.sizeAt (compared hb), fun hb => h.stringAt (compared hb)⟩
  · rw [size_mask, size_mask]
    exact h.size_le
  · by_cases hi : (i : Int) - base ∈ indices
    · rw [masked hi hv, masked hi hw]
      exact .inline rfl
    · have hmatch := h.get i v w (unmasked hi hv) (unmasked hi hw)
      cases hmatch with
      | inline h => exact .inline h
      | object _ => exact .object ⟨i, hv, hw⟩

end Value

/-! ## What an actor keeps -/

namespace Actor

/-- The values below a height are those that there have been, wherever collections have moved their
objects. -/
def KeepsBelow (height : Nat) (a b : Actor) : Prop :=
  Value.Relocated a.heap.memory b.heap.memory (a.stack.extract 0 height) b.stack

/-- An actor as the earlier time, with the values below a height. -/
def below (height : Nat) (guarded : Prop) (a : Actor) : Origin :=
  ⟨a.heap.memory, a.stack.extract 0 height, guarded⟩

/-- The innermost call executes next an instruction that replaces the local at an index. -/
def Replaces (l : Loader) (a : Actor) (index : Int) : Prop :=
  ∃ frame p instruction, a.frames.back? = some frame ∧ l.prototype frame.func = .ok p ∧
    p.code[frame.ip]? = some instruction ∧ instruction.opcode? = some .slv ∧
    instruction.payload = index

variable {a b : Actor} {height : Nat}

theorem size_below_le (height : Nat) (guarded : Prop) (a : Actor) :
    (a.below height guarded).values.size ≤ height := by
  show (a.stack.extract 0 height).size ≤ height
  rw [Array.size_extract]
  omega

theorem KeepsBelow.refl (a : Actor) (height : Nat) : a.KeepsBelow height a := by
  refine (Value.Relocated.refl _ _).congr ?_ fun i hi => ?_
  · rw [Array.size_extract]
    omega
  · rw [Array.size_extract] at hi
    rw [Array.getElem?_extract, if_pos (by omega), Nat.zero_add]

/-- A sound actor is in step with itself since now. -/
theorem Sound.inStep_below (sound : a.Sound) (height : Nat) (guarded : Prop)
    (guard : guarded → (a.below height guarded).values.size ≤ a.basePointer - a.argCount) :
    ∃ ρ, a.InStep (a.below height guarded) ρ a := by
  obtain ⟨ρ, h⟩ := sound
  exact ⟨ρ, h, KeepsBelow.refl a height, guard⟩

end Actor

/-! ## Steps -/

namespace Exec

variable {κ : Type} [Kernel κ] {l : Loader}

section

variable {g : Origin} {K : κ → κ → Prop} {B : Fault → Prop} {ρ : Matching} {s t : Session κ}
  (respects : Kernel.Respects K B)

include respects

/-- Actors in step execute the same instruction, and if the innermost call neither returns nor
replaces a local, nothing below its base changes. -/
theorem together_step_above (inline : l.Inline) (hst : Session.InStep g K ρ s t)
    (low : g.values.size ≤ s.actor.basePointer) (stays : ¬s.actor.AtReturn l)
    (keeps : ∀ index, ¬s.actor.Replaces l index) :
    Together (step l) (step l) s t (Session.ReturnInStep g.unguarded K)
      (Session.FailInStep g.unguarded K B) := by
  refine together_step_of hst ?_ ?_
  · intro frame p back prototype code
    exact absurd ⟨frame, p, back, prototype, .inl code⟩ stays
  · intro frame p instruction op s' t' back prototype code opcode hst' hbase
    refine together_unguarded (together_execute_above respects inline hst' ?_ prototype ?_ ?_ _)
    · rw [hbase]
      exact low
    · rintro rfl
      exact stays ⟨frame, p, back, prototype, .inr ⟨instruction, code, opcode⟩⟩
    · rintro rfl
      exact keeps _ ⟨frame, p, instruction, back, prototype, code, opcode, rfl⟩

/-- The same of what actors do next. -/
theorem together_advance_above (inline : l.Inline) (hst : Session.InStep g K ρ s t)
    (low : g.values.size ≤ s.actor.basePointer)
    (stays : s.actor.Steps → ¬s.actor.AtReturn l ∧ ∀ index, ¬s.actor.Replaces l index) :
    Together (advance l) (advance l) s t (Session.ReturnInStep g.unguarded K)
      (Session.FailInStep g.unguarded K B) := by
  refine together_advance_of respects hst low ?_
  intro s' t' entry pending hst' hframes
  obtain ⟨hreturn, hkeeps⟩ := stays ⟨entry, pending⟩
  -- Whether a call is at a return or replaces a local is a matter of its frame alone.
  refine together_step_above respects inline hst' ?_ ?_ ?_
  · unfold Actor.basePointer at low ⊢
    rw [hframes]
    exact low
  · unfold Actor.AtReturn at hreturn ⊢
    rw [hframes]
    exact hreturn
  · unfold Actor.Replaces at hkeeps ⊢
    rw [hframes]
    exact hkeeps

end

/-- An actor that holds values from an earlier time below the base of its innermost call holds them
when it has done what it does next, unless that call returns or replaces a local. -/
theorem inStep_advance_above {g : Origin} {ρ : Matching} {s : Session κ} (inline : l.Inline)
    (h : s.actor.InStep g ρ s.actor) (low : g.values.size ≤ s.actor.basePointer)
    (stays : s.actor.Steps → ¬s.actor.AtReturn l ∧ ∀ index, ¬s.actor.Replaces l index) :
    Ends (advance l) s (fun _ s' => ∃ ρ', s'.actor.InStep g.unguarded ρ' s'.actor)
      fun _ s' => ∃ ρ', s'.actor.InStep g.unguarded ρ' s'.actor := by
  refine echoed_advance.ends (fun _ a => ∃ ρ', a.InStep g.unguarded ρ' a)
    (fun _ a => ∃ ρ', a.InStep g.unguarded ρ' a) fun e => ?_
  have hrun := together_advance_above Echo.respects inline (s := ⟨s.actor, e⟩) (t := ⟨s.actor, e⟩)
    ⟨h, rfl⟩ low stays
  refine hrun.ends.mono ?_ ?_
  · intro _ t ht
    obtain ⟨-, ρ', ht⟩ := ht
    exact ⟨ρ', ht.actor⟩
  · intro _ t ht
    obtain ⟨ρ', -, ht⟩ := ht
    exact ⟨ρ', ht.actor⟩

variable {x : Session κ} {depth : Nat} {f : Frame}

/-- Whatever a call and the calls within it do leaves the places below its base alone, unless it
returns or replaces a local. -/
theorem keepsBelow_advance (inline : l.Inline) (fits : x.actor.outline.Fits l)
    (sound : x.actor.Sound) (callee : x.actor.frames[depth]? = some f)
    (stays : x.actor.frames.size = depth + 1 → x.actor.Steps →
      ¬x.actor.AtReturn l ∧ ∀ index, ¬x.actor.Replaces l index) :
    Ends (advance l) x (fun _ u => x.actor.KeepsBelow f.base u.actor)
      fun _ t => x.actor.KeepsBelow f.base t.actor := by
  have hlt : depth < x.actor.frames.size := (Array.getElem?_eq_some_iff.mp callee).1
  obtain ⟨frame, back⟩ : ∃ frame, x.actor.frames.back? = some frame := by
    rw [Array.back?_eq_getElem?]
    exact ⟨_, Array.getElem?_eq_getElem (by omega)⟩
  have hframe : x.actor.basePointer = frame.base ∧ x.actor.argCount = frame.argCount := by
    unfold Actor.basePointer Actor.argCount
    rw [back]
    exact ⟨rfl, rfl⟩
  by_cases innermost : x.actor.frames.size = depth + 1
  · -- The call itself goes on.
    obtain ⟨ρ, h⟩ := sound.inStep_below f.base False fun h => h.elim
    have hsame : frame = f := by
      rw [Array.back?_eq_getElem?, innermost, Nat.add_sub_cancel, callee] at back
      exact (Option.some.inj back).symm
    have low : (x.actor.below f.base False).values.size ≤ x.actor.basePointer := by
      rw [hframe.1, hsame]
      exact Actor.size_below_le _ _ _
    refine (inStep_advance_above inline h low (stays innermost)).mono ?_ ?_
    · exact fun _ u ⟨_, hu⟩ => hu.relocated
    · exact fun _ t ⟨_, ht⟩ => ht.relocated
  · -- A call within it goes on, whose arguments lie above the base.
    have habove : f.base ≤ frame.base - frame.argCount := by
      have hnested : x.actor.frames.toList.Pairwise _ := fits.nested
      have hsplit := toList_of_back? back
      rw [hsplit, List.pairwise_append] at hnested
      have hmem : f ∈ x.actor.frames.pop.toList := by
        rw [← Array.getElem?_toList, hsplit, List.getElem?_append_left] at callee
        · exact List.mem_of_getElem? callee
        · rw [Array.length_toList, Array.size_pop]
          omega
      have := hnested.2.2 f hmem frame (List.mem_singleton.mpr rfl)
      omega
    obtain ⟨ρ, h⟩ := sound.inStep_below f.base True fun _ => by
      rw [hframe.1, hframe.2]
      exact Nat.le_trans (Actor.size_below_le _ _ _) habove
    refine (inStep_advance inline h trivial).mono ?_ ?_
    · exact fun _ u ⟨_, hu⟩ => hu.relocated
    · exact fun _ t ⟨_, ht⟩ => ht.relocated

/-- A call that replaces a local changes no other place below its base. -/
theorem keepsOthers_advance {index : Int} (steps : x.actor.Steps)
    (replaces : x.actor.Replaces l index) :
    Ends (advance l) x
      (fun _ u => u.actor.heap = x.actor.heap ∧ x.actor.basePointer ≤ u.actor.stack.size ∧
        ∀ i < x.actor.basePointer, (i : Int) - x.actor.basePointer ≠ index →
          u.actor.stack[i]? = x.actor.stack[i]?)
      fun _ t => t.actor.heap = x.actor.heap ∧
        ∀ i < x.actor.basePointer, t.actor.stack[i]? = x.actor.stack[i]? := by
  obtain ⟨frame, p, instruction, back, prototype, code, opcode, rfl⟩ := replaces
  have hip := modify_last back fun frame : Frame => { frame with ip := frame.ip + 1 }
  let a : Actor :=
    { x.actor with frames := x.actor.frames.pop.push { frame with ip := frame.ip + 1 } }
  have hbase : a.basePointer = x.actor.basePointer := by
    have hlast : a.frames.back? = some { frame with ip := frame.ip + 1 } := Array.back?_push
    unfold Actor.basePointer
    rw [hlast, back]
  have hadvance : advance l x = (do
      let v ← onActor ActorM.pop
      onActor (ActorM.storeLocal instruction.payload v)
      return Signal.proceed : Exec κ Signal) ⟨a, x.kernel⟩ := by
    rw [advance_of_steps steps, step_of_opcode back prototype code opcode, hip]
    rfl
  unfold Ends
  rw [hadvance]
  refine Ends.bind <| ends_onActor <| (ActorM.ends_pop a).mono ?_ ?_
  · intro v a₁ h
    obtain ⟨hlow, -, rfl⟩ := h
    have hpopped : ∀ i < x.actor.basePointer, a.stack.pop[i]? = x.actor.stack[i]? := by
      intro i hi
      rw [Array.getElem?_pop, if_pos (by omega)]
    refine .bind <| ends_onActor <| .bind <| .get ?_
    cases hposition : Actor.localPosition? { a with stack := a.stack.pop } instruction.payload with
    | none => exact .throw ⟨rfl, hpopped⟩
    | some position =>
      -- The place of the local differs from the others, as its index does.
      have hplace : (position : Int) = x.actor.basePointer + instruction.payload := by
        rw [← hbase]
        unfold Actor.localPosition? at hposition
        simp only [Option.ite_none_right_eq_some, Option.some.injEq] at hposition
        have hsame : Actor.basePointer { a with stack := a.stack.pop } = a.basePointer := rfl
        omega
      refine .modify <| .pure ⟨rfl, ?_, ?_⟩
      · show _ ≤ (a.stack.pop.setIfInBounds position v).size
        rw [Array.size_setIfInBounds, Array.size_pop, ← hbase]
        omega
      · intro i hi hne
        show (a.stack.pop.setIfInBounds position v)[i]? = _
        rw [Array.getElem?_setIfInBounds_ne (by omega), hpopped i hi]
  · intro e t h
    rw [h.2]
    exact ⟨rfl, fun _ _ => rfl⟩

end Exec

end ActorMachine
