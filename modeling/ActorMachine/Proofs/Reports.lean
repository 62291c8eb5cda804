import ActorMachine.Proofs.Instructions

/-!
# Reports to protected calls of equivalent actors

A fault is reported to the same protected call of two actors that are in step, and they stay in step
(`Actor.recover_inStep`).
-/

namespace ActorMachine

open Memory

variable {g : Origin} {B : Fault → Prop} {ρ : Matching} {a b : Actor}

namespace ActorM

/-- Reporting a fault at a protected call whose outcome lies above the values from the earlier
time. -/
theorem together_reportAt (h : a.InStep g ρ b) (point : CatchPoint) (fault : Fault)
    (low : g.values.size ≤ point.stackHeight) :
    Together (reportAt point fault) (reportAt point fault) a b
      (fun _ a₁ _ b₁ => ∃ ρ', a₁.InStep g.unguarded ρ' b₁) (Actor.FailInStep g.unguarded B) := by
  have hcut := (h.unguarded.setFrames (a.frames.shrink point.frameDepth)
    fun h => h.elim).setPendingReceive none
  have hframes : b.frames.shrink point.frameDepth = a.frames.shrink point.frameDepth := by
    rw [h.frames]
  refine .bind <| .modify ?_
  rw [hframes]
  have htrunc := hcut.shrink low
  refine .bind <| .modify <| .bind <| (together_newString htrunc _).mono ?_ fun _ _ _ _ h => h
  rintro _ a₁ _ b₁ ⟨ρ₁, p, p', h₁, hpp, rfl, rfl, -⟩
  have hle := h₁.relocated.size_le
  have hpushed := h₁.push (.object hpp)
  refine .bind <| .modify <| .bind <| (together_pairWithTop hpushed ?_ rfl).mono ?_
    fun _ _ _ _ h => h
  · rw [Array.size_push]
    omega
  · rintro v a₂ w b₂ ⟨ρ₂, h₂, hmatch⟩
    exact .modify ⟨ρ₂, h₂.push hmatch⟩

end ActorM

namespace Actor

/-- What becomes of a fault of actors in step is the same. -/
theorem recoverAt_inStep (h : a.InStep g ρ b) (fault : Fault) {points : List CatchPoint}
    (low : ∀ c ∈ points, g.values.size ≤ c.stackHeight) :
    (a.recoverAt fault points).1 = (b.recoverAt fault points).1 ∧
      ∃ ρ', (a.recoverAt fault points).2.InStep g.unguarded ρ' (b.recoverAt fault points).2 := by
  induction points generalizing g ρ a b with
  | nil => exact ⟨rfl, _, h.unguarded⟩
  | cons point outer ih =>
    have hreport := ActorM.together_reportAt (B := fun _ => False) (h.setCatches outer) point fault
      (low point List.mem_cons_self)
    unfold recoverAt
    cases hrun : ActorM.reportAt point fault { a with catches := outer } with
    | ok u a₁ =>
      obtain ⟨_, b₁, hrun', ρ', h'⟩ := hreport.of_ok hrun
      rw [hrun']
      exact ⟨rfl, ρ', h'⟩
    | error e a₁ =>
      obtain ⟨_, b₁, hrun', ρ', -, h'⟩ := hreport.of_error hrun
      rw [hrun']
      exact ih (g := g.unguarded) h' fun c hc => low c (List.mem_cons_of_mem _ hc)

theorem recover_inStep (h : a.InStep g ρ b) (fault : Fault)
    (low : ∀ c ∈ a.catches, g.values.size ≤ c.stackHeight) :
    (a.recover fault).1 = (b.recover fault).1 ∧
      ∃ ρ', (a.recover fault).2.InStep g.unguarded ρ' (b.recover fault).2 := by
  unfold recover
  rw [← h.catches]
  exact recoverAt_inStep h fault low

end Actor

end ActorMachine
