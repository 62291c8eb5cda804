import ActorMachine.Proofs.Steps

/-!
# Unwinding

What a report of a fault makes of the outline of an actor. A report gives up the calls within a
protected call and leaves one value where its outcome goes (`ActorM.ends_reportAt`);
`Actor.recover_spec` says which protected call takes it.
-/

namespace ActorMachine

open Outline

variable {l : Loader}

namespace ActorM

/-- Reporting a fault leaves one value, or none if the report cannot be made. -/
theorem ends_reportAt (point : CatchPoint) (fault : Fault) (a : Actor) :
    Ends (reportAt point fault) a
      (fun _ a' => a'.outline = { a.outline with
        frames := a.frames.extract 0 point.frameDepth, pendingReceive := none
        height := min point.stackHeight a.stack.size + 1 })
      (fun _ a' => a'.outline = { a.outline with
        frames := a.frames.extract 0 point.frameDepth, pendingReceive := none
        height := min point.stackHeight a.stack.size }) := by
  refine .bind <| .modify <| .bind <| .modify <| .bind ?_
  have hcut : a.frames.shrink point.frameDepth = a.frames.extract 0 point.frameDepth :=
    Array.shrink_eq_take
  simp only [hcut]
  generalize hb : ({ a with
    frames := a.frames.extract 0 point.frameDepth, pendingReceive := none
    stack := a.stack.shrink point.stackHeight } : Actor) = b
  have hbo : b.outline = { a.outline with
      frames := a.frames.extract 0 point.frameDepth, pendingReceive := none
      height := min point.stackHeight a.stack.size } := by
    rw [← hb]
    simp only [Actor.outline, Array.size_shrink]
  rw [← hbo]
  have hpush : ∀ (v : Value) (c : Actor), c.outline = b.outline →
      Actor.outline { c with stack := c.stack.push v } =
        { b.outline with height := b.stack.size + 1 } := by
    intro v c hc
    rw [← hc, ← show c.stack.size = b.stack.size from congrArg Outline.height hc]
    simp only [Actor.outline, Array.size_push]
  refine ((keeps_newString fault.message.toUTF8).ends b).mono ?_ fun _ _ h => h
  intro text c hc
  refine .bind <| .modify <| .bind <| (ends_pairWithTop _ _).mono ?_ ?_
  · intro pair d hd
    refine .modify ?_
    have hd : d.outline = b.outline := by
      rw [hd, hpush text c hc]
      rfl
    rw [hpush pair d hd]
    rw [show b.stack.size = min point.stackHeight a.stack.size from congrArg Outline.height hbo,
      hbo]
  · intro e d hd
    rw [hd, hpush text c hc]
    rfl

end ActorM

namespace Actor

/-- What is left of an actor when the calls from a protected one on are given up fits together. -/
theorem fits_dropFrames {a : Actor} {point : CatchPoint} {outer : List CatchPoint}
    (fits : Outline.Fits l { a.outline with catches := point :: outer }) {height : Nat}
    (low : min point.stackHeight a.stack.size ≤ height)
    (high : height ≤ min point.stackHeight a.stack.size + 1) :
    Outline.Fits l { a.outline with
      frames := a.frames.extract 0 point.frameDepth, pendingReceive := none, catches := outer
      height } := by
  have habove : ∀ f ∈ a.frames.toList.take point.frameDepth, f.base ≤ height := by
    intro f hf
    have h1 : f.base ≤ point.stackHeight := fits.catches_above point List.mem_cons_self f hf
    have h2 : f.base ≤ a.stack.size := (fits.inside f (List.mem_of_mem_take hf)).2
    omega
  have hroom : point.stackHeight < a.limits.maxStack :=
    fits.catches_height point List.mem_cons_self
  exact (fits.dropFrames (List.suffix_cons point outer)
    (List.pairwise_cons.mp fits.catches_sorted).1 habove
    (by show height ≤ a.limits.maxStack; omega)).setPending _ _

/-- Unwinding keeps everything in range. If it succeeds, some protected call has taken the report,
and the calls within it are gone. -/
theorem recoverAt_spec {points : List CatchPoint} {a a' : Actor} {fault : Fault} {taken : Bool}
    (fits : Outline.Fits l { a.outline with catches := points })
    (run : a.recoverAt fault points = (taken, a')) (hpoints : points = [] → a.catches = []) :
    a'.outline.Fits l ∧ (taken = true → ∃ point outer, point :: outer <:+ points ∧
      a'.catches = outer ∧ a'.frames = a.frames.extract 0 point.frameDepth) := by
  induction points generalizing a with
  | nil =>
    unfold recoverAt at run
    cases run
    refine ⟨?_, fun h => nomatch h⟩
    rw [show a'.outline = { a'.outline with catches := [] } by rw [← hpoints rfl]; rfl]
    exact fits
  | cons point outer ih =>
    have hreport := ActorM.ends_reportAt point fault { a with catches := outer }
    unfold recoverAt at run
    cases hrun : ActorM.reportAt point fault { a with catches := outer } with
    | ok u b =>
      rw [hrun] at run
      cases run
      have hb := hreport.of_ok hrun
      refine ⟨?_, fun _ => ⟨point, outer, List.suffix_refl _, congrArg Outline.catches hb,
        congrArg Outline.frames hb⟩⟩
      rw [hb]
      exact fits_dropFrames fits (Nat.le_succ _) (Nat.le_refl _)
    | error e b =>
      rw [hrun] at run
      have hb := hreport.of_error hrun
      have hcatches : b.catches = outer := congrArg Outline.catches hb
      have hframes : b.frames = a.frames.extract 0 point.frameDepth := congrArg Outline.frames hb
      have hbfits : Outline.Fits l { b.outline with catches := outer } := by
        rw [hb]
        exact fits_dropFrames fits (Nat.le_refl _) (Nat.le_succ _)
      obtain ⟨h, himp⟩ := ih hbfits run fun h => hcatches.trans h
      refine ⟨h, fun htaken => ?_⟩
      obtain ⟨point', outer', hsuffix, hcatches', hframes'⟩ := himp htaken
      refine ⟨point', outer', hsuffix.trans (List.suffix_cons _ _), hcatches', ?_⟩
      have hdepth : point'.frameDepth ≤ point.frameDepth :=
        (List.pairwise_cons.mp fits.catches_sorted).1 point' (hsuffix.mem List.mem_cons_self)
      rw [hframes', hframes, Array.extract_extract]
      congr 1
      omega

/-- A report made at a protected call leaves those outside of it. -/
theorem recover_spec {a a' : Actor} {fault : Fault} {taken : Bool} (fits : a.outline.Fits l)
    (run : a.recover fault = (taken, a')) :
    a'.outline.Fits l ∧ (taken = true → ∃ point outer, point :: outer <:+ a.catches ∧
      a'.catches = outer ∧ a'.frames = a.frames.extract 0 point.frameDepth) :=
  recoverAt_spec fits run id

end Actor

namespace ActorM

/-- The copies of the arguments go on the stack. -/
theorem sound_pushCopies (source : Option Heap) (values : List Value) :
    Sound l Actor.outline (pushCopies source values) := by
  induction values with
  | nil => exact .pure _
  | cons v values ih =>
    unfold pushCopies
    cases source with
    | none => exact .bind (sound_push v) fun _ => ih
    | some source =>
      exact .bind (.of_keeps (keeps_onHeap _)) fun _ => .bind (sound_push _) fun _ => ih

theorem sound_prepareEntry (callee : Value) (args : List Value) (source : Option Heap) :
    Sound l Actor.outline (prepareEntry callee args source) := by
  have hrest : ∀ need, Sound l Actor.outline (do
      reserve need
      pushCopies source args.reverse
      push callee
      modify fun a => { a with entry := some args.length }) := fun need =>
    .bind (.of_keeps (keeps_reserve need)) fun _ => .bind (sound_pushCopies source _) fun _ =>
      .bind (sound_push callee) fun _ a fits =>
        .modify ((fits.setPending _ _).proceeds (.of_eq rfl rfl))
  unfold prepareEntry
  by_cases h : callee.isCallable
  · rw [if_pos h]
    cases measureArgs source args with
    | ok need => exact .bind (.pure need) hrest
    | error e => exact .bind (.throw e) hrest
  · rw [if_neg h]
    exact fun a fits => .bind <| .throw (fits.faults (.of_eq rfl rfl))

end ActorM

end ActorMachine
