import ActorMachine.Proofs.Fits

/-!
# Execution keeps calls, protected calls and stack together

What an operation of the machine makes of the outline of its actor. A success keeps `Outline.Fits`,
and so does a fault (`Sound`); a success also keeps protected calls aligned and anchored, while a
fault may leave protected calls without a call of their own, all of them at one height. The lemmas
follow the operations: the stack, returns, calls (`Exec.ends_invoke`), instructions
(`Exec.sound_execute`), and `Exec.sound_advance` puts them together.
-/

namespace ActorMachine

/-- Where the numbers of a list do not grow, what is left after dropping those above a bound is
within the bound. -/
theorem forall_mem_dropWhile {points : List CatchPoint} {depth : Nat}
    (hsorted : points.Pairwise fun inner outer => outer.frameDepth ≤ inner.frameDepth) :
    ∀ c ∈ points.dropWhile (fun c => decide (depth < c.frameDepth)), c.frameDepth ≤ depth := by
  induction points with
  | nil => intro c hc; exact absurd hc (List.not_mem_nil)
  | cons point outer ih =>
    intro c hc
    obtain ⟨hhead, htail⟩ := List.pairwise_cons.mp hsorted
    rw [List.dropWhile_cons] at hc
    split at hc
    · exact ih htail c hc
    · rename_i hpoint
      have hpoint : point.frameDepth ≤ depth := by simpa using hpoint
      rcases List.mem_cons.mp hc with rfl | hc
      · exact hpoint
      · exact Nat.le_trans (hhead c hc) hpoint

namespace Outline

/-- What a success makes of an outline. -/
def Proceeds (l : Loader) (o o' : Outline) : Prop :=
  o'.Fits l ∧ (o.Aligned → o.Anchored → o'.Aligned ∧ o'.Anchored)

/-- What a fault makes of an outline. -/
def Faults (l : Loader) (o o' : Outline) : Prop :=
  o'.Fits l ∧ (o.Aligned → o.Anchored → o'.Aligned)

/-- The same calls, up to where they are in their code, and the same protected calls. -/
def SameCalls (o o' : Outline) : Prop :=
  o'.catches = o.catches ∧ o'.frames.size = o.frames.size ∧
    ∀ (i : Nat) (f : Frame), o'.frames[i]? = some f →
      ∃ g, o.frames[i]? = some g ∧ g.base = f.base ∧ g.argCount = f.argCount

variable {l : Loader} {o o' o'' : Outline}

theorem SameCalls.of_eq (hcatches : o'.catches = o.catches) (hframes : o'.frames = o.frames) :
    o.SameCalls o' := by
  refine ⟨hcatches, by rw [hframes], ?_⟩
  intro i f hf
  rw [hframes] at hf
  exact ⟨f, hf, rfl, rfl⟩

theorem SameCalls.aligned (h : o.SameCalls o') (ha : o.Aligned) : o'.Aligned := by
  intro c hc f hf
  rw [h.1] at hc
  obtain ⟨g, hg, hbase, hargs⟩ := h.2.2 _ f hf
  rw [← hbase, ← hargs]
  exact ha c hc g hg

theorem SameCalls.anchored (h : o.SameCalls o') (ha : o.Anchored) : o'.Anchored := by
  intro c hc
  rw [h.1] at hc
  rw [h.2.1]
  exact ha c hc

theorem Fits.proceeds (h : o'.Fits l) (same : o.SameCalls o') : o.Proceeds l o' :=
  ⟨h, fun aligned anchored => ⟨same.aligned aligned, same.anchored anchored⟩⟩

theorem Fits.faults (h : o'.Fits l) (same : o.SameCalls o') : o.Faults l o' :=
  ⟨h, fun aligned _ => same.aligned aligned⟩

theorem Proceeds.faults (h : o.Proceeds l o') : o.Faults l o' :=
  ⟨h.1, fun aligned anchored => (h.2 aligned anchored).1⟩

theorem Proceeds.trans (h : o.Proceeds l o') (h' : o'.Proceeds l o'') : o.Proceeds l o'' := by
  refine ⟨h'.1, fun aligned anchored => ?_⟩
  obtain ⟨aligned', anchored'⟩ := h.2 aligned anchored
  exact h'.2 aligned' anchored'

theorem Proceeds.trans_faults (h : o.Proceeds l o') (h' : o'.Faults l o'') : o.Faults l o'' := by
  refine ⟨h'.1, fun aligned anchored => ?_⟩
  obtain ⟨aligned', anchored'⟩ := h.2 aligned anchored
  exact h'.2 aligned' anchored'

/-- What a call makes of an outline when it succeeds: the protected calls of which it is the call,
which have their outcomes at the height, are anchored. -/
def Anchors (l : Loader) (height : Nat) (o o' : Outline) : Prop :=
  o'.Fits l ∧ (o.Aligned → o.Level height → o'.Aligned ∧ o'.Anchored)

/-- What a call makes of an outline when it fails. -/
def Aligns (l : Loader) (o o' : Outline) : Prop :=
  o'.Fits l ∧ (o.Aligned → o'.Aligned)

theorem Fits.aligns (h : o.Fits l) : o.Aligns l o := ⟨h, id⟩

/-- A call of a function anchors the protected calls that have their outcomes where its arguments
begin. -/
theorem Fits.anchors_pushFrame (h : o.Fits l) {func : FuncRef} {argCount : Nat}
    {p : LinkedPrototype} (hp : l.prototype func = .ok p) (args : o.floor + argCount ≤ o.height)
    (room : o.height < o.limits.maxStack) (more : o.frames.size < o.limits.maxFrames) :
    o.Anchors l (o.height - argCount)
      { o with frames := o.frames.push ⟨func, 0, o.height, argCount⟩ } := by
  refine ⟨h.pushFrame hp args room more, fun aligned level => ⟨fun c hc f hf => ?_, fun c hc => ?_⟩⟩
  · have hf : (o.frames.push ⟨func, 0, o.height, argCount⟩)[c.frameDepth]? = some f := hf
    rw [Array.getElem?_push] at hf
    split at hf
    · rename_i hdepth
      cases hf
      have := level c hc hdepth
      show c.stackHeight + argCount = o.height
      omega
    · exact aligned c hc f hf
  · have := h.catches_depth c hc
    show c.frameDepth < (o.frames.push _).size
    rw [Array.size_push]
    omega

/-- Taking the innermost call to another place of its code leaves the calls the same. -/
theorem sameCalls_setIp {frame : Frame} (back : o.frames.back? = some frame) (ip : Nat) :
    o.SameCalls { o with frames := o.frames.pop.push { frame with ip } } := by
  refine ⟨rfl, size_pop_push back _, ?_⟩
  intro i f hf
  have hsplit := toList_of_back? back
  rw [← Array.getElem?_toList, Array.toList_push] at hf
  rw [← Array.getElem?_toList, hsplit]
  by_cases hi : i < o.frames.pop.toList.length
  · rw [List.getElem?_append_left hi] at hf ⊢
    exact ⟨f, hf, rfl, rfl⟩
  · rw [List.getElem?_append_right (by omega)] at hf ⊢
    rw [List.getElem?_singleton] at hf ⊢
    split at hf
    · cases hf
      rw [if_pos (by assumption)]
      exact ⟨frame, rfl, rfl, rfl⟩
    · cases hf

end Outline

open Outline

/-- The operation keeps calls, protected calls and stack together. -/
def Sound (l : Loader) (view : σ → Outline) (m : EStateM ε σ α) : Prop :=
  ∀ s, (view s).Fits l → Ends m s (fun _ s' => (view s).Proceeds l (view s'))
    (fun _ s' => (view s).Faults l (view s'))

namespace Sound

variable {ε σ α β : Type} {l : Loader} {view : σ → Outline} {m : EStateM ε σ α}

theorem of_keeps (h : Keeps view m) : Sound l view m := by
  intro s fits
  refine (h.ends s).mono (fun _ s' heq => ?_) fun _ s' heq => ?_
  · rw [heq]
    exact fits.proceeds (.of_eq rfl rfl)
  · rw [heq]
    exact fits.faults (.of_eq rfl rfl)

theorem pure (a : α) : Sound l view (pure a : EStateM ε σ α) := of_keeps (.pure a)

theorem throw (e : ε) : Sound l view (throw e : EStateM ε σ α) := of_keeps (.throw e)

theorem bind {f : α → EStateM ε σ β} (first : Sound l view m) (rest : ∀ a, Sound l view (f a)) :
    Sound l view (m >>= f) := by
  intro s fits
  apply Ends.bind
  refine (first s fits).mono (fun a s' h => ?_) fun _ _ h => h
  exact (rest a s' h.1).mono (fun _ _ h' => h.trans h') fun _ _ h' => h.trans_faults h'

theorem ite {p : Prop} [Decidable p] {n : EStateM ε σ α} (pos : p → Sound l view m)
    (neg : ¬p → Sound l view n) : Sound l view (if p then m else n) := by
  split
  · exact pos ‹_›
  · exact neg ‹_›

theorem onActor {κ : Type} {m : ActorM α} (h : Sound l Actor.outline m) :
    Sound l (fun s : Session κ => s.actor.outline) (Exec.onActor m) :=
  fun s fits => Exec.ends_onActor (h s.actor fits)

end Sound

namespace ActorM

variable {l : Loader}

theorem ends_push (v : Value) (a : Actor) :
    Ends (push v) a
      (fun _ a' => a.stack.size < a.limits.maxStack ∧ a' = { a with stack := a.stack.push v })
      (fun e a' => e = .stackOverflow ∧ a' = a ∧ a.limits.maxStack ≤ a.stack.size) :=
  .bind <| .get <| .ite (fun h => .throw ⟨rfl, rfl, h⟩) fun h => .modify ⟨by omega, rfl⟩

theorem ends_pop (a : Actor) :
    Ends pop a
      (fun v a' => a.basePointer < a.stack.size ∧ a.stack.back? = some v ∧
        a' = { a with stack := a.stack.pop })
      (fun e a' => e = .stackUnderflow ∧ a' = a) := by
  refine .bind <| .get <| .ite (fun _ => .throw ⟨rfl, rfl⟩) fun h => ?_
  unfold Actor.top?
  split
  · exact .throw ⟨rfl, rfl⟩
  · rename_i v hv
    exact .bind <| .modify <| .pure ⟨by omega, hv, rfl⟩

theorem ends_popMany (count : Nat) (a : Actor) :
    Ends (popMany count) a
      (fun _ a' => count ≤ a.stack.size - a.basePointer ∧
        a' = { a with stack := a.stack.shrink (a.stack.size - count) })
      (fun e a' => e = .stackUnderflow ∧ a' = a) :=
  .bind <| .get <| .ite (fun _ => .throw ⟨rfl, rfl⟩) fun h => .modify ⟨by omega, rfl⟩

theorem ends_pushFrame (f : FuncRef) (argCount : Nat) (a : Actor) :
    Ends (pushFrame f argCount) a
      (fun _ a' => a.frames.size < a.limits.maxFrames ∧
        a' = { a with frames := a.frames.push ⟨f, 0, a.stack.size, argCount⟩ })
      (fun e a' => e = .stackOverflow ∧ a' = a) :=
  .bind <| .get <| .ite (fun _ => .throw ⟨rfl, rfl⟩) fun h => .modify ⟨by omega, rfl⟩

theorem sound_push (v : Value) : Sound l Actor.outline (push v) := by
  intro a fits
  refine (ends_push v a).mono ?_ ?_
  · rintro _ a' ⟨room, rfl⟩
    have hlow := fits.floor_le_height
    have h := fits.setHeight _ (Nat.le_succ_of_le hlow) (show a.outline.height + 1 ≤ _ from room)
    have ho : Actor.outline { a with stack := a.stack.push v } =
        { a.outline with height := a.outline.height + 1 } := by
      simp only [Actor.outline, Array.size_push]
    rw [ho]
    exact h.proceeds (.of_eq rfl rfl)
  · rintro _ a' ⟨-, rfl, -⟩
    exact fits.faults (.of_eq rfl rfl)

theorem outline_pop (a : Actor) :
    Actor.outline { a with stack := a.stack.pop } =
      { a.outline with height := a.outline.height - 1 } := by
  simp only [Actor.outline, Array.size_pop]

theorem fits_pop {a : Actor} (fits : a.outline.Fits l) (h : a.basePointer < a.stack.size) :
    (Actor.outline { a with stack := a.stack.pop }).Fits l := by
  rw [outline_pop]
  have hfloor : a.outline.floor < a.outline.height := h
  have := fits.height_le
  exact fits.setHeight _ (by omega) (by omega)

/-- Taking the callee of a call from the stack makes room for the result. -/
theorem ends_popCallee {a : Actor} (fits : a.outline.Fits l) :
    Ends pop a
      (fun _ a' => a'.outline = { a.outline with height := a.stack.size - 1 } ∧
        a'.outline.Fits l ∧ a'.stack.size < a'.limits.maxStack)
      (fun _ a' => a' = a) := by
  refine (ends_pop a).mono ?_ fun _ _ h => h.2
  rintro callee a' ⟨hlow, -, ha⟩
  have hout : a'.outline = { a.outline with height := a.stack.size - 1 } := by
    rw [ha, outline_pop]
    rfl
  have hfits : a'.outline.Fits l := by
    rw [ha]
    exact fits_pop fits hlow
  refine ⟨hout, hfits, ?_⟩
  have hsize : a'.stack.size = a.stack.size - 1 := congrArg Outline.height hout
  have hmax : a.stack.size ≤ a.limits.maxStack := fits.height_le
  have hlimits : a'.limits = a.limits := congrArg Outline.limits hout
  rw [hsize, hlimits]
  omega

theorem sound_pop : Sound l Actor.outline pop := by
  intro a fits
  refine (ends_pop a).mono ?_ ?_
  · rintro v a' ⟨low, -, rfl⟩
    exact (fits_pop fits low).proceeds (.of_eq rfl rfl)
  · rintro _ a' ⟨-, rfl⟩
    exact fits.faults (.of_eq rfl rfl)

theorem outline_shrink (a : Actor) (height : Nat) :
    Actor.outline { a with stack := a.stack.shrink height } =
      { a.outline with height := min height a.outline.height } := by
  simp only [Actor.outline, Array.size_shrink]

theorem sound_popMany (count : Nat) : Sound l Actor.outline (popMany count) := by
  intro a fits
  refine (ends_popMany count a).mono ?_ ?_
  · rintro v a' ⟨low, rfl⟩
    have hfloor := fits.floor_le_height
    have hmax := fits.height_le
    have hcount : count ≤ a.outline.height - a.outline.floor := low
    rw [outline_shrink]
    exact (fits.setHeight (min (a.outline.height - count) a.outline.height) (by omega)
      (by omega)).proceeds (.of_eq rfl rfl)
  · rintro _ a' ⟨-, rfl⟩
    exact fits.faults (.of_eq rfl rfl)

theorem keeps_storeLocal (index : Int) (v : Value) : Keeps Actor.outline (storeLocal index v) := by
  refine .bind .get fun a => ?_
  split
  · refine .modify fun a => ?_
    simp only [Actor.outline, Array.size_setIfInBounds]
  · exact .throw _

theorem keeps_constantValue (c : Constant) : Keeps Actor.outline (Exec.constantValue c) := by
  cases c with
  | integer n => exact .pure _
  | real x => exact .pure _
  | text s => exact keeps_newString _

theorem keeps_timeoutOf (v : Value) : Keeps Actor.outline (timeoutOf v) := by
  cases v with
  | integer n => exact .pure n.toInt
  | nil => exact Keeps.pure (-1 : Int)
  | _ => exact .throw _

/-- A jump goes somewhere in the code of the innermost call, its end included. -/
theorem sound_jump {func : FuncRef} {p : LinkedPrototype} (hp : l.prototype func = .ok p)
    (displacement : Int) {a : Actor} (fits : a.outline.Fits l)
    (hfunc : ∀ frame, a.frames.back? = some frame → frame.func = func) :
    Ends (jump p.code.size displacement) a (fun _ a' => a.outline.Proceeds l a'.outline)
      (fun _ a' => a.outline.Faults l a'.outline) := by
  refine .bind <| .get ?_
  split
  · exact .throw (fits.faults (.of_eq rfl rfl))
  · rename_i frame hback
    refine .ite (fun _ => .throw (fits.faults (.of_eq rfl rfl))) fun hrange => .modify ?_
    have heq := modify_last hback fun frame' : Frame =>
      { frame' with ip := ((frame.ip : Int) + displacement).toNat }
    have hip : ((frame.ip : Int) + displacement).toNat ≤ p.code.size := by omega
    have h := fits.setIp hback (hfunc frame hback ▸ hp) hip
    unfold Actor.outline at h ⊢
    simp only [heq]
    exact h.proceeds (sameCalls_setIp hback _)

/-- Peeking moves the cursor past a message that is there. -/
theorem sound_peekMessage : Sound l Actor.outline peekMessage := by
  intro a fits
  refine .bind <| .get ?_
  split
  · exact .pure (fits.proceeds (.of_eq rfl rfl))
  · rename_i v mailbox hpeek
    refine .bind <| .modify <| .pure ?_
    unfold Mailbox.peek? at hpeek
    simp only [Option.map_eq_some_iff, Prod.mk.injEq] at hpeek
    obtain ⟨w, hw, -, rfl⟩ := hpeek
    have hlt : a.mailbox.cursor < a.mailbox.messages.size := (Array.getElem?_eq_some_iff.mp hw).1
    exact (fits.setMailbox a.mailbox.messages.size hlt fits.messages_le).proceeds
      (.of_eq rfl rfl)

theorem sound_removeMessage : Sound l Actor.outline removeMessage := by
  intro a fits
  refine .bind <| .get ?_
  split
  · exact .throw (fits.faults (.of_eq rfl rfl))
  · rename_i v mailbox hremove
    refine .modify ?_
    have hmax := fits.messages_le
    unfold Mailbox.removePeeked? at hremove
    split at hremove
    · cases hremove
    · rename_i last _
      simp only [Option.map_eq_some_iff, Prod.mk.injEq] at hremove
      obtain ⟨w, hw, -, rfl⟩ := hremove
      have hsize : (a.mailbox.messages.eraseIdxIfInBounds last).size ≤ a.mailbox.messages.size := by
        unfold Array.eraseIdxIfInBounds
        split
        · rw [Array.size_eraseIdx]
          omega
        · exact Nat.le_refl _
      exact (fits.setMailbox _ (Nat.zero_le _) (Nat.le_trans hsize hmax)).proceeds (.of_eq rfl rfl)

theorem sound_rewindMailbox : Sound l Actor.outline rewindMailbox := by
  intro a fits
  exact .modify ((fits.setMailbox _ (Nat.zero_le _) fits.messages_le).proceeds (.of_eq rfl rfl))

/-! ## Returns -/

/-- The pair takes the place of the top of the stack, which is gone even without a pair. -/
theorem ends_pairWithTop (first : Value) (a : Actor) :
    Ends (pairWithTop first) a
      (fun _ a' => a'.outline = { a.outline with height := a.outline.height - 1 })
      (fun _ a' => a'.outline = { a.outline with height := a.outline.height - 1 }) := by
  have hnew := (keeps_newTupleRef 2).ends a
  have hpop : ∀ b : Actor, b.outline = a.outline →
      Ends popRaw b (fun _ b' => b'.outline = { a.outline with height := a.outline.height - 1 })
        (fun _ b' => b'.outline = { a.outline with height := a.outline.height - 1 }) := by
    intro b hb
    refine .bind <| .get <| .bind <| .modify <| .pure ?_
    rw [outline_pop, hb]
  cases h : newTupleRef 2 a with
  | error e b =>
    have hb := hnew.of_error h
    have run : Ends (popRaw >>= fun _ => throw e : ActorM Value) b
        (fun _ a' => a'.outline = { a.outline with height := a.outline.height - 1 })
        (fun _ a' => a'.outline = { a.outline with height := a.outline.height - 1 }) :=
      .bind <| (hpop b hb).mono (fun _ _ hb => .throw hb) fun _ _ hb => hb
    unfold Ends pairWithTop
    rw [h]
    exact run
  | ok r b =>
    have hb := hnew.of_ok h
    have hset : ∀ second, Keeps Actor.outline (do
        onHeap (HeapM.tupleSet r 0 first)
        onHeap (HeapM.tupleSet r 1 second)
        return Value.object .tuple r : ActorM Value) := fun second =>
      .bind (keeps_onHeap _) fun _ => .bind (keeps_onHeap _) fun _ => .pure _
    have run : Ends (do
        let second ← popRaw
        onHeap (HeapM.tupleSet r 0 first)
        onHeap (HeapM.tupleSet r 1 second)
        return .object .tuple r : ActorM Value) b
        (fun _ a' => a'.outline = { a.outline with height := a.outline.height - 1 })
        (fun _ a' => a'.outline = { a.outline with height := a.outline.height - 1 }) :=
      .bind <| (hpop b hb).mono (fun second b' hb' => ((hset second).ends b').mono
        (fun _ _ h => h.trans hb') fun _ _ h => h.trans hb') fun _ _ hb => hb
    unfold Ends pairWithTop
    rw [h]
    exact run

/-- Settling forgets the protected calls that are over: all that have no call of their own, if they
have their outcomes at the top of the stack. If an outcome cannot be made, the result is lost. -/
theorem ends_settleAll (points : List CatchPoint) (a : Actor) {depth height : Nat}
    (hpoints : a.catches = points) (hdepth : a.frames.size = depth)
    (hheight : a.stack.size = height + 1) :
    Ends (settleAll points) a
      (fun _ a' => ∃ rest, rest <:+ points ∧ a'.outline = { a.outline with catches := rest } ∧
        (points.Pairwise (fun inner outer => outer.frameDepth ≤ inner.frameDepth) →
          (∀ c ∈ points, c.frameDepth ≤ depth) →
          (∀ c ∈ points, c.frameDepth = depth → c.stackHeight = height) →
          ∀ c ∈ rest, c.frameDepth < depth))
      (fun _ a' => ∃ rest, rest <:+ points ∧
        a'.outline = { a.outline with catches := rest, height }) := by
  induction points generalizing a with
  | nil =>
    refine .pure ⟨[], List.suffix_refl _, ?_, fun _ _ _ c hc => absurd hc (List.not_mem_nil)⟩
    rw [← hpoints]
    rfl
  | cons point outer ih =>
    refine .bind <| .get <| .ite (fun hmatch => ?_) fun hmatch => .pure ?_
    · -- The call is over: its outcome takes the place of the result, and the next one is looked at.
      refine .bind <| .modify <| .bind ?_
      refine (ends_pairWithTop (.integer 0) { a with catches := outer }).mono ?_ ?_
      · intro v b hb
        refine .bind <| .modify ?_
        have hsize : b.stack.size = height := by
          have : b.stack.size = a.stack.size - 1 := congrArg Outline.height hb
          omega
        have hpushed : Actor.outline { b with stack := b.stack.push v } =
            { a.outline with catches := outer } := by
          have : Actor.outline { b with stack := b.stack.push v } =
              { b.outline with height := b.stack.size + 1 } := by
            simp only [Actor.outline, Array.size_push]
          rw [this, hb, hsize, ← hheight]
          rfl
        refine (ih { b with stack := b.stack.push v } (congrArg Outline.catches hpushed)
          ((congrArg (·.frames.size) hpushed).trans hdepth)
          (by simp only [Array.size_push, hsize])).mono ?_ ?_
        · rintro _ a' ⟨rest, hsuffix, ha', hlevel⟩
          refine ⟨rest, hsuffix.trans (List.suffix_cons _ _), ?_, ?_⟩
          · rw [ha', hpushed]
          · intro hsorted hle hat
            exact hlevel (List.pairwise_cons.mp hsorted).2
              (fun c hc => hle c (List.mem_cons_of_mem _ hc))
              fun c hc => hat c (List.mem_cons_of_mem _ hc)
        · rintro _ a' ⟨rest, hsuffix, ha'⟩
          refine ⟨rest, hsuffix.trans (List.suffix_cons _ _), ?_⟩
          rw [ha', hpushed]
      · intro e b hb
        refine ⟨outer, List.suffix_cons _ _, ?_⟩
        rw [hb]
        simp only [Actor.outline, hheight, Nat.add_sub_cancel]
    · -- The calls are sorted by depth, so that none below this one is at the depth of the return.
      refine ⟨point :: outer, List.suffix_refl _, ?_, ?_⟩
      · rw [← hpoints]
        rfl
      · intro hsorted hle hat c hc
        have hpoint : point.frameDepth < depth := by
          have := hle point List.mem_cons_self
          by_cases heq : point.frameDepth = depth
          · have := hat point List.mem_cons_self heq
            exact absurd ⟨heq.trans hdepth.symm, by omega⟩ hmatch
          · omega
        rcases List.mem_cons.mp hc with rfl | hc
        · exact hpoint
        · have := (List.pairwise_cons.mp hsorted).1 c hc
          omega

/-- Leaving a result keeps everything in range when the calls from some depth on are gone. It
anchors the protected calls if those of that depth have their outcomes where the result is. -/
theorem ends_leaveResult {o : Outline} (fits : o.Fits l) {a : Actor} {depth height : Nat}
    (ha : a.outline = { o with frames := o.frames.extract 0 depth, height := a.stack.size })
    (hdepth : depth ≤ o.frames.size) (hle : height ≤ a.stack.size)
    (low : ∀ f ∈ o.frames.toList.take depth, f.base ≤ height) (high : height < o.limits.maxStack)
    (v : Value) :
    Ends (leaveResult height v) a
      (fun _ a' => a'.outline.Fits l ∧ (o.Aligned →
        (∀ c ∈ o.catches, c.frameDepth = depth → c.stackHeight = height) →
        a'.outline.Aligned ∧ a'.outline.Anchored))
      (fun _ a' => a'.outline.Fits l ∧ (o.Aligned → a'.outline.Aligned)) := by
  refine .bind <| .modify <| .bind <| .modify <| .bind <| .modify <| .bind <| .get ?_
  have hframes : a.frames = o.frames.extract 0 depth := congrArg Outline.frames ha
  have hcatches : a.catches = o.catches := congrArg Outline.catches ha
  have hsize : a.frames.size = depth := by
    rw [hframes, Array.size_extract]
    omega
  simp only [hsize, hcatches]
  have hdrop := List.dropWhile_suffix (l := o.catches) fun c => decide (depth < c.frameDepth)
  generalize hkept : o.catches.dropWhile (fun c => decide (depth < c.frameDepth)) = kept at hdrop
  have hkeptDepth : ∀ c ∈ kept, c.frameDepth ≤ depth := by
    rw [← hkept]
    exact forall_mem_dropWhile fits.catches_sorted
  have hextract : ∀ (i : Nat) (f : Frame), (o.frames.extract 0 depth)[i]? = some f →
      o.frames[i]? = some f := by
    intro i f hf
    rw [Array.getElem?_extract] at hf
    split at hf
    · rwa [Nat.zero_add] at hf
    · cases hf
  have hstack : ((a.stack.shrink height).push v).size = height + 1 := by
    rw [Array.size_push, Array.size_shrink]
    omega
  refine (ends_settleAll kept { a with stack := (a.stack.shrink height).push v, catches := kept }
    rfl hsize hstack).mono ?_ ?_
  · rintro _ a' ⟨rest, hsuffix, ha', hlevel⟩
    have hshape : a'.outline = { o with
        frames := o.frames.extract 0 depth, height := height + 1, catches := rest } := by
      rw [ha']
      simp only [Actor.outline, Outline.mk.injEq, true_and] at ha ⊢
      exact ⟨ha.1, hstack, ha.2.2⟩
    rw [hshape]
    refine ⟨fits.dropFrames (hsuffix.trans hdrop) (fun c hc => hkeptDepth c (hsuffix.mem hc))
      (fun f hf => Nat.le_succ_of_le (low f hf)) high, fun aligned hat => ⟨?_, ?_⟩⟩
    · intro c hc f hf
      exact aligned c ((hsuffix.trans hdrop).mem hc) f (hextract _ f hf)
    · intro c hc
      have := hlevel (fits.catches_sorted.sublist hdrop.sublist) hkeptDepth
        (fun c hc => hat c (hdrop.mem hc)) c hc
      show c.frameDepth < (o.frames.extract 0 depth).size
      rw [← hframes, hsize]
      exact this
  · rintro _ a' ⟨rest, hsuffix, ha'⟩
    have hshape : a'.outline = { o with
        frames := o.frames.extract 0 depth, height, catches := rest } := by
      rw [ha']
      simp only [Actor.outline, Outline.mk.injEq, true_and] at ha ⊢
      exact ⟨ha.1, ha.2.2⟩
    rw [hshape]
    refine ⟨fits.dropFrames (hsuffix.trans hdrop) (fun c hc => hkeptDepth c (hsuffix.mem hc))
      low (Nat.le_of_lt high), fun aligned c hc f hf => ?_⟩
    exact aligned c ((hsuffix.trans hdrop).mem hc) f (hextract _ f hf)

theorem ends_afterReturn (a : Actor) :
    Ends afterReturn a
      (fun signal a' => signal = (if a.frames.isEmpty then .pause .done else .proceed) ∧ a' = a)
      (fun _ _ => False) :=
  .bind <| .get <| .pure ⟨rfl, rfl⟩

/-- A return puts the result where the arguments of the innermost call begin, which is where the
protected calls around that call have their outcomes. -/
theorem sound_returnFromCall : Sound l Actor.outline returnFromCall := by
  intro a fits
  refine .bind <| .get ?_
  split
  · exact .throw (fits.faults (.of_eq rfl rfl))
  · rename_i frame hback
    refine .bind <| .modify <| .bind <| .get <| .bind ?_
    have hsplit := toList_of_back? hback
    have hmem : frame ∈ a.frames.toList := by
      rw [hsplit]
      exact List.mem_append_right _ (List.mem_singleton.mpr rfl)
    have hinside : frame.argCount ≤ frame.base ∧ frame.base ≤ a.stack.size := fits.inside frame hmem
    have hroom : frame.base < a.limits.maxStack := fits.room frame hmem
    have hpopSize := size_pop_push hback frame
    rw [Array.size_push] at hpopSize
    have hpop : a.frames.extract 0 a.frames.pop.size = a.frames.pop := by
      apply Array.ext'
      rw [Array.toList_extract, Array.toList_pop, List.dropLast_eq_take, Array.size_pop,
        Array.length_toList]
      rfl
    have hlow : ∀ f ∈ a.outline.frames.toList.take a.frames.pop.size,
        f.base ≤ frame.base - frame.argCount := by
      intro f hf
      have hnested := fits.nested
      change a.frames.toList.Pairwise _ at hnested
      change f ∈ a.frames.toList.take _ at hf
      rw [hsplit, ← Array.length_toList, List.take_left] at hf
      rw [hsplit, List.pairwise_append] at hnested
      have := hnested.2.2 f hf frame (List.mem_singleton.mpr rfl)
      omega
    have houtline : Actor.outline { a with frames := a.frames.pop } = { a.outline with
        frames := a.outline.frames.extract 0 a.frames.pop.size, height := a.stack.size } := by
      show _ = { a.outline with
        frames := a.frames.extract 0 a.frames.pop.size, height := a.stack.size }
      rw [hpop]
      rfl
    -- A protected call of this depth encloses the innermost call, whose arguments begin at its
    -- outcome.
    have hat : a.outline.Aligned → ∀ c ∈ a.outline.catches, c.frameDepth = a.frames.pop.size →
        c.stackHeight = frame.base - frame.argCount := by
      intro aligned c hc hcd
      have hframe : a.frames[c.frameDepth]? = some frame := by
        rw [hcd, ← Array.getElem?_toList, hsplit, ← Array.length_toList,
          List.getElem?_append_right (Nat.le_refl _), Nat.sub_self]
        rfl
      have := aligned c hc frame hframe
      omega
    refine (ends_leaveResult fits houtline (by show _ ≤ a.frames.size; omega)
      (by show _ ≤ a.stack.size; omega) hlow (by show _ < a.limits.maxStack; omega) _).mono ?_ ?_
    · rintro _ a' ⟨hfits, himp⟩
      refine (ends_afterReturn a').mono ?_ fun _ _ h => h.elim
      rintro _ b ⟨-, rfl⟩
      exact ⟨hfits, fun aligned _ => himp aligned (hat aligned)⟩
    · rintro _ a' ⟨hfits, himp⟩
      exact ⟨hfits, fun aligned _ => himp aligned⟩

end ActorM

namespace Exec

variable {κ : Type} {l : Loader}

/-- Replacing the arguments of a native call by its answer. -/
theorem ends_finishNative {s : Session κ} (fits : s.actor.outline.Fits l) (height : Nat)
    (low : s.actor.outline.floor ≤ height) (hle : height ≤ s.actor.stack.size)
    (high : height < s.actor.limits.maxStack) (answer : Answer) :
    Ends (finishNative height answer) s
      (fun _ s' => s.actor.outline.Anchors l height s'.actor.outline)
      (fun _ s' => s.actor.outline.Aligns l s'.actor.outline) := by
  have hall : s.actor.frames.extract 0 s.actor.frames.size = s.actor.frames :=
    Array.extract_size
  have houtline : s.actor.outline = { s.actor.outline with
      frames := s.actor.outline.frames.extract 0 s.actor.frames.size
      height := s.actor.stack.size } := by
    show _ = { s.actor.outline with
      frames := s.actor.frames.extract 0 s.actor.frames.size, height := s.actor.stack.size }
    rw [hall]
    rfl
  have hlow : ∀ f ∈ s.actor.outline.frames.toList.take s.actor.frames.size, f.base ≤ height :=
    fun f hf => Nat.le_trans (fits.base_le_floor (List.mem_of_mem_take hf)) low
  refine .bind <| ends_onActor <| (ActorM.ends_leaveResult fits houtline (Nat.le_refl _) hle hlow
    high _).mono ?_ ?_
  · intro _ a' h
    cases answer with
    | giveTurn => exact .pure h
    | exit => exact .pure h
    | value v =>
      refine ends_onActor <| (ActorM.ends_afterReturn a').mono ?_ fun _ _ h => h.elim
      rintro _ b ⟨-, rfl⟩
      exact h
  · intro _ a' h
    exact h

/-- Looking up what can only fail by a fault. -/
theorem ends_ofResult (result : Except Fault α) (s : Session κ) :
    Ends (ofResult result : Exec κ α) s (fun x s' => result = .ok x ∧ s' = s)
      (fun _ s' => s' = s) := by
  cases result with
  | ok x => exact .pure ⟨rfl, rfl⟩
  | error e => exact .throw rfl

theorem ends_actor (s : Session κ) :
    Ends (actor : Exec κ Actor) s (fun a s' => a = s.actor ∧ s' = s) (fun _ _ => False) :=
  .bind <| .get <| .pure ⟨rfl, rfl⟩

variable [Kernel κ]

/-- A native does nothing to the outline, and its answer takes the place of the arguments. -/
theorem ends_operation (op : Operation) {argCount : Nat} {s : Session κ}
    (fits : s.actor.outline.Fits l) (args : s.actor.outline.floor + argCount ≤ s.actor.stack.size)
    (room : s.actor.stack.size < s.actor.limits.maxStack) :
    Ends (do
        finishNative (s.actor.stack.size - argCount)
          (← op.run (.below s.actor.stack.size argCount))) s
      (fun _ s' => s.actor.outline.Anchors l (s.actor.stack.size - argCount) s'.actor.outline)
      (fun _ s' => s.actor.outline.Aligns l s'.actor.outline) := by
  refine .bind <| ((op.keeps_outline _ _).ends _).mono (fun answer t ht => ?_) fun e t ht => ?_
  · have ht : t.actor.outline = s.actor.outline := ht
    have hstack : t.actor.stack.size = s.actor.stack.size := congrArg Outline.height ht
    have hlimits : t.actor.limits = s.actor.limits := congrArg Outline.limits ht
    have hfinish := ends_finishNative (ht ▸ fits) (s.actor.stack.size - argCount)
      (by rw [ht]; omega) (by omega) (by rw [hlimits]; omega) answer
    rwa [ht] at hfinish
  · have ht : t.actor.outline = s.actor.outline := ht
    rw [ht]
    exact fits.aligns

/-- A call keeps everything in range, and so it anchors the protected calls that begin with it, if
what becomes of a protected call does so. -/
theorem ends_call {argCount : Nat} {protect : Nat → Exec κ Signal} (s : Session κ)
    (fits : s.actor.outline.Fits l)
    (hprotect : ∀ s' : Session κ, s'.actor.outline = { s.actor.outline with
        height := s.actor.stack.size - 1 } → s'.actor.outline.Fits l →
      s'.actor.outline.floor + argCount ≤ s'.actor.stack.size →
      Ends (protect (s'.actor.stack.size - argCount)) s'
        (fun _ s'' => s'.actor.outline.Anchors l (s'.actor.stack.size - argCount) s''.actor.outline)
        (fun _ s'' => s'.actor.outline.Aligns l s''.actor.outline)) :
    Ends (call l argCount protect) s
      (fun _ s' => s.actor.outline.Anchors l (s.actor.stack.size - 1 - argCount) s'.actor.outline)
      (fun _ s' => s.actor.outline.Aligns l s'.actor.outline) := by
  refine .bind <| ends_onActor <| (ActorM.ends_popCallee fits).mono ?_ fun _ a h => h ▸ fits.aligns
  rintro callee a ⟨hout, hfits, hroom⟩
  have hsize : a.stack.size = s.actor.stack.size - 1 := congrArg Outline.height hout
  rw [← hsize]
  -- Where the outcomes of protected calls are to go has nothing to do with the height of the stack.
  have anchors : ∀ {height : Nat} {o : Outline}, a.outline.Anchors l height o →
      s.actor.outline.Anchors l height o := by
    rw [hout]
    exact id
  have aligns : ∀ {o : Outline}, a.outline.Aligns l o → s.actor.outline.Aligns l o := by
    rw [hout]
    exact id
  refine .bind <| (ends_actor _).mono ?_ fun _ _ h => h.elim
  rintro b s' ⟨hb, hs'⟩
  rw [hb, hs']
  clear hb hs'
  refine .ite (fun _ => .bind <| .throw (aligns hfits.aligns)) fun hargs => ?_
  have hargs : a.outline.floor + argCount ≤ a.stack.size := by
    have hfloor : a.outline.floor ≤ a.stack.size := hfits.floor_le_height
    have : ¬ a.stack.size - a.outline.floor < argCount := hargs
    omega
  cases callee with
  | function f =>
    refine .bind <| (ends_ofResult _ _).mono ?_ fun e t ht => ht ▸ aligns hfits.aligns
    rintro p _ ⟨hp, rfl⟩
    refine .bind <| ends_onActor <| (ActorM.ends_pushFrame f argCount a).mono ?_ ?_
    · rintro _ _ ⟨hmore, rfl⟩
      exact .pure (anchors (hfits.anchors_pushFrame hp hargs hroom hmore))
    · rintro e _ ⟨-, rfl⟩
      exact aligns hfits.aligns
  | native id =>
    dsimp only
    cases l.natives.get? id.toNat with
    | none => exact .throw (aligns hfits.aligns)
    | some entry =>
      dsimp only
      cases entry.builtin with
      | operation op =>
        exact (ends_operation op (s := ⟨a, s.kernel⟩) hfits hargs hroom).mono
          (fun _ _ h => anchors h) fun _ _ h => aligns h
      | protectedCall =>
        exact (hprotect ⟨a, s.kernel⟩ hout hfits hargs).mono (fun _ _ h => anchors h)
          fun _ _ h => aligns h
  | _ => exact .throw (aligns hfits.aligns)

/-- Protected calls that begin with a call have their outcomes where its arguments begin, and so
they are anchored when it has a call of its own or has answered. -/
theorem ends_invoke (argCount : Nat) (s : Session κ) (fits : s.actor.outline.Fits l) :
    Ends (invoke l argCount) s
      (fun _ s' => s.actor.outline.Anchors l (s.actor.stack.size - 1 - argCount) s'.actor.outline)
      (fun _ s' => s.actor.outline.Aligns l s'.actor.outline) := by
  induction argCount generalizing s with
  | zero =>
    unfold invoke
    exact ends_call s fits fun s' _ hfits _ => .throw hfits.aligns
  | succ n ih =>
    unfold invoke
    refine ends_call s fits fun s' hs' hfits hargs => ?_
    have hmax : s.actor.stack.size ≤ s.actor.limits.maxStack := fits.height_le
    have hsize : s'.actor.stack.size = s.actor.stack.size - 1 := congrArg Outline.height hs'
    have hlimits : s'.actor.limits = s.actor.limits := congrArg Outline.limits hs'
    have hroom : s'.actor.stack.size - (n + 1) < s'.actor.limits.maxStack := by
      rw [hlimits]
      omega
    refine .bind <| ends_onActor <| .modify ?_
    have hcatches := hfits.pushCatch (s'.actor.stack.size - (n + 1)) (by omega) hroom
    -- The protected call that has begun has no call of its own yet, so nothing has to be aligned
    -- with it.
    have haligned : s'.actor.outline.Aligned → Outline.Aligned { s'.actor.outline with
        catches := ⟨s'.actor.frames.size, s'.actor.stack.size - (n + 1)⟩ :: s'.actor.catches } := by
      intro aligned c hc f hf
      rcases List.mem_cons.mp hc with rfl | hc
      · have : s'.actor.frames[s'.actor.frames.size]? = some f := hf
        simp at this
      · exact aligned c hc f hf
    refine (ih _ hcatches).mono ?_ ?_
    · rintro _ s'' ⟨h, himp⟩
      refine ⟨h, fun aligned level => himp (haligned aligned) fun c hc hdepth => ?_⟩
      show c.stackHeight = s'.actor.stack.size - 1 - n
      rcases List.mem_cons.mp hc with rfl | hc
      · show s'.actor.stack.size - (n + 1) = _
        omega
      · have := level c hc hdepth
        omega
    · rintro _ s'' ⟨h, himp⟩
      exact ⟨h, fun aligned => himp (haligned aligned)⟩

end Exec

end ActorMachine
