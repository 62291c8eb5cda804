import ActorMachine.Proofs.BelowBase

/-!
# Calls and returns

A function that is called gets a frame above those of its callers, and finds its arguments below its
base. As long as this frame exists, the frames outside of it and the stack below the arguments are
what they were, and so are the arguments that the function has not replaced itself
(`Protection.Attends`). The frame ends by the return of the function, unless a fault unwinds it, and
the return leaves what there was below the arguments and one value more (`Protection.Returned`). A
`Protection` is what has to be there when a call is over, and a call of a function begins none of
its protected calls.
-/

namespace ActorMachine

open Memory

/-- The arguments and the base of every call lie within the stack. -/
theorem Outline.Fits.frame {l : Loader} {a : Actor} (fits : a.outline.Fits l) {i : Nat} {f : Frame}
    (hf : a.frames[i]? = some f) : f.argCount ≤ f.base ∧ f.base ≤ a.stack.size := by
  refine fits.inside f ?_
  rw [← Array.getElem?_toList] at hf
  exact List.mem_of_getElem? hf

namespace Actor

/-- The call at a depth is the innermost one and executes next an instruction that replaces its
local at an index. -/
def Stores (l : Loader) (depth : Nat) (a : Actor) (index : Int) : Prop :=
  a.frames.size = depth + 1 ∧ a.Steps ∧ a.Replaces l index

end Actor

namespace Session

variable {κ : Type} [Kernel κ]

/-- The call that a session has made is under way, and no fault has unwound it. It has replaced its
locals at the given indices, the last one first. -/
inductive InCall (l : Loader) (c : Protection) (s : Session κ) : List Int → Session κ → Prop
  | begun {signal : Signal} {u : Session κ} (run : Exec.advance l s = .ok signal u) :
    InCall l c s [] u
  | acted {stored : List Int} {x u : Session κ} {signal : Signal} (inCall : InCall l c s stored x)
    (run : Exec.advance l x = .ok signal u) (keeps : ∀ index, ¬x.actor.Stores l c.frames.size index)
    (underWay : c.frames.size < u.actor.frames.size) : InCall l c s stored u
  | stored {stored : List Int} {x u : Session κ} {signal : Signal} {index : Int}
    (inCall : InCall l c s stored x) (run : Exec.advance l x = .ok signal u)
    (stores : x.actor.Stores l c.frames.size index)
    (underWay : c.frames.size < u.actor.frames.size) : InCall l c s (index :: stored) u
  | reported {stored : List Int} {x t : Session κ} {e : Fault} {a : Actor}
    (inCall : InCall l c s stored x) (run : Exec.advance l x = .error e t)
    (recover : t.actor.recover e = (true, a)) (underWay : c.frames.size < a.frames.size) :
    InCall l c s stored ⟨a, t.kernel⟩
  | befallen {stored : List Int} {x u : Session κ} (inCall : InCall l c s stored x)
    (befalls : x.Befalls u) : InCall l c s stored u

end Session

namespace Protection

/-- A call is under way, with so many arguments on top of the values below its base. Nothing outside
of it has changed, and of the arguments only those that it has replaced. -/
structure Attends (c : Protection) (below : Array Value) (argCount : Nat) (stored : List Int)
    (a : Actor) : Prop where
  within : c.Within a
  callee : ∃ f, a.frames[c.frames.size]? = some f ∧ f.base = below.size ∧ f.argCount = argCount
  kept : Value.Relocated c.memory a.heap.memory (Value.mask below.size stored below)
    (Value.mask below.size stored a.stack)

/-- A step is the return of a call. It leaves the frames and the protected calls outside of the
call, and the result of the call in the place of its arguments. -/
structure Returned (c : Protection) (l : Loader) {κ : Type} (x u : Session κ) : Prop where
  steps : x.actor.Steps
  atReturn : x.actor.AtReturn l
  innermost : x.actor.frames.size = c.frames.size + 1
  actor : u.actor = { x.actor with
    frames := c.frames
    catches := c.catches
    stack := (x.actor.stack.extract 0 c.stack.size).push x.actor.result }
  kernel : u.kernel = x.kernel
  keeps : c.Keeps u.actor

variable {c : Protection} {below : Array Value} {argCount : Nat} {stored : List Int} {a b : Actor}

namespace Attends

theorem size_le (attends : c.Attends below argCount stored a) : c.stack.size ≤ below.size := by
  obtain ⟨f, hf, hplace⟩ := attends.within.callee
  obtain ⟨g, hg, hbase, -⟩ := attends.callee
  rw [hf] at hg
  cases hg
  omega

theorem basePointer_eq (attends : c.Attends below argCount stored a)
    (innermost : a.frames.size = c.frames.size + 1) :
    a.basePointer = below.size ∧ a.argCount = argCount := by
  obtain ⟨f, hf, hbase, hargs⟩ := attends.callee
  have back : a.frames.back? = some f := by
    rw [Array.back?_eq_getElem?, innermost, Nat.add_sub_cancel, hf]
  unfold Actor.basePointer Actor.argCount
  rw [back]
  exact ⟨hbase, hargs⟩

/-- What the function reads at a negative index is the argument, if it has not replaced it. -/
theorem reads {l : Loader} (attends : c.Attends below argCount stored a) (fits : a.outline.Fits l)
    (innermost : a.frames.size = c.frames.size + 1) {k : Nat} (hk : k < argCount)
    (unstored : -1 - (k : Int) ∉ stored) :
    (below.getD (below.size - 1 - k) .nil).Match
      (Value.between (Value.mask below.size stored below) (Value.mask below.size stored a.stack))
      (a.loadLocal (-1 - k)) := by
  obtain ⟨f, hf, hbase, hargs⟩ := attends.callee
  obtain ⟨hle, hheight⟩ := fits.frame hf
  obtain ⟨hbp, hac⟩ := attends.basePointer_eq innermost
  have hplace : a.localPosition? (-1 - k) = some (below.size - 1 - k) := by
    unfold Actor.localPosition?
    rw [hbp, hac, if_pos (by omega)]
    congr 1
    omega
  have unmasked : ∀ {vs : Array Value}, below.size ≤ vs.size →
      (Value.mask below.size stored vs)[below.size - 1 - k]? =
        some (vs.getD (below.size - 1 - k) .nil) := by
    intro vs hsize
    have hindex : ((below.size - 1 - k : Nat) : Int) - below.size = -1 - k := by omega
    rw [Value.getElem?_mask, hindex, if_neg unstored, Array.getElem?_eq_getElem (by omega),
      Array.getD_eq_getD_getElem?, Array.getElem?_eq_getElem (by omega)]
    rfl
  rw [Actor.loadLocal, hplace]
  exact attends.kept.get _ _ _ (unmasked (Nat.le_refl _)) (unmasked (by omega))

/-- An actor that goes on inside of the call and keeps what lies below its base still attends to
it. -/
theorem of_keepsBelow (attends : c.Attends below argCount stored a) (within : c.Within b)
    (outside : a.outline.Outside c.frames.size b.outline) (keeps : a.KeepsBelow below.size b) :
    c.Attends below argCount stored b := by
  refine ⟨within, ?_, ?_⟩
  · obtain ⟨f, hf, hbase, hargs⟩ := attends.callee
    obtain ⟨g, hg, hbase', hargs'⟩ := outside.callee f hf
    exact ⟨g, hg, hbase'.trans hbase, hargs'.trans hargs⟩
  · have hmasked := Value.Relocated.mask keeps below.size stored
    rw [Value.mask_extract] at hmasked
    exact attends.kept.trans hmasked (Nat.le_of_eq Value.size_mask)

/-- The same after the replacement of a local. -/
theorem of_keepsOthers {index : Int} (attends : c.Attends below argCount stored a)
    (fits : below.size ≤ a.stack.size) (within : c.Within b)
    (outside : a.outline.Outside c.frames.size b.outline)
    (heap : b.heap = a.heap) (size_le : below.size ≤ b.stack.size)
    (others : ∀ i < below.size, (i : Int) - below.size ≠ index → b.stack[i]? = a.stack[i]?) :
    c.Attends below argCount (index :: stored) b := by
  refine ⟨within, ?_, ?_⟩
  · obtain ⟨f, hf, hbase, hargs⟩ := attends.callee
    obtain ⟨g, hg, hbase', hargs'⟩ := outside.callee f hf
    exact ⟨g, hg, hbase'.trans hbase, hargs'.trans hargs⟩
  · have hmasked := attends.kept.mask below.size [index]
    rw [Value.mask_mask, Value.mask_mask] at hmasked
    rw [heap]
    refine hmasked.congr ?_ fun i hi => ?_
    · rw [Value.size_mask, Value.size_mask]
      exact size_le
    · rw [Value.size_mask] at hi
      rw [Value.getElem?_mask, Value.getElem?_mask]
      by_cases hindex : (i : Int) - below.size ∈ index :: stored
      · rw [List.singleton_append, if_pos hindex, if_pos hindex,
          Array.getElem?_eq_getElem (by omega), Array.getElem?_eq_getElem (by omega)]
        rfl
      · rw [List.singleton_append, if_neg hindex, if_neg hindex]
        exact others i hi fun h => hindex (h ▸ List.mem_cons_self)

end Attends

end Protection

/-! ## Steps -/

namespace Session

variable {κ : Type} [Kernel κ] {l : Loader} {c : Protection} {below : Array Value} {argCount : Nat}
  {stored : List Int} {x : Session κ}

/-- A step that is not the return of a call leaves its frame, the frames outside of it and what lies
below its base as they are, but for the local that it replaces. -/
theorem ends_attending (inline : l.Inline)
    (anchored : ∀ p ∈ c.catches, p.frameDepth < c.frames.size) (fits : x.actor.outline.Fits l)
    (attends : c.Attends below argCount stored x.actor)
    (inside : ¬((x.actor.Steps ∧ x.actor.AtReturn l) ∧ x.actor.frames.size = c.frames.size + 1)) :
    Ends (Exec.advance l) x
      (fun _ u => u.actor.outline.Fits l ∧
        ((∀ index, ¬x.actor.Stores l c.frames.size index) →
          c.Attends below argCount stored u.actor) ∧
        ∀ index, x.actor.Stores l c.frames.size index →
          c.Attends below argCount (index :: stored) u.actor)
      fun _ t => t.actor.outline.Fits l ∧ c.Attends below argCount stored t.actor := by
  have hinside := ends_inside inline anchored fits attends.within inside
  by_cases stores : ∃ index, x.actor.Stores l c.frames.size index
  · obtain ⟨index, innermost, steps, replaces⟩ := stores
    obtain ⟨hbase, -⟩ := attends.basePointer_eq innermost
    obtain ⟨f, hf, hfbase, -⟩ := attends.callee
    have hheight : below.size ≤ x.actor.stack.size := hfbase ▸ (fits.frame hf).2
    have hstore := Exec.keepsOthers_advance steps replaces
    rw [hbase] at hstore
    refine (hinside.and hstore).mono ?_ ?_
    · intro _ u h
      obtain ⟨⟨within, hfits, outside⟩, heap, hsize, others⟩ := h
      refine ⟨hfits, fun none => absurd ⟨innermost, steps, replaces⟩ (none index), ?_⟩
      intro index' stores'
      -- There is one next instruction, and it has one operand.
      have hsame : index' = index := by
        obtain ⟨frame, p, instruction, back, prototype, code, -, rfl⟩ := replaces
        obtain ⟨-, -, frame', p', instruction', back', prototype', code', -, rfl⟩ := stores'
        rw [back] at back'
        cases back'
        rw [prototype] at prototype'
        cases prototype'
        rw [code] at code'
        cases code'
        rfl
      subst hsame
      exact attends.of_keepsOthers hheight within outside heap hsize others
    · intro e t h
      obtain ⟨⟨within, hfits, outside⟩, heap, same⟩ := h
      refine ⟨hfits, attends.of_keepsBelow within outside ?_⟩
      show Value.Relocated x.actor.heap.memory t.actor.heap.memory _ _
      rw [heap]
      refine (Actor.KeepsBelow.refl x.actor below.size).congr ?_ fun i hi => ?_
      · obtain ⟨g, hg, hgbase, -⟩ := outside.callee f hf
        have := (hfits.frame hg).2
        rw [Array.size_extract]
        omega
      · rw [Array.size_extract] at hi
        exact same i (by omega)
  · obtain ⟨f, hf, hfbase, -⟩ := attends.callee
    have hkeeps := Exec.keepsBelow_advance inline fits attends.within.holds.sound hf
      fun innermost steps => ⟨fun atReturn => inside ⟨⟨steps, atReturn⟩, innermost⟩,
        fun index replaces => stores ⟨index, innermost, steps, replaces⟩⟩
    rw [hfbase] at hkeeps
    refine (hinside.and hkeeps).mono ?_ ?_
    · intro _ u h
      obtain ⟨⟨within, hfits, outside⟩, keeps⟩ := h
      exact ⟨hfits, fun _ => attends.of_keepsBelow within outside keeps,
        fun index hindex => absurd ⟨index, hindex⟩ stores⟩
    · intro e t h
      obtain ⟨⟨within, hfits, outside⟩, keeps⟩ := h
      exact ⟨hfits, attends.of_keepsBelow within outside keeps⟩

/-- The return of a call, which no protected call awaits, succeeds. -/
theorem advance_of_return (anchored : ∀ p ∈ c.catches, p.frameDepth < c.frames.size)
    (plain : c.count = 0) (within : c.Within x.actor) (steps : x.actor.Steps)
    (atReturn : x.actor.AtReturn l) (innermost : x.actor.frames.size = c.frames.size + 1) :
    ∃ signal u, Exec.advance l x = .ok signal u ∧ c.Returned l x u := by
  obtain ⟨frame, back, hadvance⟩ := Exec.advance_of_atReturn steps atReturn
  obtain ⟨inner, hcatches, above⟩ := within.catches
  have hpop : x.actor.frames.pop = c.frames := by
    rw [← within.frames]
    apply Array.ext'
    rw [toList_extract_zero, Array.toList_pop, List.dropLast_eq_take,
      Array.length_toList, innermost]
    rfl
  have hplace : frame.base - frame.argCount = c.stack.size := by
    obtain ⟨f, hf, hbase⟩ := within.callee
    rw [Array.back?_eq_getElem?, innermost, Nat.add_sub_cancel, hf] at back
    cases back
    exact hbase
  let u : Actor := { x.actor with
    frames := c.frames
    catches := c.catches
    stack := (x.actor.stack.extract 0 c.stack.size).push x.actor.result }
  -- The protected calls within the call are gone, and those outside of it have calls of their own.
  have hleave : ActorM.leaveResult c.stack.size x.actor.result
      { x.actor with frames := x.actor.frames.pop } = .ok () u := by
    have hkept : x.actor.catches.dropWhile (fun p => decide (c.frames.size < p.frameDepth)) =
        c.catches := by
      rw [hcatches, Protection.points, plain, List.replicate_zero, List.nil_append]
      exact ActorM.dropWhile_split above fun p hp => Nat.le_of_lt (anchored p hp)
    rw [hpop]
    show ActorM.settleAll (x.actor.catches.dropWhile fun p => decide (c.frames.size < p.frameDepth))
      { x.actor with
        frames := c.frames
        stack := (x.actor.stack.shrink c.stack.size).push x.actor.result
        catches := x.actor.catches.dropWhile fun p => decide (c.frames.size < p.frameDepth) } = _
    rw [hkept, Array.shrink_eq_take]
    exact ActorM.settleAll_of_below anchored
  have hkeeps : c.Keeps u := by
    have := within.holds.keeps.shrink.push x.actor.result
    rw [Array.shrink_eq_take] at this
    exact this
  refine ⟨if u.frames.isEmpty then .pause .done else .proceed, ⟨u, x.kernel⟩, ?_, steps, atReturn,
    innermost, rfl, rfl, hkeeps⟩
  rw [hadvance, hplace]
  refine Exec.onActor_ok ?_
  show EStateM.bind _ _ _ = _
  unfold EStateM.bind
  rw [hleave]
  rfl

/-- A step is not the return of a call if the call is under way after it, or if it fails. -/
theorem not_return (anchored : ∀ p ∈ c.catches, p.frameDepth < c.frames.size) (plain : c.count = 0)
    (within : c.Within x.actor)
    (stays : ∀ signal u, Exec.advance l x = .ok signal u → c.frames.size < u.actor.frames.size) :
    ¬((x.actor.Steps ∧ x.actor.AtReturn l) ∧ x.actor.frames.size = c.frames.size + 1) := by
  intro ⟨⟨steps, atReturn⟩, innermost⟩
  obtain ⟨signal, u, run, returned⟩ :=
    advance_of_return anchored plain within steps atReturn innermost
  have underWay := stays signal u run
  rw [returned.actor] at underWay
  exact Nat.lt_irrefl _ underWay

/-- A call of a function gives it a frame of its own. -/
theorem advance_of_call {s : Session κ} {b : Actor} {f : FuncRef} {p : LinkedPrototype}
    (calls : s.actor.Calls l argCount b) (back : b.stack.back? = some (.function f))
    (prototype : l.prototype f = .ok p) (args : b.basePointer + argCount + 1 ≤ b.stack.size)
    (room : b.frames.size < b.limits.maxFrames) :
    Exec.advance l s = .ok .proceed ⟨{ b with
      frames := b.frames.push ⟨f, 0, b.stack.pop.size, argCount⟩
      stack := b.stack.pop }, s.kernel⟩ := by
  obtain ⟨protect, hinvoke⟩ : ∃ protect : Nat → Exec κ Signal,
      Exec.invoke l argCount = Exec.call l argCount protect := by
    cases argCount with
    | zero => exact ⟨_, by rw [Exec.invoke]⟩
    | succ n => exact ⟨_, by rw [Exec.invoke]⟩
  have hpush : ActorM.pushFrame f argCount { b with stack := b.stack.pop } = .ok () { b with
      frames := b.frames.push ⟨f, 0, b.stack.pop.size, argCount⟩
      stack := b.stack.pop } := by
    show (if b.limits.maxFrames ≤ b.frames.size then _ else _ : ActorM Unit) _ = _
    rw [if_neg (by omega)]
    rfl
  rw [Exec.advance_of_calls calls, hinvoke, Exec.call_of_back? protect args _ back]
  show EStateM.bind (Exec.ofResult (l.prototype f)) _ _ = _
  rw [prototype]
  show EStateM.bind (Exec.onActor (ActorM.pushFrame f argCount)) _ _ = _
  unfold EStateM.bind
  rw [Exec.onActor_ok hpush]
  rfl

end Session

/-! ## Faults -/

/-- Unwinding leaves no call within the protected call to which it reports. -/
theorem Actor.size_recoverAt_le {a a' : Actor} {e : Fault} {points : List CatchPoint}
    (run : a.recoverAt e points = (true, a')) : ∃ p ∈ points, a'.frames.size ≤ p.frameDepth := by
  induction points generalizing a with
  | nil => cases run
  | cons point outer ih =>
    rcases recoverAt_cons run with ⟨-, u, hat⟩ | ⟨e', b, hat, hrest⟩
    · have hframes : a'.frames = a.frames.extract 0 point.frameDepth :=
        congrArg Outline.frames
          ((ActorM.ends_reportAt point e { a with catches := outer }).of_ok hat)
      refine ⟨point, List.mem_cons_self, ?_⟩
      rw [hframes, Array.size_extract]
      omega
    · obtain ⟨p, hp, hle⟩ := ih hrest
      exact ⟨p, List.mem_cons_of_mem _ hp, hle⟩

namespace Protection

variable {c : Protection} {below : Array Value} {argCount : Nat} {stored : List Int} {a b : Actor}

/-- What a report leaves of an actor, be it made or not: the calls outside of the protected call to
which it goes, and what lies below the outcome of that call. -/
theorem Attends.of_report {point : CatchPoint} {inner : List CatchPoint}
    (attends : c.Attends below argCount stored a) (hdepth : c.frames.size < point.frameDepth)
    (above : ∀ p ∈ inner, c.frames.size < p.frameDepth) (sound : b.Sound)
    (keeps : a.KeepsBelow below.size b) (frames : b.frames = a.frames.extract 0 point.frameDepth)
    (catches : b.catches = inner ++ c.points c.count) : c.Attends below argCount stored b := by
  have hcallee : ∀ {f}, a.frames[c.frames.size]? = some f → b.frames[c.frames.size]? = some f := by
    intro f hf
    have hlt : c.frames.size < a.frames.size := (Array.getElem?_eq_some_iff.mp hf).1
    rw [frames, Array.getElem?_extract, if_pos (by omega), Nat.zero_add, hf]
  refine ⟨⟨?_, ?_, ⟨inner, catches, above⟩, ?_⟩, ?_, ?_⟩
  · refine Eq.trans ?_ attends.within.frames
    rw [frames, Array.extract_extract]
    congr 1
    omega
  · obtain ⟨f, hf, hplace⟩ := attends.within.callee
    exact ⟨f, hcallee hf, hplace⟩
  · exact holds_of_sound sound (attends.within.holds.keeps.trans keeps attends.size_le)
  · obtain ⟨f, hf, hbase⟩ := attends.callee
    exact ⟨f, hcallee hf, hbase⟩
  · have hmasked := Value.Relocated.mask keeps below.size stored
    rw [Value.mask_extract] at hmasked
    exact attends.kept.trans hmasked (Nat.le_of_eq Value.size_mask)

/-- A fault that does not unwind the call is reported within it. -/
theorem Attends.recoverAt {e : Fault} {inner : List CatchPoint}
    (anchored : ∀ p ∈ c.catches, p.frameDepth < c.frames.size)
    (attends : c.Attends below argCount stored a)
    (above : ∀ p ∈ inner, c.frames.size < p.frameDepth ∧ below.size ≤ p.stackHeight)
    (run : a.recoverAt e (inner ++ c.points c.count) = (true, b))
    (underWay : c.frames.size < b.frames.size) : c.Attends below argCount stored b := by
  induction inner generalizing a with
  | nil =>
    obtain ⟨p, hp, hle⟩ := Actor.size_recoverAt_le run
    have := points_le anchored p hp
    omega
  | cons point inner ih =>
    obtain ⟨hdepth, hheight⟩ := above point List.mem_cons_self
    have hinner : ∀ p ∈ inner, c.frames.size < p.frameDepth ∧ below.size ≤ p.stackHeight :=
      fun p hp => above p (List.mem_cons_of_mem _ hp)
    let d : Actor := { a with catches := inner ++ c.points c.count }
    have hsound : d.Sound := attends.within.holds.sound.imp fun _ h => { h with catches := rfl }
    obtain ⟨ρ, h⟩ := hsound.inStep_below below.size False fun h => h.elim
    have hkept := (ActorM.together_reportAt (B := fun _ => True) h point e
      (Nat.le_trans (Actor.size_below_le _ _ _) hheight)).ends
    have hout := ActorM.ends_reportAt point e d
    have hleaves : ∀ {u : Actor} {ρ' : Matching},
      u.InStep (d.below below.size False).unguarded ρ' u →
        u.outline.frames = a.frames.extract 0 point.frameDepth →
        u.outline.catches = inner ++ c.points c.count → c.Attends below argCount stored u :=
      fun hu hframes hcatches => attends.of_report hdepth (fun p hp => (hinner p hp).1)
        ⟨_, hu.toEquivalent⟩ hu.relocated hframes hcatches
    rcases Actor.recoverAt_cons run with ⟨-, u, hat⟩ | ⟨e', d', hat, hrest⟩
    · obtain ⟨ρ', hb⟩ := hkept.of_ok hat
      have hb' := hout.of_ok hat
      exact hleaves hb (congrArg Outline.frames hb') (congrArg Outline.catches hb')
    · obtain ⟨ρ', -, hd⟩ := hkept.of_error hat
      have hd' := hout.of_error hat
      exact ih (hleaves hd (congrArg Outline.frames hd') (congrArg Outline.catches hd'))
        hinner hrest

theorem Attends.recover {l : Loader} {e : Fault}
    (anchored : ∀ p ∈ c.catches, p.frameDepth < c.frames.size) (fits : a.outline.Fits l)
    (attends : c.Attends below argCount stored a) (run : a.recover e = (true, b))
    (underWay : c.frames.size < b.frames.size) : c.Attends below argCount stored b := by
  obtain ⟨inner, hcatches, above⟩ := attends.within.catches
  rw [Actor.recover, hcatches] at run
  refine attends.recoverAt anchored (fun p hp => ⟨above p hp, ?_⟩) run underWay
  -- The outcome of a protected call within the call lies above its base.
  obtain ⟨f, hf, hbase, -⟩ := attends.callee
  have hmem : f ∈ a.frames.toList.take p.frameDepth := by
    rw [← Array.getElem?_toList] at hf
    refine List.mem_of_getElem? (i := c.frames.size) ?_
    rw [List.getElem?_take_of_lt (above p hp), hf]
  rw [← hbase]
  refine fits.catches_above p ?_ f hmem
  show p ∈ a.catches
  rw [hcatches]
  exact List.mem_append_left _ hp

end Protection

/-! ## Runs -/

namespace Session

variable {κ : Type} [Kernel κ] {l : Loader}

omit [Kernel κ] in
/-- What comes from elsewhere does not disturb a call. -/
theorem Befalls.attends {c : Protection} {below : Array Value} {argCount : Nat} {stored : List Int}
    {x u : Session κ} (befalls : x.Befalls u) (attends : c.Attends below argCount stored x.actor) :
    c.Attends below argCount stored u.actor := by
  obtain ⟨hframes, hcatches⟩ := befalls.calls
  obtain ⟨ρ, h⟩ := attends.within.holds.sound.inStep_below below.size False fun h => h.elim
  obtain ⟨ρ', hu⟩ := befalls.inStep h
  exact attends.of_keepsBelow (befalls.within attends.within) (.of_eq hframes hcatches) hu.relocated

section

variable {s : Session κ} {argCount : Nat} {b : Actor} {f : FuncRef} {p : LinkedPrototype}
  (inline : l.Inline) (fit : s.actor.Fit l) (calls : s.actor.Calls l argCount b)
  (back : b.stack.back? = some (.function f)) (prototype : l.prototype f = .ok p)
  (args : b.basePointer + argCount + 1 ≤ b.stack.size) (room : b.frames.size < b.limits.maxFrames)

include back

/-- A function is no protected call. -/
theorem count_of_function (l : Loader) (argCount : Nat) : (b.protection l argCount).count = 0 := by
  show l.protections argCount b.stack.toList.reverse = 0
  rw [toList_of_back? back, List.reverse_append]
  cases argCount with
  | zero => rfl
  | succ n => rfl

include inline fit calls prototype args room

/-- As long as a call is under way, its frame, the frames outside of it and what lies below its base
are what they were, but for the locals that it replaces. -/
theorem InCall.attends {stored : List Int} {x : Session κ}
    (inCall : s.InCall l (b.protection l argCount) stored x) :
    (b.protection l argCount).Attends b.stack.pop argCount stored x.actor ∧
    x.actor.outline.Fits l := by
  have anchored := calls.anchored fit
  have plain := count_of_function back l argCount
  have hbegin := advance_of_call calls back prototype args room
  induction inCall with
  | begun run =>
    have hends := ends_begin fit calls args
    have hfits := ((Exec.sound_advance s fit.fits).of_ok run).1
    rw [hbegin] at run
    cases run
    refine ⟨⟨?_, ?_, ?_⟩, hfits⟩
    · rcases hends.of_ok hbegin with within | ⟨y, r, -, settled⟩
      · exact within
      · have := congrArg Array.size settled.frames
        simp [Actor.protection] at this
    · exact ⟨_, Array.getElem?_push_size, rfl, rfl⟩
    · simp only [Value.mask_nil]
      exact .refl _ _
  | acted _ run keeps underWay ih =>
    obtain ⟨attends, fits⟩ := ih
    have inside := not_return anchored plain attends.within (l := l) fun signal u h => by
      rw [run] at h
      cases h
      exact underWay
    obtain ⟨hfits, kept, -⟩ := (ends_attending inline anchored fits attends inside).of_ok run
    exact ⟨kept keeps, hfits⟩
  | stored _ run stores underWay ih =>
    obtain ⟨attends, fits⟩ := ih
    have inside := not_return anchored plain attends.within (l := l) fun signal u h => by
      rw [run] at h
      cases h
      exact underWay
    obtain ⟨hfits, -, kept⟩ := (ends_attending inline anchored fits attends inside).of_ok run
    exact ⟨kept _ stores, hfits⟩
  | reported _ run recover underWay ih =>
    obtain ⟨attends, fits⟩ := ih
    have inside := not_return anchored plain attends.within (l := l) fun signal u h => by
      rw [run] at h
      cases h
    obtain ⟨hfits, hattends⟩ := (ends_attending inline anchored fits attends inside).of_error run
    exact ⟨hattends.recover anchored hfits recover underWay, (Actor.recover_spec hfits recover).1⟩
  | befallen _ befalls ih => exact ⟨befalls.attends ih.1, befalls.fits ih.2⟩

end

end Session

namespace Session

end Session

end ActorMachine
