import ActorMachine.Proofs.Outline

/-!
# How calls, protected calls and stack fit together

Calls hold positions of the stack and protected calls hold positions of both. `Outline.Fits` is what
makes these positions meaningful: calls lie above one another within the stack, protected calls
begin no deeper than the calls go, and everything is within the limits. `Outline.Aligned` says that
a protected call has its outcome where the arguments of the call that it protects begin, as long as
there is such a call, and `Outline.Anchored` that there is one. The lemmas of this module are the
ways in which the machine changes an outline, one for each.
-/

namespace ActorMachine

/-- An array that has a last element is the array without it, and then that element. -/
theorem toList_of_back? {xs : Array α} {x : α} (back : xs.back? = some x) :
    xs.toList = xs.pop.toList ++ [x] := by
  rw [← Array.getLast?_toList] at back
  obtain ⟨init, hinit⟩ := List.getLast?_eq_some_iff.mp back
  rw [Array.toList_pop, hinit, List.dropLast_concat]

theorem size_pop_push {xs : Array α} {x : α} (back : xs.back? = some x) (y : α) :
    (xs.pop.push y).size = xs.size := by
  have := congrArg List.length (toList_of_back? back)
  rw [List.length_append, Array.length_toList, Array.length_toList, List.length_singleton] at this
  rw [Array.size_push, this]

/-- Changing the last element is taking it away and putting the new one in its place. -/
theorem modify_last {xs : Array α} {x : α} (back : xs.back? = some x) (f : α → α) :
    xs.modify (xs.size - 1) f = xs.pop.push (f x) := by
  have hsplit := toList_of_back? back
  have hsize := size_pop_push back x
  rw [Array.size_push] at hsize
  apply Array.ext'
  rw [Array.toList_modify, Array.toList_push, hsplit, ← hsize, Nat.add_sub_cancel,
    ← Array.length_toList, List.modify_eq_take_cons_drop (by simp)]
  simp

namespace Outline

/-- The stack position of the first local of the innermost call. -/
def floor (o : Outline) : Nat :=
  match o.frames.back? with
  | some frame => frame.base
  | none => 0

/-- The positions that calls, protected calls and the mailbox cursor hold are in range, and nothing
exceeds its limit. -/
structure Fits (l : Loader) (o : Outline) : Prop where
  /-- The arguments of a call lie above the base of every call outside of it. -/
  nested : o.frames.toList.Pairwise fun outer inner => outer.base + inner.argCount ≤ inner.base
  inside : ∀ f ∈ o.frames.toList, f.argCount ≤ f.base ∧ f.base ≤ o.height
  /-- A call has taken its callee off the stack, so that there is room for its result. -/
  room : ∀ f ∈ o.frames.toList, f.base < o.limits.maxStack
  code : ∀ f ∈ o.frames.toList, ∃ p, l.prototype f.func = .ok p ∧ f.ip ≤ p.code.size
  frames_le : o.frames.size ≤ o.limits.maxFrames
  height_le : o.height ≤ o.limits.maxStack
  catches_sorted : o.catches.Pairwise fun inner outer => outer.frameDepth ≤ inner.frameDepth
  catches_depth : ∀ c ∈ o.catches, c.frameDepth ≤ o.frames.size
  catches_height : ∀ c ∈ o.catches, c.stackHeight < o.limits.maxStack
  /-- The outcome of a protected call lies above the base of every call outside of it. -/
  catches_above : ∀ c ∈ o.catches, ∀ f ∈ o.frames.toList.take c.frameDepth, f.base ≤ c.stackHeight
  cursor_le : o.cursor ≤ o.messages
  messages_le : o.messages ≤ o.limits.maxMailbox

/-- Where a protected call has a call of its own, its outcome goes to the place of the first
argument of that call. -/
def Aligned (o : Outline) : Prop :=
  ∀ c ∈ o.catches, ∀ f, o.frames[c.frameDepth]? = some f → c.stackHeight + f.argCount = f.base

/-- Every protected call has a call of its own. -/
def Anchored (o : Outline) : Prop :=
  ∀ c ∈ o.catches, c.frameDepth < o.frames.size

/-- The protected calls that have no call of their own have their outcomes at one height. -/
def Level (o : Outline) (height : Nat) : Prop :=
  ∀ c ∈ o.catches, c.frameDepth = o.frames.size → c.stackHeight = height

theorem Anchored.level {o : Outline} (h : o.Anchored) (height : Nat) : o.Level height := by
  intro c hc heq
  have := h c hc
  omega

namespace Fits

variable {l : Loader} {o : Outline}

/-- The base of every call is at or below the innermost one. -/
theorem base_le_floor (h : o.Fits l) {f : Frame} (hf : f ∈ o.frames.toList) : f.base ≤ o.floor := by
  obtain ⟨fs, hfs⟩ : ∃ fs, o.frames.toList = fs := ⟨_, rfl⟩
  have hback : o.frames.back? = fs.getLast? := by
    rw [← hfs, Array.getLast?_toList]
  have hnested := h.nested
  rw [hfs] at hnested hf
  unfold floor
  rw [hback]
  rcases List.eq_nil_or_concat fs with rfl | ⟨init, last, rfl⟩
  · simp at hf
  · rw [List.concat_eq_append] at hf hnested ⊢
    rw [List.getLast?_concat]
    rcases List.mem_append.mp hf with hin | hlast
    · have := (List.pairwise_append.mp hnested).2.2 f hin last (by simp)
      show f.base ≤ last.base
      omega
    · exact Nat.le_of_eq (by rw [List.mem_singleton.mp hlast])

theorem floor_le_height (h : o.Fits l) : o.floor ≤ o.height := by
  unfold floor
  split
  · rename_i frame hback
    have hmem : frame ∈ o.frames.toList := by
      rw [← Array.getLast?_toList] at hback
      exact List.mem_of_getLast? hback
    exact (h.inside frame hmem).2
  · exact Nat.zero_le _

/-- The stack may take every height between the innermost base and the limit. -/
theorem setHeight (h : o.Fits l) (height : Nat) (low : o.floor ≤ height)
    (high : height ≤ o.limits.maxStack) : Fits l { o with height } :=
  { h with
    inside := fun f hf => ⟨(h.inside f hf).1, Nat.le_trans (h.base_le_floor hf) low⟩
    height_le := high }

/-- The mailbox may take every state within its limit. -/
theorem setMailbox (h : o.Fits l) (messages : Nat) {cursor : Nat} (hcursor : cursor ≤ messages)
    (hmessages : messages ≤ o.limits.maxMailbox) : Fits l { o with messages, cursor } :=
  { h with
    cursor_le := hcursor
    messages_le := hmessages }

theorem setPending (h : o.Fits l) (entry : Option Nat) (pendingReceive : Option Int) :
    Fits l { o with entry, pendingReceive } :=
  { h with }

/-- A protected call may begin at every height of the stack that belongs to the innermost call. -/
theorem pushCatch (h : o.Fits l) (height : Nat) (low : o.floor ≤ height)
    (high : height < o.limits.maxStack) :
    Fits l { o with catches := ⟨o.frames.size, height⟩ :: o.catches } where
  nested := h.nested
  inside := h.inside
  room := h.room
  code := h.code
  frames_le := h.frames_le
  height_le := h.height_le
  catches_sorted := List.pairwise_cons.mpr ⟨h.catches_depth, h.catches_sorted⟩
  catches_depth c hc := by
    rcases List.mem_cons.mp hc with rfl | hc
    · exact Nat.le_refl _
    · exact h.catches_depth c hc
  catches_height c hc := by
    rcases List.mem_cons.mp hc with rfl | hc
    · exact high
    · exact h.catches_height c hc
  catches_above c hc := by
    rcases List.mem_cons.mp hc with rfl | hc
    · intro f hf
      exact Nat.le_trans (h.base_le_floor (List.mem_of_mem_take hf)) low
    · exact h.catches_above c hc
  cursor_le := h.cursor_le
  messages_le := h.messages_le

/-- A call may begin with arguments that belong to the innermost call. -/
theorem pushFrame (h : o.Fits l) {func : FuncRef} {argCount : Nat} {p : LinkedPrototype}
    (hp : l.prototype func = .ok p) (args : o.floor + argCount ≤ o.height)
    (room : o.height < o.limits.maxStack) (more : o.frames.size < o.limits.maxFrames) :
    Fits l { o with frames := o.frames.push ⟨func, 0, o.height, argCount⟩ } where
  nested := by
    rw [Array.toList_push, List.pairwise_append]
    refine ⟨h.nested, List.pairwise_singleton _ _, ?_⟩
    intro f hf g hg
    rw [List.mem_singleton.mp hg]
    have := h.base_le_floor hf
    show f.base + argCount ≤ o.height
    omega
  inside f hf := by
    rw [Array.toList_push] at hf
    rcases List.mem_append.mp hf with hf | hf
    · exact h.inside f hf
    · rw [List.mem_singleton.mp hf]
      exact ⟨by show argCount ≤ o.height; omega, Nat.le_refl _⟩
  room f hf := by
    rw [Array.toList_push] at hf
    rcases List.mem_append.mp hf with hf | hf
    · exact h.room f hf
    · rw [List.mem_singleton.mp hf]
      exact room
  code f hf := by
    rw [Array.toList_push] at hf
    rcases List.mem_append.mp hf with hf | hf
    · exact h.code f hf
    · rw [List.mem_singleton.mp hf]
      exact ⟨p, hp, Nat.zero_le _⟩
  frames_le := by
    rw [Array.size_push]
    exact more
  height_le := h.height_le
  catches_sorted := h.catches_sorted
  catches_depth c hc := by
    have := h.catches_depth c hc
    rw [Array.size_push]
    omega
  catches_height := h.catches_height
  catches_above c hc f hf := by
    have hdepth := h.catches_depth c hc
    rw [← Array.length_toList] at hdepth
    rw [Array.toList_push, List.take_append_of_le_length hdepth] at hf
    exact h.catches_above c hc f hf
  cursor_le := h.cursor_le
  messages_le := h.messages_le

/-- Calls may be given up, the innermost first, with the protected calls within them. -/
theorem dropFrames (h : o.Fits l) {depth height : Nat} {catches : List CatchPoint}
    (hsuffix : catches <:+ o.catches) (hcatches : ∀ c ∈ catches, c.frameDepth ≤ depth)
    (low : ∀ f ∈ o.frames.toList.take depth, f.base ≤ height) (high : height ≤ o.limits.maxStack) :
    Fits l { o with frames := o.frames.extract 0 depth, height, catches } := by
  have htake : (o.frames.extract 0 depth).toList = o.frames.toList.take depth := by
    simp
  have hold : ∀ f ∈ (o.frames.extract 0 depth).toList, f ∈ o.frames.toList :=
    fun f hf => List.mem_of_mem_take (htake ▸ hf)
  exact {
    nested := by
      rw [htake]
      exact h.nested.sublist (List.take_sublist _ _)
    inside := fun f hf => ⟨(h.inside f (hold f hf)).1, low f (htake ▸ hf)⟩
    room := fun f hf => h.room f (hold f hf)
    code := fun f hf => h.code f (hold f hf)
    frames_le := by
      have := h.frames_le
      show (o.frames.extract 0 depth).size ≤ o.limits.maxFrames
      rw [Array.size_extract]
      omega
    height_le := high
    catches_sorted := h.catches_sorted.sublist hsuffix.sublist
    catches_depth := fun c hc => by
      have h1 := hcatches c hc
      have h2 := h.catches_depth c (hsuffix.mem hc)
      show c.frameDepth ≤ (o.frames.extract 0 depth).size
      rw [Array.size_extract]
      omega
    catches_height := fun c hc => h.catches_height c (hsuffix.mem hc)
    catches_above := fun c hc f hf => by
      rw [htake, List.take_take] at hf
      have hmem := List.take_subset_take_left _ (Nat.min_le_left _ _) hf
      exact h.catches_above c (hsuffix.mem hc) f hmem
    cursor_le := h.cursor_le
    messages_le := h.messages_le }

/-- Calls may run whatever code they like as long as they lie where they lay. -/
theorem setFrames (h : o.Fits l) {frames : Array Frame}
    (places : frames.toList.map (fun f => (f.base, f.argCount)) =
      o.frames.toList.map fun f => (f.base, f.argCount))
    (code : ∀ f ∈ frames.toList, ∃ p, l.prototype f.func = .ok p ∧ f.ip ≤ p.code.size) :
    Fits l { o with frames } := by
  have hsize : frames.size = o.frames.size := by
    have := congrArg List.length places
    rwa [List.length_map, List.length_map, Array.length_toList, Array.length_toList] at this
  -- A call is found again at its depth, with the same base and the same arguments.
  have hmem : ∀ {n : Nat} {f : Frame}, f ∈ frames.toList.take n →
      ∃ g ∈ o.frames.toList.take n, g.base = f.base ∧ g.argCount = f.argCount := by
    intro n f hf
    have hplace := List.mem_map_of_mem (f := fun f : Frame => (f.base, f.argCount)) hf
    rw [List.map_take, places, ← List.map_take] at hplace
    obtain ⟨g, hg, heq⟩ := List.mem_map.mp hplace
    exact ⟨g, hg, congrArg Prod.fst heq, congrArg Prod.snd heq⟩
  have hall : ∀ f ∈ frames.toList, ∃ g ∈ o.frames.toList, g.base = f.base ∧
      g.argCount = f.argCount := by
    intro f hf
    obtain ⟨g, hg, hplace⟩ := hmem (n := frames.toList.length) (by rwa [List.take_length])
    exact ⟨g, List.mem_of_mem_take hg, hplace⟩
  exact { h with
    nested := by
      have hnested : (o.frames.toList.map fun f => (f.base, f.argCount)).Pairwise
          fun outer inner => outer.1 + inner.2 ≤ inner.1 := List.pairwise_map.mpr h.nested
      rw [← places] at hnested
      exact List.pairwise_map.mp hnested
    inside := fun f hf => by
      obtain ⟨g, hg, hbase, hargs⟩ := hall f hf
      rw [← hbase, ← hargs]
      exact h.inside g hg
    room := fun f hf => by
      obtain ⟨g, hg, hbase, -⟩ := hall f hf
      rw [← hbase]
      exact h.room g hg
    code := code
    frames_le := hsize ▸ h.frames_le
    catches_depth := hsize ▸ h.catches_depth
    catches_above := fun c hc f hf => by
      obtain ⟨g, hg, hbase, -⟩ := hmem hf
      rw [← hbase]
      exact h.catches_above c hc g hg }

/-- The innermost call may go on anywhere in its code. -/
theorem setIp (h : o.Fits l) {frame : Frame} (back : o.frames.back? = some frame)
    {p : LinkedPrototype} (hp : l.prototype frame.func = .ok p) {ip : Nat}
    (hip : ip ≤ p.code.size) :
    Fits l { o with frames := o.frames.pop.push { frame with ip } } := by
  refine h.setFrames ?_ fun f hf => ?_
  · rw [Array.toList_push, toList_of_back? back, List.map_append, List.map_append]
    rfl
  · rw [Array.toList_push] at hf
    rcases List.mem_append.mp hf with hf | hf
    · exact h.code f (toList_of_back? back ▸ List.mem_append_left _ hf)
    · rw [List.mem_singleton.mp hf]
      exact ⟨p, hp, hip⟩

end Fits

end Outline

end ActorMachine
