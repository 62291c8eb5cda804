import ActorMachine.Proofs.Deeds
import ActorMachine.Proofs.Execution
import ActorMachine.Proofs.Loaders

/-!
# Actors do nothing but deeds

Whatever an actor does next comes down to deeds (`Exec.doing_advance`), and so does the report of a
fault (`Actor.Doing.recoverAt`): operations of the library are called, objects are made, and
everything else only puts what the actor has in other places (`Actor.Rearranged`). A world that goes
by what its actors show hears of nothing that is not shown (`Kernel.Minds`).
-/

namespace ActorMachine

/-! ## Other places -/

namespace Actor

/-- A value that an actor has, or that refers to nothing. -/
def Has (a : Actor) (v : Value) : Prop := v.ref? = none ∨ v ∈ a.stack ∨ v ∈ a.mailbox.messages

/-- All that the second actor has, the first one has, in other places. -/
structure Rearranged (w a : Actor) : Prop where
  heap : a.heap = w.heap
  stack : ∀ v ∈ a.stack, w.Has v
  messages : ∀ v ∈ a.mailbox.messages, w.Has v

theorem Has.exists_source {w : Actor} {v : Value} (h : w.Has v) : ∃ x : Source, x.value w = v := by
  obtain inline | stack | message := h
  · exact ⟨.inline v inline, rfl⟩
  · obtain ⟨i, hi⟩ := Array.mem_iff_getElem?.mp stack
    refine ⟨.stack i, ?_⟩
    show w.stack.getD i .nil = v
    rw [Array.getD_eq_getD_getElem?, hi]
    rfl
  · obtain ⟨i, hi⟩ := Array.mem_iff_getElem?.mp message
    refine ⟨.message i, ?_⟩
    show w.mailbox.messages.getD i .nil = v
    rw [Array.getD_eq_getD_getElem?, hi]
    rfl

theorem exists_sources {w : Actor} (vs : List Value) (h : ∀ v ∈ vs, w.Has v) :
    ∃ xs : List Source, xs.map (Source.value w) = vs := by
  induction vs with
  | nil => exact ⟨[], rfl⟩
  | cons v vs ih =>
    obtain ⟨hv, hvs⟩ := List.forall_mem_cons.mp h
    obtain ⟨x, rfl⟩ := hv.exists_source
    obtain ⟨xs, rfl⟩ := ih hvs
    exact ⟨x :: xs, rfl⟩

theorem Rearranged.refl (a : Actor) : Rearranged a a :=
  ⟨rfl, fun _ hv => .inr (.inl hv), fun _ hv => .inr (.inr hv)⟩

/-- Putting what there is in other places is a deed. -/
theorem Rearranged.exists_arranged {w a : Actor} (h : w.Rearranged a) :
    ∃ stack messages, w.arranged a stack messages = a := by
  obtain ⟨stack, hstack⟩ := exists_sources a.stack.toList fun v hv =>
    h.stack v (Array.mem_toList_iff.mp hv)
  obtain ⟨messages, hmessages⟩ :=
    exists_sources a.mailbox.messages.toList fun v hv => h.messages v (Array.mem_toList_iff.mp hv)
  -- All but the heap and the values may be as they are.
  refine ⟨stack, messages, ?_⟩
  unfold arranged
  rw [hstack, hmessages, ← h.heap]

variable {κ : Type} [Kernel κ] {a b w : Actor} {v : Value}

/-- What follows a life is a life. -/
theorem Lives.trans {first last : List (Deed × Except Fault Unit)} (h : a.Lives κ first b)
    (h' : b.Lives κ last w) : a.Lives κ (first ++ last) w := by
  induction h' with
  | refl => rwa [List.append_nil]
  | did _ sound run ih => rw [← List.append_assoc]; exact ih.did sound run
  | failed _ sound run ih => rw [← List.append_assoc]; exact ih.failed sound run

/-- The first actor has become the second one by deeds, and what that one has has only been put in
other places since. -/
structure Doing (κ : Type) [Kernel κ] (a w b : Actor) : Prop where
  world : Nonempty κ
  lives : ∃ deeds, a.Lives κ deeds w
  rearranged : w.Rearranged b

namespace Doing

theorem refl (k : κ) (a : Actor) : Doing κ a a a := ⟨⟨k⟩, ⟨_, .refl⟩, .refl a⟩

/-- Putting things in other places ends with a deed. -/
theorem settle (h : Doing κ a w b) : Doing κ a b b := by
  obtain ⟨⟨k⟩, ⟨deeds, lives⟩, rearranged⟩ := h
  obtain ⟨stack, messages, heq⟩ := rearranged.exists_arranged
  have run : Deed.perform (.arrange b stack messages) (⟨w, k⟩ : Session κ) = .ok () ⟨b, k⟩ := by
    show EStateM.Result.ok () (⟨w.arranged b stack messages, k⟩ : Session κ) = _
    rw [heq]
  exact ⟨⟨k⟩, ⟨_, lives.did (d := .arrange b stack messages) trivial run⟩, .refl b⟩

theorem did {d : Deed} {k : κ} {t : Session κ} (h : Doing κ a w b) (sound : d.Sound)
    (run : d.perform ⟨b, k⟩ = .ok () t) : Doing κ a t.actor t.actor := by
  obtain ⟨deeds, lives⟩ := h.settle.lives
  exact ⟨h.world, ⟨_, lives.did sound run⟩, .refl _⟩

theorem failed {d : Deed} {k : κ} {e : Fault} {t : Session κ} (h : Doing κ a w b) (sound : d.Sound)
    (run : d.perform ⟨b, k⟩ = .error e t) : Doing κ a t.actor t.actor := by
  obtain ⟨deeds, lives⟩ := h.settle.lives
  exact ⟨h.world, ⟨_, lives.failed sound run⟩, .refl _⟩

/-- What has become of an actor that shows a sight shows one. -/
theorem exists_shows (h : Doing κ a w b) {V : Sight} (shows : a.Shows V) : ∃ V, w.Shows V := by
  obtain ⟨deeds, lives⟩ := h.lives
  obtain ⟨-, V', -, shows'⟩ := lives.course shows
  exact ⟨V', shows'⟩

/-- Nothing of what the actor has is anywhere else. -/
theorem alter {c : Actor} (h : Doing κ a w b) (heap : c.heap = b.heap)
    (stack : ∀ v ∈ c.stack, w.Has v)
    (messages : ∀ v ∈ c.mailbox.messages, w.Has v) : Doing κ a w c :=
  { h with rearranged := ⟨heap.trans h.rearranged.heap, stack, messages⟩ }

/-- Calls hold nothing but positions. -/
theorem alterCalls {c : Actor} (h : Doing κ a w b) (heap : c.heap = b.heap)
    (stack : c.stack = b.stack)
    (mailbox : c.mailbox.messages = b.mailbox.messages) : Doing κ a w c :=
  h.alter heap (stack ▸ h.rearranged.stack) (mailbox ▸ h.rearranged.messages)

theorem setStack (h : Doing κ a w b) {vs : Array Value} (hvs : ∀ v ∈ vs, w.Has v) :
    Doing κ a w { b with stack := vs } :=
  h.alter rfl hvs h.rearranged.messages

theorem push (h : Doing κ a w b) (hv : w.Has v) : Doing κ a w { b with stack := b.stack.push v } :=
  h.setStack fun x hx => (Array.mem_push.mp hx).elim (h.rearranged.stack x) fun heq => heq ▸ hv

theorem pop (h : Doing κ a w b) : Doing κ a w { b with stack := b.stack.pop } :=
  h.setStack fun x hx => h.rearranged.stack x (mem_of_mem_pop hx)

theorem shrink (h : Doing κ a w b) (height : Nat) :
    Doing κ a w { b with stack := b.stack.shrink height } :=
  h.setStack fun x hx => h.rearranged.stack x (mem_of_mem_shrink hx)

theorem setLocal (h : Doing κ a w b) (position : Nat) (hv : w.Has v) :
    Doing κ a w { b with stack := b.stack.setIfInBounds position v } := by
  refine h.setStack fun x hx => ?_
  obtain ⟨i, hi⟩ := Array.mem_iff_getElem?.mp hx
  rw [Array.getElem?_setIfInBounds] at hi
  split at hi
  · split at hi
    · cases hi
      exact hv
    · cases hi
  · exact h.rearranged.stack x (Array.mem_of_getElem? hi)

theorem getD (h : Doing κ a w b) (i : Nat) : w.Has (b.stack.getD i .nil) := by
  rw [Array.getD_eq_getD_getElem?]
  cases hv : b.stack[i]? with
  | none => exact .inl rfl
  | some v => exact h.rearranged.stack v (Array.mem_of_getElem? hv)

theorem top (h : Doing κ a w b) : w.Has (b.top?.getD .nil) := by
  unfold top?
  rw [Array.back?_eq_getElem?, ← Array.getD_eq_getD_getElem?]
  exact h.getD _

theorem loadLocal (h : Doing κ a w b) (index : Int) : w.Has (b.loadLocal index) := by
  unfold Actor.loadLocal
  split
  · exact h.getD _
  · exact .inl rfl

/-- A computation that is a deed of an actor, it may be with things in other places. -/
theorem ends_deed {m : ActorM Unit} {d : Deed} {c : Actor} (h : Doing κ a w b) (sound : d.Sound)
    (perform : ∀ k : κ, d.perform ⟨b, k⟩ = Exec.onActor m ⟨c, k⟩) :
    Ends m c (fun _ t => Doing κ a t t) fun _ t => Doing κ a t t := by
  obtain ⟨k⟩ := h.world
  have hrun := perform k
  unfold Exec.onActor at hrun
  dsimp only at hrun
  refine .intro (fun _ t run => ?_) fun e t run => ?_
  · rw [run] at hrun
    exact h.did sound hrun
  · rw [run] at hrun
    exact h.failed sound hrun

/-- A deed that puts on the stack what a computation makes. -/
theorem ends_make {m : ActorM Value} {d : Deed} (h : Doing κ a w b) (sound : d.Sound)
    (perform : (d.perform : Exec κ Unit) = Exec.onActor (do ActorM.pushRaw (← m))) :
    Ends m b (fun v c => ∃ w', Doing κ a w' c ∧ w'.Has v) fun _ c => ∃ w', Doing κ a w' c := by
  have deed := h.ends_deed (m := do ActorM.pushRaw (← m)) (c := b) sound fun k => congrFun perform _
  refine .intro (fun v c run => ?_) fun e c run => ?_
  · have after := deed.of_ok (bind_of_ok run)
    refine ⟨_, after.alter rfl ?_ after.rearranged.messages, .inr (.inl (Array.mem_push_self))⟩
    exact fun x hx => .inr (.inl (Array.mem_push_of_mem _ hx))
  · exact ⟨_, deed.of_error (bind_of_error run)⟩

end Doing

end Actor

/-- Where `I` holds, the computation comes to where it holds again, and `Q` holds of the value
then. -/
def Keeping {ω σ α : Type} (I : ω → σ → Prop) (w : ω) (m : EStateM Fault σ α)
    (Q : ω → α → Prop) : Prop :=
  ∀ s, I w s → Ends m s (fun x t => ∃ w', I w' t ∧ Q w' x) fun _ t => ∃ w', I w' t

namespace Keeping

variable {ω σ α β : Type} {I : ω → σ → Prop} {w : ω} {m : EStateM Fault σ α} {Q : ω → α → Prop}

theorem pure {x : α} (h : Q w x) :
    Keeping I w (pure x : EStateM Fault σ α) Q := fun _ hs => .pure ⟨w, hs, h⟩

theorem throw (e : Fault) :
    Keeping I w (throw e : EStateM Fault σ α) Q := fun _ hs => .throw ⟨w, hs⟩

/-- What follows a fault is not done. -/
theorem throw_bind (e : Fault) (f : α → EStateM Fault σ β) {R : ω → β → Prop} :
    Keeping I w (MonadExcept.throw e >>= f) R := fun _ hs => .bind (.throw ⟨w, hs⟩)

theorem bind {f : α → EStateM Fault σ β} {R : ω → β → Prop} (first : Keeping I w m Q)
    (rest : ∀ w' x, Q w' x → Keeping I w' (f x) R) : Keeping I w (m >>= f) R := by
  intro s hs
  refine .bind ((first s hs).mono ?_ fun _ _ h => h)
  rintro x t ⟨w', ht, hq⟩
  exact rest w' x hq t ht

/-- A computation that only puts things in other places. -/
theorem bind_still {f : α → EStateM Fault σ β} {P : α → Prop} {R : ω → β → Prop}
    (first : Keeping I w m fun w' x => w' = w ∧ P x) (rest : ∀ x, P x → Keeping I w (f x) R) :
    Keeping I w (m >>= f) R := by
  refine first.bind ?_
  rintro _ x ⟨rfl, h⟩
  exact rest x h

theorem ite {p : Prop} [Decidable p] {n : EStateM Fault σ α} (pos : Keeping I w m Q)
    (neg : Keeping I w n Q) :
    Keeping I w (if p then m else n) Q :=
  fun s hs => .ite (fun _ => pos s hs) fun _ => neg s hs

theorem mono {R : ω → α → Prop} (h : Keeping I w m Q) (himp : ∀ w' x, Q w' x → R w' x) :
    Keeping I w m R := by
  refine fun s hs => (h s hs).mono ?_ fun _ _ h => h
  rintro x t ⟨w', ht, hq⟩
  exact ⟨w', ht, himp w' x hq⟩

end Keeping

/-! ## Stack, calls and mailbox -/

namespace ActorM

variable {κ : Type} [Kernel κ] {a w : Actor}

/-- A computation of an actor that does nothing but deeds. -/
abbrev Doing (κ : Type) [Kernel κ] (a w : Actor) (m : ActorM α) (Q : Actor → α → Prop) : Prop :=
  Keeping (Actor.Doing κ a) w m Q

theorem doing_get {f : Actor → ActorM α} {Q : Actor → α → Prop}
    (h : ∀ b, Actor.Doing κ a w b → Doing κ a w (f b) Q) : Doing κ a w (get >>= f) Q :=
  fun b hb => h b hb b hb

theorem doing_modify {f : Actor → Actor} (h : ∀ b, Actor.Doing κ a w b → Actor.Doing κ a w (f b)) :
    Doing κ a w (modify f : ActorM Unit) fun w' _ => w' = w ∧ True :=
  fun b hb => .modify ⟨w, h b hb, rfl, trivial⟩

/-- What comes after a change of calls and cursors. -/
theorem doing_modifyCalls {f : Actor → Actor} {m : ActorM α} {Q : Actor → α → Prop}
    (same : ∀ b, (f b).heap = b.heap ∧ (f b).stack = b.stack ∧
      (f b).mailbox.messages = b.mailbox.messages)
    (rest : Doing κ a w m Q) : Doing κ a w (do modify f; m) Q := by
  refine Keeping.bind_still (P := fun _ => True) (doing_modify fun b h => ?_) fun _ _ => rest
  obtain ⟨heap, stack, messages⟩ := same b
  exact h.alterCalls heap stack messages

theorem doing_pushRaw {v : Value} (hv : w.Has v) :
    Doing κ a w (pushRaw v) fun w' _ => w' = w ∧ True :=
  doing_modify fun _ h => h.push hv

theorem doing_push {v : Value} (hv : w.Has v) : Doing κ a w (push v) fun w' _ => w' = w ∧ True :=
  doing_get fun _ _ => doing_get fun _ _ => .ite (.throw _) (doing_pushRaw hv)

theorem doing_pop : Doing κ a w pop fun w' v => w' = w ∧ w.Has v := by
  intro b h
  refine (ends_pop b).mono ?_ ?_
  · rintro v _ ⟨-, hv, rfl⟩
    rw [Array.back?_eq_getElem?] at hv
    exact ⟨w, h.pop, rfl, h.rearranged.stack v (Array.mem_of_getElem? hv)⟩
  · rintro _ _ ⟨-, rfl⟩
    exact ⟨w, h⟩

theorem doing_truncate (height : Nat) : Doing κ a w (truncate height) fun w' _ => w' = w ∧ True :=
  doing_modify fun _ h => h.shrink height

theorem doing_popMany (count : Nat) : Doing κ a w (popMany count) fun w' _ => w' = w ∧ True :=
  doing_get fun _ _ => .ite (.throw _) (doing_truncate _)

theorem doing_storeLocal (index : Int) {v : Value} (hv : w.Has v) :
    Doing κ a w (storeLocal index v) fun w' _ => w' = w ∧ True := by
  refine doing_get fun b _ => ?_
  cases b.localPosition? index with
  | none => exact .throw _
  | some position => exact doing_modify fun _ h => h.setLocal position hv

theorem doing_pushFrame (f : FuncRef) (argCount : Nat) :
    Doing κ a w (pushFrame f argCount) fun w' _ => w' = w ∧ True :=
  doing_get fun _ _ => doing_get fun _ _ =>
    .ite (.throw _) (doing_modify fun _ h => h.alterCalls rfl rfl rfl)

theorem doing_modifyFrame (f : Frame → Frame) :
    Doing κ a w (modifyFrame f) fun w' _ => w' = w ∧ True :=
  doing_modify fun _ h => h.alterCalls rfl rfl rfl

theorem doing_pushCatchPoint (height : Nat) :
    Doing κ a w (pushCatchPoint height) fun w' _ => w' = w ∧ True :=
  doing_modify fun _ h => h.alterCalls rfl rfl rfl

theorem doing_jump (codeLength : Nat) (displacement : Int) :
    Doing κ a w (jump codeLength displacement) fun w' _ => w' = w ∧ True := by
  refine doing_get fun b _ => ?_
  cases b.frames.back? with
  | none => exact .throw _
  | some frame => exact .ite (.throw _) (doing_modifyFrame _)

/-- A message that is peeked is one that the actor has. -/
theorem doing_peekMessage :
    Doing κ a w peekMessage fun w' message => w' = w ∧ ∀ v ∈ message, w.Has v := by
  refine doing_get fun b hb => ?_
  unfold Mailbox.peek?
  cases hv : b.mailbox.messages[b.mailbox.cursor]? with
  | none => exact .pure ⟨rfl, nofun⟩
  | some v =>
    have has := hb.rearranged.messages v (Array.mem_of_getElem? hv)
    refine Keeping.bind_still (P := fun _ => True) ?_ fun _ _ => .pure ⟨rfl, ?_⟩
    · exact doing_modify fun _ h => h.alter rfl h.rearranged.stack hb.rearranged.messages
    · rintro _ ⟨⟩
      exact has

theorem doing_removeMessage : Doing κ a w removeMessage fun w' _ => w' = w ∧ True := by
  refine doing_get fun b hb => ?_
  cases hremove : b.mailbox.removePeeked? with
  | none => exact .throw _
  | some removed =>
    refine doing_modify fun c h => h.alter rfl h.rearranged.stack fun v hv =>
      hb.rearranged.messages v ?_
    unfold Mailbox.removePeeked? at hremove
    split at hremove
    · cases hremove
    · obtain ⟨x, -, rfl⟩ := Option.map_eq_some_iff.mp hremove
      exact mem_of_mem_eraseIdxIfInBounds hv

theorem doing_rewindMailbox : Doing κ a w rewindMailbox fun w' _ => w' = w ∧ True :=
  doing_modify fun _ h => h.alterCalls rfl rfl rfl

theorem doing_timeoutOf (v : Value) : Doing κ a w (timeoutOf v) fun w' _ => w' = w ∧ True := by
  cases v with
  | integer n => exact Keeping.pure (x := n.toInt) ⟨rfl, trivial⟩
  | nil => exact Keeping.pure (x := (-1 : Int)) ⟨rfl, trivial⟩
  | _ => exact .throw _

theorem doing_receive (codeLength : Nat) (displacement : Int) :
    Doing κ a w (receive codeLength displacement) fun _ _ => True := by
  refine doing_pop.bind_still fun timeout _ => doing_peekMessage.bind_still fun message has => ?_
  cases message with
  | some v => exact (doing_push (has v rfl)).bind_still fun _ _ => .pure trivial
  | none =>
    refine (doing_timeoutOf timeout).bind_still fun _ _ => .ite ?_ ?_
    · exact (doing_jump _ _).bind_still fun _ _ => .pure trivial
    · exact doing_modifyCalls (fun _ => ⟨rfl, rfl, rfl⟩) (.pure trivial)

/-! ## Results and reports -/

theorem doing_newString (bytes : ByteArray) : Doing κ a w (newString bytes) fun w' v => w'.Has v :=
  fun _ h => h.ends_make (d := .string bytes) trivial rfl

/-- A pair of a number and the value on top. -/
theorem doing_pairWithTop (first : Int64) :
    Doing κ a w (pairWithTop (.integer first)) fun w' v => w'.Has v :=
  fun _ h => h.ends_make (d := .pair first) trivial rfl

theorem doing_settleAll (points : List CatchPoint) :
    Doing κ a w (settleAll points) fun _ _ => True := by
  induction points generalizing w with
  | nil => exact .pure trivial
  | cons point outer ih =>
    refine doing_get fun b _ => .ite ?_ (.pure trivial)
    refine doing_modifyCalls (fun _ => ⟨rfl, rfl, rfl⟩) ?_
    exact (doing_pairWithTop 0).bind fun _ _ hv => (doing_pushRaw hv).bind_still fun _ _ => ih

theorem doing_leaveResult (height : Nat) {v : Value} (hv : w.Has v) :
    Doing κ a w (leaveResult height v) fun _ _ => True := by
  refine (doing_truncate height).bind_still fun _ _ => (doing_pushRaw hv).bind_still fun _ _ => ?_
  refine doing_modifyCalls (fun _ => ⟨rfl, rfl, rfl⟩) ?_
  exact doing_get fun _ _ => doing_settleAll _

theorem doing_afterReturn :
    Doing κ a w afterReturn fun _ _ => True := doing_get fun _ _ => .pure trivial

theorem doing_returnFromCall : Doing κ a w returnFromCall fun _ _ => True := by
  refine doing_get fun b _ => ?_
  cases b.frames.back? with
  | none => exact .throw _
  | some frame =>
    refine doing_modifyCalls (fun _ => ⟨rfl, rfl, rfl⟩) (doing_get fun b hb => ?_)
    refine (doing_leaveResult _ ?_).bind fun _ _ _ => doing_afterReturn
    split
    · exact hb.top
    · exact .inl rfl

theorem doing_reportAt (point : CatchPoint) (fault : Fault) :
    Doing κ a w (reportAt point fault) fun _ _ => True := by
  refine doing_modifyCalls (fun _ => ⟨rfl, rfl, rfl⟩) ?_
  refine (doing_truncate _).bind_still fun _ _ => (doing_newString _).bind fun _ _ hv => ?_
  refine (doing_pushRaw hv).bind_still fun _ _ => (doing_pairWithTop _).bind fun _ _ hv => ?_
  exact (doing_pushRaw hv).mono fun _ _ _ => trivial

theorem doing_constantValue (c : Constant) :
    Doing κ a w (Exec.constantValue c) fun w' v => w'.Has v := by
  cases c with
  | integer n => exact .pure (.inl rfl)
  | real x => exact .pure (.inl rfl)
  | text s => exact doing_newString _

/-- A message to oneself, which is one of the values that the actor has. -/
theorem doing_deliverLocal (self : Pid) {v : Value} (hv : w.Has v) :
    Doing κ a w (deliverLocal self v) fun _ _ => True := by
  intro b h
  -- The message is put on top, from where the deed takes it.
  let c : Actor := { b with stack := b.stack.push v }
  have hc : Actor.Doing κ a w c := h.push hv
  have hvalue : (Source.stack b.stack.size).value c = v := by
    show (b.stack.push v).getD b.stack.size .nil = v
    rw [Array.getD_eq_getD_getElem?, Array.getElem?_push_size]
    rfl
  have hcut : ({ c with stack := c.stack.shrink b.stack.size } : Actor) = b := by
    show ({ b with stack := (b.stack.push v).shrink b.stack.size } : Actor) = b
    rw [Array.shrink_eq_take, Array.take_eq_extract, Array.extract_push_of_le (Nat.le_refl _),
      Array.extract_size]
  have deed := hc.ends_deed (d := .deliverLocal self (.stack b.stack.size) b.stack.size)
    (m := deliverLocal self v)
    (c := b) trivial fun k => by
      show Exec.onActor (deliverLocal self ((Source.stack b.stack.size).value c))
        ⟨{ c with stack := c.stack.shrink b.stack.size }, k⟩ = _
      rw [hvalue, hcut]
  exact deed.mono (fun _ t h => ⟨t, h, trivial⟩) fun _ t h => ⟨t, h⟩

end ActorM

/-- The report of a fault is deeds. -/
theorem Actor.Doing.recoverAt {κ : Type} [Kernel κ] {a w b : Actor} (h : Doing κ a w b)
    (fault : Fault)
    (points : List CatchPoint) : ∃ w', Doing κ a w' (b.recoverAt fault points).2 := by
  induction points generalizing w b with
  | nil => exact ⟨w, h⟩
  | cons point outer ih =>
    have hreport := ActorM.doing_reportAt (κ := κ) (a := a) point fault { b with catches := outer }
      (h.alterCalls rfl rfl rfl)
    unfold Actor.recoverAt
    cases run : ActorM.reportAt point fault { b with catches := outer } with
    | ok u c =>
      obtain ⟨w', h', -⟩ := hreport.of_ok run
      exact ⟨w', h'⟩
    | error e c =>
      -- A protected call whose report finds no room is passed over, and what has been done for it
      -- stays done.
      obtain ⟨w', h'⟩ := hreport.of_error run
      exact ih h'

/-! ## The world -/

/-- A world in which `W` holds keeps it when it is sent nothing but what some actor shows. -/
structure Kernel.Minds {κ : Type} [Kernel κ] (W : κ → Prop) : Prop where
  send : ∀ {k : κ} {letter : Letter} {M : Contents} {x : Item}, W k → letter.Shows M x → ∀ target,
    Ends (Kernel.send target letter.message letter.source) k (fun _ k' => W k') fun _ k' => W k'
  spawn : ∀ {k : κ} {h : Heap} {args : List Value}, W k →
    (∀ v ∈ args, ∃ M x, Letter.Shows ⟨v, h⟩ M x) → ∀ callee,
    Ends (Kernel.spawn callee args h) k (fun _ k' => W k') fun _ k' => W k'
  kill : ∀ {k : κ}, W k → ∀ target, Ends (Kernel.kill target) k (fun _ k' => W k') fun _ k' => W k'

/-- Of some worlds nothing is asked. -/
theorem Kernel.Minds.trivial {κ : Type} [Kernel κ] : Kernel.Minds fun _ : κ => True where
  send _ _ _ := .intro (fun _ _ _ => ⟨⟩) fun _ _ _ => ⟨⟩
  spawn _ _ _ := .intro (fun _ _ _ => ⟨⟩) fun _ _ _ => ⟨⟩
  kill _ _ := .intro (fun _ _ _ => ⟨⟩) fun _ _ _ => ⟨⟩

/-- A running actor does nothing but deeds, and has been well-formed when it began. Its world goes
on as it should. -/
structure Session.Doing {κ : Type} [Kernel κ] (W : κ → Prop) (a w : Actor)
    (s : Session κ) : Prop where
  shows : ∃ V, a.Shows V
  actor : a.Doing κ w s.actor
  kernel : W s.kernel

namespace Session.Doing

variable {κ : Type} [Kernel κ] {W : κ → Prop} {a w : Actor} {s : Session κ} {v : Value}

/-- What it has can be sent. -/
theorem shows_letter (h : s.Doing W a w) (hv : w.Has v) :
    ∃ M x, Letter.Shows ⟨v, s.actor.heap⟩ M x := by
  obtain ⟨V, shows⟩ := h.shows
  obtain ⟨V, sound, ν, σ, shows⟩ := h.actor.exists_shows shows
  obtain ⟨x, hx⟩ : ∃ x : Item, x.At ν v := by
    obtain inline | stack | message := hv
    · exact ⟨_, .inline inline⟩
    · exact shows.exists_at (.root (Array.mem_append_left _ stack))
    · exact shows.exists_at (.root (Array.mem_append_right _ message))
  refine ⟨V.objects, x, sound.objects, ν, σ, ?_, hx⟩
  show Named ν V.objects σ s.actor.heap.memory
  rw [h.actor.rearranged.heap]
  exact shows.named

end Session.Doing

/-! ## Instructions -/

/-- A computation of a running actor that does nothing but deeds. -/
abbrev Exec.Doing {κ : Type} [Kernel κ] (W : κ → Prop) (a w : Actor) (m : Exec κ α)
    (Q : Actor → α → Prop) : Prop :=
  Keeping (Session.Doing W a) w m Q

namespace Exec

variable {κ : Type} [Kernel κ] {W : κ → Prop} {a w : Actor}

theorem doing_onActor {m : ActorM α} {Q : Actor → α → Prop} (h : ActorM.Doing κ a w m Q) :
    Doing W a w (onActor m) Q := by
  refine fun s hs => ends_onActor ((h s.actor hs.actor).mono ?_ ?_)
  · rintro x b ⟨w', hb, hq⟩
    exact ⟨w', { hs with actor := hb }, hq⟩
  · rintro e b ⟨w', hb⟩
    exact ⟨w', { hs with actor := hb }⟩

/-- What is done to the world leaves the actor as it is. -/
theorem doing_onKernel {m : Heap → EStateM Fault κ α}
    (h : ∀ s : Session κ, s.Doing W a w →
      Ends (m s.actor.heap) s.kernel (fun _ k => W k) fun _ k => W k) :
    Doing W a w (onKernel m) fun w' _ => w' = w ∧ True := by
  refine fun s hs => ends_onKernel ((h s hs).mono ?_ ?_)
  · exact fun _ _ hk => ⟨w, { hs with kernel := hk }, rfl, trivial⟩
  · exact fun _ _ hk => ⟨w, { hs with kernel := hk }⟩

theorem doing_actor {f : Actor → Exec κ α} {Q : Actor → α → Prop}
    (h : ∀ b, a.Doing κ w b → Doing W a w (f b) Q) : Doing W a w (actor >>= f) Q :=
  fun s hs => h s.actor hs.actor s hs

theorem doing_self {f : Pid → Exec κ α} {Q : Actor → α → Prop}
    (h : ∀ self, Doing W a w (f self) Q) :
    Doing W a w (self >>= f) Q :=
  fun s hs => h (Kernel.self s.kernel) s hs

theorem doing_ofResult (result : Except Fault α) :
    Doing W a w (ofResult result : Exec κ α) fun w' x => w' = w ∧ result = .ok x := by
  cases result with
  | ok x => exact .pure ⟨rfl, rfl⟩
  | error e => exact .throw _

theorem doing_element (kind : IndexKind) (items : Array α) (index : Int) :
    Doing W a w (element kind items index : Exec κ α) fun w' x => w' = w ∧ x ∈ items := by
  unfold element
  split
  · rename_i x hx
    refine .pure ⟨rfl, ?_⟩
    split at hx
    · cases hx
    · exact Array.mem_of_getElem? hx
  · exact .throw _

theorem doing_countOperand (payload : Int) :
    Doing W a w (countOperand payload : Exec κ Nat) fun w' _ => w' = w ∧ True :=
  .ite (.throw _) (.pure ⟨rfl, trivial⟩)

/-- An instruction that only goes on after what it does. -/
theorem doing_proceed {m : Exec κ Unit} {Q : Actor → Unit → Prop} (h : Doing W a w m Q) :
    Doing W a w (do m; return Signal.proceed) fun _ _ => True :=
  h.bind fun _ _ _ => .pure trivial

theorem doing_finishNative (height : Nat) {x : Answer} (hx : w.Has x.result) :
    Doing W a w (finishNative height x : Exec κ Signal) fun _ _ => True := by
  refine (doing_onActor (ActorM.doing_leaveResult height hx)).bind fun _ _ _ => ?_
  cases x with
  | value v => exact doing_onActor ActorM.doing_afterReturn
  | giveTurn => exact .pure trivial
  | exit => exact .pure trivial

theorem doing_resumeReceive (l : Loader) (displacement : Int) :
    Doing W a w (resumeReceive l displacement : Exec κ Unit) fun _ _ => True := by
  refine (doing_onActor ActorM.doing_peekMessage).bind_still fun message has => ?_
  cases message with
  | some v => exact (doing_onActor (ActorM.doing_push (has v rfl))).mono fun _ _ _ => trivial
  | none =>
    refine doing_actor fun b _ => ?_
    split
    · exact .throw _
    · refine (doing_ofResult _).bind_still fun p _ => ?_
      exact (doing_onActor (ActorM.doing_jump _ _)).mono fun _ _ _ => trivial

theorem doing_takeEntry : ActorM.Doing κ a w takeEntry fun w' _ => w' = w ∧ True :=
  ActorM.doing_get fun _ _ => ActorM.doing_modifyCalls (fun _ => ⟨rfl, rfl, rfl⟩)
    (.pure ⟨rfl, trivial⟩)

theorem doing_takePendingReceive :
    ActorM.Doing κ a w takePendingReceive fun w' _ => w' = w ∧ True :=
  ActorM.doing_get fun _ _ => ActorM.doing_modifyCalls (fun _ => ⟨rfl, rfl, rfl⟩)
    (.pure ⟨rfl, trivial⟩)

/-! ## Operations of the library -/

theorem doing_get (height count i : Nat) :
    ActorM.Doing κ a w ((Arguments.below height count).get i) fun w' v => w' = w ∧ w.Has v :=
  .ite (ActorM.doing_get fun _ hb => .pure ⟨rfl, hb.getD _⟩) (.pure ⟨rfl, .inl rfl⟩)

theorem doing_mapM_get (height count : Nat) (is : List Nat) :
    ActorM.Doing κ a w (is.mapM (Arguments.below height count).get)
      fun w' vs => w' = w ∧ ∀ v ∈ vs, w.Has v := by
  induction is with
  | nil => exact .pure ⟨rfl, nofun⟩
  | cons i is ih =>
    rw [List.mapM_cons]
    refine (doing_get height count i).bind_still fun v hv => ih.bind_still fun vs hvs =>
      .pure ⟨rfl, ?_⟩
    exact List.forall_mem_cons.mpr ⟨hv, hvs⟩

theorem doing_rest (height count first : Nat) :
    ActorM.Doing κ a w ((Arguments.below height count).rest first) fun w' vs => w' = w ∧
      ∀ v ∈ vs, w.Has v :=
  doing_mapM_get height count _

theorem doing_atLeast (height count n : Nat) :
    ActorM.Doing κ a w ((Arguments.below height count).atLeast n) fun w' _ => w' = w ∧ True :=
  .ite (.throw _) (.pure ⟨rfl, trivial⟩)

theorem doing_pid (height count i : Nat) :
    ActorM.Doing κ a w ((Arguments.below height count).pid i) fun w' _ => w' = w ∧ True := by
  refine (doing_get height count i).bind_still fun v _ => ?_
  split
  · exact .pure ⟨rfl, trivial⟩
  · exact .throw _

variable (minds : Kernel.Minds W)

include minds

/-- The world goes on as it should whatever operation is called. -/
theorem minds_run {s : Session κ} (h : s.Doing W a w) (op : Operation) (height count : Nat) :
    Ends (op.run (.below height count)) s (fun _ t => W t.kernel) fun _ t => W t.kernel := by
  have of_doing : ∀ {m : Exec κ Answer} {Q : Actor → Answer → Prop}, Doing W a w m Q →
      Ends m s (fun _ t => W t.kernel) fun _ t => W t.kernel := fun hm =>
    (hm s h).mono (fun _ _ ⟨_, ht, _⟩ => ht.kernel) fun _ _ ⟨_, ht⟩ => ht.kernel
  have answer : ∀ m : ActorM Value,
      Ends (do return Answer.value (← onActor m) : Exec κ Answer) s (fun _ t => W t.kernel)
        fun _ t => W t.kernel :=
    fun m => .bind (ends_onActor (.intro (fun _ _ _ => .pure h.kernel) fun _ _ _ => h.kernel))
  cases op with
  | selfPid => exact of_doing (Q := fun _ _ => True) (doing_self fun _ => .pure trivial)
  | giveTurn => exact .pure h.kernel
  | exit => exact .pure h.kernel
  | spawn =>
    refine of_doing (Q := fun _ _ => True)
      (Keeping.bind (Q := fun _ _ => True) ?_ fun _ _ _ => .pure trivial)
    refine (doing_onActor (doing_atLeast height count 1)).bind_still fun _ _ => ?_
    refine (doing_onActor (doing_get height count 0)).bind_still fun callee _ => ?_
    refine (doing_onActor (doing_rest height count 1)).bind_still fun rest hrest => ?_
    refine (doing_onKernel fun t ht => ?_).bind_still fun _ _ => .pure trivial
    exact minds.spawn ht.kernel (fun v hv => ht.shows_letter (hrest v hv)) callee
  | kill =>
    refine of_doing (Q := fun _ _ => True)
      ((doing_onActor (doing_pid height count 0)).bind_still fun target _ => ?_)
    refine doing_self fun self => .ite (.pure trivial) ?_
    exact (doing_onKernel fun t ht => minds.kill ht.kernel target).bind_still fun _ _ =>
      .pure trivial
  | raise | stringLength | stringConcat | stringEqual | tupleNew | tupleGet | tupleSet | tupleLength
  | arrayNew | arrayPush | arrayGet | arraySet | arrayLength | tableNew | tableGet | tableSet
  | tableLength => exact answer _

/-- To call an operation is a deed, and its answer is on top of the stack then. -/
theorem doing_run (op : Operation) (height count : Nat) :
    Doing W a w (op.run (.below height count) : Exec κ Answer) fun w' x => w'.Has x.result := by
  intro s hs
  have kernel := minds_run minds hs op height count
  refine .intro (fun x t run => ?_) fun e t run => ?_
  · have hrun : Deed.perform (.call op height count) s =
        .ok () ⟨{ t.actor with stack := t.actor.stack.push x.result }, t.kernel⟩ :=
      (bind_of_ok run).trans rfl
    have after := hs.actor.did (d := .call op height count) trivial hrun
    -- The deed has put the answer on the stack, from where it is taken when the call is finished.
    refine ⟨_, ⟨hs.shows, after.alter rfl ?_ after.rearranged.messages, kernel.of_ok run⟩, ?_⟩
    · exact fun v hv => .inr (.inl (Array.mem_push_of_mem _ hv))
    · exact .inr (.inl Array.mem_push_self)
  · have hrun : Deed.perform (.call op height count) s = .error e t := bind_of_error run
    exact ⟨_, hs.shows, hs.actor.failed (d := .call op height count) trivial hrun,
      kernel.of_error run⟩

/-! ## Calls, and what an actor does next -/

variable {l : Loader}

theorem doing_call (argCount : Nat) {protect : Nat → Exec κ Signal}
    (hprotect : ∀ height, Doing W a w (protect height) fun _ _ => True) :
    Doing W a w (call l argCount protect) fun _ _ => True := by
  refine (doing_onActor ActorM.doing_pop).bind_still fun callee _ => doing_actor fun b _ => ?_
  refine .ite (.throw_bind _ _) ?_
  cases callee with
  | function f =>
    refine (doing_ofResult _).bind_still fun _ _ => ?_
    exact (doing_onActor (ActorM.doing_pushFrame f argCount)).bind_still fun _ _ => .pure trivial
  | native id =>
    dsimp only
    cases l.natives.get? id.toNat with
    | none => exact .throw _
    | some entry =>
      dsimp only
      cases entry.builtin with
      | operation op => exact (doing_run minds op _ _).bind fun _ _ hx => doing_finishNative _ hx
      | protectedCall => exact hprotect _
  | _ => exact .throw _

theorem doing_invoke (argCount : Nat) : Doing W a w (invoke l argCount) fun _ _ => True := by
  induction argCount with
  | zero => exact doing_call minds 0 fun _ => .throw _
  | succ n ih =>
    exact doing_call minds (n + 1) fun height =>
      (doing_onActor (ActorM.doing_pushCatchPoint height)).bind_still fun _ _ => ih

theorem doing_send : Doing W a w (send : Exec κ Unit) fun _ _ => True := by
  refine (doing_onActor ActorM.doing_pop).bind_still fun message has => ?_
  refine (doing_onActor ActorM.doing_pop).bind_still fun target _ => ?_
  cases target with
  | pid target =>
    refine doing_self fun self => .ite (doing_onActor (ActorM.doing_deliverLocal target has)) ?_
    refine (doing_onKernel fun s hs => ?_).mono fun _ _ _ => trivial
    obtain ⟨M, x, shows⟩ := hs.shows_letter has
    exact minds.send hs.kernel shows target
  | _ => exact .throw _

variable (inline : l.Inline)

include inline

theorem doing_execute {f : FuncRef} {p : LinkedPrototype} (hp : l.prototype f = .ok p) (op : Opcode)
    (payload : Int) : Doing W a w (execute l f p op payload) fun _ _ => True := by
  have push : ∀ {w : Actor} {v : Value}, w.Has v → Doing W a w
      (do onActor (ActorM.push v); return Signal.proceed : Exec κ Signal) fun _ _ => True :=
    fun hv => doing_proceed (doing_onActor (ActorM.doing_push hv))
  cases op with
  | nop => exact .pure trivial
  | pop =>
    exact (doing_countOperand payload).bind_still fun count _ =>
      doing_proceed (doing_onActor (ActorM.doing_popMany count))
  | ldk =>
    refine (doing_element _ _ _).bind_still fun c _ => ?_
    exact (doing_onActor (ActorM.doing_constantValue c)).bind fun _ _ => push
  | nil => exact push (.inl rfl)
  | ldb => exact push (.inl rfl)
  | lsi => exact push (.inl rfl)
  | llv => exact doing_actor fun b hb => push (hb.loadLocal payload)
  | slv =>
    exact (doing_onActor ActorM.doing_pop).bind_still fun v hv =>
      doing_proceed (doing_onActor (ActorM.doing_storeLocal payload hv))
  | imp => exact (doing_element _ _ _).bind_still fun v hv => push (.inl (inline f p hp v hv))
  | cls => exact (doing_element _ _ _).bind_still fun _ _ => push (.inl rfl)
  | jmp => exact doing_proceed (doing_onActor (ActorM.doing_jump _ _))
  | jin =>
    refine (doing_onActor ActorM.doing_pop).bind_still fun v _ => .ite ?_ (.pure trivial)
    exact doing_proceed (doing_onActor (ActorM.doing_jump _ _))
  | ivk => exact (doing_countOperand payload).bind_still fun count _ => doing_invoke minds count
  | ret => exact doing_onActor ActorM.doing_returnFromCall
  | snd => exact doing_proceed (doing_send minds)
  | rcv => exact doing_onActor (ActorM.doing_receive _ _)
  | rmv => exact doing_proceed (doing_onActor ActorM.doing_removeMessage)
  | rwd => exact doing_proceed (doing_onActor ActorM.doing_rewindMailbox)

theorem doing_step : Doing W a w (step l : Exec κ Signal) fun _ _ => True := by
  refine doing_actor fun b _ => ?_
  split
  · exact .pure trivial
  · refine (doing_ofResult _).bind_still fun p hp => ?_
    split
    · exact doing_onActor ActorM.doing_returnFromCall
    · refine (doing_onActor (ActorM.doing_modifyFrame _)).bind_still fun _ _ => ?_
      split
      · exact .throw _
      · exact doing_execute minds inline hp _ _

/-- What an actor does next is deeds. -/
theorem doing_advance : Doing W a w (advance l : Exec κ Signal) fun _ _ => True := by
  refine (doing_onActor doing_takeEntry).bind_still fun entry _ => ?_
  cases entry with
  | some argCount => exact doing_invoke minds argCount
  | none =>
    refine (doing_onActor doing_takePendingReceive).bind_still fun pending _ => ?_
    cases pending with
    | some displacement =>
      exact (doing_resumeReceive l displacement).bind fun _ _ _ => .pure trivial
    | none => exact doing_step minds inline

end Exec

namespace Session

variable {κ : Type} [Kernel κ] {W : κ → Prop} {a w : Actor} {s : Session κ} {l : Loader}

/-- The next step of an actor is deeds, whether or not its run ends with it, and so is the report of
its fault. -/
theorem doing_next (minds : Kernel.Minds W) (inline : l.Inline) (h : s.Doing W a w) :
    Sum.elim (fun finished : Outcome × Session κ => ∃ w', finished.2.Doing W a w')
      (fun t => ∃ w', t.Doing W a w') (s.next l) := by
  have hadvance := Exec.doing_advance minds inline s h
  refine next_of_ends (P := fun t => ∃ w', t.Doing W a w')
    (hadvance.mono (fun _ t h' => ?_) fun e t h' => ?_)
  · obtain ⟨w', ht, -⟩ := h'
    exact ⟨w', ht⟩
  · obtain ⟨w', ht⟩ := h'
    obtain ⟨w'', hreport⟩ := ht.actor.recoverAt e t.actor.catches
    exact ⟨w'', { ht with actor := hreport }⟩

/-- What a running actor that is well-formed does next is part of its life. -/
theorem lives_next (inline : l.Inline) {V : Sight} (shows : s.actor.Shows V) :
    Sum.elim (fun finished : Outcome × Session κ => ∃ deeds, s.actor.Lives κ deeds finished.2.actor)
      (fun t => ∃ deeds, s.actor.Lives κ deeds t.actor) (s.next l) := by
  have hnext := doing_next (W := fun _ => True) .trivial inline
    ⟨⟨V, shows⟩, .refl s.kernel s.actor, trivial⟩
  exact next_mono (P := fun t => ∃ w, t.Doing _ s.actor w)
    (Q := fun t => ∃ deeds, s.actor.Lives κ deeds t.actor)
    hnext fun _ ⟨_, h⟩ => h.actor.settle.lives

/-- So is a whole run. -/
theorem lives_run (inline : l.Inline) {V : Sight} (shows : s.actor.Shows V) {bound : Nat}
    {finished : Outcome × Session κ} (run : s.run l bound = some finished) :
    ∃ deeds, s.actor.Lives κ deeds finished.2.actor := by
  induction bound generalizing s V with
  | zero => cases run
  | succ bound ih =>
    have hnext := lives_next inline shows
    unfold Session.run at run
    cases heq : s.next l with
    | inl final =>
      rw [heq] at hnext run
      cases run
      exact hnext
    | inr t =>
      rw [heq] at hnext run
      obtain ⟨deeds, lives⟩ := hnext
      obtain ⟨-, V', -, shows'⟩ := lives.course shows
      obtain ⟨later, lives'⟩ := ih shows' run
      exact ⟨_, lives.trans lives'⟩

end Session

end ActorMachine
