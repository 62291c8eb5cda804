import ActorMachine.Proofs.Courses
import ActorMachine.Proofs.Execution
import ActorMachine.Proofs.Ledgers
import ActorMachine.Proofs.Loaders

/-!
# What leaves the account of a mailbox alone

Whatever an actor does, but for receives, removals, rewinds and what it sends to itself, its mailbox
goes on agreeing with its account (`Exec.stowing_invoke`, `Exec.stowing_execute`): stack and calls
hold nothing of the messages that have not been received, natives write to nothing else than what
the stack reaches, and collections keep what is apart from each other apart.
-/

namespace ActorMachine

open Memory
open ActorM (readHeap onHeap Shared Makes)

/-- What one run comes to is what two runs of one computation from one state come to. -/
theorem Ends.together {ε σ α : Type} {m : EStateM ε σ α} {s : σ} {ok : α → σ → Prop}
    {err : ε → σ → Prop} (h : Ends m s ok err) :
    Together m m s s (fun x t y u => y = x ∧ u = t ∧ ok x t) fun e t e' u => e' = e ∧ u = t ∧
      err e t := by
  cases run : m s with
  | ok x t => exact .ok_ok run run ⟨rfl, rfl, h.of_ok run⟩
  | error e t => exact .error_error run run ⟨rfl, rfl, h.of_error run⟩

namespace Actor.Stows

variable {F : Value → Prop} {L : Ledger} {ρ γ : Matching} {a b : Actor}

/-- An actor that has only been moved agrees with the same account. -/
theorem moved (h : a.Stows F L ρ) (moved : a.Equivalent γ b) : ∃ ρ', b.Stows F L ρ' := by
  obtain ⟨ρ', h'⟩ := h.receive (.of_equivalent moved) nofun moved.right
  rw [List.append_nil] at h'
  exact ⟨ρ', h'⟩

/-- A new object is reached, and nothing else has changed. -/
theorem addObject {m₁ : Memory} {s : Shape} {p : Ref} (h : a.Stows F L ρ)
    (new : NewObject a.heap.memory m₁ s p) (room : m₁.size ≤ a.heap.capacity) :
    Stows F L (ρ.union (.single s p p)) { a with heap := { a.heap with memory := m₁ } } := by
  have same : ∀ {s' r t}, ρ s' r t → SameObject a.heap.memory m₁ r r := fun hrt =>
    new.extends_.sameObject (h.iso.left.isObject ⟨_, hrt⟩)
  refine h.setMemory (h.iso.addObject new new rfl rfl fun _ => rfl) ?_ .inl ?_
    (fun hrt => (same hrt).sizeAt) (fun hrt => ?_) (fun obj _ => new.extends_.sameObject obj)
    (.inr (h.receivedWithin fun hrt => h.still hrt ▸ same hrt)) ?_ room
  · rintro s' r t (hrt | ⟨-, rfl, rfl⟩)
    · exact h.still hrt
    · rfl
  · rintro s' r t (hrt | ⟨-, rfl, -⟩)
    · exact .inl hrt
    · exact .inr (Nat.le_of_eq new.start.symm)
  · exact (same hrt).stringAt (h.iso.left.isObject ⟨_, hrt⟩)
      (eight_le_sizeAt (h.iso.left.typed ⟨_, hrt⟩))
  · refine (h.objects.addObject h.iso.left new).subset ?_
    rintro s' r ⟨t, hrt | ⟨rfl, rfl, -⟩⟩
    · exact .inl ⟨t, hrt⟩
    · exact .inr ⟨rfl, rfl⟩

/-- Nothing that has been received reaches the new object. -/
theorem receivedWithin_addObject {m₁ : Memory} {s : Shape} {p : Ref} (h : a.Stows F L ρ)
    (new : NewObject a.heap.memory m₁ s p) :
    ReceivedWithin L (m₁.Apart p) { a with heap := { a.heap with memory := m₁ } } := by
  obtain ⟨κ, still, own, received, places⟩ :=
    h.receivedWithin (P := fun t => ∃ s r, ρ s r t) fun hrt => ⟨_, _, hrt⟩
  refine ⟨κ, still, own.extend new.extends_ new.extends_, received, fun hrt => ?_⟩
  obtain ⟨s', r, hr⟩ := places hrt
  obtain ⟨-, hapart⟩ := h.iso.right.apart_end new.extends_ (Nat.le_of_eq new.start.symm) ⟨r, hr⟩
  exact Or.symm hapart

/-- Room is made for a new object, and it is added. -/
theorem ends_making {α : Type} {m : ActorM α} {bytes : Nat} {s : Shape} {size length : Nat}
    {content : ByteArray} {val : Ref → α} (makes : Makes m bytes s size length content val)
    (h : a.Stows F L ρ) :
    Ends (ActorM.reserve bytes >>= fun _ => m) a
      (fun x b => ∃ ρ' p, b.Stows F L ρ' ∧ ρ' s p p ∧ x = val p ∧
        b.ReceivedWithin L (b.heap.memory.Apart p))
      fun e b => ¬e.Dangling ∧ ∃ ρ', b.Stows F L ρ' := by
  obtain ⟨σ, -, sound, -⟩ := h.equivalent
  refine .bind <| (ActorM.ends_reserve sound bytes).mono ?_ ?_
  · rintro _ b ⟨γ, hmoved, hroom⟩
    obtain ⟨ρ', h'⟩ := h.moved hmoved
    obtain ⟨p, m₁, run, new, room, -⟩ := makes b h'.bounded hroom
    refine .intro (fun x c hrun => ?_) fun e c hrun => ?_
    · rw [run] at hrun
      cases hrun
      exact ⟨_, p, h'.addObject new room, .inr ⟨rfl, rfl, rfl⟩, rfl,
        h'.receivedWithin_addObject new⟩
    · rw [run] at hrun
      cases hrun
  · rintro _ b ⟨⟨requested, limit, rfl⟩, γ, hmoved⟩
    exact ⟨nofun, h.moved hmoved⟩

end Actor.Stows

/-- Objects that the process can reach are written to. -/
theorem Actor.Stows.rewritten {F : Value → Prop} {L : Ledger} {ρ : Matching} {a : Actor} {h₁ : Heap}
    (h : a.Stows F L ρ) (written : Heap.Rewritten F ρ a.heap a.heap h₁ h₁)
    (whole : L.Spent ∨ a.ReceivedWithin L fun t => SameObject a.heap.memory h₁.memory t t) :
    Actor.Stows F L ρ { a with heap := h₁ } := by
  rw [written.left.same]
  refine h.setMemory written.iso h.still id .inl (fun hrt => written.left.sizeAt ⟨_, hrt⟩)
    (fun hrt => written.left.stringAt ⟨_, hrt⟩) (fun obj hapart => ?_) whole
    (written.vouched h.objects) ?_
  · exact written.left.others obj fun ⟨_, hrt⟩ => hapart hrt
  · exact Nat.le_trans (Nat.le_of_eq written.left.used) h.bounded.used_le

/-- What natives do to the heap does not concern the messages that have not been received, and if
they write to objects then to no others than those that may have been changed already. -/
theorem ActorM.shared_stows (F : Value → Prop) (D : Prop) (L : Ledger) :
    Shared F (fun ρ a b => a = b ∧ a.Stows F L ρ) (fun _ e _ => e.Dangling → D) L.Spent where
  iso := by
    rintro ρ a _ ⟨rfl, h⟩
    exact h.iso
  vouched := by
    rintro ρ a _ ⟨rfl, h⟩
    exact h.objects
  onHeap := by
    rintro α ρ a _ m m' Q spent ⟨rfl, h⟩ heq agree
    obtain rfl := heq h.still
    cases hx : m a.heap with
    | ok x h₁ =>
      obtain ⟨y, h₁', hy, rewritten, hq⟩ := agree.of_ok hx
      rw [hx] at hy
      cases hy
      exact .ok_ok (onHeap_ok hx) (onHeap_ok hx) ⟨⟨rfl, h.rewritten rewritten (.inl spent)⟩, hq⟩
    | error e h₁ =>
      obtain ⟨e', h₁', hy, -, rewritten⟩ := agree.of_error hx
      rw [hx] at hy
      cases hy
      exact .error_error (onHeap_error hx) (onHeap_error hx)
        ⟨ρ, nofun, rfl, h.rewritten rewritten (.inl spent)⟩
  newString := by
    rintro ρ bytes a _ ⟨rfl, h⟩
    rw [newString, alloc, bind_assoc]
    refine (h.ends_making (makes_string bytes)).together.mono ?_ ?_
    · rintro _ b _ _ ⟨rfl, rfl, ρ', p, h', hp, rfl, -⟩
      exact ⟨ρ', ⟨rfl, h'⟩, .object hp⟩
    · rintro _ b _ _ ⟨-, rfl, hplain, ρ', h'⟩
      exact ⟨ρ', fun hd => absurd hd hplain, rfl, h'⟩
  newTupleRef := by
    rintro ρ n a _ ⟨rfl, h⟩
    rw [newTupleRef, alloc, bind_assoc]
    refine (h.ends_making (makes_tuple n)).together.mono ?_ ?_
    · rintro _ b _ _ ⟨rfl, rfl, ρ', p, h', hp, rfl, -⟩
      exact ⟨ρ', ⟨rfl, h'⟩, hp⟩
    · rintro _ b _ _ ⟨-, rfl, hplain, ρ', h'⟩
      exact ⟨ρ', fun hd => absurd hd hplain, rfl, h'⟩
  newContainer := by
    rintro ρ s hs a _ ⟨rfl, h⟩
    refine (h.ends_making (makes_container hs)).together.mono ?_ ?_
    · rintro _ b _ _ ⟨rfl, rfl, ρ', p, h', hp, rfl, -⟩
      exact ⟨ρ', ⟨rfl, h'⟩, hp⟩
    · rintro _ b _ _ ⟨-, rfl, hplain, ρ', h'⟩
      exact ⟨ρ', fun hd => absurd hd hplain, rfl, h'⟩
  heap _ := nofun
  plain _ hplain := fun hd => absurd hd hplain
  shown _ _ := nofun

/-- Where `I` holds, the computation comes to where it holds again; `Q` holds of what the process
can reach then and of the value. No fault tells of a missing function, unless `lax` says so. -/
def Stowing {σ α : Type} (I : Matching → σ → Prop) (lax : Prop) (ρ : Matching)
    (m : EStateM Fault σ α) (Q : Matching → α → Prop) : Prop :=
  ∀ s, I ρ s → Ends m s (fun x s' => ∃ ρ', I ρ' s' ∧ Q ρ' x)
    fun e s' => (e.Dangling → lax) ∧ ∃ ρ', I ρ' s'

namespace Stowing

variable {σ α β : Type} {I : Matching → σ → Prop} {lax : Prop} {ρ : Matching}
    {m : EStateM Fault σ α} {Q : Matching → α → Prop}

theorem pure {x : α} (h : Q ρ x) : Stowing I lax ρ (pure x : EStateM Fault σ α) Q :=
  fun _ hs => .pure ⟨ρ, hs, h⟩

theorem throw {e : Fault} (he : e.Dangling → lax) :
    Stowing I lax ρ (throw e : EStateM Fault σ α) Q :=
  fun _ hs => .throw ⟨he, ρ, hs⟩

theorem bind {f : α → EStateM Fault σ β} {S : Matching → β → Prop} (first : Stowing I lax ρ m Q)
    (rest : ∀ ρ' x, Q ρ' x → Stowing I lax ρ' (f x) S) : Stowing I lax ρ (m >>= f) S := by
  intro s hs
  refine .bind <| (first s hs).mono ?_ fun _ _ h => h
  rintro x s' ⟨ρ', hs', hq⟩
  exact rest ρ' x hq s' hs'

/-- A computation that moves no object. -/
theorem bind_still {f : α → EStateM Fault σ β} {P : α → Prop} {S : Matching → β → Prop}
    (first : Stowing I lax ρ m fun ρ' x => ρ' = ρ ∧ P x)
    (rest : ∀ x, P x → Stowing I lax ρ (f x) S) : Stowing I lax ρ (m >>= f) S := by
  refine first.bind ?_
  rintro _ x ⟨rfl, h⟩
  exact rest x h

theorem ite {p : Prop} [Decidable p] {n : EStateM Fault σ α} (pos : p → Stowing I lax ρ m Q)
    (neg : ¬p → Stowing I lax ρ n Q) : Stowing I lax ρ (if p then m else n) Q :=
  fun s hs => .ite (fun h => pos h s hs) fun h => neg h s hs

theorem mono {S : Matching → α → Prop} (h : Stowing I lax ρ m Q) (himp : ∀ ρ' x, Q ρ' x → S ρ' x) :
    Stowing I lax ρ m S := by
  refine fun s hs => (h s hs).mono ?_ fun _ _ h => h
  rintro x s' ⟨ρ', hs', hq⟩
  exact ⟨ρ', hs', himp ρ' x hq⟩

variable {F : Value → Prop} {L : Ledger}

/-- What two runs of one computation do from one state, one run does. -/
theorem of_sim {m : ActorM α} {Q : Matching → α → α → Prop}
    (h : Sim (fun ρ a b => a = b ∧ a.Stows F L ρ) (fun _ e _ => e.Dangling → lax) ρ m m Q) :
    Stowing (Actor.Stows F L) lax ρ m fun ρ' x => Q ρ' x x := by
  intro a ha
  refine (h a a ⟨rfl, ha⟩).ends.mono ?_ ?_
  · rintro x b ⟨ρ', ⟨-, hb⟩, hq⟩
    exact ⟨ρ', hb, hq⟩
  · rintro e b ⟨ρ', he, -, hb⟩
    exact ⟨he, ρ', hb⟩

end Stowing

/-! ## Stack and calls -/

namespace Actor.Stows

variable {F : Value → Prop} {L : Ledger} {ρ : Matching} {a : Actor} {v : Value}

theorem setStack (h : a.Stows F L ρ) {vs : Array Value} (hvs : Value.MatchAll ρ vs vs)
    (held : ∀ v ∈ vs, v.Vouched F) : Stows F L ρ { a with stack := vs } :=
  h.of_eq rfl rfl h.idle hvs held

theorem pop (h : a.Stows F L ρ) : Stows F L ρ { a with stack := a.stack.pop } :=
  h.setStack h.stack.pop fun v hv => h.held v (mem_of_mem_pop hv)

theorem push (h : a.Stows F L ρ) (hv : v.Held F ρ v) :
    Stows F L ρ { a with stack := a.stack.push v } := by
  refine h.setStack (h.stack.push hv.alike) fun w hw => ?_
  cases Array.mem_push.mp hw with
  | inl hold => exact h.held w hold
  | inr heq => exact heq ▸ hv.vouched

theorem shrink (h : a.Stows F L ρ) (height : Nat) :
    Stows F L ρ { a with stack := a.stack.shrink height } :=
  h.setStack (h.stack.shrink height) fun v hv => h.held v (mem_of_mem_shrink hv)

theorem setLocal (h : a.Stows F L ρ) (position : Nat) (hv : v.Held F ρ v) :
    Stows F L ρ { a with stack := a.stack.setIfInBounds position v } := by
  refine h.setStack (h.stack.setIfInBounds position hv.alike) fun w hw => ?_
  obtain ⟨i, hi⟩ := Array.mem_iff_getElem?.mp hw
  rw [Array.getElem?_setIfInBounds] at hi
  split at hi
  · split at hi
    · cases hi
      exact hv.vouched
    · cases hi
  · exact h.held w (Array.mem_of_getElem? hi)

/-- Calls hold nothing but positions. -/
theorem setCalls (h : a.Stows F L ρ) (frames : Array Frame) (catches : List CatchPoint)
    (entry : Option Nat) : Stows F L ρ { a with frames, catches, entry } :=
  h.of_eq rfl rfl h.idle h.stack h.held

theorem get (h : a.Stows F L ρ) {i : Nat} (hv : a.stack[i]? = some v) : v.Held F ρ v :=
  ⟨h.stack.get i v v hv hv, h.held v (Array.mem_of_getElem? hv)⟩

theorem getD (h : a.Stows F L ρ) (i : Nat) :
    (a.stack[i]?.getD .nil).Held F ρ (a.stack[i]?.getD .nil) := by
  cases hv : a.stack[i]? with
  | none => exact ⟨.inline rfl, nofun⟩
  | some v => exact h.get hv

theorem top (h : a.Stows F L ρ) : (a.top?.getD .nil).Held F ρ (a.top?.getD .nil) := by
  unfold top?
  rw [Array.back?_eq_getElem?]
  exact h.getD _

theorem loadLocal (h : a.Stows F L ρ) (index : Int) :
    (a.loadLocal index).Held F ρ (a.loadLocal index) := by
  unfold Actor.loadLocal
  cases a.localPosition? index with
  | none => exact ⟨.inline rfl, nofun⟩
  | some position =>
    show (a.stack.getD position .nil).Held F ρ (a.stack.getD position .nil)
    rw [Array.getD_eq_getD_getElem?]
    exact h.getD position

end Actor.Stows

namespace ActorM

variable {F : Value → Prop} {lax : Prop} {L : Ledger} {ρ : Matching}

/-- A computation of an actor that leaves the account of its mailbox alone. -/
abbrev Stowing (F : Value → Prop) (lax : Prop) (L : Ledger) (ρ : Matching) (m : ActorM α)
    (Q : Matching → α → Prop) : Prop :=
  ActorMachine.Stowing (Actor.Stows F L) lax ρ m Q

theorem stowing_get {f : Actor → ActorM α} {Q : Matching → α → Prop}
    (h : ∀ a, a.Stows F L ρ → Stowing F lax L ρ (f a) Q) : Stowing F lax L ρ (get >>= f) Q :=
  fun a ha => h a ha a ha

theorem stowing_modify {f : Actor → Actor} (h : ∀ a, a.Stows F L ρ → (f a).Stows F L ρ) :
    Stowing F lax L ρ (modify f : ActorM Unit) fun ρ' _ => ρ' = ρ ∧ True :=
  fun a ha => .modify ⟨ρ, h a ha, rfl, trivial⟩

theorem stowing_pushRaw {v : Value} (hv : v.Held F ρ v) :
    Stowing F lax L ρ (pushRaw v) fun ρ' _ => ρ' = ρ ∧ True :=
  stowing_modify fun _ h => h.push hv

theorem stowing_push {v : Value} (hv : v.Held F ρ v) :
    Stowing F lax L ρ (push v) fun ρ' _ => ρ' = ρ ∧ True :=
  stowing_get fun _ _ => stowing_get fun _ _ => .ite (fun _ => .throw nofun) fun _ =>
    stowing_pushRaw hv

theorem stowing_pop : Stowing F lax L ρ pop fun ρ' v => ρ' = ρ ∧ v.Held F ρ v := by
  intro a h
  refine (ends_pop a).mono ?_ ?_
  · rintro v _ ⟨-, hv, rfl⟩
    rw [Array.back?_eq_getElem?] at hv
    exact ⟨ρ, h.pop, rfl, h.get hv⟩
  · rintro _ _ ⟨rfl, rfl⟩
    exact ⟨nofun, ρ, h⟩

theorem stowing_truncate (height : Nat) :
    Stowing F lax L ρ (truncate height) fun ρ' _ => ρ' = ρ ∧ True :=
  stowing_modify fun _ h => h.shrink height

theorem stowing_popMany (count : Nat) :
    Stowing F lax L ρ (popMany count) fun ρ' _ => ρ' = ρ ∧ True :=
  stowing_get fun _ _ => .ite (fun _ => .throw nofun) fun _ => stowing_truncate _

theorem stowing_storeLocal (index : Int) {v : Value} (hv : v.Held F ρ v) :
    Stowing F lax L ρ (storeLocal index v) fun ρ' _ => ρ' = ρ ∧ True := by
  refine stowing_get fun a _ => ?_
  cases a.localPosition? index with
  | none => exact .throw nofun
  | some position => exact stowing_modify fun _ h => h.setLocal position hv

theorem stowing_pushFrame (f : FuncRef) (argCount : Nat) :
    Stowing F lax L ρ (pushFrame f argCount) fun ρ' _ => ρ' = ρ ∧ True :=
  stowing_get fun _ _ => stowing_get fun _ _ => .ite (fun _ => .throw nofun) fun _ =>
    stowing_modify fun _ h => h.setCalls _ _ _

theorem stowing_modifyFrame (f : Frame → Frame) :
    Stowing F lax L ρ (modifyFrame f) fun ρ' _ => ρ' = ρ ∧ True :=
  stowing_modify fun _ h => h.setCalls _ _ _

theorem stowing_jump (codeLength : Nat) (displacement : Int) :
    Stowing F lax L ρ (jump codeLength displacement) fun ρ' _ => ρ' = ρ ∧ True := by
  refine stowing_get fun a _ => ?_
  cases a.frames.back? with
  | none => exact .throw nofun
  | some frame => exact .ite (fun _ => .throw nofun) fun _ => stowing_modifyFrame _

theorem stowing_newString (bytes : ByteArray) :
    Stowing F lax L ρ (newString bytes) fun ρ' v => v.Held F ρ' v :=
  .of_sim ((shared_stows F lax L).newString bytes)

theorem stowing_constantValue (c : Constant) :
    Stowing F lax L ρ (Exec.constantValue c) fun ρ' v => v.Held F ρ' v := by
  cases c with
  | integer n => exact .pure ⟨.inline rfl, nofun⟩
  | real x => exact .pure ⟨.inline rfl, nofun⟩
  | text s => exact stowing_newString _

/-! ## Results and reports -/

/-- An element of a tuple is replaced that no message reaches that has been received. -/
theorem stowing_tupleSet {p : Ref} {v : Value} (hp : ρ .tuple p p) (hv : v.Held F ρ v) (i : Int) :
    ActorMachine.Stowing (fun ρ a => a.Stows F L ρ ∧
      a.ReceivedWithin L (a.heap.memory.Apart p)) lax ρ
      (onHeap (HeapM.tupleSet p i v)) fun ρ' _ => ρ' = ρ ∧ True := by
  rintro a ⟨h, κ, still, own, received, clear⟩
  have agree : Heap.Agree F ρ (HeapM.tupleSet p i v) (HeapM.tupleSet p i v) a.heap a.heap _ :=
    HeapM.agree_tupleSet h.iso hp hv.alike fun _ => hv.vouched
  have obj := h.iso.left.isObject ⟨_, hp⟩
  have run : HeapM.tupleSet p i v a.heap = _ := HeapM.tupleSet_eq obj v
  by_cases hi : 0 ≤ i ∧ i < a.heap.memory.lengthAt p
  · rw [if_pos hi] at run
    unfold Heap.Agree Together at agree
    rw [run] at agree
    obtain ⟨written, -⟩ := agree
    have inside := slot_inside (h.iso.left.typed ⟨_, hp⟩)
      (show i.toNat < a.heap.memory.slotsAt p .tuple by rw [Memory.slotsAt]; omega)
    have within := within_storeSlot inside v
    have same : ∀ {s r t}, κ s r t → SameObject a.heap.memory _ t t := fun hrt =>
      within.sameObject (own.right.isObject ⟨_, hrt⟩) (clear hrt)
    unfold Ends
    rw [onHeap_ok run]
    have own' := own.of_same (fun hrt => still hrt ▸ same hrt) same
    refine ⟨ρ, ⟨h.rewritten written (.inr ⟨κ, still, own, received, same⟩), κ, still,
      own', received, fun hrt => ?_⟩, rfl, trivial⟩
    · unfold Apart at clear ⊢
      rw [(same hrt).endAt, endAt, within.sizeAt]
      exact clear hrt
  · rw [if_neg hi] at run
    unfold Ends
    rw [onHeap_error run]
    exact ⟨by rintro ⟨⟩, ρ, h, κ, still, own, received, clear⟩

/-- A pair of an inline value and the top of the stack. -/
theorem stowing_pairWithTop {first : Value} (inline : first.ref? = none)
    (hfirst : first.Vouched F) :
    Stowing F lax L ρ (pairWithTop first) fun ρ' v => v.Held F ρ' v := by
  intro a h
  have hnew : Ends (newTupleRef 2) a
      (fun p b => ∃ ρ', b.Stows F L ρ' ∧ ρ' .tuple p p ∧ b.ReceivedWithin L (b.heap.memory.Apart p))
      fun e b => ¬e.Dangling ∧ ∃ ρ', b.Stows F L ρ' := by
    rw [newTupleRef, alloc, bind_assoc]
    refine (h.ends_making (makes_tuple 2)).mono ?_ fun _ _ h => h
    rintro _ b ⟨ρ', p, h', hp, rfl, clear⟩
    exact ⟨ρ', h', hp, clear⟩
  cases run : newTupleRef 2 a with
  | ok p b =>
    obtain ⟨ρ', h', hp, clear⟩ := hnew.of_ok run
    have fill : ActorMachine.Stowing (fun ρ a => a.Stows F L ρ ∧
      a.ReceivedWithin L (a.heap.memory.Apart p))
        lax ρ' (fillPair p first) fun ρ'' v => v.Held F ρ'' v := by
      refine Stowing.bind_still (P := fun v => v.Held F ρ' v) ?_ fun second hsecond => ?_
      · rintro c ⟨hc, clear⟩
        exact .bind <| .get <| .bind <| .modify <| .pure ⟨ρ', ⟨hc.pop, clear⟩, rfl, hc.top⟩
      · exact (stowing_tupleSet hp ⟨.inline inline, hfirst⟩ 0).bind_still fun _ _ =>
          (stowing_tupleSet hp hsecond 1).bind_still fun _ _ => .pure (.object hp)
    refine .of_eq (pairWithTop_of_ok run first) ((fill b ⟨h', clear⟩).mono ?_ ?_)
    · rintro v c ⟨ρ'', ⟨hc, -⟩, hv⟩
      exact ⟨ρ'', hc, hv⟩
    · rintro e c ⟨he, ρ'', hc, -⟩
      exact ⟨he, ρ'', hc⟩
  | error e b =>
    obtain ⟨hplain, ρ', h'⟩ := hnew.of_error run
    unfold Ends
    rw [pairWithTop_of_error run]
    exact ⟨fun hd => absurd hd hplain, ρ', h'.pop⟩

theorem stowing_settleAll (points : List CatchPoint) :
    Stowing F lax L ρ (settleAll points) fun _ _ => True := by
  induction points generalizing ρ with
  | nil => exact .pure trivial
  | cons point outer ih =>
    refine stowing_get fun a _ => .ite (fun _ => ?_) fun _ => .pure trivial
    refine (stowing_modify fun _ h => h.setCalls _ _ _).bind_still fun _ _ => ?_
    exact (stowing_pairWithTop rfl nofun).bind fun _ _ hv =>
      (stowing_pushRaw hv).bind_still fun _ _ => ih

theorem stowing_settle : Stowing F lax L ρ settle fun _ _ => True :=
  (stowing_modify fun _ h => h.setCalls _ _ _).bind_still fun _ _ =>
    stowing_get fun _ _ => stowing_settleAll _

theorem stowing_leaveResult (height : Nat) {v : Value} (hv : v.Held F ρ v) :
    Stowing F lax L ρ (leaveResult height v) fun _ _ => True :=
  (stowing_truncate height).bind_still fun _ _ => (stowing_pushRaw hv).bind_still fun _ _ =>
    stowing_settle

theorem stowing_afterReturn : Stowing F lax L ρ afterReturn fun _ _ => True :=
  stowing_get fun _ _ => .pure trivial

theorem stowing_returnFromCall : Stowing F lax L ρ returnFromCall fun _ _ => True := by
  refine stowing_get fun a _ => ?_
  cases a.frames.back? with
  | none => exact .throw nofun
  | some frame =>
    refine (stowing_modify fun _ h => h.setCalls _ _ _).bind_still fun _ _ =>
      stowing_get fun a ha => ?_
    refine (stowing_leaveResult _ ?_).bind fun _ _ _ => stowing_afterReturn
    split
    · exact ha.top
    · exact ⟨.inline rfl, nofun⟩

theorem stowing_reportAt (point : CatchPoint) (fault : Fault) :
    Stowing F lax L ρ (reportAt point fault) fun _ _ => True := by
  refine (stowing_modify fun a h => ?_).bind_still fun _ _ => ?_
  · exact h.of_eq rfl rfl rfl h.stack h.held
  · refine (stowing_truncate _).bind_still fun _ _ => (stowing_newString _).bind fun _ _ hv => ?_
    refine (stowing_pushRaw hv).bind_still fun _ _ =>
      (stowing_pairWithTop rfl nofun).bind fun _ _ hv => ?_
    exact (stowing_pushRaw hv).mono fun _ _ _ => trivial

end ActorM

/-- Reporting a fault does not concern the mailbox. -/
theorem Actor.Stows.recoverAt {F : Value → Prop} {L : Ledger} {ρ : Matching} {a : Actor}
    (h : a.Stows F L ρ) (fault : Fault) (points : List CatchPoint) :
    ∃ ρ', (a.recoverAt fault points).2.Stows F L ρ' := by
  induction points generalizing a ρ with
  | nil => exact ⟨ρ, h⟩
  | cons point outer ih =>
    have stowing : ActorM.Stowing F True L ρ (ActorM.reportAt point fault) fun _ _ => True :=
      ActorM.stowing_reportAt point fault
    have hreport := stowing _ (h.setCalls a.frames outer a.entry)
    unfold Actor.recoverAt
    cases run : ActorM.reportAt point fault { a with catches := outer } with
    | ok u b =>
      obtain ⟨ρ', h', -⟩ := hreport.of_ok run
      exact ⟨ρ', h'⟩
    | error e b =>
      obtain ⟨-, ρ', h'⟩ := hreport.of_error run
      exact ih h'

/-! ## What is relied on -/

/-- What a loader does for the functions and natives that `F` vouches for: the code that it gives
out hands out no others, and what it does not have is not vouched for, unless `lax` says so. -/
structure Loader.Backs (l : Loader) (F : Value → Prop) (lax : Prop) : Prop where
  inline : l.Inline
  imports : ∀ {f p}, l.prototype f = .ok p → ∀ v ∈ p.imports, v.Vouched F
  nested : ∀ {f p}, l.prototype f = .ok p → ∀ position ∈ p.nested,
    F (.function { f with proto := UInt32.ofNat position })
  function : ∀ {f e}, F (.function f) → l.prototype f = .error e → lax
  native : ∀ {id}, F (.native id) → l.natives.get? id.toNat = none → lax

/-- A world in which `W` holds keeps it when it gets nothing but what `F` vouches for, and finds all
functions, unless `lax` says so. -/
structure Kernel.Trusts {κ : Type} [Kernel κ] (F : Value → Prop) (lax : Prop)
    (W : κ → Prop) : Prop where
  send : ∀ {k : κ} {x : Letter}, W k → x.source.Bounded → x.Vouched F → ∀ target,
    Ends (Kernel.send target x.message x.source) k (fun _ k' => W k')
      fun e k' => (e.Dangling → lax) ∧ W k'
  spawn : ∀ {k : κ} {ρ : Matching} {h : Heap} {callee : Value} {args : List Value},
    W k → h.Bounded →
    Iso ρ h.memory h.memory → (h.memory.Vouched F fun s r => ∃ t, ρ s r t) →
    callee.Held F ρ callee →
    Value.MatchList ρ args args → (∀ v ∈ args, v.Vouched F) →
    Ends (Kernel.spawn callee args h) k (fun _ k' => W k') fun e k' => (e.Dangling → lax) ∧ W k'
  kill : ∀ {k : κ}, W k → ∀ target,
    Ends (Kernel.kill target) k (fun _ k' => W k') fun e k' => (e.Dangling → lax) ∧ W k'

/-- Nothing is relied on where nothing is asked for. -/
theorem Kernel.Trusts.of_lax {κ : Type} [Kernel κ] {F : Value → Prop} :
    Kernel.Trusts F True fun _ : κ => True where
  send _ _ _ _ := .intro (fun _ _ _ => trivial) fun _ _ _ => ⟨fun _ => trivial, trivial⟩
  spawn _ _ _ _ _ _ _ := .intro (fun _ _ _ => trivial) fun _ _ _ => ⟨fun _ => trivial, trivial⟩
  kill _ _ := .intro (fun _ _ _ => trivial) fun _ _ _ => ⟨fun _ => trivial, trivial⟩

/-- A running actor that agrees with the account of its mailbox, in a world of which `W` holds. -/
structure Session.Stows {κ : Type} (F : Value → Prop) (W : κ → Prop) (L : Ledger) (ρ : Matching)
    (s : Session κ) : Prop where
  actor : s.actor.Stows F L ρ
  kernel : W s.kernel

/-! ## Natives, calls and instructions -/

/-- A computation of a running actor that leaves the account of its mailbox alone. -/
abbrev Exec.Stowing {κ : Type} (F : Value → Prop) (lax : Prop) (W : κ → Prop) (L : Ledger)
    (ρ : Matching) (m : Exec κ α) (Q : Matching → α → Prop) : Prop :=
  ActorMachine.Stowing (Session.Stows F W L) lax ρ m Q

namespace Exec

variable {κ : Type} {F : Value → Prop} {lax : Prop} {W : κ → Prop} {L : Ledger} {ρ : Matching}

theorem stowing_onActor {m : ActorM α} {Q : Matching → α → Prop}
    (h : ActorM.Stowing F lax L ρ m Q) :
    Stowing F lax W L ρ (onActor m) Q := by
  refine fun s hs => Exec.ends_onActor ((h s.actor hs.actor).mono ?_ ?_)
  · rintro x a ⟨ρ', ha, hq⟩
    exact ⟨ρ', ⟨ha, hs.kernel⟩, hq⟩
  · rintro e a ⟨he, ρ', ha⟩
    exact ⟨he, ρ', ha, hs.kernel⟩

/-- What is done to the world leaves the actor as it is. -/
theorem stowing_onKernel {m : Heap → EStateM Fault κ α}
    (h : ∀ s : Session κ, s.Stows F W L ρ → Ends (m s.actor.heap) s.kernel (fun _ k => W k)
      fun e k => (e.Dangling → lax) ∧ W k) :
    Stowing F lax W L ρ (onKernel m) fun ρ' _ => ρ' = ρ ∧ True := by
  refine fun s hs => ends_onKernel ((h s hs).mono ?_ ?_)
  · exact fun _ _ hk => ⟨ρ, ⟨hs.actor, hk⟩, rfl, trivial⟩
  · exact fun _ _ hk => ⟨hk.1, ρ, hs.actor, hk.2⟩

theorem stowing_actor {f : Actor → Exec κ α} {Q : Matching → α → Prop}
    (h : ∀ a, a.Stows F L ρ → Stowing F lax W L ρ (f a) Q) : Stowing F lax W L ρ (actor >>= f) Q :=
  fun s hs => h s.actor hs.actor s hs

theorem stowing_ofResult {result : Except Fault α}
    (he : ∀ e, result = .error e → e.Dangling → lax) :
    Stowing F lax W L ρ (ofResult result : Exec κ α) fun ρ' _ => ρ' = ρ ∧ True := by
  cases result with
  | ok x => exact .pure ⟨rfl, trivial⟩
  | error e => exact .throw (he e rfl)

theorem stowing_element (kind : IndexKind) (items : Array α) (index : Int) :
    Stowing F lax W L ρ (element kind items index : Exec κ α) fun ρ' x => ρ' = ρ ∧ x ∈ items := by
  unfold element
  split
  · rename_i x hx
    refine .pure ⟨rfl, ?_⟩
    split at hx
    · cases hx
    · exact Array.mem_of_getElem? hx
  · exact .throw nofun

theorem stowing_countOperand (payload : Int) :
    Stowing F lax W L ρ (countOperand payload : Exec κ Nat) fun ρ' _ => ρ' = ρ ∧ True :=
  .ite (fun _ => .throw nofun) fun _ => .pure ⟨rfl, trivial⟩

/-- An instruction that only goes on after what it does. -/
theorem stowing_proceed {m : Exec κ Unit} {Q : Matching → Unit → Prop}
    (h : Stowing F lax W L ρ m Q) :
    Stowing F lax W L ρ (do m; return Signal.proceed) fun _ _ => True :=
  h.bind fun _ _ _ => .pure trivial

theorem stowing_finishNative (height : Nat) {x : Answer} (hx : x.result.Held F ρ x.result) :
    Stowing F lax W L ρ (finishNative height x : Exec κ Signal) fun _ _ => True := by
  refine (stowing_onActor (ActorM.stowing_leaveResult height hx)).bind fun _ _ _ => ?_
  cases x with
  | value v => exact stowing_onActor ActorM.stowing_afterReturn
  | giveTurn => exact .pure trivial
  | exit => exact .pure trivial

variable [Kernel κ] (trusts : Kernel.Trusts F lax W)

theorem stowing_self {f : Pid → Exec κ α} {Q : Matching → α → Prop}
    (h : ∀ self, Stowing F lax W L ρ (f self) Q) : Stowing F lax W L ρ (self >>= f) Q :=
  fun s hs => h (Kernel.self s.kernel) s hs

include trusts

/-- No native leads to a message that has not been received, or to a function that is not vouched
for. -/
theorem stowing_run (op : Operation) (spent : op.Writes → L.Spent) (height count : Nat) :
    Stowing F lax W L ρ (op.run (.below height count) : Exec κ Answer)
      fun ρ' x => x.result.Held F ρ' x.result := by
  have shared := ActorM.shared_stows F lax L
  have hargs := Arguments.agree_below (F := F) (R := fun ρ a b => a = b ∧ a.Stows F L ρ)
    (E := fun _ e _ => e.Dangling → lax) (fun h => h.1 ▸ h.2.stack) (fun h => h.2.held) height count
  by_cases worldly : op.Worldly
  · obtain rfl | rfl | rfl | rfl | rfl := worldly
    · exact stowing_self fun self => .pure ⟨.inline rfl, nofun⟩
    · refine Stowing.bind (Q := fun _ v => v.ref? = none ∧ ¬v.isCallable) ?_ fun _ _ hv =>
        .pure ⟨.inline hv.1, fun h => absurd h hv.2⟩
      refine (stowing_onActor (.of_sim (Arguments.same_atLeast shared 1))).bind_still fun _ _ => ?_
      refine (stowing_onActor (.of_sim (Arguments.same_get hargs 0))).bind_still
        fun callee hcallee => ?_
      refine (stowing_onActor (.of_sim (Arguments.same_rest hargs 1))).bind_still
        fun rest hrest => ?_
      refine (stowing_onKernel fun s hs => ?_).bind_still fun _ _ => .pure ⟨rfl, nofun⟩
      exact trusts.spawn hs.kernel hs.actor.bounded hs.actor.iso hs.actor.objects hcallee
        hrest.1 hrest.2
    · exact .pure ⟨.inline rfl, nofun⟩
    · exact .pure ⟨.inline rfl, nofun⟩
    · refine (stowing_onActor (.of_sim (Arguments.same_pid shared hargs 0))).bind_still
        fun target _ => ?_
      refine stowing_self fun self => .ite (fun _ => .pure ⟨.inline rfl, nofun⟩) fun _ => ?_
      exact (stowing_onKernel fun s hs => trusts.kill hs.kernel target).bind_still fun _ _ =>
        .pure ⟨.inline rfl, nofun⟩
  · obtain ⟨m, hrun, hm⟩ := op.exists_native (κ := κ) shared hargs worldly spent
    rw [hrun]
    exact (stowing_onActor (.of_sim (hm ρ))).bind fun _ _ hv => .pure hv

variable {l : Loader} (backs : l.Backs F lax)

include backs

/-- A call leaves the account alone, if what it comes to writes to no objects or everything may have
been changed already, and what becomes of a protected call does so. -/
theorem stows_call (argCount : Nat) {protect : Nat → Exec κ Signal} {s : Session κ}
    (h : s.Stows F W L ρ) (spent : ∀ v op, s.actor.stack.back? = some v →
      l.builtin? v = some (.operation op) → op.Writes → L.Spent)
    (hprotect : ∀ v height, s.actor.stack.back? = some v → l.builtin? v = some .protectedCall →
      Ends (protect height) ⟨{ s.actor with stack := s.actor.stack.pop }, s.kernel⟩
        (fun _ s' => ∃ ρ', s'.Stows F W L ρ') fun e s' => (e.Dangling → lax) ∧
          ∃ ρ', s'.Stows F W L ρ') :
    Ends (call l argCount protect) s (fun _ s' => ∃ ρ', s'.Stows F W L ρ')
      fun e s' => (e.Dangling → lax) ∧ ∃ ρ', s'.Stows F W L ρ' := by
  have of_stowing : ∀ {α : Type} {m : Exec κ α} {Q : Matching → α → Prop} {t : Session κ},
      Exec.Stowing F lax W L ρ m Q → t.Stows F W L ρ →
      Ends m t (fun _ s' => ∃ ρ', s'.Stows F W L ρ') fun e s' => (e.Dangling → lax) ∧
        ∃ ρ', s'.Stows F W L ρ' :=
    fun hm ht => (hm _ ht).mono (fun _ _ ⟨ρ', h', _⟩ => ⟨ρ', h'⟩) fun _ _ h => h
  refine .bind <| ends_onActor <| (ActorM.ends_pop s.actor).mono ?_ ?_
  · rintro callee a ⟨-, hback, rfl⟩
    have hcallee : callee.Held F ρ callee := h.actor.get (by rwa [Array.back?_eq_getElem?] at hback)
    have hpopped : Session.Stows F W L ρ ⟨{ s.actor with stack := s.actor.stack.pop }, s.kernel⟩ :=
      ⟨h.actor.pop, h.kernel⟩
    refine .bind <| (ends_actor _).mono ?_ fun _ _ h => h.elim
    rintro a t ⟨rfl, rfl⟩
    refine .ite (fun _ => .bind <| .throw ⟨nofun, ρ, hpopped⟩) fun _ => ?_
    cases callee with
    | function f =>
      refine of_stowing (Q := fun _ _ => True) ?_ hpopped
      refine (stowing_ofResult fun e he _ => backs.function (hcallee.vouched rfl) he).bind_still
        fun _ _ => ?_
      exact (stowing_onActor (ActorM.stowing_pushFrame f argCount)).bind_still fun _ _ =>
        .pure trivial
    | native id =>
      dsimp only
      cases hentry : l.natives.get? id.toNat with
      | none => exact .throw ⟨fun _ => backs.native (hcallee.vouched rfl) hentry, ρ, hpopped⟩
      | some entry =>
        have hbuiltin : l.builtin? (.native id) = some entry.builtin := by
          rw [Loader.builtin?, hentry]
          rfl
        dsimp only
        cases hentry' : entry.builtin with
        | operation op =>
          rw [hentry'] at hbuiltin
          refine of_stowing (Q := fun _ _ => True) ?_ hpopped
          exact (stowing_run trusts op (spent _ op hback hbuiltin) _ _).bind fun _ _ hx =>
            stowing_finishNative _ hx
        | protectedCall =>
          rw [hentry'] at hbuiltin
          exact hprotect _ _ hback hbuiltin
    | _ => exact .throw ⟨nofun, ρ, hpopped⟩
  · rintro _ _ ⟨rfl, rfl⟩
    exact ⟨nofun, ρ, h⟩

/-- A call leaves the account alone, if it comes to nothing that writes to objects or everything may
have been changed already. -/
theorem stows_invoke (argCount : Nat) {s : Session κ} (h : s.Stows F W L ρ)
    (spent : ∀ op, l.comesTo? argCount s.actor.stack.toList.reverse = some op →
      op.Writes → L.Spent) :
    Ends (invoke l argCount) s (fun _ s' => ∃ ρ', s'.Stows F W L ρ')
      fun e s' => (e.Dangling → lax) ∧ ∃ ρ', s'.Stows F W L ρ' := by
  -- The callee is on top of what remains when it has been taken away.
  have values : ∀ {stack : Array Value} {v : Value}, stack.back? = some v →
      stack.toList.reverse = v :: stack.pop.toList.reverse := by
    intro stack v hback
    obtain ⟨init, rfl⟩ := Array.back?_eq_some_iff.mp hback
    simp
  have operation : ∀ {argCount : Nat} {s : Session κ},
      (∀ op, l.comesTo? argCount s.actor.stack.toList.reverse = some op → op.Writes → L.Spent) →
      ∀ v op, s.actor.stack.back? = some v → l.builtin? v = some (.operation op) → op.Writes →
        L.Spent := by
    intro argCount s spent v op hback hbuiltin
    refine spent op ?_
    rw [values hback, Loader.comesTo?_of_operation hbuiltin]
  induction argCount generalizing s with
  | zero =>
    unfold invoke
    exact stows_call trusts backs 0 h (operation spent) fun _ _ _ _ =>
      .throw ⟨by rintro ⟨⟩, ρ, h.actor.pop, h.kernel⟩
  | succ n ih =>
    unfold invoke
    refine stows_call trusts backs (n + 1) h (operation spent) fun v height hback hbuiltin => ?_
    refine .bind <| ends_onActor <| .modify <| ih ⟨h.actor.pop.setCalls _ _ _, h.kernel⟩
      fun op hop => ?_
    refine spent op ?_
    rw [values hback, Loader.comesTo?_of_protectedCall hbuiltin]
    exact hop

end Exec

/-- The operations that concern a mailbox. -/
def Opcode.Mails (op : Opcode) : Prop :=
  op = .snd ∨ op = .rcv ∨ op = .rmv ∨ op = .rwd

/-- All other operations but calls leave the account of the mailbox alone. -/
theorem Exec.stowing_execute {κ : Type} [Kernel κ] {F : Value → Prop} {lax : Prop} {W : κ → Prop}
    {L : Ledger} {ρ : Matching} {l : Loader} (backs : l.Backs F lax)
    {f : FuncRef} {p : LinkedPrototype} (hp : l.prototype f = .ok p) {op : Opcode}
    (other : ¬op.Mails) (uncalled : op ≠ .ivk) (payload : Int) :
    Stowing F lax W L ρ (execute l f p op payload : Exec κ Signal) fun _ _ => True := by
  have push : ∀ {ρ : Matching} {v : Value}, v.Held F ρ v → Stowing F lax W L ρ
      (do onActor (ActorM.push v); return Signal.proceed : Exec κ Signal) fun _ _ => True :=
    fun hv => stowing_proceed (stowing_onActor (ActorM.stowing_push hv))
  cases op with
  | snd | rcv | rmv | rwd => exact absurd (by simp [Opcode.Mails]) other
  | nop => exact .pure trivial
  | pop =>
    exact (stowing_countOperand payload).bind_still fun count _ =>
      stowing_proceed (stowing_onActor (ActorM.stowing_popMany count))
  | ldk =>
    refine (stowing_element _ _ _).bind_still fun c _ => ?_
    exact (stowing_onActor (ActorM.stowing_constantValue c)).bind fun _ _ => push
  | nil => exact push ⟨.inline rfl, nofun⟩
  | ldb => exact push ⟨.inline rfl, nofun⟩
  | lsi => exact push ⟨.inline rfl, nofun⟩
  | llv => exact stowing_actor fun a h => push (h.loadLocal payload)
  | slv =>
    exact (stowing_onActor ActorM.stowing_pop).bind_still fun v hv =>
      stowing_proceed (stowing_onActor (ActorM.stowing_storeLocal payload hv))
  | imp =>
    exact (stowing_element _ _ _).bind_still fun v hv =>
      push ⟨.inline (backs.inline f p hp v hv), backs.imports hp v hv⟩
  | cls =>
    exact (stowing_element _ _ _).bind_still fun position hposition =>
      push ⟨.inline rfl, fun _ => backs.nested hp position hposition⟩
  | jmp => exact stowing_proceed (stowing_onActor (ActorM.stowing_jump _ _))
  | jin =>
    refine (stowing_onActor ActorM.stowing_pop).bind_still fun v _ => .ite (fun _ => ?_) fun _ => ?_
    · exact stowing_proceed (stowing_onActor (ActorM.stowing_jump _ _))
    · exact .pure trivial
  | ivk => exact absurd rfl uncalled
  | ret => exact stowing_onActor ActorM.stowing_returnFromCall

end ActorMachine
