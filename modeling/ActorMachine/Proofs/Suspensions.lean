import ActorMachine.Proofs.Courses
import ActorMachine.Proofs.Equivalence
import ActorMachine.Proofs.Nesting
import ActorMachine.Proofs.WellFormed
import ActorMachine.Proofs.Worlds

/-!
# Receives that are suspended

A receive that finds no message takes its timeout from the stack and is finished in a later turn of
the actor, by other code. What comes in between does not see that the actor is blocked: every
delivery, whether or not it collects the heap, commutes with giving the actor back its timeout and
its place in the code (`Session.Delivery.blind`). So a receive that was suspended leaves the very
actor that an immediate one would have left after the same deliveries (`Session.suspended_receive`).
-/

namespace ActorMachine

/-- The actor as it was before it was blocked in a receive: its timeout is on the stack. -/
def Actor.unblocked (timeout : Value) (frames : Array Frame) (a : Actor) : Actor :=
  { a with stack := a.stack.push timeout, frames, pendingReceive := none }

/-- Attempted deliveries, one after the other. Some of them may fail. -/
def Actor.after (a : Actor) (attempts : List (ActorM Unit)) : Actor :=
  attempts.foldl (fun a m => leaves m a) a

/-! ## Collections with a timeout among the roots -/

namespace Evacuation

/-- The values that are moved do not depend on those that have been moved before. -/
theorem foldl_move (values : List Value) (moved : Array Value) (e : Evacuation) :
    values.foldl (fun acc v => (acc.1.push (acc.2.move v).1, (acc.2.move v).2)) (moved, e) =
      (moved ++ (values.foldl (fun acc v => (acc.1.push (acc.2.move v).1, (acc.2.move v).2))
        (#[], e)).1,
        (values.foldl (fun acc v => (acc.1.push (acc.2.move v).1, (acc.2.move v).2))
          (#[], e)).2) := by
  induction values generalizing moved e with
  | nil => simp
  | cons v values ih =>
    rw [List.foldl_cons, List.foldl_cons, ih, ih (#[].push _)]
    simp

/-- An inline value stays what it is, and leaves the memories as they are. -/
theorem move_of_inline {v : Value} (inline : v.ref? = none) (e : Evacuation) :
    e.move v = (v, e) := by
  cases v with
  | object s r => cases inline
  | _ => rfl

/-- An inline value among others makes no difference to these. -/
theorem moveAll_insert {v : Value} (inline : v.ref? = none) (e : Evacuation)
    (before after : Array Value) :
    ∃ before' after' e', before'.size = before.size ∧
      e.moveAll (before ++ after) = (before' ++ after', e') ∧
      e.moveAll (before.push v ++ after) = (before'.push v ++ after', e') := by
  have hsize := size_moveAll e before
  have hempty : ∀ n, (Array.emptyWithCapacity n : Array Value) = #[] := fun _ => rfl
  rw [moveAll_eq, hempty] at hsize
  generalize hbefore : before.toList.foldl
    (fun acc v => (acc.1.push (acc.2.move v).1, (acc.2.move v).2))
    ((#[] : Array Value), e) = moved at hsize
  obtain ⟨before', e₁⟩ := moved
  generalize hafter : after.toList.foldl
    (fun acc v => (acc.1.push (acc.2.move v).1, (acc.2.move v).2))
    ((#[] : Array Value), e₁) = moved
  refine ⟨before', moved.1, moved.2, hsize, ?_, ?_⟩
  · rw [moveAll_eq, hempty, Array.toList_append, List.foldl_append, hbefore, foldl_move, hafter]
  · rw [moveAll_eq, hempty, Array.toList_append, List.foldl_append, Array.toList_push,
      List.foldl_append,
      hbefore, List.foldl_cons, List.foldl_nil, move_of_inline inline, foldl_move, hafter]

end Evacuation

/-- A collection does the same with an inline value among the roots, which stays where it is. -/
theorem Rooted.compact_insert {v : Value} (inline : v.ref? = none) (h : Heap)
    (before after : Array Value) :
    ∃ before' after' h', before'.size = before.size ∧
      compact ⟨h, before ++ after⟩ = ⟨h', before' ++ after'⟩ ∧
      compact ⟨h, before.push v ++ after⟩ = ⟨h', before'.push v ++ after'⟩ := by
  obtain ⟨before', after', e, hsize, hmoved, hmoved'⟩ :=
    Evacuation.moveAll_insert inline ⟨h.memory, ByteArray.empty⟩ before after
  refine ⟨before', after', (compact ⟨h, before ++ after⟩).heap, hsize, ?_, ?_⟩
  · unfold compact
    simp only [hmoved]
  · unfold compact
    simp only [hmoved, hmoved']

namespace ActorM

variable {timeout : Value} {frames : Array Frame}

/-- What the computation does is the same before and after the actor is blocked. -/
abbrev Blind (timeout : Value) (frames : Array Frame) (m : ActorM α) : Prop :=
  Sim (fun (_ : Unit) a b => b = a.unblocked timeout frames) (fun _ e e' => e' = e) () m m
    fun _ x y => y = x

theorem blind_onHeap (m : HeapM α) : Blind timeout frames (onHeap m) := by
  rintro a _ rfl
  have hheap : (a.unblocked timeout frames).heap = a.heap := rfl
  cases run : m a.heap with
  | ok x h => exact .ok_ok (onHeap_ok run) (onHeap_ok (hheap ▸ run)) ⟨(), rfl, rfl⟩
  | error e h => exact .error_error (onHeap_error run) (onHeap_error (hheap ▸ run)) ⟨(), rfl, rfl⟩

/-- A collection finds the same objects with the timeout on the stack. -/
theorem blind_collect (inline : timeout.ref? = none) (request : Nat) :
    Blind timeout frames (collect request) := by
  rintro a _ rfl
  obtain ⟨stack, messages, h, hsize, hcompact, hcompact'⟩ :=
    Rooted.compact_insert inline a.heap a.stack a.mailbox.messages
  have hback : ∀ (h : Heap), (a.unblocked timeout frames).withRooted
    ⟨h, stack.push timeout ++ messages⟩ =
      (a.withRooted ⟨h, stack ++ messages⟩).unblocked timeout frames := by
    intro h
    unfold Actor.unblocked Actor.withRooted
    simp [← hsize]
  unfold Together collect Actor.roots
  rw [RootedM.collect_eq, RootedM.collect_eq]
  unfold Rooted.collected Actor.unblocked
  dsimp only
  rw [hcompact, hcompact']
  by_cases full : a.heap.grownCapacity h.used request < h.used + request
  · rw [if_pos full, if_pos full]
    exact ⟨(), rfl, hback _⟩
  · rw [if_neg full, if_neg full]
    exact ⟨(), hback _, rfl⟩

theorem blind_reserve (inline : timeout.ref? = none) (bytes : Nat) :
    Blind timeout frames (reserve bytes) := by
  rintro a _ rfl
  refine .bind <| .get <| .ite Iff.rfl (fun _ => ?_) fun _ => .pure ⟨(), rfl, rfl⟩
  exact blind_collect inline bytes a _ rfl

theorem blind_newString (inline : timeout.ref? = none) (bytes : ByteArray) :
    Blind timeout frames (newString bytes) := by
  refine Sim.bind (Q := fun _ x y => y = x) ?_ ?_
  · exact (blind_reserve inline _).bind fun _ _ _ _ => blind_onHeap _
  · rintro _ _ r rfl
    exact (blind_onHeap _).bind fun _ _ _ _ => .pure rfl

theorem blind_checkMailbox (self : Pid) : Blind timeout frames (checkMailbox self) := by
  rintro a _ rfl
  exact .bind <| .get <| .ite Iff.rfl (fun _ => .throw ⟨(), rfl, rfl⟩) fun _ => .pure ⟨(), rfl, rfl⟩

theorem blind_pushMessage (v : Value) : Blind timeout frames (pushMessage v) := by
  rintro a _ rfl
  exact .modify ⟨(), rfl, rfl⟩

theorem blind_ofHeap (result : Except HeapError α) : Blind timeout frames (ofHeap result) := by
  cases result with
  | ok x => exact .pure rfl
  | error e => exact .throw rfl

theorem blind_deliver (inline : timeout.ref? = none) (self : Pid) (source : Heap)
    (message : Value) :
    Blind timeout frames (deliver self source message) := by
  refine (blind_checkMailbox self).bind fun _ _ _ _ => .ite Iff.rfl (fun _ => ?_) fun _ =>
    blind_pushMessage _
  refine (blind_ofHeap _).bind ?_
  rintro _ _ need rfl
  refine (blind_reserve inline need).bind fun _ _ _ _ => (blind_onHeap _).bind ?_
  rintro _ _ copy rfl
  exact blind_pushMessage copy

theorem blind_deliverLocal (inline : timeout.ref? = none) (self : Pid) (message : Value) :
    Blind timeout frames (deliverLocal self message) := by
  refine .ite Iff.rfl (fun _ => ?_) fun _ => (blind_checkMailbox self).bind fun _ _ _ _ =>
    blind_pushMessage _
  rintro a _ rfl
  refine .bind <| .get ?_
  show Together _ _ a (a.unblocked timeout frames) _ _
  refine Sim.bind (Q := fun _ x y => y = x) (blind_ofHeap _) ?_ a _ rfl
  rintro _ _ need rfl
  show Blind timeout frames _
  split
  · exact blind_deliver inline self _ _
  · exact .throw rfl

theorem blind_deliverBytes (inline : timeout.ref? = none) (self : Pid) (bytes : ByteArray) :
    Blind timeout frames (deliverBytes self bytes) := by
  refine (blind_checkMailbox self).bind fun _ _ _ _ => (blind_newString inline bytes).bind ?_
  rintro _ _ v rfl
  exact blind_pushMessage v

end ActorM

/-! ## Deliveries in between -/

section Deliveries

variable {timeout : Value} {frames : Array Frame} {attempts : List (ActorM Unit)}

/-- A message comes to an actor that is blocked as it would have come before. -/
theorem Session.Delivery.blind {m : ActorM Unit} (delivery : Delivery m)
    (inline : timeout.ref? = none) :
    ActorM.Blind timeout frames m := by
  cases delivery with
  | copy => exact ActorM.blind_deliver inline _ _ _
  | own => exact ActorM.blind_deliverLocal inline _ _
  | bytes => exact ActorM.blind_deliverBytes inline _ _

/-- Deliveries commute with giving the actor back what it was blocked with. -/
theorem Actor.after_unblocked (inline : timeout.ref? = none)
    (deliveries : ∀ m ∈ attempts, Session.Delivery m) (a : Actor) :
    (a.unblocked timeout frames).after attempts = (a.after attempts).unblocked timeout frames := by
  induction attempts generalizing a with
  | nil => rfl
  | cons m attempts ih =>
    obtain ⟨delivery, deliveries⟩ := List.forall_mem_cons.mp deliveries
    have h := (delivery.blind inline : ActorM.Blind timeout frames m) a _ rfl
    have hstep : leaves m (a.unblocked timeout frames) = (leaves m a).unblocked timeout frames := by
      unfold leaves
      cases run : m a with
      | ok _ b =>
        obtain ⟨_, _, run', ⟨_, rfl, -⟩⟩ := h.of_ok run
        rw [run']
      | error e b =>
        obtain ⟨_, _, run', ⟨_, -, rfl⟩⟩ := h.of_error run
        rw [run']
    show (leaves m (a.unblocked timeout frames)).after attempts = _
    rw [hstep]
    exact ih deliveries _

/-- Attempted deliveries change nothing of the outline but that there are more messages. -/
theorem Actor.outline_after (deliveries : ∀ m ∈ attempts, Session.Delivery m) (a : Actor) :
    ∃ more, (a.after attempts).outline =
      { a.outline with messages := a.outline.messages + more } := by
  induction attempts generalizing a with
  | nil => exact ⟨0, rfl⟩
  | cons m attempts ih =>
    obtain ⟨delivery, deliveries⟩ := List.forall_mem_cons.mp deliveries
    obtain ⟨more, hmore⟩ := ih deliveries (leaves m a)
    have hstep := delivery.delivers a
    unfold Actor.after at hmore ⊢
    rw [List.foldl_cons, hmore]
    unfold leaves
    cases run : m a with
    | ok _ b =>
      rw [(hstep.of_ok run).2]
      exact ⟨1 + more, by rw [Nat.add_assoc]⟩
    | error e b =>
      rw [hstep.of_error run]
      exact ⟨more, rfl⟩

/-- Where all deliveries succeed, there are as many more messages. -/
theorem Actor.after_of_forM (deliveries : ∀ m ∈ attempts, Session.Delivery m) {a b : Actor}
    (run : attempts.forM id a = .ok () b) :
    a.after attempts = b ∧ b.mailbox.size = a.mailbox.size + attempts.length := by
  induction attempts generalizing a with
  | nil =>
    cases run
    exact ⟨rfl, rfl⟩
  | cons m attempts ih =>
    obtain ⟨delivery, deliveries⟩ := List.forall_mem_cons.mp deliveries
    change (m >>= fun _ => attempts.forM id) a = .ok () b at run
    cases first : m a with
    | error e c =>
      rw [bind_of_error first] at run
      cases run
    | ok _ c =>
      rw [bind_of_ok first] at run
      obtain ⟨hafter, hsize⟩ := ih deliveries run
      have hmessages : c.mailbox.size = a.mailbox.size + 1 :=
        congrArg Outline.messages ((delivery.delivers a).of_ok first).2
      refine ⟨?_, ?_⟩
      · show (leaves m a).after attempts = b
        unfold leaves
        rw [first]
        exact hafter
      · rw [hsize, hmessages, List.length_cons]
        omega

theorem ActorM.blind_forM (inline : timeout.ref? = none)
    (deliveries : ∀ m ∈ attempts, Session.Delivery m) :
    Blind timeout frames (attempts.forM id) := by
  induction attempts with
  | nil => exact .pure rfl
  | cons m attempts ih =>
    obtain ⟨delivery, deliveries⟩ := List.forall_mem_cons.mp deliveries
    exact (delivery.blind inline).bind fun _ _ _ _ => ih deliveries

end Deliveries

/-! ## The two halves of a receive -/

/-- The innermost call goes on at an instruction. -/
def Actor.goTo (ip : Nat) (a : Actor) : Actor :=
  { a with frames := a.frames.modify (a.frames.size - 1) fun frame => { frame with ip } }

theorem Actor.goTo_goTo {a : Actor} {frame : Frame} (back : a.frames.back? = some frame)
    (i j : Nat) :
    (a.goTo i).goTo j = a.goTo j ∧ (a.goTo i).frames.back? = some { frame with ip := i } := by
  unfold goTo
  have hfirst := modify_last back fun frame : Frame => { frame with ip := i }
  have hback : (a.frames.pop.push { frame with ip := i }).back? = some { frame with ip := i } :=
    Array.back?_push
  dsimp only
  rw [hfirst, modify_last hback, modify_last back, Array.pop_push]
  exact ⟨rfl, hback⟩

namespace ActorM

variable {a b : Actor} {v first : Value} {codeLength : Nat} {displacement : Int}

theorem pop_eq_ok (top : a.stack.back? = some v) (own : a.basePointer < a.stack.size) :
    pop a = .ok v { a with stack := a.stack.pop } := by
  show (if a.stack.size ≤ a.basePointer then throw .stackUnderflow else _ : ActorM Value) a = _
  rw [if_neg (by omega), Actor.top?, top]
  rfl

theorem push_eq_ok (room : a.stack.size < a.limits.maxStack) (v : Value) :
    push v a = .ok () { a with stack := a.stack.push v } := by
  show (if a.limits.maxStack ≤ a.stack.size then throw .stackOverflow >>= _ else
    _ : ActorM Unit) a = _
  rw [if_neg (by omega)]
  rfl

theorem peekMessage_of_some (found : a.mailbox.messages[a.mailbox.cursor]? = some first) :
    peekMessage a = .ok (some first)
      { a with mailbox := { a.mailbox with cursor := a.mailbox.cursor + 1 } } := by
  refine (bind_of_ok rfl).trans ?_
  rw [Mailbox.peek?, found]
  rfl

theorem peekMessage_of_none (none : a.mailbox.messages[a.mailbox.cursor]? = none) :
    peekMessage a = .ok .none a := by
  refine (bind_of_ok rfl).trans ?_
  rw [Mailbox.peek?, none]
  rfl

theorem jump_eq {frame : Frame} (back : a.frames.back? = some frame) :
    jump codeLength displacement a =
      if frame.ip + displacement < 0 ∨ codeLength < frame.ip + displacement then
        .error (.invalidJump (frame.ip + displacement) codeLength) a
      else .ok () (a.goTo (frame.ip + displacement).toNat) := by
  refine (bind_of_ok rfl).trans ?_
  rw [back]
  show (if _ then _ else _ : ActorM Unit) a = _
  by_cases outside : frame.ip + displacement < 0 ∨ codeLength < frame.ip + displacement
  · rw [if_pos outside, if_pos outside]
    rfl
  · rw [if_neg outside, if_neg outside]
    rfl

/-- A receive that finds a message puts it in the place of the timeout. -/
theorem receive_of_message (popped : ({ a with stack := a.stack.pop } : Actor) = b)
    (top : a.stack.back? = some v) (own : a.basePointer < a.stack.size)
    (room : a.stack.size ≤ a.limits.maxStack)
    (found : a.mailbox.messages[a.mailbox.cursor]? = some first) :
    receive codeLength displacement a = .ok .proceed { b with
      stack := b.stack.push first
      mailbox := { b.mailbox with cursor := b.mailbox.cursor + 1 } } := by
  subst popped
  have hpeek := peekMessage_of_some (a := { a with stack := a.stack.pop }) found
  unfold receive
  rw [bind_of_ok (pop_eq_ok top own), bind_of_ok hpeek]
  dsimp only
  rw [bind_of_ok (push_eq_ok (by simp only [Array.size_pop]; omega) first)]
  rfl

/-- A receive that finds none waits. -/
theorem receive_of_wait (top : a.stack.back? = some v) (own : a.basePointer < a.stack.size)
    (waits : v = .nil ∨ ∃ n, v = .integer n ∧ n ≠ 0)
    (none : a.mailbox.messages[a.mailbox.cursor]? = none) :
    ∃ wait, receive codeLength displacement a = .ok (.pause (.block wait))
      { a with stack := a.stack.pop, pendingReceive := some displacement } := by
  have hpeek := peekMessage_of_none (a := { a with stack := a.stack.pop }) none
  unfold receive
  rw [bind_of_ok (pop_eq_ok top own), bind_of_ok hpeek]
  dsimp only
  obtain rfl | ⟨n, rfl, hn⟩ := waits
  · exact ⟨_, rfl⟩
  · have htimeout : ∀ b, timeoutOf (.integer n) b = .ok n.toInt b := fun _ => rfl
    have hne : n.toInt ≠ 0 := fun h => hn (Int64.toInt_inj.mp h)
    rw [bind_of_ok (htimeout _), if_neg hne]
    exact ⟨_, rfl⟩

/-- With a timeout of zero it jumps at once. -/
theorem receive_of_zero (popped : ({ a with stack := a.stack.pop } : Actor) = b)
    (top : a.stack.back? = some (.integer 0)) (own : a.basePointer < a.stack.size)
    (none : a.mailbox.messages[a.mailbox.cursor]? = none) :
    receive codeLength displacement a =
      (do jump codeLength displacement; return .proceed : ActorM Signal) b := by
  subst popped
  have hpeek := peekMessage_of_none (a := { a with stack := a.stack.pop }) none
  have htimeout : ∀ b, timeoutOf (.integer 0) b = .ok 0 b := fun _ => rfl
  unfold receive
  rw [bind_of_ok (pop_eq_ok top own), bind_of_ok hpeek]
  dsimp only
  rw [bind_of_ok (htimeout _), if_pos rfl]

end ActorM

theorem Actor.basePointer_goTo {a : Actor} {frame : Frame} (back : a.frames.back? = some frame)
    (ip : Nat) :
    (a.goTo ip).basePointer = a.basePointer := by
  unfold basePointer
  rw [(goTo_goTo back ip 0).2, back]

/-- The next thing that the actor does is to receive a message. If there is none it waits as the
value on top of its stack says, and then jumps. -/
structure Actor.AtReceive (l : Loader) (frame : Frame) (p : LinkedPrototype) (displacement : Int)
    (timeout : Value) (a : Actor) : Prop where
  steps : a.Steps
  back : a.frames.back? = some frame
  prototype : l.prototype frame.func = .ok p
  code : ∃ instruction, p.code[frame.ip]? = some instruction ∧ instruction.opcode? = some .rcv ∧
    instruction.payload = displacement
  top : a.stack.back? = some timeout
  own : a.basePointer < a.stack.size

/-- The value on top of the stack is another one. -/
def Actor.setTop (v : Value) (a : Actor) : Actor :=
  { a with stack := a.stack.pop.push v }

namespace Exec

variable {κ : Type} [Kernel κ] {l : Loader} {a : Actor} {k : κ} {frame : Frame}
    {p : LinkedPrototype} {displacement : Int} {timeout first : Value}

/-- A receive goes on behind itself. -/
theorem advance_of_atReceive (receives : a.AtReceive l frame p displacement timeout) :
    advance l ⟨a, k⟩ = onActor (ActorM.receive p.code.size displacement)
      ⟨a.goTo (frame.ip + 1), k⟩ := by
  obtain ⟨instruction, code, opcode, rfl⟩ := receives.code
  rw [advance_of_steps receives.steps, step_of_opcode receives.back receives.prototype code opcode]
  unfold Actor.goTo
  rw [modify_last receives.back, modify_last receives.back]
  rfl

/-- A receive is taken up with the next message. -/
theorem advance_of_message (entry : a.entry = none) (pending : a.pendingReceive = some displacement)
    (room : a.stack.size < a.limits.maxStack)
    (found : a.mailbox.messages[a.mailbox.cursor]? = some first) :
    advance l ⟨a, k⟩ = .ok .proceed ⟨{ a with
      stack := a.stack.push first
      mailbox := { a.mailbox with cursor := a.mailbox.cursor + 1 }
      pendingReceive := none }, k⟩ := by
  let b : Actor := { a with entry := none, pendingReceive := none }
  have hpeek := onActor_ok (s := ⟨b, k⟩) (ActorM.peekMessage_of_some found)
  let c : Actor := { b with mailbox := { a.mailbox with cursor := a.mailbox.cursor + 1 } }
  have hpush := onActor_ok (s := ⟨c, k⟩) (ActorM.push_eq_ok (a := c) room first)
  have hresume : resumeReceive l displacement ⟨b, k⟩ =
      .ok () ⟨{ c with stack := a.stack.push first }, k⟩ :=
    (bind_of_ok hpeek).trans hpush
  rw [advance_of_pending entry pending, bind_of_ok hresume, entry]
  rfl

/-- What a jump comes to: the innermost call goes on at the target, if that is within its code. -/
def jumped (codeLength : Nat) (target : Int) (s : Session κ) :
    EStateM.Result Fault (Session κ) Signal :=
  if target < 0 ∨ codeLength < target then .error (.invalidJump target codeLength) s
  else .ok .proceed ⟨s.actor.goTo target.toNat, s.kernel⟩

omit [Kernel κ] in
theorem onActor_jump {codeLength : Nat} (back : a.frames.back? = some frame) :
    (onActor (do ActorM.jump codeLength displacement; return .proceed) : Exec κ Signal) ⟨a, k⟩ =
      jumped codeLength (frame.ip + displacement) ⟨a, k⟩ := by
  have hjump : ActorM.jump codeLength displacement a = _ := ActorM.jump_eq back
  unfold jumped
  by_cases outside : frame.ip + displacement < 0 ∨ codeLength < frame.ip + displacement
  · rw [if_pos outside] at hjump ⊢
    exact onActor_error (bind_of_error hjump)
  · rw [if_neg outside] at hjump ⊢
    exact onActor_ok (bind_of_ok hjump)

/-- Without a message it jumps, from where the call was to go on. -/
theorem advance_of_no_message (entry : a.entry = none)
    (pending : a.pendingReceive = some displacement) (back : a.frames.back? = some frame)
    (prototype : l.prototype frame.func = .ok p)
    (none : a.mailbox.messages[a.mailbox.cursor]? = none) :
    advance l ⟨a, k⟩ = jumped p.code.size (frame.ip + displacement)
      ⟨{ a with pendingReceive := .none }, k⟩ := by
  let b : Actor := { a with entry := .none, pendingReceive := .none }
  have hb : ({ a with pendingReceive := .none } : Actor) = b := by
    cases a
    cases entry
    rfl
  have hpeek := onActor_ok (s := ⟨b, k⟩) (ActorM.peekMessage_of_none (a := b) none)
  have hresume : resumeReceive l displacement ⟨b, k⟩ =
      onActor (ActorM.jump p.code.size displacement) ⟨b, k⟩ := by
    refine (bind_of_ok hpeek).trans ?_
    refine (bind_of_ok (actor_eq_ok _)).trans ?_
    dsimp only [b]
    rw [back]
    exact bind_of_ok (ofResult_eq_ok prototype _)
  have hjump : ActorM.jump p.code.size displacement b = _ := ActorM.jump_eq back
  rw [advance_of_pending entry pending, hb]
  unfold jumped
  by_cases outside : frame.ip + displacement < 0 ∨ p.code.size < frame.ip + displacement
  · rw [if_pos outside] at hjump ⊢
    exact bind_of_error (hresume.trans (onActor_error hjump))
  · rw [if_neg outside] at hjump ⊢
    exact bind_of_ok (hresume.trans (onActor_ok hjump))

end Exec

/-! ## Suspended and immediate receives -/

namespace Session

variable {κ : Type} [Kernel κ] {l : Loader}

/-- Where two actors do the same next, they have the same runs. -/
theorem run_eq {s t : Session κ} (h : Exec.advance l s = Exec.advance l t) (bound : Nat) :
    s.run l bound = t.run l bound := by
  cases bound with
  | zero => rfl
  | succ bound =>
    rw [run, run, show s.next l = t.next l by unfold next; rw [h]]

end Session

namespace Actor

/-- A fault that a protected call has taken leaves nothing blocked. -/
theorem pendingReceive_of_recoverAt {points : List CatchPoint} {a a' : Actor} {fault : Fault}
    (run : a.recoverAt fault points = (true, a')) : a'.pendingReceive = none := by
  induction points generalizing a with
  | nil => cases run
  | cons point outer ih =>
    have hreport := ActorM.ends_reportAt point fault { a with catches := outer }
    unfold recoverAt at run
    cases reported : ActorM.reportAt point fault { a with catches := outer } with
    | ok _ b =>
      rw [reported] at run
      cases run
      exact congrArg Outline.pendingReceive (hreport.of_ok reported)
    | error _ b =>
      rw [reported] at run
      exact ih run

/-- The actor is blocked in a receive, at which its calls were `frames`. -/
structure BlockedAt (l : Loader) (frames : Array Frame) (frame : Frame) (p : LinkedPrototype)
    (displacement : Int) (a : Actor) : Prop where
  receives : (a.unblocked .nil frames).AtReceive l frame p displacement .nil
  behind : a.frames = ((a.unblocked .nil frames).goTo (frame.ip + 1)).frames
  pending : a.pendingReceive = some displacement
  room : a.stack.size < a.limits.maxStack

variable {l : Loader} {frames : Array Frame} {frame : Frame} {p : LinkedPrototype}
    {displacement : Int} {a : Actor}

/-- It received whatever its timeout was. -/
theorem BlockedAt.atReceive (h : a.BlockedAt l frames frame p displacement) (timeout : Value) :
    (a.unblocked timeout frames).AtReceive l frame p displacement timeout where
  steps := h.receives.steps
  back := h.receives.back
  prototype := h.receives.prototype
  code := h.receives.code
  top := Array.back?_push
  own := by
    have hown := h.receives.own
    unfold unblocked at hown ⊢
    rw [Array.size_push] at hown ⊢
    exact hown

/-- It goes on behind the receive, without the timeout. -/
theorem BlockedAt.popped (h : a.BlockedAt l frames frame p displacement) (timeout : Value) :
    ({ (a.unblocked timeout frames).goTo (frame.ip + 1) with
      stack := ((a.unblocked timeout frames).goTo (frame.ip + 1)).stack.pop } : Actor) =
      { a with pendingReceive := none } := by
  have hbehind := h.behind
  unfold unblocked goTo at hbehind ⊢
  dsimp only at hbehind ⊢
  rw [Array.pop_push, ← hbehind]

theorem BlockedAt.back (h : a.BlockedAt l frames frame p displacement) :
    a.frames.back? = some { frame with ip := frame.ip + 1 } := by
  rw [h.behind]
  exact (goTo_goTo h.receives.back (frame.ip + 1) 0).2

/-- Deliveries do not take the actor out of the receive. -/
theorem BlockedAt.after {attempts : List (ActorM Unit)}
    (h : a.BlockedAt l frames frame p displacement)
    (deliveries : ∀ m ∈ attempts, Session.Delivery m) :
    (a.after attempts).BlockedAt l frames frame p displacement := by
  obtain ⟨more, houtline⟩ := outline_after deliveries a
  have hentry : (a.after attempts).entry = a.entry := congrArg Outline.entry houtline
  have hframes : (a.after attempts).frames = a.frames := congrArg Outline.frames houtline
  have hsize : (a.after attempts).stack.size = a.stack.size := congrArg Outline.height houtline
  have hlimits : (a.after attempts).limits = a.limits := congrArg Outline.limits houtline
  have hown : (a.unblocked .nil frames).basePointer < a.stack.size + 1 := by
    have hown := h.receives.own
    unfold unblocked at hown ⊢
    rwa [Array.size_push] at hown
  refine ⟨⟨⟨hentry.trans h.receives.steps.1, rfl⟩, h.receives.back, h.receives.prototype,
    h.receives.code, Array.back?_push, ?_⟩, hframes.trans h.behind,
    (congrArg Outline.pendingReceive houtline).trans h.pending,
    by rw [hsize, hlimits]; exact h.room⟩
  show (a.unblocked .nil frames).basePointer < ((a.after attempts).stack.push .nil).size
  rw [Array.size_push, hsize]
  exact hown

end Actor

namespace Exec

variable {κ : Type} [Kernel κ] {l : Loader} {frames : Array Frame} {frame : Frame}
    {p : LinkedPrototype} {displacement : Int} {a : Actor} {first : Value}

/-- Both halves of a receive take the next message in the same way. -/
theorem advance_of_blocked_message (h : a.BlockedAt l frames frame p displacement) (timeout : Value)
    (k : κ) (found : a.mailbox.messages[a.mailbox.cursor]? = some first) :
    advance l ⟨a.unblocked timeout frames, k⟩ = .ok .proceed ⟨{ a with
      stack := a.stack.push first
      mailbox := { a.mailbox with cursor := a.mailbox.cursor + 1 }
      pendingReceive := none }, k⟩ ∧
    advance l ⟨a, k⟩ = .ok .proceed ⟨{ a with
      stack := a.stack.push first
      mailbox := { a.mailbox with cursor := a.mailbox.cursor + 1 }
      pendingReceive := none }, k⟩ := by
  have receives := h.atReceive timeout
  have entry : a.entry = none := receives.steps.1
  refine ⟨?_, advance_of_message entry h.pending h.room found⟩
  have hroom : (a.unblocked timeout frames).stack.size ≤ a.limits.maxStack := by
    have := h.room
    unfold Actor.unblocked
    rw [Array.size_push]
    omega
  have hreceive : ActorM.receive p.code.size displacement _ = _ := ActorM.receive_of_message
    (h.popped timeout) receives.top
      ((Actor.basePointer_goTo receives.back _).symm ▸ receives.own) hroom found
  rw [advance_of_atReceive receives]
  exact onActor_ok hreceive

/-- Without a message, a receive that was blocked does what one with a timeout of zero does. -/
theorem advance_of_blocked_no_message (h : a.BlockedAt l frames frame p displacement) (k : κ)
    (none : a.mailbox.messages[a.mailbox.cursor]? = none) :
    advance l ⟨a.unblocked (.integer 0) frames, k⟩ =
      jumped p.code.size ((frame.ip + 1 : Nat) + displacement)
        ⟨{ a with pendingReceive := .none }, k⟩ ∧
    advance l ⟨a, k⟩ =
      jumped p.code.size ((frame.ip + 1 : Nat) + displacement)
        ⟨{ a with pendingReceive := .none }, k⟩ := by
  have receives := h.atReceive (.integer 0)
  have entry : a.entry = .none := receives.steps.1
  refine ⟨?_, advance_of_no_message entry h.pending h.back receives.prototype none⟩
  have hreceive : ActorM.receive p.code.size displacement _ = _ := ActorM.receive_of_zero
    (h.popped (.integer 0)) receives.top
      ((Actor.basePointer_goTo receives.back _).symm ▸ receives.own) none
  rw [advance_of_atReceive receives]
  refine Eq.trans ?_ (onActor_jump (a := { a with pendingReceive := .none }) h.back)
  simp only [onActor, hreceive]

end Exec

namespace Actor

variable {l : Loader} {frame : Frame} {p : LinkedPrototype} {displacement : Int}
    {timeout : Value} {a : Actor}

/-- The actor as a receive blocks it: the call goes on behind the receive, and the timeout is
gone. -/
def blocked (frame : Frame) (displacement : Int) (a : Actor) : Actor :=
  { a.goTo (frame.ip + 1) with stack := a.stack.pop, pendingReceive := some displacement }

/-- With another timeout, the actor would be blocked in the same way. -/
theorem AtReceive.unblocked_blocked (h : a.AtReceive l frame p displacement timeout) (v : Value) :
    (a.blocked frame displacement).unblocked v a.frames = a.setTop v := by
  obtain ⟨heap, stack, frames, catches, mailbox, entry, pending, limits⟩ := a
  have hpending : pending = none := h.steps.2
  subst hpending
  rfl

theorem AtReceive.setTop_eq (h : a.AtReceive l frame p displacement timeout) :
    a.setTop timeout = a := by
  have hstack : a.stack.pop.push timeout = a.stack := by
    apply Array.ext'
    rw [Array.toList_push, ← toList_of_back? h.top]
  unfold setTop
  rw [hstack]

theorem AtReceive.blockedAt (h : a.AtReceive l frame p displacement timeout)
    (room : a.stack.size ≤ a.limits.maxStack) :
    (a.blocked frame displacement).BlockedAt l a.frames frame p displacement := by
  have hown := h.own
  refine ⟨⟨⟨h.steps.1, rfl⟩, h.back, h.prototype, h.code, Array.back?_push, ?_⟩, rfl, rfl, ?_⟩
  · show a.basePointer < (a.stack.pop.push .nil).size
    rw [Array.size_push, Array.size_pop]
    omega
  · show a.stack.pop.size < a.limits.maxStack
    rw [Array.size_pop]
    omega

end Actor

namespace Session

variable {κ : Type} [Kernel κ] {l : Loader}

/-- What becomes of a receive that has been suspended, whatever deliveries are attempted in the
meantime and however the world changes. -/
structure TakesUp (l : Loader) (s : Session κ) (frame : Frame) (p : LinkedPrototype)
    (displacement : Int)
    (blocked : Actor) : Prop where
  /-- Without a message it does what the same receive does with a timeout of zero: it jumps. -/
  unanswered : ∀ attempts, (∀ m ∈ attempts, Delivery m) → ∀ world : κ,
    let late : Session κ := ⟨blocked.after attempts, world⟩
    let early : Session κ := ⟨(s.actor.setTop (.integer 0)).after attempts, world⟩
    late.actor.mailbox.hasUnpeeked = false →
      Exec.advance l late = Exec.advance l early ∧ (∀ bound, late.run l bound = early.run l bound) ∧
      Exec.advance l late = Exec.jumped p.code.size ((frame.ip + 1 : Nat) + displacement)
        ⟨{ late.actor with pendingReceive := none }, world⟩
  /-- With a message it does what the receive does after the same deliveries: it pushes the first
  new one. -/
  answered : ∀ attempts, (∀ m ∈ attempts, Delivery m) → ∀ world : κ,
    let late : Session κ := ⟨blocked.after attempts, world⟩
    let early : Session κ := ⟨s.actor.after attempts, world⟩
    late.actor.mailbox.hasUnpeeked = true →
      Exec.advance l late = Exec.advance l early ∧ (∀ bound, late.run l bound = early.run l bound) ∧
      ∃ first, late.actor.mailbox.messages[s.actor.mailbox.size]? = some first ∧
        Exec.advance l late = .ok .proceed ⟨{ late.actor with
          stack := late.actor.stack.push first
          mailbox := { late.actor.mailbox with cursor := s.actor.mailbox.cursor + 1 }
          pendingReceive := none }, world⟩
  /-- One successful delivery is enough for that. -/
  delivered : ∀ deliveries, (∀ m ∈ deliveries, Delivery m) → deliveries ≠ [] → ∀ late,
    (deliveries.forM id : ActorM Unit) blocked = .ok () late → late = blocked.after deliveries ∧
      late.mailbox.hasUnpeeked = true ∧
      (deliveries.forM id : ActorM Unit) s.actor = .ok () (s.actor.after deliveries)
  /-- Nothing is left to be taken up, neither then nor when any fault is caught later. -/
  cleared : (∀ attempts, (∀ m ∈ attempts, Delivery m) → ∀ (world : κ) (t : Session κ),
      Session.next l ⟨blocked.after attempts, world⟩ = .inr t → t.actor.pendingReceive = none) ∧
    ∀ (a caught : Actor) (fault : Fault), a.recover fault = (true, caught) →
      caught.pendingReceive = none

variable {s : Session κ} {frame : Frame} {p : LinkedPrototype} {displacement : Int}
    {timeout : Value} {attempts : List (ActorM Unit)}

/-- With no message for it, a receive that is taken up jumps like one with a timeout of zero. -/
theorem advance_unanswered (receives : s.actor.AtReceive l frame p displacement timeout)
    (room : s.actor.stack.size ≤ s.actor.limits.maxStack) (deliveries : ∀ m ∈ attempts, Delivery m)
    (world : κ)
    (none : ((s.actor.blocked frame displacement).after attempts).mailbox.hasUnpeeked = false) :
    Exec.advance l ⟨(s.actor.setTop (.integer 0)).after attempts, world⟩ =
      Exec.jumped p.code.size ((frame.ip + 1 : Nat) + displacement)
        ⟨{ (s.actor.blocked frame displacement).after attempts with pendingReceive := .none },
          world⟩ ∧
    Exec.advance l ⟨(s.actor.blocked frame displacement).after attempts, world⟩ =
      Exec.jumped p.code.size ((frame.ip + 1 : Nat) + displacement)
        ⟨{ (s.actor.blocked frame displacement).after attempts with pendingReceive := .none },
          world⟩ := by
  have hblocked := (receives.blockedAt room).after deliveries
  rw [← receives.unblocked_blocked, Actor.after_unblocked rfl deliveries]
  exact Exec.advance_of_blocked_no_message hblocked world
    (Array.getElem?_eq_none (Nat.le_of_not_lt (of_decide_eq_false none)))

/-- With a message, it pushes that like the receive itself. -/
theorem advance_answered (receives : s.actor.AtReceive l frame p displacement timeout)
    (room : s.actor.stack.size ≤ s.actor.limits.maxStack) (inline : timeout.ref? = none)
    (deliveries : ∀ m ∈ attempts, Delivery m) (world : κ) {first : Value}
    (found : ((s.actor.blocked frame displacement).after
      attempts).mailbox.messages[s.actor.mailbox.cursor]? =
      some first) :
    Exec.advance l ⟨s.actor.after attempts, world⟩ =
      Exec.advance l ⟨(s.actor.blocked frame displacement).after attempts, world⟩ ∧
    Exec.advance l ⟨(s.actor.blocked frame displacement).after attempts, world⟩ =
      .ok .proceed ⟨{ (s.actor.blocked frame displacement).after attempts with
        stack := ((s.actor.blocked frame displacement).after attempts).stack.push first
        mailbox := { ((s.actor.blocked frame displacement).after attempts).mailbox with
          cursor := s.actor.mailbox.cursor + 1 }
        pendingReceive := none }, world⟩ := by
  have hblocked := (receives.blockedAt room).after deliveries
  have hcursor : ((s.actor.blocked frame displacement).after attempts).mailbox.cursor =
      s.actor.mailbox.cursor := by
    obtain ⟨more, houtline⟩ := Actor.outline_after deliveries (s.actor.blocked frame displacement)
    exact congrArg Outline.cursor houtline
  have hearly : ((s.actor.blocked frame displacement).after attempts).unblocked timeout
    s.actor.frames =
      s.actor.after attempts := by
    rw [← Actor.after_unblocked inline deliveries, receives.unblocked_blocked, receives.setTop_eq]
  rw [← hcursor] at found ⊢
  obtain ⟨hfirst, hsecond⟩ := Exec.advance_of_blocked_message hblocked timeout world found
  rw [hearly] at hfirst
  exact ⟨hfirst.trans hsecond.symm, hsecond⟩

/-- A step that does not block leaves nothing to be taken up, also when its fault is caught. -/
theorem pendingReceive_of_next {t : Session κ} (next : s.next l = .inr t)
    (proceeds : ∀ u, Exec.advance l s = .ok .proceed u → u.actor.pendingReceive = none) :
    t.actor.pendingReceive = none := by
  rcases advance_of_next_inr next with run | ⟨fault, u, a, run, recovered, rfl⟩
  · exact proceeds t run
  · exact Actor.pendingReceive_of_recoverAt recovered

omit [Kernel κ] in
/-- Deliveries that succeed while the actor is blocked would have succeeded before. -/
theorem forM_blocked (receives : s.actor.AtReceive l frame p displacement timeout)
    (inline : timeout.ref? = none) (deliveries : ∀ m ∈ attempts, Delivery m) {late : Actor}
    (run : (attempts.forM id : ActorM Unit) (s.actor.blocked frame displacement) = .ok () late) :
    (attempts.forM id : ActorM Unit) s.actor = .ok () (s.actor.after attempts) := by
  have blind : ActorM.Blind timeout s.actor.frames (attempts.forM id) :=
    ActorM.blind_forM inline deliveries
  have hblind := blind (s.actor.blocked frame displacement) _ rfl
  rw [receives.unblocked_blocked, receives.setTop_eq] at hblind
  obtain ⟨_, early, hrun, -⟩ := hblind.of_ok run
  rw [(Actor.after_of_forM deliveries hrun).1, hrun]

/-- A receive that is suspended does what it would have done at once, after the same deliveries: the
actors that it leaves are the same, their heaps included, and so are its faults. -/
theorem suspended_receive (inRange : s.actor.outline.InRange l)
    (receives : s.actor.AtReceive l frame p displacement timeout)
    (waits : timeout = .nil ∨ ∃ n, timeout = .integer n ∧ n ≠ 0)
    (unpeeked : s.actor.mailbox.hasUnpeeked = false) :
    ∃ wait blocked, Exec.advance l s = .ok (.pause (.block wait)) ⟨blocked, s.kernel⟩ ∧
      blocked = s.actor.blocked frame displacement ∧ TakesUp l s frame p displacement blocked := by
  have inline : timeout.ref? = none := by
    obtain rfl | ⟨n, rfl, -⟩ := waits <;> rfl
  have room : s.actor.stack.size ≤ s.actor.limits.maxStack := inRange.height_le
  have hcursor : s.actor.mailbox.cursor = s.actor.mailbox.size :=
    Nat.le_antisymm inRange.cursor_le (Nat.le_of_not_lt (of_decide_eq_false unpeeked))
  -- Deliveries leave the cursor at the end of what was there when the actor was blocked.
  have hkept : ∀ attempts, (∀ m ∈ attempts, Delivery m) →
      ((s.actor.blocked frame displacement).after attempts).mailbox.cursor =
      s.actor.mailbox.size := by
    intro attempts deliveries
    obtain ⟨more, houtline⟩ := Actor.outline_after deliveries (s.actor.blocked frame displacement)
    exact (congrArg Outline.cursor houtline).trans hcursor
  obtain ⟨wait, hreceive⟩ : ∃ wait, ActorM.receive p.code.size displacement
      (s.actor.goTo (frame.ip + 1)) = _ :=
    ActorM.receive_of_wait receives.top
      ((Actor.basePointer_goTo receives.back _).symm ▸ receives.own) waits
      (Array.getElem?_eq_none (Nat.le_of_eq hcursor.symm))
  refine ⟨wait, s.actor.blocked frame displacement, ?_, rfl, ?_, ?_, ?_, ?_, ?_⟩
  · exact (Exec.advance_of_atReceive receives).trans (Exec.onActor_ok hreceive)
  · intro attempts deliveries world late early none
    obtain ⟨hearly, hlate⟩ := advance_unanswered receives room deliveries world none
    have hsame := hlate.trans hearly.symm
    exact ⟨hsame, run_eq hsame, hlate⟩
  · intro attempts deliveries world late early some
    have hlt : s.actor.mailbox.cursor < late.actor.mailbox.messages.size := by
      have := of_decide_eq_true some
      rwa [hkept attempts deliveries, ← hcursor] at this
    obtain ⟨hsame, hlate⟩ := advance_answered receives room inline deliveries world
      (Array.getElem?_eq_getElem hlt)
    exact ⟨hsame.symm, run_eq hsame.symm, _, hcursor ▸ Array.getElem?_eq_getElem hlt, hlate⟩
  · intro attempts deliveries nonempty late run
    obtain ⟨hafter, hsize⟩ := Actor.after_of_forM deliveries run
    refine ⟨hafter.symm, decide_eq_true ?_, forM_blocked receives inline deliveries run⟩
    have hpos : 0 < attempts.length := List.length_pos_iff.mpr nonempty
    have hmessages : (s.actor.blocked frame displacement).mailbox.size = s.actor.mailbox.size := rfl
    rw [← hafter, hkept attempts deliveries, hafter]
    omega
  · intro attempts deliveries world t next
    cases unread : ((s.actor.blocked frame displacement).after attempts).mailbox.hasUnpeeked with
    | false =>
      have hlate := (advance_unanswered receives room deliveries world unread).2
      refine pendingReceive_of_next next fun u run => ?_
      rw [hlate] at run
      unfold Exec.jumped at run
      split at run
      · cases run
      · cases run
        rfl
    | true =>
      have hlt := of_decide_eq_true unread
      rw [hkept attempts deliveries, ← hcursor] at hlt
      have hlate :=
        (advance_answered receives room inline deliveries world (Array.getElem?_eq_getElem hlt)).2
      refine pendingReceive_of_next next fun u run => ?_
      rw [hlate] at run
      cases run
      rfl
  · exact fun a caught fault run => Actor.pendingReceive_of_recoverAt run

/-- The nested protected calls are followed by a receive, which the outer one still protects. -/
theorem suspended_receive_nestedTries :
    ∃ (s : Session Solitude) (frame : Frame) (p : LinkedPrototype),
    s.actor.catches = [⟨1, 0⟩] ∧ s.actor.outline.InRange nestedTries ∧
    s.actor.AtReceive nestedTries frame p 0 .nil ∧ s.actor.mailbox.hasUnpeeked = false ∧
    ∃ wait blocked, Exec.advance nestedTries s = .ok (.pause (.block wait)) ⟨blocked, s.kernel⟩ ∧
      blocked = s.actor.blocked frame 0 ∧ TakesUp nestedTries s frame p 0 blocked := by
  have run : ((completes? (ActorM.prepareEntry (.function ⟨0, 0⟩) [] none) (Actor.create {})).bind
    fun a =>
      (steps nestedTries (⟨a, ⟨⟨0⟩⟩⟩ : Session Solitude) 6).map fun s =>
        (s.actor.catches, s.actor.frames, s.actor.stack.back? == some .nil, s.actor.stack.size,
          decide s.actor.Steps, s.actor.mailbox.hasUnpeeked)) =
      some ([⟨1, 0⟩], #[⟨⟨0, 0⟩, 5, 0, 0⟩], true, 2, true, false) := by decide +kernel
  obtain ⟨a, prepared, run⟩ := Option.bind_eq_some_iff.mp run
  obtain ⟨s, hs, hresult⟩ := Option.map_eq_some_iff.mp run
  simp only [Prod.mk.injEq, beq_iff_eq, decide_eq_true_eq] at hresult
  obtain ⟨hcatches, hframes, htop, hsize, hsteps, hunpeeked⟩ := hresult
  have inRange := (wellFormed_of_life (eq_ok_of_completes? prepared) (life_of_steps hs)).1
  have receives : s.actor.AtReceive nestedTries
      ⟨⟨0, 0⟩, 5, 0, 0⟩ nestedTries.chunks[0].prototypes[0] 0 .nil := by
    refine ⟨hsteps, by rw [hframes]; rfl, rfl, ⟨.pack .rcv 0, rfl, rfl, rfl⟩, htop, ?_⟩
    have hbase : s.actor.basePointer = 0 := by
      unfold Actor.basePointer
      rw [hframes]
      rfl
    omega
  exact ⟨s, _, _, hcatches, inRange, receives, hunpeeked,
    suspended_receive inRange receives (.inl rfl) hunpeeked⟩

end Session

end ActorMachine
