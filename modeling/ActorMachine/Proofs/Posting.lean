import ActorMachine.Proofs.Courses
import ActorMachine.Proofs.Fitting
import ActorMachine.Proofs.Mailing

/-!
# Steps and the account of the mailbox

What a running process does is posted in the account of its mailbox: a receive if it leaves a
message on the stack, removals, rewinds, and sends to itself (`Session.posted`). So is a call of the
library that writes to objects, with the messages that are not what they were before it
(`Session.written`). In each step the mailbox does what the account says (`Session.Heeds`), and
agrees with it afterwards (`Session.follows_next`).
-/

namespace ActorMachine

/-- The height of the stack above which a receive leaves its message. The timeout is taken away when
the receive begins, and so it is gone while the receive is blocked. -/
def Actor.receiveHeight (a : Actor) : Nat :=
  if a.pendingReceive.isSome then a.stack.size else a.stack.size - 1

/-- An actor whose mailbox agrees with its account, between two things that it does. A blocked
receive has made room for its message. -/
structure Actor.Follows (F : Value → Prop) (L : Ledger) (a : Actor) : Prop where
  stows : ∃ ρ, Actor.Stows F L ρ { a with pendingReceive := none }
  blocked : ∀ displacement, a.pendingReceive = some displacement →
    a.entry = none ∧ a.stack.size < a.limits.maxStack

/-- A running actor whose mailbox agrees with its account, in a world of which `W` holds. -/
structure Session.Follows {κ : Type} (F : Value → Prop) (W : κ → Prop) (L : Ledger)
    (s : Session κ) :
    Prop where
  actor : s.actor.Follows F L
  kernel : W s.kernel

namespace Actor

variable {F G : Value → Prop} {L : Ledger} {ρ : Matching} {a b : Actor}

theorem Stows.follows (h : a.Stows F L ρ) : a.Follows F L where
  stows := ⟨ρ, h.of_eq rfl rfl rfl h.stack h.held⟩
  blocked d hd := by
    rw [h.idle] at hd
    cases hd

theorem Follows.stows_of_idle (h : a.Follows F L) (idle : a.pendingReceive = none) :
    ∃ ρ, a.Stows F L ρ := by
  obtain ⟨ρ, h⟩ := h.stows
  exact ⟨ρ, h.of_eq rfl rfl idle h.stack h.held⟩

theorem Follows.mono (h : a.Follows F L) (himp : ∀ v, F v → G v) : a.Follows G L := by
  obtain ⟨ρ, h'⟩ := h.stows
  exact ⟨⟨ρ, h'.mono himp⟩, h.blocked⟩

theorem Follows.equivalent (h : a.Follows F L) :
    ∃ σ, a.Equivalent σ a ∧ a.heap.memory.Vouched F fun s r => ∃ t, σ s r t := by
  obtain ⟨ρ, h⟩ := h.stows
  obtain ⟨σ, -, sound, objects⟩ := h.equivalent
  exact ⟨σ, { sound with pendingReceive := rfl }, objects⟩

theorem Follows.records (h : a.Follows F L) : L.Records a := by
  obtain ⟨ρ, h⟩ := h.stows
  have records := h.records
  exact ⟨records.size, records.cursor, records.peeked_le, records.handed_le, records.altered_lt,
    records.whole, records.kin⟩

/-- The account may have it that all messages that have been received have been changed. -/
theorem Follows.spend (h : a.Follows F L) : a.Follows F { L with altered := (· < L.handed) } := by
  obtain ⟨ρ, h'⟩ := h.stows
  exact ⟨⟨ρ, h'.setAltered (fun _ => id) fun i _ _ hi hlt => absurd hi hlt⟩, h.blocked⟩

theorem Ungiven.follows {height : Nat} (h : a.Ungiven F L height b) (entry : a.entry = none) :
    b.Follows F L where
  stows := h.stows
  blocked _ _ := ⟨h.entry.trans entry, by rw [h.size]; exact h.room⟩

/-- What a process receives from others goes to the end of its account, whether or not it is
blocked. -/
theorem Follows.receive {γ : Matching} {letters : List Letter} (h : a.Follows F L)
    (received : a.Receives γ letters b) (vouched : ∀ x ∈ letters, x.Vouched F)
    (bounded : b.heap.Bounded) : b.Follows F (L.posts (letters.map .sent)) := by
  rw [L.posts_sent]
  obtain ⟨ρ, h'⟩ := h.stows
  refine ⟨h'.receive (b := { b with pendingReceive := none }) (γ := γ) ?_ vouched bounded,
    fun d hd => ?_⟩
  · exact { received with pendingReceive := rfl }
  · rw [received.pendingReceive] at hd
    have hsize := received.stack.size
    rw [received.entry, received.limits, ← hsize]
    exact h.blocked d hd

end Actor

namespace Exec

variable {κ : Type} [Kernel κ] {l : Loader} {s : Session κ}

/-- An operation other than a receive is executed as it is, after the call has moved on to the next
instruction. -/
theorem exists_execute {op : Opcode} (operation : s.actor.operation? l = some op)
    (other : op ≠ .rcv) :
    ∃ (frames : Array Frame) (f : FuncRef) (p : LinkedPrototype) (payload : Int),
      s.actor.pendingReceive = none ∧ l.prototype f = .ok p ∧
      advance l s = execute l f p op payload ⟨{ s.actor with frames }, s.kernel⟩ := by
  cases course l s with
  | resumes _ _ _ operation' =>
    rw [operation'] at operation
    cases operation
    exact absurd rfl other
  | executes frame p instruction op' _ pending prototype operation' run =>
    rw [operation'] at operation
    cases operation
    exact ⟨_, frame.func, p, instruction.payload, pending, prototype, run⟩
  | enters _ _ operation' | returns _ _ operation' | stops _ _ operation'
  | fails _ _ _ _ operation' =>
    rw [operation'] at operation
    cases operation

variable {F : Value → Prop} {lax : Prop} {W : κ → Prop} {L : Ledger}

/-- A receive gives the message that is next by the account, whether or not it has been blocked. -/
theorem ends_advance_rcv (fits : s.actor.outline.Fits l) (h : s.actor.Follows F L)
    (operation : s.actor.operation? l = some .rcv) :
    Ends (advance l) s
      (fun _ s' => s'.kernel = s.kernel ∧ s.actor.entry = none ∧
        ((s.actor.Given L s.actor.receiveHeight s'.actor ∧
          ∃ ρ, s'.actor.Stows F (L.post .received) ρ) ∨
          s.actor.Ungiven F L s.actor.receiveHeight s'.actor))
      fun e s' => ¬e.Dangling ∧ s'.kernel = s.kernel ∧ ∃ ρ, s'.actor.Stows F L ρ := by
  cases course l s with
  | resumes displacement entry pending _ run =>
    obtain ⟨ρ, h'⟩ := h.stows
    have hheight : s.actor.receiveHeight = s.actor.stack.size := by
      unfold Actor.receiveHeight
      rw [pending]
      rfl
    have code : ∀ frame, s.actor.frames.back? = some frame →
        ∃ p, l.prototype frame.func = .ok p := by
      intro frame hframe
      obtain ⟨p, hp, -⟩ := fits.code frame (Array.mem_toList_iff.mpr (Array.mem_of_back? hframe))
      exact ⟨p, hp⟩
    rw [hheight]
    refine .of_eq run <| .bind <| (ends_resumeReceive
      (s := ⟨{ s.actor with pendingReceive := none }, s.kernel⟩) h' (h.blocked _ pending).2 l code
      displacement).mono ?_ fun _ _ h => h
    rintro _ s' ⟨hk, ⟨given, h''⟩ | ungiven⟩
    · exact .pure ⟨hk, entry, .inl ⟨⟨given.message, given.size, given.heap, given.messages⟩, h''⟩⟩
    · exact .pure ⟨hk, entry,
        .inr ⟨ungiven.nothing, ungiven.size, ungiven.room, ungiven.entry, ungiven.stows⟩⟩
  | executes frame p instruction op entry pending prototype operation' run =>
    rw [operation'] at operation
    cases operation
    obtain ⟨ρ, h'⟩ := h.stows_of_idle pending
    have hheight : s.actor.receiveHeight = s.actor.stack.size - 1 := by
      unfold Actor.receiveHeight
      rw [pending]
      rfl
    -- The timeout is still on the stack, and is taken off first.
    rw [hheight]
    refine .of_eq run <| ends_onActor <| (ActorM.ends_receive
      (h'.setCalls (s.actor.frames.modify (s.actor.frames.size - 1) fun frame =>
        { frame with ip := frame.ip + 1 }) s.actor.catches s.actor.entry) fits.height_le
      p.code.size instruction.payload).mono ?_ ?_
    · rintro _ b (⟨given, h''⟩ | ungiven)
      · exact ⟨rfl, entry, .inl ⟨⟨given.message, given.size, given.heap, given.messages⟩, h''⟩⟩
      · exact ⟨rfl, entry,
          .inr ⟨ungiven.nothing, ungiven.size, ungiven.room, ungiven.entry, ungiven.stows⟩⟩
    · rintro _ b ⟨he, h''⟩
      exact ⟨he, rfl, h''⟩
  | enters _ _ operation' | returns _ _ operation' | stops _ _ operation'
  | fails _ _ _ _ operation' =>
    rw [operation'] at operation
    cases operation

/-- A removal takes away what has been received last, and fails if nothing has. -/
theorem ends_advance_rmv (h : s.actor.Follows F L) (operation : s.actor.operation? l = some .rmv) :
    Ends (advance l) s
      (fun x s' => 0 < L.peeked ∧ x = .proceed ∧ ∃ frames, s'.actor = { s.actor with
        frames
        mailbox := ⟨s.actor.mailbox.messages.eraseIdxIfInBounds (L.peeked - 1), 0⟩ })
      fun e s' => L.peeked = 0 ∧ e = .nothingPeeked ∧
        ∃ frames, s'.actor = { s.actor with frames } := by
  obtain ⟨frames, f, p, payload, pending, -, run⟩ := exists_execute operation nofun
  obtain ⟨ρ, h'⟩ := h.stows_of_idle pending
  refine .of_eq run <| .bind <| ends_onActor <|
    (ActorM.ends_removeMessage (h'.setCalls frames _ _)).mono ?_ ?_
  · rintro _ b ⟨peeked, rfl⟩
    exact .pure ⟨peeked, rfl, frames, rfl⟩
  · rintro e b ⟨peeked, rfl, rfl⟩
    exact ⟨peeked, rfl, frames, rfl⟩

/-- What is not an operation on the mailbox leaves its account alone, if it writes to no objects or
everything may have been changed already. -/
theorem ends_advance_other (trusts : Kernel.Trusts F lax W) (backs : l.Backs F lax)
    (fits : s.actor.outline.Fits l) (h : s.Follows F W L)
    (other : ∀ op, s.actor.operation? l = some op → ¬op.Mails)
    (spent : ∀ op, s.actor.native? l = some op → op.Writes → L.Spent) :
    Ends (advance l) s (fun _ s' => ∃ ρ, s'.Stows F W L ρ)
      fun e s' => (e.Dangling → lax) ∧ ∃ ρ, s'.Stows F W L ρ := by
  have of_stowing : ∀ {α : Type} {m : Exec κ α} {t : Session κ} {ρ : Matching},
      Exec.Stowing F lax W L ρ m (fun _ _ => True) → t.Stows F W L ρ →
      Ends m t (fun _ s' => ∃ ρ, s'.Stows F W L ρ)
        fun e s' => (e.Dangling → lax) ∧ ∃ ρ, s'.Stows F W L ρ :=
    fun hm ht => (hm _ ht).mono (fun _ _ h => h.imp fun _ h => h.1) fun _ _ h => h
  have invoked : ∀ {argCount op}, s.actor.argCount? l = some argCount →
      l.comesTo? argCount s.actor.stack.toList.reverse = some op → op.Writes → L.Spent := by
    intro argCount op hcall hop
    refine spent op ?_
    rw [Actor.native?, hcall]
    exact hop
  cases course l s with
  | enters argCount entry _ run call =>
    -- An actor that has not made its first call has not blocked.
    have idle : s.actor.pendingReceive = none := by
      cases hpending : s.actor.pendingReceive with
      | none => rfl
      | some d =>
        have hentry := (h.actor.blocked d hpending).1
        rw [entry] at hentry
        cases hentry
    obtain ⟨ρ, h'⟩ := h.actor.stows_of_idle idle
    exact .of_eq run (stows_invoke trusts backs argCount ⟨h'.setCalls _ _ none, h.kernel⟩
      fun _ => invoked call)
  | resumes _ _ _ operation => exact absurd (.inr (.inl rfl)) (other _ operation)
  | executes frame p instruction op _ pending prototype operation run call =>
    obtain ⟨ρ, h'⟩ := h.actor.stows_of_idle pending
    have hmoved : Session.Stows F W L ρ ⟨{ s.actor with
        frames := s.actor.frames.modify (s.actor.frames.size - 1) fun frame =>
          { frame with ip := frame.ip + 1 } }, s.kernel⟩ := ⟨h'.setCalls _ _ _, h.kernel⟩
    by_cases hop : op = .ivk
    · subst hop
      refine .of_eq run <| .bind <| .ite (fun _ => .throw ⟨nofun, ρ, hmoved⟩)
        fun hpayload => .pure ?_
      exact stows_invoke trusts backs _ hmoved fun _ => invoked (call rfl (Int.not_lt.mp hpayload))
    · exact .of_eq run
        (of_stowing (stowing_execute backs prototype (other _ operation) hop _) hmoved)
  | returns _ pending _ run =>
    obtain ⟨ρ, h'⟩ := h.actor.stows_of_idle pending
    exact .of_eq run (of_stowing (stowing_onActor ActorM.stowing_returnFromCall) ⟨h', h.kernel⟩)
  | stops _ pending _ run =>
    obtain ⟨ρ, h'⟩ := h.actor.stows_of_idle pending
    exact .of_eq (t := s) (run : _ = (Pure.pure (.pause .done) : Exec κ Signal) s)
      (.pure ⟨ρ, h', h.kernel⟩)
  | fails fault frames _ pending _ run origin =>
    obtain ⟨ρ, h'⟩ := h.actor.stows_of_idle pending
    refine .of_eq (run : _ = (throw fault : Exec κ Signal) ⟨{ s.actor with frames }, s.kernel⟩)
      (.throw ⟨?_, ρ, h'.setCalls _ _ _, h.kernel⟩)
    rcases origin with ⟨frame, hframe, hmissing⟩ | ⟨byte, rfl⟩
    · obtain ⟨p, hp, -⟩ := fits.code frame (Array.mem_toList_iff.mpr (Array.mem_of_back? hframe))
      rw [hp] at hmissing
      cases hmissing
    · exact nofun

end Exec

namespace Session

variable {κ : Type} [Kernel κ] {l : Loader} {F : Value → Prop} {lax : Prop} {W : κ → Prop}
    {L : Ledger} {s s' : Session κ}

/-- What is posted of a step from `s` that has succeeded and led to `s'`. -/
def posted (l : Loader) (s s' : Session κ) : List Post :=
  match s.actor.operation? l with
  | some .snd => s.letterToSelf?.toList.map .sent
  | some .rcv => if s.actor.receiveHeight < s'.actor.stack.size then [.received] else []
  | some .rmv => [.removed]
  | some .rwd => [.rewound]
  | _ => []

/-- A step from `s` to `s'` has left a message of the mailbox what it was, though it may have been
moved. -/
def Spares (s s' : Session κ) (i : Nat) : Prop :=
  ∃ (γ : Matching) (v w : Value), s.actor.mailbox.messages[i]? = some v ∧
    s'.actor.mailbox.messages[i]? = some w ∧
    Iso γ s.actor.heap.memory s'.actor.heap.memory ∧ v.Match γ w

/-- What is posted of a step from `s` that has led to `s'`, if it has called an operation that
writes to objects. -/
def written (l : Loader) (s s' : Session κ) : List Post :=
  if (s.actor.native? l).any (decide ·.Writes) then [.wrote fun i => ¬s.Spares s' i] else []

/-- What is posted of the next step: nothing of what happens to the mailbox if it fails. -/
def posts (l : Loader) (s : Session κ) : List Post :=
  match Exec.advance l s with
  | .ok _ s' => s.written l s' ++ s.posted l s'
  | .error _ s' => s.written l s'

omit [Kernel κ] in
theorem written_of_not_writes (reads : ∀ op, s.actor.native? l = some op → ¬op.Writes) :
    s.written l s' = [] := by
  refine if_neg ?_
  rw [Option.any_eq_true]
  rintro ⟨op, hop, hwrites⟩
  exact reads op hop (of_decide_eq_true hwrites)

omit [Kernel κ] in
theorem written_of_writes {op : Operation} (hop : s.actor.native? l = some op)
    (writes : op.Writes) :
    s.written l s' = [.wrote fun i => ¬s.Spares s' i] :=
  if_pos (by rw [hop]; exact decide_eq_true writes)

omit [Kernel κ] in
/-- An operation other than a call calls nothing. -/
theorem written_of_operation {op : Opcode} (operation : s.actor.operation? l = some op)
    (uncalled : op ≠ .ivk) :
    s.written l s' = [] := by
  refine written_of_not_writes fun op hop => ?_
  rw [Actor.native?, Actor.argCount?_eq_none operation uncalled] at hop
  cases hop

omit [Kernel κ] in
/-- Of the messages that may have been changed, those have not been that the step has spared. -/
theorem stows_wrote {ρ : Matching} (h : s.Follows F W L)
    (h' : s'.Stows F W { L with altered := (· < L.handed) } ρ) :
    s'.Stows F W (L.post (.wrote fun i => ¬s.Spares s' i)) ρ := by
  have records := h.actor.records
  refine ⟨h'.actor.setAltered ?_ ?_, h'.kernel⟩
  · rintro i (hi | ⟨hi, -⟩)
    · exact records.altered_lt i hi
    · exact hi
  · intro i x w hi hunaltered hx hw
    by_cases spared : s.Spares s' i
    · obtain ⟨γ, v, w', hv, hw', iso, hmatch⟩ := spared
      obtain rfl : w = w' := Option.some.inj (hw.symm.trans hw')
      exact (records.whole i x v (fun h => hunaltered (.inl h)) hx hv).move iso hmatch
    · exact absurd (.inr ⟨hi, spared⟩) hunaltered

theorem posted_of_other (other : ∀ op, s.actor.operation? l = some op → ¬op.Mails) :
    s.posted l s' = [] := by
  unfold posted
  cases operation : s.actor.operation? l with
  | none => rfl
  | some op =>
    have hother := other op operation
    cases op with
    | snd | rcv | rmv | rwd => exact absurd (by simp [Opcode.Mails]) hother
    | _ => rfl

/-- Only a receive that has given a message has left something on the stack. -/
theorem posted_of_given (operation : s.actor.operation? l = some .rcv)
    (given : s.actor.Given L s.actor.receiveHeight s'.actor) : s.posted l s' = [.received] := by
  unfold posted
  rw [operation]
  exact if_pos (by rw [given.size]; omega)

theorem posted_of_ungiven (operation : s.actor.operation? l = some .rcv)
    (ungiven : s.actor.Ungiven F L s.actor.receiveHeight s'.actor) : s.posted l s' = [] := by
  unfold posted
  rw [operation]
  exact if_neg (by rw [ungiven.size]; omega)

/-- A step that is not an operation on the mailbox. -/
theorem ends_advance_written (trusts : Kernel.Trusts F lax W) (backs : l.Backs F lax)
    (fits : s.actor.outline.Fits l) (h : s.Follows F W L)
    (other : ∀ op, s.actor.operation? l = some op → ¬op.Mails) :
    Ends (Exec.advance l) s (fun _ s' => ∃ ρ, s'.Stows F W (L.posts (s.written l s')) ρ)
      fun e s' => (e.Dangling → lax) ∧ ∃ ρ, s'.Stows F W (L.posts (s.written l s')) ρ := by
  by_cases writes : ∃ op, s.actor.native? l = some op ∧ op.Writes
  · obtain ⟨op, hop, hwrites⟩ := writes
    refine (Exec.ends_advance_other trusts backs fits ⟨h.actor.spend, h.kernel⟩ other
      fun _ _ _ i hi => hi).mono ?_ ?_
    · rintro _ s' ⟨ρ, h'⟩
      rw [written_of_writes hop hwrites]
      exact ⟨ρ, stows_wrote h h'⟩
    · rintro e s' ⟨he, ρ, h'⟩
      rw [written_of_writes hop hwrites]
      exact ⟨he, ρ, stows_wrote h h'⟩
  · have reads : ∀ op, s.actor.native? l = some op → ¬op.Writes :=
      fun op hop hwrites => writes ⟨op, hop, hwrites⟩
    refine (Exec.ends_advance_other trusts backs fits h other
      fun op hop hwrites => absurd hwrites (reads op hop)).mono ?_ ?_
    · rintro _ s' ⟨ρ, h'⟩
      rw [written_of_not_writes reads]
      exact ⟨ρ, h'⟩
    · rintro e s' ⟨he, ρ, h'⟩
      rw [written_of_not_writes reads]
      exact ⟨he, ρ, h'⟩

/-- An actor that agrees with the account of its mailbox does so after its next step. -/
theorem ends_advance (trusts : Kernel.Trusts F lax W) (backs : l.Backs F lax)
    (fits : s.actor.outline.Fits l) (h : s.Follows F W L) :
    Ends (Exec.advance l) s (fun _ s' => s'.Follows F W (L.posts (s.written l s' ++ s.posted l s')))
      fun e s' => (e.Dangling → lax) ∧ ∃ ρ, s'.Stows F W (L.posts (s.written l s')) ρ := by
  by_cases mails : ∃ op, s.actor.operation? l = some op ∧ op.Mails
  · obtain ⟨op, operation, hmails⟩ := mails
    have unwritten : ∀ s', s.written l s' = [] := by
      refine fun s' => written_of_operation operation ?_
      rintro rfl
      simp [Opcode.Mails] at hmails
    simp only [unwritten, List.nil_append]
    obtain rfl | rfl | rfl | rfl := hmails
    · -- A send, to itself or to another.
      obtain ⟨frames, f, p, payload, pending, -, run⟩ := Exec.exists_execute operation (by decide)
      obtain ⟨ρ, h'⟩ := h.actor.stows_of_idle pending
      refine .of_eq run <| .bind <|
        (Exec.ends_send trusts (s := ⟨{ s.actor with frames }, s.kernel⟩)
        ⟨h'.setCalls frames _ _, h.kernel⟩).mono ?_ fun _ _ h => h
      rintro _ s' ⟨ρ', h''⟩
      unfold posted
      rw [operation]
      exact .pure ⟨h''.actor.follows, h''.kernel⟩
    · -- A receive.
      refine (Exec.ends_advance_rcv fits h.actor operation).mono ?_ ?_
      · rintro _ s' ⟨hk, entry, ⟨given, ρ, h'⟩ | ungiven⟩
        · rw [posted_of_given operation given]
          exact ⟨h'.follows, hk ▸ h.kernel⟩
        · rw [posted_of_ungiven operation ungiven]
          exact ⟨ungiven.follows entry, hk ▸ h.kernel⟩
      · rintro e s' ⟨he, hk, ρ, h'⟩
        exact ⟨fun hd => absurd hd he, ρ, h', hk ▸ h.kernel⟩
    · -- A removal, which posts nothing where it fails.
      obtain ⟨frames, f, p, payload, pending, -, run⟩ := Exec.exists_execute operation (by decide)
      obtain ⟨ρ, h'⟩ := h.actor.stows_of_idle pending
      refine .of_eq run <| .bind <| Exec.ends_onActor <|
        (ActorM.ends_removeMessage (h'.setCalls frames _ _)).mono ?_ ?_
      · rintro _ b ⟨peeked, rfl⟩
        unfold posted
        rw [operation]
        exact .pure ⟨((h'.setCalls frames _ _).removed peeked).follows, h.kernel⟩
      · rintro e b ⟨-, rfl, rfl⟩
        exact ⟨by rintro ⟨⟩, ρ, h'.setCalls _ _ _, h.kernel⟩
    · -- The cursor goes back to the first message.
      obtain ⟨frames, f, p, payload, pending, -, run⟩ := Exec.exists_execute operation (by decide)
      obtain ⟨ρ, h'⟩ := h.actor.stows_of_idle pending
      refine .of_eq run <| .bind <| Exec.ends_onActor <| .modify <| .pure ?_
      unfold posted
      rw [operation]
      exact ⟨(h'.setCalls frames _ _).rewound.follows, h.kernel⟩
  · have other : ∀ op, s.actor.operation? l = some op → ¬op.Mails :=
      fun op operation hop => mails ⟨op, operation, hop⟩
    refine (ends_advance_written trusts backs fits h other).mono ?_ fun _ _ h => h
    rintro _ s' ⟨ρ, h'⟩
    rw [posted_of_other other, List.append_nil]
    exact ⟨h'.actor.follows, h'.kernel⟩

/-- An actor agrees with the account of its mailbox after each step, even if it panics in it. -/
theorem follows_next (trusts : Kernel.Trusts F lax W) (backs : l.Backs F lax)
    (fits : s.actor.outline.Fits l) (h : s.Follows F W L) :
    Sum.elim (fun finished : Outcome × Session κ => finished.2.Follows F W (L.posts (s.posts l)))
      (fun s' => s'.Follows F W (L.posts (s.posts l))) (s.next l) := by
  have hadvance := ends_advance trusts backs fits h
  refine next_of_ends (Ends.intro (fun x s' run => ?_) fun fault s' run => ?_)
  · unfold posts
    rw [run]
    exact hadvance.of_ok run
  · unfold posts
    rw [run]
    obtain ⟨-, ρ, h'⟩ := hadvance.of_error run
    obtain ⟨ρ', h''⟩ := h'.actor.recoverAt fault s'.actor.catches
    exact ⟨h''.follows, h'.kernel⟩

/-- The mailbox does in the next step what its account says. -/
structure Heeds (l : Loader) (L : Ledger) (s : Session κ) : Prop where
  /-- A receive gives the first message that has not been given since the last rewind or removal, if
  there is one, and leaves it in the mailbox. -/
  receives : ∀ x s', s.actor.operation? l = some .rcv → Exec.advance l s = .ok x s' →
    match s.actor.mailbox.messages[L.peeked]? with
    | some v => s.posted l s' = [.received] ∧ s'.actor.stack.back? = some v ∧
        s'.actor.heap = s.actor.heap ∧ s'.actor.mailbox.messages = s.actor.mailbox.messages
    | none => s.posted l s' = []
  /-- A removal takes away the message that has been given last, if one has been given since the
  last rewind or removal, and nothing else. -/
  removes : s.actor.operation? l = some .rmv → 0 < L.peeked →
    ∃ s', Exec.advance l s = .ok .proceed s' ∧ s'.actor.heap = s.actor.heap ∧
      s'.actor.mailbox.messages = s.actor.mailbox.messages.eraseIdxIfInBounds (L.peeked - 1)
  /-- A removal fails if none has, and changes nothing. -/
  refuses : s.actor.operation? l = some .rmv → L.peeked = 0 →
    ∃ s', Exec.advance l s = .error .nothingPeeked s' ∧ s'.actor.heap = s.actor.heap ∧
      s'.actor.mailbox = s.actor.mailbox

theorem heeds_of_follows (fits : s.actor.outline.Fits l) (h : s.actor.Follows F L) :
    s.Heeds l L where
  receives x s' operation run := by
    obtain ⟨-, -, ⟨given, -⟩ | ungiven⟩ := (Exec.ends_advance_rcv fits h operation).of_ok run
    · obtain ⟨v, hv, hback⟩ := given.message
      rw [hv]
      exact ⟨posted_of_given operation given, hback, given.heap, given.messages⟩
    · rw [ungiven.nothing]
      exact posted_of_ungiven operation ungiven
  removes operation peeked := by
    have hadvance := Exec.ends_advance_rmv h operation
    cases run : Exec.advance l s with
    | ok x s' =>
      obtain ⟨-, rfl, frames, hactor⟩ := hadvance.of_ok run
      exact ⟨s', rfl, by rw [hactor], by rw [hactor]⟩
    | error e s' =>
      obtain ⟨hnone, -⟩ := hadvance.of_error run
      omega
  refuses operation peeked := by
    have hadvance := Exec.ends_advance_rmv h operation
    cases run : Exec.advance l s with
    | ok x s' =>
      obtain ⟨hsome, -⟩ := hadvance.of_ok run
      omega
    | error e s' =>
      obtain ⟨-, rfl, frames, hactor⟩ := hadvance.of_error run
      exact ⟨s', rfl, by rw [hactor], by rw [hactor]⟩

end Session

end ActorMachine
