import ActorMachine.Proofs.Execution

/-!
# What an actor does next keeps calls, protected calls and stack together

`Exec.sound_advance` collects what the operations make of the outline of an actor: instructions
(`Exec.ends_execute`), the first call and receives that were blocked.
-/

namespace ActorMachine

open Outline

namespace ActorM

variable {l : Loader}

theorem keeps_ofHeap (result : Except HeapError α) : Keeps Actor.outline (ofHeap result) := by
  cases result with
  | ok x => exact .pure x
  | error e => exact .throw _

theorem ends_checkMailbox (self : Pid) (a : Actor) :
    Ends (checkMailbox self) a
      (fun _ a' => a.outline.messages < a.outline.limits.maxMailbox ∧ a' = a)
      (fun e a' => e = .mailboxFull self ∧ a' = a) := by
  refine .bind <| .get <| .ite (fun _ => .throw ⟨rfl, rfl⟩) fun h => .pure ⟨?_, rfl⟩
  have : ¬ a.limits.maxMailbox ≤ a.mailbox.size := h
  show a.mailbox.size < a.limits.maxMailbox
  omega

/-- The computation adds a message, for which there is room, or changes nothing of the outline. -/
def Delivers (m : ActorM Unit) : Prop :=
  ∀ a, Ends m a
    (fun _ a' => a.outline.messages < a.outline.limits.maxMailbox ∧
      a'.outline = { a.outline with messages := a.outline.messages + 1 })
    (fun _ a' => a'.outline = a.outline)

theorem Delivers.sound {m : ActorM Unit} (h : Delivers m) : Sound l Actor.outline m := by
  intro a fits
  refine (h a).mono ?_ ?_
  · rintro _ a' ⟨room, ha'⟩
    rw [ha']
    exact (fits.setMailbox _ (Nat.le_succ_of_le fits.cursor_le) room).proceeds (.of_eq rfl rfl)
  · intro _ a' ha'
    rw [ha']
    exact fits.faults (.of_eq rfl rfl)

/-- After a check of the mailbox, whatever keeps the outline may make a message. -/
theorem delivers_of_keeps {make : ActorM Value} (hmake : Keeps Actor.outline make) (self : Pid) :
    Delivers (do checkMailbox self; pushMessage (← make)) := by
  intro a
  refine .bind <| (ends_checkMailbox self a).mono ?_ ?_
  · rintro _ b ⟨room, rfl⟩
    refine .bind <| (hmake.ends b).mono ?_ fun _ _ h => h
    intro v c hc
    refine .modify ⟨room, ?_⟩
    rw [← hc]
    simp only [Actor.outline, Mailbox.push, Mailbox.size, Array.size_push]
  · rintro e b ⟨-, rfl⟩
    rfl

theorem delivers_deliver (self : Pid) (source : Heap) (message : Value) :
    Delivers (deliver self source message) := by
  have copied : Keeps Actor.outline (do
      reserve (← ofHeap (source.measure message))
      onHeap (HeapM.copy source message)) :=
    .bind (keeps_ofHeap _) fun _ => .bind (keeps_reserve _) fun _ => keeps_onHeap _
  unfold deliver
  by_cases h : message.isCollectable
  · simp only [h, if_true]
    have := delivers_of_keeps copied self
    simp only [bind_assoc] at this
    exact this
  · simp only [h]
    exact delivers_of_keeps (.pure message) self

theorem delivers_deliverLocal (self : Pid) (message : Value) :
    Delivers (deliverLocal self message) := by
  intro a
  unfold deliverLocal
  refine .ite (fun _ => .bind <| .get <| .bind ?_) fun _ => ?_
  · refine ((keeps_ofHeap _).ends a).mono (fun need b hb => ?_) fun _ _ h => h
    split
    · rw [← hb]
      exact delivers_deliver _ _ _ b
    · exact .throw hb
  · exact delivers_of_keeps (.pure message) self a

theorem delivers_deliverBytes (self : Pid) (bytes : ByteArray) :
    Delivers (deliverBytes self bytes) :=
  delivers_of_keeps (keeps_newString bytes) self

/-- A receive takes its timeout away and leaves a message, jumps, or blocks. -/
theorem sound_receive {func : FuncRef} {p : LinkedPrototype} (hp : l.prototype func = .ok p)
    (displacement : Int) {a : Actor} (fits : a.outline.Fits l)
    (hfunc : ∀ frame, a.outline.frames.back? = some frame → frame.func = func) :
    Ends (receive p.code.size displacement) a (fun _ a' => a.outline.Proceeds l a'.outline)
      (fun _ a' => a.outline.Faults l a'.outline) := by
  refine .bind <| ((ends_pop a).and (sound_pop a fits)).mono ?_ ?_
  · rintro timeout b ⟨⟨-, -, hb⟩, hproceeds⟩
    have hbfunc : ∀ frame, b.outline.frames.back? = some frame → frame.func = func := by
      rw [hb, outline_pop]
      exact hfunc
    have fits := hproceeds.1
    -- Without a message, peeking leaves the actor as it is, so that it is still in the same call.
    have hpeek : Ends peekMessage b (fun message c => message = none → c = b)
        (fun _ _ => True) := by
      refine .bind <| .get ?_
      split
      · exact .pure fun _ => rfl
      · exact .bind <| .modify <| .pure fun h => nomatch h
    refine .bind <| ((sound_peekMessage b fits).and hpeek).mono ?_ ?_
    · rintro message c ⟨hpeeked, hnone⟩
      have hc := hproceeds.trans hpeeked
      clear hpeeked
      cases message with
      | some v =>
        refine .bind <| (sound_push v c hc.1).mono ?_ ?_
        · exact fun _ _ h => .pure (hc.trans h)
        · exact fun _ _ h => hc.trans_faults h
      | none =>
        obtain rfl := hnone rfl
        refine .bind <| ((keeps_timeoutOf timeout).ends c).mono ?_ ?_
        · intro time d hd
          rw [← hd] at hc hbfunc
          refine .ite (fun _ => .bind ?_) fun _ => .bind <| .modify <| .pure ?_
          · refine (sound_jump hp displacement hc.1 hbfunc).mono ?_ ?_
            · exact fun _ _ h => .pure (hc.trans h)
            · exact fun _ _ h => hc.trans_faults h
          · exact hc.trans ((hc.1.setPending _ _).proceeds (.of_eq rfl rfl))
        · intro e d hd
          rw [hd]
          exact hc.faults
    · rintro e c ⟨h, -⟩
      exact hproceeds.trans_faults h
  · rintro e b ⟨-, h⟩
    exact h

end ActorM

namespace Exec

variable {κ : Type} {l : Loader}

theorem keeps_ofResult (result : Except Fault α) :
    Keeps (fun s : Session κ => s.actor.outline) (ofResult result) := by
  cases result with
  | ok x => exact .pure x
  | error e => exact .throw e

theorem keeps_actor : Keeps (fun s : Session κ => s.actor.outline) actor :=
  .bind .get fun _ => .pure _

theorem keeps_element (kind : IndexKind) (items : Array α) (index : Int) :
    Keeps (fun s : Session κ => s.actor.outline) (element kind items index) := by
  unfold element
  split
  · exact .pure _
  · exact .throw _

theorem keeps_countOperand (payload : Int) :
    Keeps (fun s : Session κ => s.actor.outline) (countOperand payload) :=
  .ite (fun _ => .throw _) fun _ => .pure _

variable [Kernel κ]

theorem sound_send : Sound l (fun s : Session κ => s.actor.outline) send := by
  refine .bind (.onActor ActorM.sound_pop) fun message =>
    .bind (.onActor ActorM.sound_pop) fun target => ?_
  split
  · refine .bind (.of_keeps keeps_self) fun own => .ite (fun _ => ?_) fun _ => ?_
    · exact .onActor (ActorM.delivers_deliverLocal _ _).sound
    · exact .of_keeps (keeps_onKernel _)
  · exact .throw _

/-- A call keeps calls, protected calls and stack together. -/
theorem sound_invoke (argCount : Nat) :
    Sound l (fun s : Session κ => s.actor.outline) (invoke l argCount) := by
  intro s fits
  refine (ends_invoke argCount s fits).mono ?_ ?_
  · rintro _ s' ⟨h, himp⟩
    exact ⟨h, fun aligned anchored => himp aligned (anchored.level _)⟩
  · rintro _ s' ⟨h, himp⟩
    exact ⟨h, fun aligned _ => himp aligned⟩

/-- An instruction keeps calls, protected calls and stack together. -/
theorem ends_execute {func : FuncRef} {p : LinkedPrototype} (hp : l.prototype func = .ok p)
    (op : Opcode) (payload : Int) {s : Session κ} (fits : s.actor.outline.Fits l)
    (hfunc : ∀ frame, s.actor.outline.frames.back? = some frame → frame.func = func) :
    Ends (execute l func p op payload) s
      (fun _ s' => s.actor.outline.Proceeds l s'.actor.outline)
      (fun _ s' => s.actor.outline.Faults l s'.actor.outline) := by
  have go : ∀ {m : Exec κ Unit}, Sound l (fun s : Session κ => s.actor.outline) m →
      Sound l (fun s : Session κ => s.actor.outline) (do m; return Signal.proceed) :=
    fun h => .bind h fun _ => .pure _
  have push : ∀ v, Sound l (fun s : Session κ => s.actor.outline) (ActorM.push v : Exec κ Unit) :=
    fun v => .onActor (ActorM.sound_push v)
  have jump : Ends (ActorM.jump p.code.size payload : Exec κ Unit) s
      (fun _ s' => s.actor.outline.Proceeds l s'.actor.outline)
      (fun _ s' => s.actor.outline.Faults l s'.actor.outline) :=
    ends_onActor (ActorM.sound_jump hp payload fits hfunc)
  cases op with
  | nop => exact .pure (fits.proceeds (.of_eq rfl rfl))
  | pop =>
    exact Sound.bind (.of_keeps (keeps_countOperand _))
      (fun _ => go (.onActor (ActorM.sound_popMany _))) s fits
  | ldk =>
    exact Sound.bind (.of_keeps (keeps_element _ _ _))
      (fun _ => .bind (.onActor (.of_keeps (ActorM.keeps_constantValue _))) fun _ => go (push _))
      s fits
  | nil => exact go (push _) s fits
  | ldb => exact go (push _) s fits
  | lsi => exact go (push _) s fits
  | llv => exact Sound.bind (.of_keeps keeps_actor) (fun _ => go (push _)) s fits
  | slv =>
    exact Sound.bind (.onActor ActorM.sound_pop)
      (fun _ => go (.onActor (.of_keeps (ActorM.keeps_storeLocal _ _)))) s fits
  | imp => exact Sound.bind (.of_keeps (keeps_element _ _ _)) (fun _ => go (push _)) s fits
  | cls => exact Sound.bind (.of_keeps (keeps_element _ _ _)) (fun _ => go (push _)) s fits
  | jmp => exact .bind <| jump.mono (fun _ _ h => .pure h) fun _ _ h => h
  | jin =>
    refine .bind <| ends_onActor <| ((ActorM.ends_pop s.actor).and
      (ActorM.sound_pop s.actor fits)).mono ?_ ?_
    · rintro v a ⟨⟨-, -, ha⟩, hproceeds⟩
      have hafunc : ∀ frame, a.outline.frames.back? = some frame → frame.func = func := by
        rw [ha, ActorM.outline_pop]
        exact hfunc
      refine .ite (fun _ => .bind <| ends_onActor ?_) fun _ => .pure hproceeds
      refine (ActorM.sound_jump hp payload hproceeds.1 hafunc).mono ?_ ?_
      · exact fun _ _ h => .pure (hproceeds.trans h)
      · exact fun _ _ h => hproceeds.trans_faults h
    · rintro e a ⟨-, h⟩
      exact h
  | ivk =>
    exact Sound.bind (.of_keeps (keeps_countOperand _)) (fun _ => sound_invoke _) s fits
  | ret => exact Sound.onActor ActorM.sound_returnFromCall s fits
  | snd => exact go sound_send s fits
  | rcv => exact ends_onActor (ActorM.sound_receive hp payload fits hfunc)
  | rmv => exact go (.onActor ActorM.sound_removeMessage) s fits
  | rwd => exact go (.onActor ActorM.sound_rewindMailbox) s fits

/-- One step keeps calls, protected calls and stack together. -/
theorem sound_step : Sound l (fun s : Session κ => s.actor.outline) (step l) := by
  intro s fits
  refine .bind <| (ends_actor s).mono ?_ fun _ _ h => h.elim
  rintro a s' ⟨ha, hs'⟩
  rw [ha, hs']
  clear ha hs'
  cases hback : s.actor.frames.back? with
  | none => exact .pure (fits.proceeds (.of_eq rfl rfl))
  | some frame =>
    refine .bind <| (ends_ofResult _ _).mono ?_ ?_
    · rintro p s' ⟨hp, rfl⟩
      cases hcode : p.code[frame.ip]? with
      | none => exact Sound.onActor ActorM.sound_returnFromCall s' fits
      | some instruction =>
        refine .bind <| ends_onActor <| .modify ?_
        have hlt : frame.ip < p.code.size := (Array.getElem?_eq_some_iff.mp hcode).1
        have heq := modify_last hback fun frame : Frame => { frame with ip := frame.ip + 1 }
        have hnext := fits.setIp hback hp hlt
        have hproceeds := hnext.proceeds (sameCalls_setIp hback _)
        simp only [heq]
        split
        · exact .throw hproceeds.faults
        · rename_i op _
          let started : Session κ := { s' with actor := { s'.actor with
            frames := s'.actor.frames.pop.push { frame with ip := frame.ip + 1 } } }
          refine (ends_execute (s := started) hp op _ hnext ?_).mono ?_ ?_
          · intro f hf
            have hf : (s'.actor.frames.pop.push { frame with ip := frame.ip + 1 }).back? = some f :=
              hf
            rw [Array.back?_push] at hf
            cases hf
            rfl
          · exact fun _ _ h => hproceeds.trans h
          · exact fun _ _ h => hproceeds.trans_faults h
    · rintro e s' rfl
      exact fits.faults (.of_eq rfl rfl)

omit [Kernel κ] in
theorem sound_resumeReceive (displacement : Int) :
    Sound l (fun s : Session κ => s.actor.outline) (resumeReceive l displacement) := by
  refine .bind (.onActor ActorM.sound_peekMessage) fun message => ?_
  cases message with
  | some v => exact .onActor (ActorM.sound_push v)
  | none =>
    intro s fits
    refine .bind <| (ends_actor s).mono ?_ fun _ _ h => h.elim
    rintro a s' ⟨ha, hs'⟩
    rw [ha, hs']
    clear ha hs'
    cases hback : s.actor.frames.back? with
    | none => exact .throw (fits.faults (.of_eq rfl rfl))
    | some frame =>
      refine .bind <| (ends_ofResult _ _).mono ?_ ?_
      · rintro p s' ⟨hp, rfl⟩
        refine ends_onActor (ActorM.sound_jump hp displacement fits ?_)
        intro f hf
        rw [hback] at hf
        cases hf
        rfl
      · rintro e s' rfl
        exact fits.faults (.of_eq rfl rfl)

theorem sound_takeEntry : Sound l Actor.outline takeEntry := fun _ fits =>
  .bind <| .get <| .bind <| .modify <| .pure <|
    (fits.setPending _ _).proceeds (.of_eq rfl rfl)

theorem sound_takePendingReceive : Sound l Actor.outline takePendingReceive := fun _ fits =>
  .bind <| .get <| .bind <| .modify <| .pure <|
    (fits.setPending _ _).proceeds (.of_eq rfl rfl)

/-- What an actor does next keeps calls, protected calls and stack together. -/
theorem sound_advance : Sound l (fun s : Session κ => s.actor.outline) (advance l) := by
  refine .bind (.onActor sound_takeEntry) fun entry => ?_
  cases entry with
  | some argCount => exact sound_invoke argCount
  | none =>
    refine .bind (.onActor sound_takePendingReceive) fun pending => ?_
    cases pending with
    | some displacement => exact .bind (sound_resumeReceive displacement) fun _ => .pure _
    | none => exact sound_step

end Exec

end ActorMachine
