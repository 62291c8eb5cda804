import ActorMachine.Proofs.Deliveries
import ActorMachine.Proofs.Pairs
import ActorMachine.Proofs.Steps

/-!
# Letters

What a delivery does to the actor that it reaches: nothing but adding a copy of the message to its
mailbox, though what the actor holds may have been moved in its heap (`Actor.Receives`). A delivery
that fails adds nothing (`ActorM.ends_deliver`).
-/

namespace ActorMachine

open Memory

/-- A message and the heap in which it lives. -/
structure Letter where
  message : Value
  source : Heap

/-- All that the message reaches is in the heap. -/
def Letter.Sound (x : Letter) : Prop :=
  ∃ σ, Iso σ x.source.memory x.source.memory ∧ x.message.Match σ x.message

/-- All that the message reaches is in the heap, and what can be called of it is vouched for. -/
def Letter.Vouched (F : Value → Prop) (x : Letter) : Prop :=
  ∃ σ, Iso σ x.source.memory x.source.memory ∧ x.message.Held F σ x.message ∧
    x.source.memory.Vouched F fun s r => ∃ t, σ s r t

theorem Letter.Vouched.sound {F : Value → Prop} {x : Letter} (h : x.Vouched F) : x.Sound := by
  obtain ⟨σ, iso, message, -⟩ := h
  exact ⟨σ, iso, message.alike⟩

theorem Letter.Sound.vouched {F : Value → Prop} {x : Letter} (h : x.Sound) (all : ∀ v, F v) :
    x.Vouched F := by
  obtain ⟨σ, iso, message⟩ := h
  exact ⟨σ, iso, ⟨message, .of_forall all⟩, fun _ _ _ _ _ => .of_forall all⟩

/-- A message that is inline reaches nothing. -/
theorem Letter.Vouched.of_inline {F : Value → Prop} {v : Value} (inline : ¬v.isCollectable)
    (vouched : v.Vouched F) (source : Heap) : Letter.Vouched F ⟨v, source⟩ := by
  refine ⟨.empty, .empty _ _, ⟨?_, vouched⟩, fun s r h => ?_⟩
  · cases v with
    | object s r => exact absurd rfl inline
    | _ => exact .inline rfl
  · obtain ⟨t, h⟩ := h
    exact h.elim

/-- The places to which objects at some places have been moved. -/
def Matching.image (γ : Matching) (P : Shape → Ref → Prop) : Shape → Ref → Prop :=
  fun s t => ∃ r, P s r ∧ γ s r t

/-- The places to which objects have been moved. -/
def Matching.range (γ : Matching) : Shape → Ref → Prop :=
  fun s t => ∃ r, γ s r t

/-- Values are copies of letters, made one after the other. No object of a copy has a byte in common
with those that were there before: at first those of `P`, and in the end those of `Q`. -/
inductive Copies (m : Memory) (P : Shape → Ref → Prop) :
    (Shape → Ref → Prop) → List Letter → Array Value → Prop
  | nil : Copies m P P [] #[]
  | snoc {Q : Shape → Ref → Prop} {letters : List Letter} {values : Array Value} {σ : Matching}
    {x : Letter} {v : Value} (before : Copies m P Q letters values)
    (iso : Iso σ x.source.memory m) (copy : x.message.Match σ v)
    (apart : ∀ {s r s' t}, Q s r → σ.range s' t → r ≠ t ∧ m.Apart r t) :
    Copies m P (fun s t => Q s t ∨ σ.range s t) (letters ++ [x]) (values.push v)

namespace Copies

variable {m m' : Memory} {P P' Q Q' : Shape → Ref → Prop} {letters letters' : List Letter}
  {values values' : Array Value} {γ : Matching}

/-- Copies may be moved with all that is there. -/
theorem move (h : Copies m P Q letters values) (iso : Iso γ m m')
    (moved : Value.MatchAll γ values values') :
    Copies m' (γ.image P) (γ.image Q) letters values' := by
  induction h generalizing values' with
  | nil =>
    obtain rfl : values' = #[] := Array.eq_empty_of_size_eq_zero moved.size.symm
    exact .nil
  | @snoc Q letters values σ x v before hiso copy apart ih =>
    have hlast := moved.back?
    have hinit := moved.pop
    rw [Array.pop_push] at hinit
    rw [Array.back?_push] at hlast
    cases hback : values'.back? with
    | none =>
      rw [hback] at hlast
      cases hlast
    | some w =>
      rw [hback] at hlast
      cases hlast with
      | some hvw =>
        have hvalues : values'.pop.push w = values' := by
          obtain ⟨init, rfl⟩ := Array.back?_eq_some_iff.mp hback
          rw [Array.pop_push]
        have himage : γ.image (fun s t => Q s t ∨ σ.range s t) =
            fun s t => γ.image Q s t ∨ (σ.comp γ).range s t := by
          funext s t
          refine propext ⟨?_, ?_⟩
          · rintro ⟨u, hq | ⟨r, hr⟩, hut⟩
            · exact .inl ⟨u, hq, hut⟩
            · exact .inr ⟨r, u, hr, hut⟩
          · rintro (⟨u, hq, hut⟩ | ⟨r, u, hr, hut⟩)
            · exact ⟨u, .inl hq, hut⟩
            · exact ⟨u, .inr ⟨r, hr⟩, hut⟩
        rw [himage, ← hvalues]
        refine .snoc (ih hinit) (hiso.trans iso) (copy.trans hvw) ?_
        rintro s r s' t ⟨u, hq, hur⟩ ⟨r', u', hσ, hut⟩
        have hne := (apart hq ⟨r', hσ⟩).1
        have hne' : r ≠ t := fun heq => hne ((iso.unique hur hut).mpr heq)
        exact ⟨hne', iso.right.apart ⟨u, hur⟩ ⟨u', hut⟩ hne'⟩

/-- More copies may be made where there are some. -/
theorem append (h : Copies m P Q letters values) (h' : Copies m P' Q' letters' values')
    (hsub : ∀ {s t}, Q s t → P' s t) :
    ∃ R : Shape → Ref → Prop, (∀ {s t}, R s t → Q' s t) ∧
      Copies m P R (letters ++ letters') (values ++ values') := by
  induction h' with
  | nil => exact ⟨Q, hsub, by rwa [List.append_nil, Array.append_empty]⟩
  | @snoc Q' letters' values' σ x v before iso copy apart ih =>
    obtain ⟨R, hR, hcopies⟩ := ih
    refine ⟨fun s t => R s t ∨ σ.range s t, fun h => h.imp hR id, ?_⟩
    rw [← List.append_assoc, Array.append_push]
    exact .snoc hcopies iso copy fun hr => apart (hR hr)

end Copies

/-- An actor has been moved in its heap by `γ`, and there are copies of letters at the end of its
mailbox; nothing else has happened to it. -/
structure Actor.Receives (γ : Matching) (letters : List Letter) (a a' : Actor) : Prop where
  frames : a'.frames = a.frames
  catches : a'.catches = a.catches
  entry : a'.entry = a.entry
  pendingReceive : a'.pendingReceive = a.pendingReceive
  cursor : a'.mailbox.cursor = a.mailbox.cursor
  limits : a'.limits = a.limits
  maxCapacity : a'.heap.maxCapacity = a.heap.maxCapacity
  iso : Iso γ a.heap.memory a'.heap.memory
  stack : Value.MatchAll γ a.stack a'.stack
  mailbox : ∃ (old copies : Array Value) (taken : Shape → Ref → Prop),
    a'.mailbox.messages = old ++ copies ∧ Value.MatchAll γ a.mailbox.messages old ∧
      Copies a'.heap.memory γ.range taken letters copies

namespace Actor.Receives

variable {γ γ' : Matching} {letters letters' : List Letter} {a b c : Actor}

/-- An actor that has only been moved has received nothing. -/
theorem of_equivalent (h : a.Equivalent γ b) : a.Receives γ [] b where
  frames := h.frames.symm
  catches := h.catches.symm
  entry := h.entry.symm
  pendingReceive := h.pendingReceive.symm
  cursor := h.cursor.symm
  limits := h.limits.symm
  maxCapacity := h.maxCapacity.symm
  iso := h.iso
  stack := h.stack
  mailbox := ⟨_, #[], _, Array.append_empty.symm, h.messages, .nil⟩

/-- An actor has received a copy of a message for which there was room. -/
theorem of_copy {x : Letter} {σ : Matching} {m : Memory} {v : Value} (h : a.Equivalent γ b)
    (ext : Extends b.heap.memory m) (iso : Iso σ x.source.memory m) (copy : x.message.Match σ v)
    (new : ∀ {s r t}, σ s r t → b.heap.memory.size ≤ t.start) :
    a.Receives γ [x] { b with
      heap := { b.heap with memory := m }
      mailbox := b.mailbox.push v } where
  frames := h.frames.symm
  catches := h.catches.symm
  entry := h.entry.symm
  pendingReceive := h.pendingReceive.symm
  cursor := h.cursor.symm
  limits := h.limits.symm
  maxCapacity := h.maxCapacity.symm
  iso := h.iso.extend (.refl _) ext
  stack := h.stack
  mailbox := by
    refine ⟨b.mailbox.messages, #[v], fun s t => γ.range s t ∨ σ.range s t,
      Array.push_eq_append, h.messages, ?_⟩
    have none : Copies m γ.range γ.range [] #[] := .nil
    -- The copy lies behind everything that the actor has held until then.
    refine none.snoc iso copy ?_
    intro s r s' t hr ⟨u, hut⟩
    exact h.iso.right.apart_end ext (new hut) hr

/-- An inline message is its own copy. -/
theorem of_inline {x : Letter} (h : a.Equivalent γ b) (inline : ¬x.message.isCollectable) :
    a.Receives γ [x] { b with mailbox := b.mailbox.push x.message } := by
  have hcopy : x.message.Match .empty x.message := by
    cases hvalue : x.message with
    | object s r =>
      rw [hvalue] at inline
      exact absurd rfl inline
    | _ => exact .inline rfl
  exact .of_copy h (.refl _) (.empty _ _) hcopy fun h => h.elim

theorem trans (h : a.Receives γ letters b) (h' : b.Receives γ' letters' c) :
    a.Receives (γ.comp γ') (letters ++ letters') c where
  frames := h'.frames.trans h.frames
  catches := h'.catches.trans h.catches
  entry := h'.entry.trans h.entry
  pendingReceive := h'.pendingReceive.trans h.pendingReceive
  cursor := h'.cursor.trans h.cursor
  limits := h'.limits.trans h.limits
  maxCapacity := h'.maxCapacity.trans h.maxCapacity
  iso := h.iso.trans h'.iso
  stack := h.stack.trans h'.stack
  mailbox := by
    obtain ⟨old, copies, taken, hmessages, hold, hcopies⟩ := h.mailbox
    obtain ⟨old', copies', taken', hmessages', hold', hcopies'⟩ := h'.mailbox
    rw [hmessages] at hold'
    obtain ⟨old₂, copies₂, rfl, hfirst, hsecond⟩ := hold'.of_append
    have hmoved := hcopies.move h'.iso hsecond
    have hrange : γ'.image γ.range = (γ.comp γ').range := by
      funext s t
      refine propext ⟨?_, ?_⟩
      · rintro ⟨u, ⟨r, hru⟩, hut⟩
        exact ⟨r, u, hru, hut⟩
      · rintro ⟨r, u, hru, hut⟩
        exact ⟨u, ⟨r, hru⟩, hut⟩
    rw [hrange] at hmoved
    obtain ⟨taken'', -, hall⟩ := hmoved.append hcopies' fun ⟨u, _, hut⟩ => ⟨u, hut⟩
    exact ⟨old₂, copies₂ ++ copies', taken'', by rw [hmessages', Array.append_assoc],
      hold.trans hfirst, hall⟩

end Actor.Receives

namespace ActorM

variable {ρ : Matching} {a : Actor}

/-- A delivery adds a copy of the message if it succeeds, and else nothing. -/
theorem ends_deliver (sound : a.Equivalent ρ a) (self : Pid) {x : Letter} (hx : x.Sound) :
    Ends (deliver self x.source x.message) a (fun _ b => ∃ γ, a.Receives γ [x] b)
      fun e b => ¬e.Dangling ∧ ∃ γ, a.Receives γ [] b := by
  obtain ⟨σ, iso, hmessage⟩ := hx
  refine .bind <| (ends_checkMailbox self a).mono ?_ ?_
  · rintro _ _ ⟨-, rfl⟩
    refine .ite (fun _ => ?_) fun hinline => ?_
    · obtain ⟨refs, -, hmeasure, -, -, enumerates, -⟩ := Heap.measure_eq iso hmessage
      rw [hmeasure]
      refine .bind <| .pure <| .bind <| (ends_reserve sound _).mono ?_ ?_
      · intro _ b ⟨γ, moved, room⟩
        have hfree : b.heap.free = b.heap.capacity - b.heap.used := rfl
        have hused := moved.right.used_le
        obtain ⟨v, τ, m, run, ext, hsize, copied, hv, hplace⟩ := HeapM.copy_iso b.heap iso.left
          iso.closedLeft (fun s r heq => hmessage.exists_of_object heq) enumerates (by omega)
          (Nat.le_trans moved.right.capacity_le moved.right.max_le)
        refine .bind <| .intro (fun w c hrun => ?_) fun e c hrun => ?_
        · rw [onHeap_ok run] at hrun
          cases hrun
          exact .modify ⟨γ, .of_copy moved ext copied hv hplace⟩
        · rw [onHeap_ok run] at hrun
          cases hrun
      · rintro _ b ⟨⟨requested, limit, rfl⟩, γ, moved⟩
        exact ⟨nofun, γ, .of_equivalent moved⟩
    · exact .modify ⟨ρ, .of_inline sound hinline⟩
  · rintro _ _ ⟨rfl, rfl⟩
    exact ⟨nofun, ρ, .of_equivalent sound⟩

end ActorM

end ActorMachine
