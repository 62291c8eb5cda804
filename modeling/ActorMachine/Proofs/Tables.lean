import ActorMachine.Process.Table
import ActorMachine.Proofs.Deliveries
import ActorMachine.Proofs.Worlds

/-!
# Equivalent process tables

Tables are equivalent if they hold equivalent actors, in the same slots and in the same states. What
happens to one of them may happen to the other: processes are started, reached and asked to end in
the same way. So the worlds of a running actor that differ in such tables cannot tell matched
messages apart (`Dispatch.respects`).
-/

namespace ActorMachine

open Memory

/-! ## Faults of deliveries -/

/-- A fault that neither a program raises nor a table without vacant slots, and that does not tell
of a function or a native that is not there. -/
def Fault.OfDelivery : Fault → Prop
  | .raised _ | .processTableFull | .invalidFunction _ | .unknownNative _ => False
  | _ => True

theorem Fault.OfDelivery.not_dangling {e : Fault} (h : e.OfDelivery) : ¬e.Dangling := by
  intro dangling
  cases dangling <;> exact h

/-- The computation fails with faults of deliveries only. -/
def ActorM.Unraised (m : ActorM α) : Prop :=
  ∀ a, Ends m a (fun _ _ => True) fun e _ => e.OfDelivery

namespace ActorM.Unraised

theorem pure (x : α) : Unraised (pure x) := fun _ => .pure trivial

theorem throw {e : Fault} (h : e.OfDelivery) : Unraised (throw e : ActorM α) :=
  fun _ => .throw h

theorem modify (f : Actor → Actor) : Unraised (modify f : ActorM PUnit) := fun _ => .modify trivial

theorem get : Unraised get := fun _ => .get trivial

theorem bind {m : ActorM α} {f : α → ActorM β} (first : Unraised m) (rest : ∀ x, Unraised (f x)) :
    Unraised (m >>= f) :=
  fun a => .bind <| (first a).mono (fun x b _ => rest x b) fun _ _ h => h

theorem ite {p : Prop} [Decidable p] {m n : ActorM α} (pos : Unraised m) (neg : Unraised n) :
    Unraised (if p then m else n) := fun a => .ite (fun _ => pos a) fun _ => neg a

end ActorM.Unraised

namespace ActorM

theorem unraised_onHeap (m : HeapM α) : Unraised (onHeap m) := by
  intro a
  cases hm : m a.heap with
  | ok x h =>
    exact .intro (fun _ _ _ => trivial) fun _ _ run => by rw [onHeap_ok hm] at run; cases run
  | error e h =>
    refine .intro (fun _ _ _ => trivial) fun _ _ run => ?_
    rw [onHeap_error hm] at run
    cases run
    exact trivial

theorem unraised_ofHeap (result : Except HeapError α) : Unraised (ofHeap result) := by
  cases result with
  | ok x => exact .pure x
  | error e => exact .throw trivial

theorem unraised_reserve (bytes : Nat) : Unraised (reserve bytes) := by
  refine .bind .get fun a => .ite (fun b => ?_) (.pure _)
  unfold collect
  refine .intro (fun _ _ _ => trivial) fun _ _ run => ?_
  split at run
  · cases run
  · cases run
    exact trivial

theorem unraised_alloc (kind : Kind) (size : Nat) : Unraised (alloc kind size) :=
  .bind (unraised_reserve _) fun _ => unraised_onHeap _

theorem unraised_push (v : Value) : Unraised (push v) :=
  .bind .get fun _ => .bind .get fun _ =>
    .ite (.bind (.throw trivial) fun _ => .modify _) (.modify _)

theorem unraised_checkMailbox (self : Pid) : Unraised (checkMailbox self) :=
  .bind .get fun _ => .bind .get fun _ => .ite (.throw trivial) (.pure _)

theorem unraised_deliver (self : Pid) (source : Heap) (message : Value) :
    Unraised (deliver self source message) := by
  refine .bind (unraised_checkMailbox self) fun _ => .ite ?_ (.modify _)
  exact .bind (unraised_ofHeap _) fun _ => .bind (unraised_reserve _) fun _ =>
    .bind (unraised_onHeap _) fun _ => .modify _

theorem unraised_deliverLocal (self : Pid) (message : Value) :
    Unraised (deliverLocal self message) := by
  refine .ite ?_ (.bind (unraised_checkMailbox self) fun _ => .modify _)
  refine .bind .get fun a => .bind (unraised_ofHeap _) fun need => ?_
  split
  · exact unraised_deliver self _ _
  · exact .throw trivial

theorem unraised_deliverBytes (self : Pid) (bytes : ByteArray) :
    Unraised (deliverBytes self bytes) :=
  .bind (unraised_checkMailbox self) fun _ => .bind
    (.bind (unraised_alloc _ _) fun _ => .bind (unraised_onHeap _) fun _ => .pure _)
    fun _ => .modify _

theorem unraised_pushCopies (source : Option Heap) (values : List Value) :
    Unraised (pushCopies source values) := by
  induction values with
  | nil => exact .pure _
  | cons v values ih =>
    unfold pushCopies
    cases source with
    | none => exact .bind (unraised_push v) fun _ => ih
    | some h => exact .bind (unraised_onHeap _) fun _ => .bind (unraised_push _) fun _ => ih

theorem ofDelivery_of_measureArgs {source : Option Heap} {args : List Value} {e : Fault}
    (h : measureArgs source args = .error e) : e.OfDelivery := by
  induction args with
  | nil => cases h
  | cons v args ih =>
    unfold measureArgs at h
    cases hv : measureArg source v with
    | error e' =>
      rw [hv] at h
      cases h
      unfold measureArg at hv
      split at hv
      · cases hv
      · split at hv <;> cases hv
        exact trivial
      · cases hv
        exact trivial
    | ok n =>
      rw [hv] at h
      cases hrest : measureArgs source args with
      | error e' =>
        rw [hrest] at h
        cases h
        exact ih hrest
      | ok m =>
        rw [hrest] at h
        cases h

theorem unraised_prepareEntry (callee : Value) (args : List Value) (source : Option Heap) :
    Unraised (prepareEntry callee args source) := by
  have rest : ∀ need : Nat, Unraised (do
      reserve need
      pushCopies source args.reverse
      push callee
      modify fun a => { a with entry := some args.length }) := fun need =>
    .bind (unraised_reserve _) fun _ => .bind (unraised_pushCopies _ _) fun _ =>
      .bind (unraised_push _) fun _ => .modify _
  unfold prepareEntry
  refine .ite ?_ (.bind (.throw trivial) fun _ => ?_)
  all_goals
    cases hneed : measureArgs source args with
    | error e => exact .bind (.throw (ofDelivery_of_measureArgs hneed)) fun _ => rest _
    | ok need => exact .bind (.pure _) rest

end ActorM

/-! ## Equivalent tables -/

/-- Processes with equivalent actors. -/
structure Process.Equivalent (p q : Process) : Prop where
  pid : p.pid = q.pid
  state : p.state = q.state
  exitRequested : p.exitRequested = q.exitRequested
  actor : ∃ ρ, p.actor.Equivalent ρ q.actor

/-- Slots that are both vacant, both left by processes that run, or hold equivalent processes. -/
inductive Occupant.Equivalent : Occupant → Occupant → Prop
  | vacant : Equivalent .vacant .vacant
  | away : Equivalent .away .away
  | resident {p q : Process} (h : p.Equivalent q) : Equivalent (.resident p) (.resident q)

/-- Slots with equivalent occupants. -/
structure Slot.Equivalent (s t : Slot) : Prop where
  generation : s.generation = t.generation
  occupant : s.occupant.Equivalent t.occupant

/-- Tables with equivalent processes in the same slots. -/
structure ProcessTable.Equivalent (t u : ProcessTable) : Prop where
  layout : t.layout = u.layout
  config : t.config = u.config
  slots : ∀ i : Nat, Option.Rel Slot.Equivalent t.slots[i]? u.slots[i]?
  nextIndex : t.nextIndex = u.nextIndex
  free : t.free = u.free
  pending : t.pending = u.pending
  live : t.live = u.live

/-- Two computations are refused with the same fault, which a program can cause, and leave related
states. -/
def SameRefusal (R : σ → σ → Prop) (e : Fault) (s : σ) (e' : Fault) (t : σ) : Prop :=
  e = e' ∧ e.Benign ∧ R s t

namespace Process

variable {p q : Process} {σ : Matching} {source source' : Option Heap} {v w : Value}

theorem Equivalent.setState (h : p.Equivalent q) (state : ProcessState) :
    Equivalent { p with state } { q with state } :=
  ⟨h.pid, rfl, h.exitRequested, h.actor⟩

theorem Equivalent.notify (h : p.Equivalent q) : p.notify.Equivalent q.notify := by
  unfold Process.notify
  rw [← h.state]
  split
  · exact h.setState _
  · exact h

/-- What equivalent actors do alike, equivalent processes do alike. -/
theorem together_onActor {m m' : ActorM α} (unraised : m.Unraised)
    (same : ∀ g ρ, ActorM.Same g (fun _ => False) ρ m m' fun _ _ _ => True) (h : p.Equivalent q) :
    Together (onActor m) (onActor m') p q (fun _ p' _ q' => p'.Equivalent q')
      (SameRefusal Equivalent) := by
  obtain ⟨ρ, hactor⟩ := h.actor
  have hrun := same _ ρ _ _ (Actor.InStep.of_equivalent hactor ByteArray.empty)
  cases hm : m p.actor with
  | ok x a =>
    obtain ⟨y, b, hm', ρ', h', -⟩ := hrun.of_ok hm
    refine .ok_ok (x := x) (y := y) (t := { p with actor := a }) (u := { q with actor := b }) ?_ ?_
      ⟨h.pid, h.state, h.exitRequested, ρ', h'.toEquivalent⟩
    · unfold onActor
      simp only [hm]
    · unfold onActor
      simp only [hm']
  | error e a =>
    obtain ⟨e', b, hm', ρ', hfault, h'⟩ := hrun.of_error hm
    have hraised := (unraised p.actor).of_error hm
    refine .error_error (e := e) (f := e') (t := { p with actor := a }) (u := { q with actor := b })
      ?_ ?_ ?_
    · unfold onActor
      simp only [hm]
    · unfold onActor
      simp only [hm']
    · cases hfault with
      | same hbenign =>
        exact ⟨rfl, hbenign.resolve_right id, h.pid, h.state, h.exitRequested, ρ', h'.toEquivalent⟩
      | shown => exact hraised.elim

/-- Matched messages for equivalent processes. -/
theorem together_deliver (h : p.Equivalent q) (address : Pid)
    (hsource : ActorM.SourcesMatch σ source source') (hvw : v.Match σ w) :
    Together (deliver address source v) (deliver address source' w) p q
      (fun _ p' _ q' => p'.Equivalent q') (SameRefusal Equivalent) := by
  have notified : ∀ {m m' : EStateM Fault Process Unit}, Together m m' p q
      (fun _ p' _ q' => p'.Equivalent q') (SameRefusal Equivalent) →
      Together (m >>= fun _ => modify notify) (m' >>= fun _ => modify notify) p q
        (fun _ p' _ q' => p'.Equivalent q') (SameRefusal Equivalent) :=
    fun hm => .bind <| hm.mono (fun _ _ _ _ h => .modify h.notify) fun _ _ _ _ h => h
  cases hsource with
  | some iso =>
    exact notified (together_onActor (ActorM.unraised_deliver _ _ _)
      (fun g ρ => ActorM.same_deliver address iso hvw) h)
  | none =>
    cases hvw with
    | object _ =>
      exact .bind <| .throw ⟨rfl, nofun, h⟩
    | inline hinline =>
      unfold deliver
      have hcollectable : ¬v.isCollectable := by
        rw [Value.isCollectable, hinline]
        exact Bool.false_ne_true
      simp only [if_neg hcollectable]
      exact notified (together_onActor (ActorM.unraised_deliverLocal _ _)
        (fun g ρ => ActorM.same_deliverLocal address (.inline hinline)) h)

theorem together_deliverBytes (h : p.Equivalent q) (address : Pid) (bytes : ByteArray) :
    Together (deliverBytes address bytes) (deliverBytes address bytes) p q
      (fun _ p' _ q' => p'.Equivalent q') (SameRefusal Equivalent) :=
  .bind <| (together_onActor (ActorM.unraised_deliverBytes _ _)
    (fun _ _ => ActorM.same_deliverBytes address bytes) h).mono (fun _ _ _ _ h => .modify h.notify)
    fun _ _ _ _ h => h

end Process

namespace ProcessTable

variable {t u : ProcessTable} {σ : Matching} {source source' : Option Heap} {v w : Value}

theorem Equivalent.occupant (h : t.Equivalent u) (p : Pid) :
    (t.occupant p).Equivalent (u.occupant p) := by
  unfold ProcessTable.occupant
  have hslot := h.slots (t.layout.index p)
  rw [← h.layout]
  generalize t.slots[t.layout.index p]? = x at hslot ⊢
  generalize u.slots[t.layout.index p]? = y at hslot ⊢
  cases hslot with
  | none => exact .vacant
  | some hslot =>
    dsimp only
    rw [hslot.generation]
    split
    · exact hslot.occupant
    · exact .vacant

theorem Equivalent.get? (h : t.Equivalent u) (p : Pid) :
    Option.Rel Process.Equivalent (t.get? p) (u.get? p) := by
  unfold ProcessTable.get?
  have hoccupant := h.occupant p
  generalize t.occupant p = x at hoccupant ⊢
  generalize u.occupant p = y at hoccupant ⊢
  cases hoccupant with
  | vacant => exact .none
  | away => exact .none
  | resident hpq =>
    unfold Occupant.process?
    dsimp only
    rw [hpq.state]
    split
    · exact .none
    · exact .some hpq

/-- Equivalent slots in the place of a slot. -/
theorem Equivalent.modifySlot (h : t.Equivalent u) (i : Nat) {f f' : Slot → Slot}
    (hf : ∀ s s', s.Equivalent s' → (f s).Equivalent (f' s')) :
    Equivalent { t with slots := t.slots.modify i f } { u with slots := u.slots.modify i f' } where
  layout := h.layout
  config := h.config
  slots j := by
    have hslot := h.slots j
    show Option.Rel _ (t.slots.modify i f)[j]? (u.slots.modify i f')[j]?
    rw [Array.getElem?_modify, Array.getElem?_modify]
    generalize t.slots[j]? = x at hslot ⊢
    generalize u.slots[j]? = y at hslot ⊢
    cases hslot with
    | none => split <;> exact .none
    | some hslot =>
      split
      · exact .some (hf _ _ hslot)
      · exact .some hslot
  nextIndex := h.nextIndex
  free := h.free
  pending := h.pending
  live := h.live

theorem Equivalent.setOccupant (h : t.Equivalent u) (p : Pid) {x y : Occupant}
    (hxy : x.Equivalent y) : (t.setOccupant p x).Equivalent (u.setOccupant p y) := by
  have hslot : ∀ s s' : Slot, s.Equivalent s' →
      Slot.Equivalent { s with occupant := x } { s' with occupant := y } :=
    fun s s' hs => ⟨hs.generation, hxy⟩
  have hset := h.modifySlot (t.layout.index p) hslot
  unfold ProcessTable.setOccupant
  rw [← h.layout]
  exact { hset with layout := rfl }

theorem Equivalent.size_slots (h : t.Equivalent u) : t.slots.size = u.slots.size := by
  have hle : ∀ i : Nat, t.slots.size ≤ i ↔ u.slots.size ≤ i := by
    intro i
    have hslot := h.slots i
    rw [← Array.getElem?_eq_none_iff, ← Array.getElem?_eq_none_iff]
    generalize t.slots[i]? = x at hslot ⊢
    generalize u.slots[i]? = y at hslot ⊢
    cases hslot with
    | none => exact Iff.rfl
    | some _ => exact ⟨nofun, nofun⟩
  exact Nat.le_antisymm ((hle _).mpr (Nat.le_refl _)) ((hle _).mp (Nat.le_refl _))

theorem Equivalent.generation (h : t.Equivalent u) (i : Nat) :
    (t.slots.getD i default).generation = (u.slots.getD i default).generation := by
  have hslot := h.slots i
  rw [Array.getD_eq_getD_getElem?, Array.getD_eq_getD_getElem?]
  generalize t.slots[i]? = x at hslot ⊢
  generalize u.slots[i]? = y at hslot ⊢
  cases hslot with
  | none => rfl
  | some hslot => exact hslot.generation

theorem Equivalent.takeSlot (h : t.Equivalent u) :
    Option.Rel (fun x y => x.1 = y.1 ∧ x.2.Equivalent y.2) t.takeSlot u.takeSlot := by
  unfold ProcessTable.takeSlot
  rw [← h.layout, ← h.nextIndex, ← h.free]
  split
  · refine .some
      ⟨rfl, { h with layout := rfl, nextIndex := rfl, free := rfl, slots := fun i => ?_ }⟩
    show Option.Rel _ (t.slots.push _)[i]? (u.slots.push _)[i]?
    rw [Array.getElem?_push, Array.getElem?_push, ← h.size_slots]
    split
    · exact .some ⟨rfl, .vacant⟩
    · exact h.slots i
  · split
    · exact .none
    · exact .some ⟨rfl, { h with layout := rfl, nextIndex := rfl, free := rfl }⟩

/-- Processes that are started with matched callees and arguments. -/
theorem together_spawn (h : t.Equivalent u) (hsource : ActorM.SourcesMatch σ source source')
    (hvw : v.Match σ w) {vs ws : List Value} (hvs : Value.MatchList σ vs ws) :
    Together (spawn v vs source) (spawn w ws source') t u
      (fun x t' y u' => x = y ∧ t'.Equivalent u') (SameRefusal Equivalent) := by
  have hprepare := ActorM.together_prepareEntry (B := fun _ => False)
    (.of_equivalent (.create (c := t.config) (d := t.config) rfl rfl) ByteArray.empty)
    hsource hvw hvs
  unfold Together spawn
  rw [← h.config]
  cases hrun : ActorM.prepareEntry v vs source (Actor.create t.config) with
  | error e a =>
    obtain ⟨e', b, hrun', ρ, hfault, -⟩ := hprepare.of_error hrun
    have hraised := (ActorM.unraised_prepareEntry v vs source _).of_error hrun
    have hrun' : ActorM.prepareEntry w ws source' (Actor.create t.config) = _ := hrun'
    rw [hrun']
    cases hfault with
    | same hbenign => exact ⟨rfl, hbenign.resolve_right id, h⟩
    | shown => exact hraised.elim
  | ok x a =>
    obtain ⟨y, b, hrun', ρ, hab⟩ := hprepare.of_ok hrun
    have hrun' : ActorM.prepareEntry w ws source' (Actor.create t.config) = _ := hrun'
    rw [hrun']
    dsimp only
    have hslot := h.takeSlot
    generalize t.takeSlot = x at hslot ⊢
    generalize u.takeSlot = y at hslot ⊢
    cases hslot with
    | none => exact ⟨rfl, nofun, h⟩
    | @some x y hxy =>
      obtain ⟨index, t'⟩ := x
      obtain ⟨index', u'⟩ := y
      obtain ⟨rfl, h'⟩ := hxy
      dsimp only at h' ⊢
      rw [← h'.generation, ← h'.layout, ← h'.live, ← h'.pending]
      generalize t'.layout.pid index (t'.slots.getD index default).generation = pid
      have hset := h'.setOccupant pid (.resident (p := ⟨pid, a, .pending, false⟩)
        (q := ⟨pid, b, .pending, false⟩) ⟨rfl, rfl, rfl, ρ, hab.toEquivalent⟩)
      exact ⟨rfl, { hset with live := rfl, pending := rfl }⟩

/-- What equivalent processes do alike. -/
theorem together_onProcess (h : t.Equivalent u) (p : Pid) {m m' : EStateM Fault Process α}
    (hm : ∀ x y : Process, x.Equivalent y →
      Together m m' x y (fun _ x' _ y' => x'.Equivalent y') (SameRefusal Process.Equivalent)) :
    Together (onProcess p m) (onProcess p m') t u (fun _ t' _ u' => t'.Equivalent u')
      (SameRefusal Equivalent) := by
  have hprocess := h.get? p
  have haway := h.setOccupant p .away
  cases ht : t.get? p with
  | none =>
    rw [ht] at hprocess
    cases hu : u.get? p with
    | some y => rw [hu] at hprocess; cases hprocess
    | none =>
      refine .error_error (e := .invalidPid p) (f := .invalidPid p) (t := t) (u := u) ?_ ?_
        ⟨rfl, nofun, h⟩
      · simp only [onProcess, ht]
      · simp only [onProcess, hu]
  | some x =>
    rw [ht] at hprocess
    cases hu : u.get? p with
    | none => rw [hu] at hprocess; cases hprocess
    | some y =>
      rw [hu] at hprocess
      cases hprocess with
      | some hxy =>
        have hrun := hm x y hxy
        cases hx : m x with
        | ok a x' =>
          obtain ⟨b, y', hy, h'⟩ := hrun.of_ok hx
          refine .ok_ok (x := a) (y := b)
            (t := (t.setOccupant p .away).setOccupant p (.resident x'))
            (u := (u.setOccupant p .away).setOccupant p (.resident y')) ?_ ?_
            (haway.setOccupant p (.resident h'))
          · simp only [onProcess, ht, hx]
          · simp only [onProcess, hu, hy]
        | error e x' =>
          obtain ⟨e', y', hy, rfl, hbenign, h'⟩ := hrun.of_error hx
          refine .error_error (e := e) (f := e)
            (t := (t.setOccupant p .away).setOccupant p (.resident x'))
            (u := (u.setOccupant p .away).setOccupant p (.resident y')) ?_ ?_
            ⟨rfl, hbenign, haway.setOccupant p (.resident h')⟩
          · simp only [onProcess, ht, hx]
          · simp only [onProcess, hu, hy]

theorem together_deliver (h : t.Equivalent u) (target : Pid)
    (hsource : ActorM.SourcesMatch σ source source') (hvw : v.Match σ w) :
    Together (deliver target source v) (deliver target source' w) t u
      (fun _ t' _ u' => t'.Equivalent u') (SameRefusal Equivalent) :=
  together_onProcess h target fun _ _ hxy => Process.together_deliver hxy target hsource hvw

theorem together_deliverBytes (h : t.Equivalent u) (target : Pid) (bytes : ByteArray) :
    Together (deliverBytes target bytes) (deliverBytes target bytes) t u
      (fun _ t' _ u' => t'.Equivalent u') (SameRefusal Equivalent) :=
  together_onProcess h target fun _ _ hxy => Process.together_deliverBytes hxy target bytes

theorem together_kill (h : t.Equivalent u) (target : Pid) :
    Together (kill target) (kill target) t u (fun _ t' _ u' => t'.Equivalent u')
      (SameRefusal Equivalent) :=
  together_onProcess h target fun _ _ hxy => .modify ⟨hxy.pid, hxy.state, rfl, hxy.actor⟩

end ProcessTable

/-! ## Worlds with equivalent tables -/

namespace Dispatch

/-- The same process runs among equivalent others. -/
structure Equivalent (d d' : Dispatch) : Prop where
  table : d.table.Equivalent d'.table
  current : d.current = d'.current

theorem together_onTable {d d' : Dispatch} {m m' : EStateM Fault ProcessTable α} {Q : α → α → Prop}
    (h : d.Equivalent d')
    (hm : Together m m' d.table d'.table (fun x t y u => Q x y ∧ t.Equivalent u)
      (SameRefusal ProcessTable.Equivalent)) :
    Together (onTable m) (onTable m') d d' (fun x k y l => Q x y ∧ k.Equivalent l)
      fun e k e' l => e = e' ∧ e.Benign ∧ k.Equivalent l := by
  cases hx : m d.table with
  | ok x t =>
    obtain ⟨y, u, hy, hq, h'⟩ := hm.of_ok hx
    refine .ok_ok (x := x) (y := y) (t := ⟨t, d.current⟩) (u := ⟨u, d'.current⟩) ?_ ?_
      ⟨hq, h', h.current⟩
    · simp only [onTable, hx]
    · simp only [onTable, hy]
  | error e t =>
    obtain ⟨e', u, hy, rfl, hbenign, h'⟩ := hm.of_error hx
    refine .error_error (e := e) (f := e) (t := ⟨t, d.current⟩) (u := ⟨u, d'.current⟩) ?_ ?_
      ⟨rfl, hbenign, h', h.current⟩
    · simp only [onTable, hx]
    · simp only [onTable, hy]

/-- Running processes among equivalent others get the same answers, and reports of faults that a
program can cause only. -/
theorem respects : Kernel.Respects Equivalent Fault.Benign where
  self h := h.current
  send h _ _ iso hvw target :=
    (together_onTable (Q := fun _ _ => True) h
      ((ProcessTable.together_deliver h.table target (.some iso) hvw).mono
        (fun _ _ _ _ h => ⟨trivial, h⟩) fun _ _ _ _ h => h)).mono (fun _ _ _ _ h => h.2)
      fun _ _ _ _ h => h
  spawn hk _ _ iso hvw hvs :=
    together_onTable hk (ProcessTable.together_spawn hk.table (.some iso) hvw hvs)
  kill h target :=
    (together_onTable (Q := fun _ _ => True) h
      ((ProcessTable.together_kill h.table target).mono (fun _ _ _ _ h => ⟨trivial, h⟩)
        fun _ _ _ _ h => h)).mono (fun _ _ _ _ h => h.2) fun _ _ _ _ h => h

end Dispatch

end ActorMachine
