import ActorMachine.Proofs.Reports
import ActorMachine.Proofs.WellFormed

/-!
# Collections cannot be seen

Two actors that differ only in the places of their objects, in what is garbage and in how full their
heaps are do the same, step by step, and stay so (`Session.collections_invisible`): they give the
same signals and the same faults, and they run out of memory at the same instructions, whenever each
of them collects. The one thing that shows where an object is is a fault that a program raises with
a tuple, an array or a table as its text (`Session.ShowsPlace`).
-/

namespace ActorMachine

open Memory

namespace Session

variable {κ : Type}

/-- Equivalent actors in related worlds. -/
structure Equivalent (K : κ → κ → Prop) (s t : Session κ) : Prop where
  actor : ∃ ρ, s.actor.Equivalent ρ t.actor
  kernel : K s.kernel t.kernel

/-- Two faults that a program raises with objects other than strings, and that tell the places of
these objects apart. -/
def PlaceShown (e e' : Fault) : Prop :=
  e ≠ e' ∧ ∃ (shape : Shape) (r t : Ref), shape ≠ .string ∧
    e = .raised (Value.text (.object shape r)) ∧ e' = .raised (Value.text (.object shape t))

variable [Kernel κ]

/-- The next steps of two actors raise faults that show where an object is. -/
def ShowsPlace (l : Loader) (s t : Session κ) : Prop :=
  ∃ e s' e' t', Exec.advance l s = .error e s' ∧ Exec.advance l t = .error e' t' ∧ PlaceShown e e'

/-- The state that the next step leaves, also if a run ends with it. -/
def follow (l : Loader) (s : Session κ) : Session κ :=
  match s.next l with
  | .inl (_, s') => s'
  | .inr s' => s'

/-- The state after a number of steps, where a run that has ended is taken up again. -/
def after (l : Loader) (s : Session κ) : (count : Nat) → Session κ
  | 0 => s
  | count + 1 => (s.follow l).after l count

/-- Runs an actor again and again, each time until it pauses or panics and within a bound of its
own. -/
def runs (l : Loader) (s : Session κ) : (bounds : List Nat) → Option (List Outcome × Session κ)
  | [] => some ([], s)
  | bound :: bounds => do
    let (outcome, s') ← s.run l bound
    let (outcomes, s'') ← s'.runs l bounds
    return (outcome :: outcomes, s'')

variable {K : κ → κ → Prop} {B : Fault → Prop} {l : Loader} {s t : Session κ}

omit [Kernel κ] in
/-- Equivalent actors do the same next, and are equivalent again. -/
theorem together_equivalent {m : Exec κ Signal}
    (same : ∀ {g : Origin} {ρ : Matching} {s t : Session κ}, Session.InStep g K ρ s t → g.guarded →
      Together m m s t (ReturnInStep g.unguarded K) (FailInStep g.unguarded K B))
    (h : s.Equivalent K t) :
    Together m m s t (fun x s' y t' => x = y ∧ s'.Equivalent K t')
      fun e s' e' t' => (e = e' ∨ PlaceShown e e') ∧ s'.Equivalent K t' := by
  obtain ⟨⟨ρ, hactor⟩, hkernel⟩ := h
  refine (same ⟨.of_equivalent hactor s.actor.heap.memory, hkernel⟩ trivial).mono ?_ ?_
  · rintro x s' y t' ⟨heq, ρ', h'⟩
    exact ⟨heq, ⟨ρ', h'.actor.toEquivalent⟩, h'.kernel⟩
  · rintro e s' e' t' ⟨ρ', hfault, h'⟩
    refine ⟨?_, ⟨ρ', h'.actor.toEquivalent⟩, h'.kernel⟩
    by_cases heq : e = e'
    · exact .inl heq
    · cases hfault with
      | same _ => exact absurd rfl heq
      | @shown shape r u hshape _ => exact .inr ⟨heq, shape, r, u, hshape, rfl, rfl⟩

section

variable (respects : Kernel.Respects K B) (inline : l.Inline)

include respects inline

/-- The next steps of equivalent actors come to the same, unless they show where an object is. -/
theorem next_equivalent (h : s.Equivalent K t) (hidden : ¬ShowsPlace l s t) :
    (∃ outcome s' t', s.next l = .inl (outcome, s') ∧ t.next l = .inl (outcome, t') ∧
      s'.Equivalent K t') ∨
    ∃ s' t', s.next l = .inr s' ∧ t.next l = .inr t' ∧ s'.Equivalent K t' := by
  have hrun := together_equivalent (fun hst hg => Exec.together_advance respects inline hst hg) h
  unfold next
  cases hs : Exec.advance l s with
  | ok x s' =>
    obtain ⟨y, t', ht, rfl, h'⟩ := hrun.of_ok hs
    rw [ht]
    cases x with
    | proceed => exact .inr ⟨s', t', rfl, rfl, h'⟩
    | pause p => exact .inl ⟨_, s', t', rfl, rfl, h'⟩
  | error e s' =>
    obtain ⟨e', t', ht, hfault, ⟨ρ', ha⟩, hk⟩ := hrun.of_error hs
    obtain rfl : e = e' := hfault.resolve_right fun hshown =>
      hidden ⟨e, s', e', t', hs, ht, hshown⟩
    rw [ht]
    have hstep : s'.actor.InStep ⟨s'.actor.heap.memory, #[], True⟩ ρ' t'.actor :=
      .of_equivalent ha _
    obtain ⟨htaken, ρ'', hrecovered⟩ := Actor.recover_inStep hstep e fun _ _ => Nat.zero_le _
    have hequiv := hrecovered.toEquivalent
    dsimp only
    generalize s'.actor.recover e = x at htaken hequiv ⊢
    generalize t'.actor.recover e = y at htaken hequiv ⊢
    obtain ⟨taken, a⟩ := x
    obtain ⟨taken', b⟩ := y
    obtain rfl : taken = taken' := htaken
    cases taken with
    | true => exact .inr ⟨_, _, rfl, rfl, ⟨ρ'', hequiv⟩, hk⟩
    | false => exact .inl ⟨_, _, _, rfl, rfl, ⟨ρ'', hequiv⟩, hk⟩

/-- Runs of equivalent actors take the same number of steps and end in the same way. -/
theorem run_equivalent {bound : Nat} (h : s.Equivalent K t)
    (hidden : ∀ i < bound, ¬ShowsPlace l (s.after l i) (t.after l i)) :
    (s.run l bound = none ∧ t.run l bound = none) ∨
    ∃ outcome count, count ≤ bound ∧ s.run l bound = some (outcome, s.after l count) ∧
      t.run l bound = some (outcome, t.after l count) ∧
      (s.after l count).Equivalent K (t.after l count) := by
  induction bound generalizing s t with
  | zero => exact .inl ⟨rfl, rfl⟩
  | succ bound ih =>
    have hnext := next_equivalent respects inline h (hidden 0 (Nat.succ_pos bound))
    rw [run, run]
    rcases hnext with ⟨outcome, s', t', hs, ht, h'⟩ | ⟨s', t', hs, ht, h'⟩
    · have hs' : s.after l 1 = s' := by rw [after, after, follow, hs]
      have ht' : t.after l 1 = t' := by rw [after, after, follow, ht]
      rw [hs, ht]
      refine .inr ⟨outcome, 1, Nat.succ_pos bound, ?_, ?_, ?_⟩
      · rw [hs']
      · rw [ht']
      · rw [hs', ht']
        exact h'
    · have hs' : ∀ i, s.after l (i + 1) = s'.after l i := fun i => by rw [after, follow, hs]
      have ht' : ∀ i, t.after l (i + 1) = t'.after l i := fun i => by rw [after, follow, ht]
      rw [hs, ht]
      rcases ih h' fun i hi => hs' i ▸ ht' i ▸ hidden (i + 1) (Nat.succ_lt_succ hi) with
        hnone | ⟨outcome, count, hcount, hs'', ht'', h''⟩
      · exact .inl hnone
      · refine .inr ⟨outcome, count + 1, Nat.succ_le_succ hcount, ?_⟩
        rw [hs', ht']
        exact ⟨hs'', ht'', h''⟩

omit respects inline in
theorem after_add (s : Session κ) (m n : Nat) : s.after l (m + n) = (s.after l m).after l n := by
  induction m generalizing s with
  | zero => rw [Nat.zero_add, after]
  | succ m ih => rw [Nat.succ_add, after, after, ih]

/-- Repeated runs of equivalent actors end in the same ways. -/
theorem runs_equivalent {bounds : List Nat} (h : s.Equivalent K t)
    (hidden : ∀ i < bounds.sum, ¬ShowsPlace l (s.after l i) (t.after l i)) :
    Option.Rel (fun x y => x.1 = y.1 ∧ x.2.Equivalent K y.2) (s.runs l bounds)
      (t.runs l bounds) := by
  induction bounds generalizing s t with
  | nil => exact .some ⟨rfl, h⟩
  | cons bound bounds ih =>
    rw [List.sum_cons] at hidden
    unfold runs
    rcases run_equivalent respects inline h fun i hi => hidden i (Nat.lt_add_right _ hi) with
      ⟨hs, ht⟩ | ⟨outcome, count, hcount, hs, ht, h'⟩
    · rw [hs, ht]
      exact .none
    · have hrest := ih h' fun i hi => after_add s count i ▸ after_add t count i ▸
        hidden (count + i) (Nat.add_lt_add_of_le_of_lt hcount hi)
      rw [hs, ht]
      dsimp only [Option.bind_eq_bind, Option.bind_some]
      generalize (s.after l count).runs l bounds = x at hrest ⊢
      generalize (t.after l count).runs l bounds = y at hrest ⊢
      cases hrest with
      | none => exact .none
      | some hxy => exact .some ⟨congrArg (outcome :: ·) hxy.1, hxy.2⟩

end

/-- Equivalent actors in worlds that cannot tell matched messages apart execute the same instruction
and come to the same signal or the same fault, running out of memory included, and they are
equivalent again; and so it is for any number of runs. The one exception is a fault that is raised
with a tuple, an array or a table in different places. -/
theorem collections_invisible (inline : l.Inline) (respects : Kernel.Respects K B)
    (h : s.Equivalent K t) :
    Together (Exec.step l) (Exec.step l) s t (fun x s' y t' => x = y ∧ s'.Equivalent K t')
      (fun e s' e' t' => (e = e' ∨ PlaceShown e e') ∧ s'.Equivalent K t') ∧
    ∀ bounds : List Nat, (∀ i < bounds.sum, ¬ShowsPlace l (s.after l i) (t.after l i)) →
      Option.Rel (fun x y => x.1 = y.1 ∧ x.2.Equivalent K y.2) (s.runs l bounds)
        (t.runs l bounds) :=
  ⟨together_equivalent (fun hst hg => Exec.together_step respects inline hst hg) h,
    fun _ hidden => runs_equivalent respects inline h hidden⟩

/-- A world with nobody else in it takes no messages. -/
theorem Solitude.respects : Kernel.Respects (κ := Solitude) Eq fun _ => True where
  self := congrArg Solitude.self
  send := by
    rintro k _ _ _ _ _ _ rfl _ _ _ _ _
    exact .throw ⟨rfl, trivial, rfl⟩
  spawn := by
    rintro k _ _ _ _ _ _ _ _ rfl _ _ _ _ _
    exact .throw ⟨rfl, trivial, rfl⟩
  kill := by
    rintro k _ rfl _
    exact .throw ⟨rfl, trivial, rfl⟩

/-- Whether two sessions, if what they do next fails, fail by the same fault. -/
def failAlike (l : Loader) (s t : Session Solitude) : Bool :=
  match Exec.advance l s, Exec.advance l t with
  | .error e _, .error e' _ => decide (e = e')
  | _, _ => true

/-- The heap of the left actor is so small that it is collected when the fault is reported; that of
the right one is not collected. -/
theorem nestedTries_invisible :
    ∃ a b : Actor,
      ActorM.prepareEntry (.function ⟨0, 0⟩) [] none
        (Actor.create { initialHeap := 8 }) = .ok () a ∧
      ActorM.prepareEntry (.function ⟨0, 0⟩) [] none (Actor.create {}) = .ok () b ∧
      Option.Rel (fun x y => x.1 = y.1 ∧ x.2.Equivalent Eq y.2)
        (runs nestedTries (⟨a, ⟨⟨0⟩⟩⟩ : Session Solitude) [8])
        (runs nestedTries (⟨b, ⟨⟨0⟩⟩⟩ : Session Solitude) [8]) := by
  have same : ((completes? (ActorM.prepareEntry (.function ⟨0, 0⟩) [] none)
      (Actor.create { initialHeap := 8 })).bind fun a =>
    (completes? (ActorM.prepareEntry (.function ⟨0, 0⟩) [] none) (Actor.create {})).map fun b =>
    (List.range 8).all fun i => failAlike nestedTries
      ((⟨a, ⟨⟨0⟩⟩⟩ : Session Solitude).after nestedTries i)
      ((⟨b, ⟨⟨0⟩⟩⟩ : Session Solitude).after nestedTries i)) = some true := by decide +kernel
  obtain ⟨a, ha, same⟩ := Option.bind_eq_some_iff.mp same
  obtain ⟨b, hb, same⟩ := Option.map_eq_some_iff.mp same
  have ha := eq_ok_of_completes? ha
  have hb := eq_ok_of_completes? hb
  refine ⟨a, b, ha, hb, ?_⟩
  have hprepare := ActorM.together_prepareEntry (B := fun _ => True) (v := .function ⟨0, 0⟩)
    (.of_equivalent (.create (c := { initialHeap := 8 }) (d := {}) rfl rfl) ByteArray.empty)
      (.none (σ := .empty)) (.inline rfl) .nil
  obtain ⟨_, _, hb', ρ, hab⟩ := hprepare.of_ok ha
  rw [hb] at hb'
  cases hb'
  refine (collections_invisible (s := ⟨a, ⟨⟨0⟩⟩⟩) (t := ⟨b, ⟨⟨0⟩⟩⟩) nestedTries_built.inline
    Solitude.respects ⟨⟨ρ, hab.toEquivalent⟩, rfl⟩).2 [8] ?_
  rintro i hi ⟨e, s', e', t', hs, ht, hne, -⟩
  have hi := List.all_eq_true.mp same i (List.mem_range.mpr hi)
  rw [failAlike, hs, ht] at hi
  exact hne (of_decide_eq_true hi)

end Session

end ActorMachine
