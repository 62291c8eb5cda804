import Mathlib.Algebra.Order.Ring.Nat
import ActorMachine.Machine.Run

/-!
# Reasoning about computations

A computation of the machine leaves a state whether or not it fails. `Ends m s ok err` says what
holds of the value and the state, or of the fault and the state, that `m` comes to from `s`;
`Keeps view m` says that no run of `m` changes what `view` shows of its state; `Alike p view m m'`
says so where `p` holds of the view, and that `m` and `m'` do the same there. All are closed under
sequencing (`Ends.bind`, `Keeps.bind`, `Alike.bind`), so each operation has one lemma and composite
operations follow their own structure.
-/

namespace ActorMachine

variable {ε σ α β γ : Type}

theorem bind_of_ok {m : EStateM ε σ α} {f : α → EStateM ε σ β} {s s' : σ} {x : α}
    (h : m s = .ok x s') : (m >>= f) s = f x s' := by
  show EStateM.bind m f s = _
  rw [EStateM.bind, h]

theorem bind_of_error {m : EStateM ε σ α} {f : α → EStateM ε σ β} {s s' : σ} {e : ε}
    (h : m s = .error e s') : (m >>= f) s = .error e s' := by
  show EStateM.bind m f s = _
  rw [EStateM.bind, h]

/-- What comes of a computation comes of its parts. -/
theorem exists_of_bind_ok {m : Except ε α} {f : α → Except ε β} {b : β} (h : (m >>= f) = .ok b) :
    ∃ a, m = .ok a ∧ f a = .ok b := by
  cases m with
  | error e => cases h
  | ok a => exact ⟨a, rfl, h⟩

theorem exists_of_run_bind_ok {m : EStateM ε σ α} {f : α → EStateM ε σ β} {s s' : σ} {b : β}
    (h : (m >>= f) s = .ok b s') : ∃ a s₁, m s = .ok a s₁ ∧ f a s₁ = .ok b s' := by
  cases run : m s with
  | ok a s₁ =>
    rw [bind_of_ok run] at h
    exact ⟨a, s₁, rfl, h⟩
  | error e s₁ =>
    rw [bind_of_error run] at h
    cases h

/-- From `s`, the computation `m` either returns with `ok` or fails with `err`. -/
def Ends (m : EStateM ε σ α) (s : σ) (ok : α → σ → Prop) (err : ε → σ → Prop) : Prop :=
  match m s with
  | .ok a s' => ok a s'
  | .error e s' => err e s'

namespace Ends

variable {m : EStateM ε σ α} {s : σ} {ok : α → σ → Prop} {err : ε → σ → Prop}

theorem of_ok (h : Ends m s ok err) {a : α} {s' : σ} (run : m s = .ok a s') : ok a s' := by
  unfold Ends at h
  rw [run] at h
  exact h

theorem of_error (h : Ends m s ok err) {e : ε} {s' : σ} (run : m s = .error e s') : err e s' := by
  unfold Ends at h
  rw [run] at h
  exact h

theorem intro (hok : ∀ a s', m s = .ok a s' → ok a s')
    (herr : ∀ e s', m s = .error e s' → err e s') : Ends m s ok err := by
  unfold Ends
  split
  · exact hok _ _ (by assumption)
  · exact herr _ _ (by assumption)

theorem returns {a : α} {s' : σ} (run : m s = .ok a s') (h : ok a s') : Ends m s ok err := by
  unfold Ends
  rw [run]
  exact h

theorem fails {e : ε} {s' : σ} (run : m s = .error e s') (h : err e s') : Ends m s ok err := by
  unfold Ends
  rw [run]
  exact h

theorem of_eq {n : EStateM ε σ α} {t : σ} (run : m s = n t) (h : Ends n t ok err) :
    Ends m s ok err := by
  unfold Ends at h ⊢
  rwa [run]

theorem mono {ok' : α → σ → Prop} {err' : ε → σ → Prop} (h : Ends m s ok err)
    (hok : ∀ a s', ok a s' → ok' a s') (herr : ∀ e s', err e s' → err' e s') :
    Ends m s ok' err' :=
  intro (fun a s' run => hok a s' (h.of_ok run)) fun e s' run => herr e s' (h.of_error run)

theorem and {ok' : α → σ → Prop} {err' : ε → σ → Prop} (h : Ends m s ok err)
    (h' : Ends m s ok' err') :
    Ends m s (fun a s => ok a s ∧ ok' a s) (fun e s => err e s ∧ err' e s) :=
  intro (fun _ _ run => ⟨h.of_ok run, h'.of_ok run⟩)
    fun _ _ run => ⟨h.of_error run, h'.of_error run⟩

theorem pure {a : α} (h : ok a s) : Ends (pure a : EStateM ε σ α) s ok err := h

theorem throw {e : ε} (h : err e s) : Ends (throw e : EStateM ε σ α) s ok err := h

theorem get {ok : σ → σ → Prop} (h : ok s s) : Ends (get : EStateM ε σ σ) s ok err := h

theorem modify {f : σ → σ} {ok : PUnit → σ → Prop} (h : ok ⟨⟩ (f s)) :
    Ends (modify f : EStateM ε σ PUnit) s ok err := h

theorem bind {f : α → EStateM ε σ β} {ok : β → σ → Prop}
    (h : Ends m s (fun a s' => Ends (f a) s' ok err) err) : Ends (m >>= f) s ok err := by
  unfold Ends at h ⊢
  show match EStateM.bind m f s with
    | .ok b s' => ok b s'
    | .error e s' => err e s'
  unfold EStateM.bind
  cases run : m s with
  | ok a s' => rw [run] at h; exact h
  | error e s' => rw [run] at h; exact h

theorem ite {p : Prop} [Decidable p] {n : EStateM ε σ α} (pos : p → Ends m s ok err)
    (neg : ¬p → Ends n s ok err) : Ends (if p then m else n) s ok err := by
  split
  · exact pos ‹_›
  · exact neg ‹_›

end Ends

/-- From `s`, the two computations do the same. -/
def SameAt (s : σ) (m m' : EStateM ε σ α) : Prop :=
  m s = m' s

namespace SameAt

variable {s : σ} {m m' : EStateM ε σ α}

theorem refl (m : EStateM ε σ α) : SameAt s m m := rfl

/-- Computations that begin in the same way do the same if they do so from there on. -/
theorem bind {f f' : α → EStateM ε σ β} (first : SameAt s m m')
    (rest : Ends m s (fun a s' => SameAt s' (f a) (f' a)) fun _ _ => True) :
    SameAt s (m >>= f) (m' >>= f') := by
  unfold SameAt at *
  show EStateM.bind m f s = EStateM.bind m' f' s
  unfold EStateM.bind
  rw [← first]
  cases run : m s with
  | ok a s' => exact rest.of_ok run
  | error e s' => rfl

theorem get_bind {f f' : σ → EStateM ε σ β} (h : SameAt s (f s) (f' s)) :
    SameAt s (get >>= f) (get >>= f') :=
  .bind (.refl _) (.get h)

/-- What is sure to come to `x` may be left out. -/
theorem of_pure {f : α → EStateM ε σ β} {n : EStateM ε σ β} {x : α}
    (first : SameAt s m (Pure.pure x)) (rest : SameAt s (f x) n) : SameAt s (m >>= f) n := by
  unfold SameAt at *
  show EStateM.bind m f s = _
  unfold EStateM.bind
  rw [first]
  exact rest

theorem get_left {f : σ → EStateM ε σ α} (h : SameAt s (f s) m') : SameAt s (get >>= f) m' := h

theorem get_right {f : σ → EStateM ε σ α} (h : SameAt s m (f s)) : SameAt s m (get >>= f) := h

theorem trans {m'' : EStateM ε σ α} (h : SameAt s m m') (h' : SameAt s m' m'') :
    SameAt s m m'' := Eq.trans h h'

theorem ite {p : Prop} [Decidable p] {n n' : EStateM ε σ α} (pos : p → SameAt s m m')
    (neg : ¬p → SameAt s n n') : SameAt s (if p then m else n) (if p then m' else n') := by
  split
  · exact pos ‹_›
  · exact neg ‹_›

end SameAt

/-- The state that a computation leaves, whether or not it fails. -/
def leaves (m : EStateM ε σ α) (s : σ) : σ :=
  match m s with
  | .ok _ s' => s'
  | .error _ s' => s'

/-- The value that a computation returns if it does not fail. -/
def answer? (m : EStateM ε σ α) (s : σ) : Option α :=
  match m s with
  | .ok x _ => some x
  | .error _ _ => none

/-- The state that a computation leaves if it does not fail. -/
def completes? (m : EStateM ε σ α) (s : σ) : Option σ :=
  match m s with
  | .ok _ s' => some s'
  | .error _ _ => none

theorem eq_ok_of_completes? {m : EStateM ε σ PUnit} {s s' : σ} (h : completes? m s = some s') :
    m s = .ok .unit s' := by
  unfold completes? at h
  split at h
  · rename_i run
    cases h
    exact run
  · cases h

theorem Ends.leaves {m : EStateM ε σ α} {s : σ} {P : σ → Prop}
    (h : Ends m s (fun _ s' => P s') fun _ s' => P s') : P (leaves m s) := by
  unfold Ends at h
  unfold ActorMachine.leaves
  cases run : m s with
  | ok a s' => rw [run] at h; exact h
  | error e s' => rw [run] at h; exact h

/-- No run of the computation changes what `view` shows of its state. -/
def Keeps (view : σ → γ) (m : EStateM ε σ α) : Prop :=
  ∀ s, view (leaves m s) = view s

namespace Keeps

variable {view : σ → γ} {m : EStateM ε σ α}

theorem ends (h : Keeps view m) (s : σ) :
    Ends m s (fun _ s' => view s' = view s) (fun _ s' => view s' = view s) := by
  have := h s
  unfold leaves at this
  unfold Ends
  split <;> simp_all only

theorem of_ends (h : ∀ s, Ends m s (fun _ s' => view s' = view s) (fun _ s' => view s' = view s)) :
    Keeps view m := by
  intro s
  have := h s
  unfold Ends at this
  unfold leaves
  split <;> simp_all only

theorem pure (a : α) : Keeps view (pure a : EStateM ε σ α) := fun _ => rfl

theorem throw (e : ε) : Keeps view (throw e : EStateM ε σ α) := fun _ => rfl

theorem get : Keeps view (get : EStateM ε σ σ) := fun _ => rfl

theorem modify {f : σ → σ} (h : ∀ s, view (f s) = view s) :
    Keeps view (modify f : EStateM ε σ PUnit) := fun s => h s

theorem bind {f : α → EStateM ε σ β} (first : Keeps view m) (rest : ∀ a, Keeps view (f a)) :
    Keeps view (m >>= f) := by
  apply of_ends
  intro s
  apply Ends.bind
  refine (first.ends s).mono (fun a s' h => ?_) fun _ _ h => h
  rw [← h]
  exact (rest a).ends s'

theorem ite {p : Prop} [Decidable p] {n : EStateM ε σ α} (pos : p → Keeps view m)
    (neg : ¬p → Keeps view n) : Keeps view (if p then m else n) := by
  split
  · exact pos ‹_›
  · exact neg ‹_›

end Keeps

/-- Wherever `p` holds of the view, the two computations do the same and do not change the view. -/
def Alike (p : γ → Prop) (view : σ → γ) (m m' : EStateM ε σ α) : Prop :=
  ∀ s, p (view s) → m s = m' s ∧ view (leaves m s) = view s

namespace Alike

variable {p : γ → Prop} {view : σ → γ} {m m' : EStateM ε σ α}

theorem of_keeps (h : Keeps view m) : Alike p view m m :=
  fun s _ => ⟨rfl, h s⟩

theorem keeps (h : Alike (fun _ => True) view m m) : Keeps view m :=
  fun s => (h s trivial).2

theorem pure (a : α) : Alike p view (pure a : EStateM ε σ α) (pure a) := of_keeps (.pure a)

theorem throw (e : ε) : Alike p view (throw e : EStateM ε σ α) (throw e) := of_keeps (.throw e)

theorem bind {f f' : α → EStateM ε σ β} (first : Alike p view m m')
    (rest : ∀ a, Alike p view (f a) (f' a)) : Alike p view (m >>= f) (m' >>= f') := by
  intro s hs
  obtain ⟨heq, hview⟩ := first s hs
  show EStateM.bind m f s = EStateM.bind m' f' s ∧ view (match EStateM.bind m f s with
    | .ok _ s' => s'
    | .error _ s' => s') = view s
  unfold leaves at hview
  unfold EStateM.bind
  rw [← heq]
  cases run : m s with
  | ok a s' =>
    rw [run] at hview
    obtain ⟨heq', hview'⟩ := rest a s' (hview.symm ▸ hs)
    exact ⟨heq', hview'.trans hview⟩
  | error e s' =>
    rw [run] at hview
    exact ⟨rfl, hview⟩

theorem mapM {f f' : β → EStateM ε σ α} (each : ∀ x, Alike p view (f x) (f' x)) (xs : List β) :
    Alike p view (xs.mapM f) (xs.mapM f') := by
  induction xs with
  | nil => exact .pure _
  | cons x xs ih =>
    rw [List.mapM_cons, List.mapM_cons]
    exact .bind (each x) fun _ => .bind ih fun _ => .pure _

theorem ite {q : Prop} [Decidable q] {n n' : EStateM ε σ α} (pos : q → Alike p view m m')
    (neg : ¬q → Alike p view n n') :
    Alike p view (if q then m else n) (if q then m' else n') := by
  split
  · exact pos ‹_›
  · exact neg ‹_›

end Alike

namespace Exec

variable {κ : Type}

/-- What concerns the actor alone leaves the world as it is. -/
theorem ends_onActor {m : ActorM α} {s : Session κ} {ok : α → Session κ → Prop}
    {err : Fault → Session κ → Prop}
    (h : Ends m s.actor (fun x a => ok x ⟨a, s.kernel⟩) (fun e a => err e ⟨a, s.kernel⟩)) :
    Ends (onActor m) s ok err := by
  unfold Ends at h ⊢
  simp only [onActor]
  cases run : m s.actor <;> rw [run] at h <;> exact h

theorem sameAt_onActor {m m' : ActorM α} {s : Session κ} (h : SameAt s.actor m m') :
    SameAt s (onActor m) (onActor m') := by
  unfold SameAt at *
  simp only [onActor, h]

/-- What concerns the world leaves the actor as it is. -/
theorem ends_onKernel {m : Heap → EStateM Fault κ α} {s : Session κ} {ok : α → Session κ → Prop}
    {err : Fault → Session κ → Prop}
    (h : Ends (m s.actor.heap) s.kernel (fun x k => ok x ⟨s.actor, k⟩)
      (fun e k => err e ⟨s.actor, k⟩)) : Ends (onKernel m) s ok err := by
  unfold Ends at h ⊢
  simp only [onKernel]
  cases run : m s.actor.heap s.kernel <;> rw [run] at h <;> exact h

theorem alike_onActor {p : γ → Prop} {view : Actor → γ} {m m' : ActorM α} (h : Alike p view m m') :
    Alike p (fun s : Session κ => view s.actor) (onActor m) (onActor m') := by
  intro s hs
  obtain ⟨heq, hview⟩ := h s.actor hs
  unfold leaves at hview ⊢
  simp only [onActor, ← heq, true_and]
  cases run : m s.actor <;> rw [run] at hview <;> exact hview

theorem keeps_onKernel {view : Actor → γ} (m : Heap → EStateM Fault κ α) :
    Keeps (fun s : Session κ => view s.actor) (onKernel m) :=
  Keeps.of_ends fun _ => ends_onKernel (Ends.intro (fun _ _ _ => rfl) fun _ _ _ => rfl)

end Exec

namespace Session

variable {κ : Type} [Kernel κ] {l : Loader} {s : Session κ} {P Q : Session κ → Prop}

/-- What the machine's step leads to, and if it fails the report of its fault, holds after the next
step of a run, whether or not the run ends with it. -/
theorem next_of_ends (h : Ends (Exec.advance l) s (fun _ t => P t)
    fun fault t => P ⟨(t.actor.recover fault).2, t.kernel⟩) :
    Sum.elim (fun finished : Outcome × Session κ => P finished.2) P (s.next l) := by
  unfold next
  cases run : Exec.advance l s with
  | ok signal t =>
    have ht := h.of_ok run
    cases signal with
    | proceed => exact ht
    | pause p => exact ht
  | error fault t =>
    have ht := h.of_error run
    dsimp only
    generalize t.actor.recover fault = recovered at ht
    obtain ⟨taken, a⟩ := recovered
    cases taken with
    | true => exact ht
    | false => exact ht

/-- A run goes on after a step of the machine that proceeds, or after the report of the fault of
one. -/
theorem advance_of_next_inr {t : Session κ} (next : s.next l = .inr t) :
    Exec.advance l s = .ok .proceed t ∨ ∃ fault u a,
      Exec.advance l s = .error fault u ∧ u.actor.recover fault = (true, a) ∧
      t = ⟨a, u.kernel⟩ := by
  unfold Session.next at next
  cases run : Exec.advance l s with
  | ok signal u =>
    rw [run] at next
    cases signal with
    | proceed =>
      cases next
      exact .inl rfl
    | pause p => cases next
  | error fault u =>
    rw [run] at next
    dsimp only at next
    cases recovered : u.actor.recover fault with
    | mk taken a =>
      rw [recovered] at next
      cases taken with
      | true =>
        cases next
        exact .inr ⟨fault, u, a, rfl, recovered, rfl⟩
      | false => cases next

/-- A run that ends without a panic ends with a step of the machine that pauses. -/
theorem advance_of_next_inl {t : Session κ} {p : Pause} (next : s.next l = .inl (.ok p, t)) :
    Exec.advance l s = .ok (.pause p) t := by
  unfold Session.next at next
  cases run : Exec.advance l s with
  | ok signal u =>
    rw [run] at next
    cases signal with
    | proceed => cases next
    | pause p =>
      cases next
      rfl
  | error fault u =>
    rw [run] at next
    dsimp only at next
    split at next <;> cases next

theorem next_mono (h : Sum.elim (fun finished : Outcome × Session κ => P finished.2) P (s.next l))
    (imp : ∀ t, P t → Q t) :
    Sum.elim (fun finished : Outcome × Session κ => Q finished.2) Q (s.next l) := by
  cases heq : s.next l with
  | inl finished =>
    rw [heq] at h
    exact imp _ h
  | inr t =>
    rw [heq] at h
    exact imp _ h

end Session

end ActorMachine
