import ActorMachine.Proofs.Equivalence

/-!
# Equivalent actors in related worlds

`Kernel.Respects K B` says that worlds related by `K` answer alike when they are given matched
messages, and stay related; `B` is what is known of the faults with which they refuse. A session is
an actor in its world, and `Exec.Same` compares what two running actors do.
-/

namespace ActorMachine

/-- Related worlds cannot tell matched messages apart: they give the same answers or refuse with the
same faults, and stay related. -/
structure Kernel.Respects {κ : Type} [Kernel κ] (K : κ → κ → Prop) (B : Fault → Prop) : Prop where
  self : ∀ {k k' : κ}, K k k' → Kernel.self k = Kernel.self k'
  send : ∀ {k k' : κ} {ρ : Matching} {h h' : Heap} {v w : Value}, K k k' → h.Bounded → h'.Bounded →
    Iso ρ h.memory h'.memory → v.Match ρ w → ∀ target : Pid,
    Together (Kernel.send target v h) (Kernel.send target w h') k k' (fun _ l _ l' => K l l')
      fun e l e' l' => e = e' ∧ B e ∧ K l l'
  spawn : ∀ {k k' : κ} {ρ : Matching} {h h' : Heap} {v w : Value} {vs ws : List Value}, K k k' →
    h.Bounded → h'.Bounded → Iso ρ h.memory h'.memory → v.Match ρ w → Value.MatchList ρ vs ws →
    Together (Kernel.spawn v vs h) (Kernel.spawn w ws h') k k' (fun p l p' l' => p = p' ∧ K l l')
      fun e l e' l' => e = e' ∧ B e ∧ K l l'
  kill : ∀ {k k' : κ}, K k k' → ∀ target : Pid,
    Together (Kernel.kill target) (Kernel.kill target) k k' (fun _ l _ l' => K l l')
      fun e l e' l' => e = e' ∧ B e ∧ K l l'

variable {κ : Type} {g : Origin} {K : κ → κ → Prop} {B : Fault → Prop} {ρ : Matching}
  {s t : Session κ}

/-- Actors in step, in related worlds. -/
structure Session.InStep (g : Origin) (K : κ → κ → Prop) (ρ : Matching)
    (s t : Session κ) : Prop where
  actor : s.actor.InStep g ρ t.actor
  kernel : K s.kernel t.kernel

/-- Two running actors come to the same value, and stay in step. -/
def Session.ReturnInStep (g : Origin) (K : κ → κ → Prop) (x : α) (s : Session κ) (y : α)
    (t : Session κ) : Prop :=
  x = y ∧ ∃ ρ, Session.InStep g K ρ s t

/-- Two running actors fail in the same way, and stay in step. -/
def Session.FailInStep (g : Origin) (K : κ → κ → Prop) (B : Fault → Prop) (e : Fault)
    (s : Session κ) (e' : Fault) (t : Session κ) : Prop :=
  ∃ ρ, SameFault B ρ e e' ∧ Session.InStep g K ρ s t

namespace Exec

/-- In sessions that are in step, two computations come to the same, up to what `Q` does not tell
apart. -/
abbrev Same (g : Origin) (K : κ → κ → Prop) (B : Fault → Prop) (ρ : Matching) (m m' : Exec κ α)
    (Q : Matching → α → α → Prop) : Prop :=
  Sim (Session.InStep g K) (SameFault B) ρ m m' Q

theorem onActor_ok {m : ActorM α} {x : α} {a : Actor} (hx : m s.actor = .ok x a) :
    onActor m s = .ok x ⟨a, s.kernel⟩ := by
  unfold onActor
  simp only [hx]

theorem onActor_error {m : ActorM α} {e : Fault} {a : Actor} (he : m s.actor = .error e a) :
    onActor m s = .error e ⟨a, s.kernel⟩ := by
  unfold onActor
  simp only [he]

theorem onKernel_ok {m : Heap → EStateM Fault κ α} {x : α} {k : κ}
    (hx : m s.actor.heap s.kernel = .ok x k) : onKernel m s = .ok x ⟨s.actor, k⟩ := by
  unfold onKernel
  simp only [hx]

theorem onKernel_error {m : Heap → EStateM Fault κ α} {e : Fault} {k : κ}
    (he : m s.actor.heap s.kernel = .error e k) : onKernel m s = .error e ⟨s.actor, k⟩ := by
  unfold onKernel
  simp only [he]

/-- What concerns the actors alone leaves the worlds as they are. -/
theorem together_onActor {m m' : ActorM α} {ok : α → Actor → α → Actor → Prop}
    {err : Fault → Actor → Fault → Actor → Prop} (h : Together m m' s.actor t.actor ok err)
    (hk : K s.kernel t.kernel) :
    Together (onActor m) (onActor m') s t
      (fun x s' y t' => ok x s'.actor y t'.actor ∧ K s'.kernel t'.kernel)
      fun e s' e' t' => err e s'.actor e' t'.actor ∧ K s'.kernel t'.kernel := by
  cases hx : m s.actor with
  | ok x a =>
    obtain ⟨y, b, hy, hok⟩ := h.of_ok hx
    exact .ok_ok (onActor_ok hx) (onActor_ok hy) ⟨hok, hk⟩
  | error e a =>
    obtain ⟨e', b, hy, herr⟩ := h.of_error hx
    exact .error_error (onActor_error hx) (onActor_error hy) ⟨herr, hk⟩

theorem same_onActor {m m' : ActorM α} {Q : Matching → α → α → Prop}
    (h : ActorM.Same g B ρ m m' Q) :
    Same g K B ρ (onActor m) (onActor m') Q := by
  intro s t hst
  refine (together_onActor (h _ _ hst.actor) hst.kernel).mono ?_ ?_
  · rintro x s' y t' ⟨⟨ρ', h', hq⟩, hk⟩
    exact ⟨ρ', ⟨h', hk⟩, hq⟩
  · rintro e s' e' t' ⟨⟨ρ', he, h'⟩, hk⟩
    exact ⟨ρ', he, h', hk⟩

/-- What concerns the worlds leaves the actors as they are. -/
theorem same_onKernel {m m' : Heap → EStateM Fault κ α} {Q : α → α → Prop}
    (h : ∀ {k k' : κ} {h h' : Heap}, K k k' → h.Bounded → h'.Bounded → Iso ρ h.memory h'.memory →
      Together (m h) (m' h') k k' (fun x l y l' => Q x y ∧ K l l')
        fun e l e' l' => e = e' ∧ B e ∧ K l l') :
    Same g K B ρ (onKernel m) (onKernel m') fun ρ' x y => ρ' = ρ ∧ Q x y := by
  intro s t hst
  have hrun := h hst.kernel hst.actor.left hst.actor.right hst.actor.iso
  cases hx : m s.actor.heap s.kernel with
  | ok x k =>
    obtain ⟨y, k', hy, hq, hk⟩ := hrun.of_ok hx
    exact .ok_ok (onKernel_ok hx) (onKernel_ok hy) ⟨ρ, ⟨hst.actor, hk⟩, rfl, hq⟩
  | error e k =>
    obtain ⟨e', k', hy, rfl, hb, hk⟩ := hrun.of_error hx
    exact .error_error (onKernel_error hx) (onKernel_error hy) ⟨ρ, .same (.inr hb), hst.actor, hk⟩

theorem same_self [Kernel κ] (respects : Kernel.Respects K B) :
    Same g K B ρ (Exec.self : Exec κ Pid) Exec.self fun ρ' x y => ρ' = ρ ∧ x = y :=
  fun _ _ hst => .bind <| .get <| .pure ⟨ρ, hst, rfl, respects.self hst.kernel⟩

end Exec

end ActorMachine
