import ActorMachine.Proofs.Outcome

/-!
# Reasoning about two runs

`Together m m' s s' ok err` says that `m` from `s` and `m'` from `s'` both return, with `ok`, or
both fail, with `err`. `Both` says the same of two results without a state. `Sim R E w m m' Q` says
it of all states that `R` relates in the world `w`: the computations come to related states again,
maybe in another world, with values that `Q` relates or with faults that `E` relates.
-/

namespace ActorMachine

variable {ε σ α β γ : Type}

/-- Two results are both values that `R` relates or both errors that `E` relates. -/
def Both (R : α → α → Prop) (E : ε → ε → Prop) (x y : Except ε α) : Prop :=
  match x, y with
  | .ok a, .ok b => R a b
  | .error e, .error e' => E e e'
  | _, _ => False

namespace Both

variable {R : α → α → Prop} {E : ε → ε → Prop} {x y : Except ε α}

theorem ok {a b : α} (h : R a b) : Both R E (.ok a) (.ok b) := h

theorem error {e e' : ε} (h : E e e') : Both R E (.error e : Except ε α) (.error e') := h

theorem bind {f g : α → Except ε β} {S : β → β → Prop} (first : Both R E x y)
    (rest : ∀ a b, R a b → Both S E (f a) (g b)) : Both S E (x >>= f) (y >>= g) := by
  cases x <;> cases y
  · exact first
  · exact first.elim
  · exact first.elim
  · exact rest _ _ first

end Both

/-- From `s` and `s'` the computations both return with `ok` or both fail with `err`. -/
def Together (m m' : EStateM ε σ α) (s s' : σ) (ok : α → σ → α → σ → Prop)
    (err : ε → σ → ε → σ → Prop) : Prop :=
  match m s, m' s' with
  | .ok x t, .ok y t' => ok x t y t'
  | .error e t, .error e' t' => err e t e' t'
  | _, _ => False

namespace Together

variable {m m' : EStateM ε σ α} {s s' : σ} {ok : α → σ → α → σ → Prop} {err : ε → σ → ε → σ → Prop}

theorem of_ok (h : Together m m' s s' ok err) {x : α} {t : σ} (run : m s = .ok x t) :
    ∃ y t', m' s' = .ok y t' ∧ ok x t y t' := by
  unfold Together at h
  rw [run] at h
  cases run' : m' s' with
  | ok y t' => rw [run'] at h; exact ⟨y, t', rfl, h⟩
  | error e t' => rw [run'] at h; exact h.elim

theorem of_error (h : Together m m' s s' ok err) {e : ε} {t : σ} (run : m s = .error e t) :
    ∃ e' t', m' s' = .error e' t' ∧ err e t e' t' := by
  unfold Together at h
  rw [run] at h
  cases run' : m' s' with
  | ok y t' => rw [run'] at h; exact h.elim
  | error e' t' => rw [run'] at h; exact ⟨e', t', rfl, h⟩

theorem ok_ok {x y : α} {t u : σ} (run : m s = .ok x t) (run' : m' s' = .ok y u)
    (h : ok x t y u) : Together m m' s s' ok err := by
  unfold Together
  rw [run, run']
  exact h

theorem error_error {e f : ε} {t u : σ} (run : m s = .error e t) (run' : m' s' = .error f u)
    (h : err e t f u) : Together m m' s s' ok err := by
  unfold Together
  rw [run, run']
  exact h

theorem pure {x y : α} (h : ok x s y s') : Together (pure x) (pure y) s s' ok err := h

theorem throw {e e' : ε} (h : err e s e' s') :
    Together (throw e : EStateM ε σ α) (throw e') s s' ok err := h

theorem modify {f f' : σ → σ} {ok : PUnit → σ → PUnit → σ → Prop}
    (h : ok ⟨⟩ (f s) ⟨⟩ (f' s')) :
    Together (modify f : EStateM ε σ PUnit) (modify f') s s' ok err := h

theorem get {ok : σ → σ → σ → σ → Prop} (h : ok s s s' s') :
    Together (get : EStateM ε σ σ) get s s' ok err := h

theorem bind {f f' : α → EStateM ε σ β} {ok : β → σ → β → σ → Prop}
    (h : Together m m' s s' (fun x t y t' => Together (f x) (f' y) t t' ok err) err) :
    Together (m >>= f) (m' >>= f') s s' ok err := by
  cases run : m s with
  | ok x t =>
    obtain ⟨y, t', run', hrest⟩ := h.of_ok run
    show match EStateM.bind m f s, EStateM.bind m' f' s' with
      | .ok x t, .ok y t' => ok x t y t'
      | .error e t, .error e' t' => err e t e' t'
      | _, _ => False
    unfold EStateM.bind
    rw [run, run']
    exact hrest
  | error e t =>
    obtain ⟨e', t', run', herr⟩ := h.of_error run
    show match EStateM.bind m f s, EStateM.bind m' f' s' with
      | .ok x t, .ok y t' => ok x t y t'
      | .error e t, .error e' t' => err e t e' t'
      | _, _ => False
    unfold EStateM.bind
    rw [run, run']
    exact herr

theorem mono {ok' : α → σ → α → σ → Prop} {err' : ε → σ → ε → σ → Prop}
    (h : Together m m' s s' ok err) (hok : ∀ x t y t', ok x t y t' → ok' x t y t')
    (herr : ∀ e t e' t', err e t e' t' → err' e t e' t') : Together m m' s s' ok' err' := by
  cases run : m s with
  | ok x t =>
    obtain ⟨y, t', run', h'⟩ := h.of_ok run
    exact ok_ok run run' (hok _ _ _ _ h')
  | error e t =>
    obtain ⟨e', t', run', h'⟩ := h.of_error run
    exact error_error run run' (herr _ _ _ _ h')

theorem ite {p p' : Prop} [Decidable p] [Decidable p'] {n n' : EStateM ε σ α} (iff : p ↔ p')
    (pos : p → Together m m' s s' ok err) (neg : ¬p → Together n n' s s' ok err) :
    Together (if p then m else n) (if p' then m' else n') s s' ok err := by
  by_cases h : p
  · rw [if_pos h, if_pos (iff.mp h)]
    exact pos h
  · rw [if_neg h, if_neg (mt iff.mpr h)]
    exact neg h

/-- What two runs of one computation from one state come to is what one run comes to. -/
theorem ends (h : Together m m s s ok err) :
    Ends m s (fun x t => ok x t x t) fun e t => err e t e t := by
  refine .intro (fun x t run => ?_) fun e t run => ?_
  · obtain ⟨y, t', run', hok⟩ := h.of_ok run
    rw [run] at run'
    cases run'
    exact hok
  · obtain ⟨e', t', run', herr⟩ := h.of_error run
    rw [run] at run'
    cases run'
    exact herr

theorem leaves {R : σ → σ → Prop}
    (h : Together m m s s (fun _ t _ u => R t u) fun _ t _ u => R t u) :
    R (leaves m s) (leaves m s) :=
  h.ends.leaves (P := fun t => R t t)

end Together

/-- In states that `R` relates in the world `w`, the computations do the same, up to what `R`, `Q`
and `E` do not tell apart. -/
def Sim {ω : Type} (R : ω → σ → σ → Prop) (E : ω → ε → ε → Prop) (w : ω) (m m' : EStateM ε σ α)
    (Q : ω → α → α → Prop) : Prop :=
  ∀ s s', R w s s' → Together m m' s s' (fun x t y t' => ∃ w', R w' t t' ∧ Q w' x y)
    fun e t e' t' => ∃ w', E w' e e' ∧ R w' t t'

namespace Sim

variable {ω : Type} {R : ω → σ → σ → Prop} {E : ω → ε → ε → Prop} {w : ω} {m m' : EStateM ε σ α}
  {Q : ω → α → α → Prop}

theorem pure {x y : α} (h : Q w x y) : Sim R E w (pure x) (pure y) Q :=
  fun _ _ hs => .pure ⟨w, hs, h⟩

theorem throw {e e' : ε} (h : E w e e') : Sim R E w (throw e : EStateM ε σ α) (throw e') Q :=
  fun _ _ hs => .throw ⟨w, h, hs⟩

theorem modify {f f' : σ → σ} {Q : ω → PUnit → PUnit → Prop}
    (h : ∀ s s', R w s s' → ∃ w', R w' (f s) (f' s') ∧ Q w' ⟨⟩ ⟨⟩) :
    Sim R E w (modify f : EStateM ε σ PUnit) (modify f') Q :=
  fun s s' hs => .modify (h s s' hs)

theorem bind {f f' : α → EStateM ε σ β} {S : ω → β → β → Prop} (first : Sim R E w m m' Q)
    (rest : ∀ w' x y, Q w' x y → Sim R E w' (f x) (f' y) S) :
    Sim R E w (m >>= f) (m' >>= f') S := by
  intro s s' hs
  refine .bind <| (first s s' hs).mono ?_ fun _ _ _ _ h => h
  rintro x t y t' ⟨w', ht, hq⟩
  exact rest w' x y hq t t' ht

theorem mono {S : ω → α → α → Prop} (h : Sim R E w m m' Q)
    (himp : ∀ w' x y, Q w' x y → S w' x y) : Sim R E w m m' S := by
  intro s s' hs
  refine (h s s' hs).mono ?_ fun _ _ _ _ h => h
  rintro x t y t' ⟨w', ht, hq⟩
  exact ⟨w', ht, himp w' x y hq⟩

theorem ite {p p' : Prop} [Decidable p] [Decidable p'] {n n' : EStateM ε σ α} (iff : p ↔ p')
    (pos : p → Sim R E w m m' Q) (neg : ¬p → Sim R E w n n' Q) :
    Sim R E w (if p then m else n) (if p' then m' else n') Q :=
  fun s s' hs => .ite iff (fun h => pos h s s' hs) fun h => neg h s s' hs

end Sim

end ActorMachine
