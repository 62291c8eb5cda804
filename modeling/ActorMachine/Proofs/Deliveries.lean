import ActorMachine.Actor.Delivery
import ActorMachine.Proofs.Copying
import ActorMachine.Proofs.Stacks

/-!
# Deliveries to equivalent actors

Copies of matched values are matched: the copies lie behind all that has been there in their heaps
(`ActorM.together_copy`). So equivalent actors stay equivalent when they receive matched messages
(`ActorM.together_deliver`, `ActorM.together_deliverLocal`) or are prepared for a first call with
matched arguments (`ActorM.together_prepareEntry`).
-/

namespace ActorMachine

open Memory

variable {g : Origin} {B : Fault → Prop} {ρ σ : Matching} {a b : Actor} {h h' : Heap} {v w : Value}

/-- Matched values take up the same room. -/
theorem Heap.measure_eq (iso : Iso σ h.memory h'.memory) (hvw : v.Match σ w) :
    ∃ refs refs', h.measure v = .ok (h.memory.total refs) ∧
      h'.measure w = .ok (h'.memory.total refs') ∧
      h.memory.total refs = h'.memory.total refs' ∧
      Enumerates refs (h.memory.Reaches (· = v)) ∧
      Enumerates refs' (h'.memory.Reaches (· = w)) := by
  have hv : ∀ s r, v = .object s r → ∃ t, σ s r t := fun s r => hvw.exists_of_object
  have hw : ∀ s t, w = .object s t → ∃ r, σ s r t := fun s t => hvw.symm.exists_of_object
  obtain ⟨refs, hmeasure, enumerates⟩ := measure_reaches iso.left iso.closedLeft hv
  obtain ⟨refs', hmeasure', enumerates'⟩ := measure_reaches iso.right iso.closedRight hw
  refine ⟨refs, refs', hmeasure, hmeasure', ?_, enumerates, enumerates'⟩
  refine total_eq_of_iso iso ?_ ?_ enumerates enumerates'
  · rintro _ rfl
    exact ⟨w, rfl, hvw⟩
  · rintro _ rfl
    exact ⟨v, rfl, hvw⟩

namespace ActorM

/-- Copies of matched values, for which there is room, are matched. -/
theorem together_copy (hab : a.InStep g ρ b) (iso : Iso σ h.memory h'.memory) (hvw : v.Match σ w)
    {n : Nat} (hn : h.measure v = .ok n) (room : n ≤ a.heap.free) (room' : n ≤ b.heap.free) :
    Together (onHeap (HeapM.copy h v)) (onHeap (HeapM.copy h' w)) a b
      (fun x a₁ y b₁ => ∃ ρ', a₁.InStep g ρ' b₁ ∧ x.Match ρ' y ∧
        a₁.heap.free = a.heap.free - n ∧ b₁.heap.free = b.heap.free - n)
      (Actor.FailInStep g B) := by
  obtain ⟨refs, refs', hmeasure, -, htotal, enumerates, enumerates'⟩ := Heap.measure_eq iso hvw
  have hn := Except.ok.inj (hn.symm.trans hmeasure)
  have hn' := hn.trans htotal
  have hv : ∀ s r, v = .object s r → ∃ t, σ s r t := fun s r => hvw.exists_of_object
  have hw : ∀ s t, w = .object s t → ∃ r, σ s r t := fun s t => hvw.symm.exists_of_object
  have hused := hab.left.used_le
  have hused' := hab.right.used_le
  have hfree : a.heap.free = a.heap.capacity - a.heap.used := rfl
  have hfree' : b.heap.free = b.heap.capacity - b.heap.used := rfl
  obtain ⟨x, γ, m₁, run, ext, hsize, copied, hx, hplace⟩ := HeapM.copy_iso a.heap
    iso.left iso.closedLeft hv enumerates (by omega)
    (Nat.le_trans hab.left.capacity_le hab.left.max_le)
  obtain ⟨y, γ', m₁', run', ext', hsize', copied', hy, hplace'⟩ :=
    HeapM.copy_iso b.heap iso.right iso.closedRight hw enumerates' (by omega)
      (Nat.le_trans hab.right.capacity_le hab.right.max_le)
  -- The copies are matched through what they are copies of.
  have between := copied.symm.trans (iso.trans copied')
  have joined := (hab.iso.extend ext ext').union between
    (fun hrt hmoved => by
      obtain ⟨_, hmoved, -⟩ := hmoved
      exact hab.iso.left.apart_end ext (hplace hmoved) ⟨_, hrt⟩)
    (fun hrt hmoved => by
      obtain ⟨_, -, _, -, hmoved⟩ := hmoved
      exact hab.iso.right.apart_end ext' (hplace' hmoved) ⟨_, hrt⟩)
  have same : ∀ {s r t}, ρ s r t → SameObject a.heap.memory m₁ r r := fun hrt =>
    ext.sameObject (hab.iso.left.isObject ⟨_, hrt⟩)
  refine .ok_ok (onHeap_ok run) (onHeap_ok run') ⟨_, hab.setMemory joined .inl
    (fun hrt => (same hrt).sizeAt) (fun hrt => (same hrt).stringAt (hab.iso.left.isObject ⟨_, hrt⟩)
      (eight_le_sizeAt (hab.iso.left.typed ⟨_, hrt⟩))) (by omega) (by omega),
    (hx.symm.trans (hvw.trans hy)).mono .inr, ?_, ?_⟩
  · show a.heap.capacity - m₁.size = _
    omega
  · show b.heap.capacity - m₁'.size = _
    omega

theorem same_checkMailbox (self : Pid) :
    Same g B ρ (checkMailbox self) (checkMailbox self) fun ρ' _ _ => ρ' = ρ := by
  intro a b hab
  refine .bind <| .get <| .ite ?_ (fun _ => .throw ⟨ρ, .of_ne nofun, hab⟩) fun _ =>
    .pure ⟨ρ, hab, rfl⟩
  rw [Mailbox.size, Mailbox.size, hab.limits, hab.messages.size]

theorem same_pushMessage (hvw : v.Match ρ w) :
    Same g B ρ (pushMessage v) (pushMessage w) fun ρ' _ _ => ρ' = ρ := by
  refine .modify fun a b hab => ⟨ρ, ?_, rfl⟩
  rw [Mailbox.push, Mailbox.push, ← hab.cursor]
  exact hab.setMailbox (hab.messages.push hvw) _

/-- Delivering copies of matched messages. -/
theorem same_deliver (self : Pid) (iso : Iso σ h.memory h'.memory) (hvw : v.Match σ w) :
    Same g B ρ (deliver self h v) (deliver self h' w) fun _ _ _ => True := by
  have push : ∀ {ρ : Matching} {x y : Value}, x.Match ρ y →
      Same g B ρ (pushMessage x) (pushMessage y) fun _ _ _ => True :=
    fun hxy => (same_pushMessage hxy).mono fun _ _ _ _ => trivial
  refine (same_checkMailbox self).bind fun ρ _ _ _ => ?_
  rw [hvw.isCollectable_eq]
  refine .ite Iff.rfl (fun _ => ?_) fun hinline => ?_
  · obtain ⟨refs, refs', hmeasure, hmeasure', htotal, -⟩ := Heap.measure_eq iso hvw
    rw [hmeasure, hmeasure', ← htotal]
    refine Sim.bind (Q := fun ρ' n n' => ρ' = ρ ∧ n = h.memory.total refs ∧ n' = n)
      (.pure ⟨rfl, rfl, rfl⟩) ?_
    rintro _ n n' ⟨rfl, rfl, rfl⟩
    intro a b hab
    refine .bind <| (together_reserve hab _).mono ?_ fun _ _ _ _ h => h
    rintro _ a₁ _ b₁ ⟨ρ', hab, room, room'⟩
    refine .bind <| (together_copy hab iso hvw hmeasure room room').mono ?_ fun _ _ _ _ h => h
    rintro x a₂ y b₂ ⟨ρ'', hab, hxy, -⟩
    exact push hxy a₂ b₂ hab
  · refine push ?_
    cases hvw with
    | inline hv => exact .inline hv
    | object _ => exact absurd rfl hinline

/-- A message that is brought to safety in a heap of its own is copied. -/
theorem exists_staging (iso : Iso σ h.memory h'.memory) (hvw : v.Match σ w) {n : Nat}
    (hn : h.measure v = .ok n) (small : n ≤ Heap.sizeLimit) :
    ∃ τ x staging, HeapM.copy h v (Heap.create n n) = .ok x staging ∧
      Iso τ h.memory staging.memory ∧
      v.Match τ x := by
  obtain ⟨refs, -, hmeasure, -, -, enumerates, -⟩ := Heap.measure_eq iso hvw
  have hn := Except.ok.inj (hn.symm.trans hmeasure)
  have hv : ∀ s r, v = .object s r → ∃ t, σ s r t := fun s r => hvw.exists_of_object
  have hcapacity : (Heap.create n n).capacity = n := by
    show min n (min n Heap.sizeLimit) = n
    omega
  have hused : (Heap.create n n).used = 0 := rfl
  obtain ⟨x, γ, m₁, run, -, -, copied, hx, -⟩ := HeapM.copy_iso (Heap.create n n)
    iso.left iso.closedLeft hv enumerates (by omega) (by omega)
  exact ⟨_, x, _, run, copied, hx⟩

/-- Matched messages that are brought to safety match. -/
theorem staged (iso : Iso σ h.memory h'.memory) (hvw : v.Match σ w)
    (small : h.used ≤ Heap.sizeLimit) {n : Nat} (hn : h.measure v = .ok n) :
    ∃ τ x y staging staging', HeapM.copy h v (Heap.create n n) = .ok x staging ∧
      HeapM.copy h' w (Heap.create n n) = .ok y staging' ∧
      Iso τ staging.memory staging'.memory ∧ x.Match τ y := by
  obtain ⟨refs, refs', hmeasure, hmeasure', htotal, enumerates, -⟩ := Heap.measure_eq iso hvw
  have htotal' := Except.ok.inj (hn.symm.trans hmeasure)
  have hle : h.memory.total refs ≤ h.used := iso.left.total_le enumerates.nodup fun r hr => by
    obtain ⟨s, hreach⟩ := (enumerates.mem_iff r).mp hr
    exact ⟨s, hreach.subset iso.closedLeft fun s r heq => hvw.exists_of_object heq.symm⟩
  obtain ⟨τ, x, staging, run, copied, hx⟩ := exists_staging iso hvw hn (by omega)
  obtain ⟨τ', y, staging', run', copied', hy⟩ := exists_staging iso.symm hvw.symm (n := n)
    (by rw [hmeasure']; congr 1; omega) (by omega)
  exact ⟨_, x, y, _, _, run, run', copied.symm.trans (iso.trans copied'),
    hx.symm.trans (hvw.trans hy)⟩

/-- Delivering matched messages that live in the actors' own heaps. -/
theorem same_deliverLocal (self : Pid) (hvw : v.Match ρ w) :
    Same g B ρ (deliverLocal self v) (deliverLocal self w) fun _ _ _ => True := by
  unfold deliverLocal
  rw [hvw.isCollectable_eq]
  refine .ite Iff.rfl (fun _ => ?_) fun hinline => ?_
  · intro a b hab
    refine .bind <| .get ?_
    obtain ⟨refs, refs', hmeasure, hmeasure', htotal, -⟩ := Heap.measure_eq hab.iso hvw
    obtain ⟨τ, x, y, staging, staging', run, run', iso, hxy⟩ :=
      staged hab.iso hvw hab.left.used_le_limit hmeasure
    dsimp only
    rw [hmeasure, hmeasure', ← htotal]
    refine .bind <| .pure ?_
    rw [run, run']
    exact same_deliver self iso hxy a b hab
  · refine (same_checkMailbox self).bind fun ρ _ _ _ => (same_pushMessage ?_).mono
      fun _ _ _ _ => trivial
    cases hvw with
    | inline hv => exact .inline hv
    | object _ => exact absurd rfl hinline

theorem same_deliverBytes (self : Pid) (bytes : ByteArray) :
    Same g B ρ (deliverBytes self bytes) (deliverBytes self bytes) fun _ _ _ => True :=
  (same_checkMailbox self).bind fun _ _ _ _ => (same_newString bytes).bind fun _ _ _ hvw =>
    (same_pushMessage hvw).mono fun _ _ _ _ => trivial

/-! ## First calls -/

/-- Matched heaps for arguments, or none. -/
inductive SourcesMatch (σ : Matching) : Option Heap → Option Heap → Prop
  | none : SourcesMatch σ none none
  | some {h h' : Heap} (iso : Iso σ h.memory h'.memory) : SourcesMatch σ (some h) (some h')

variable {source source' : Option Heap} {vs ws : List Value}

theorem both_measureArg (hsource : SourcesMatch σ source source') (hvw : v.Match σ w) :
    Both Eq (fun e e' => e = e' ∧ ∀ h, e ≠ .heap h) (measureArg source v)
      (measureArg source' w) := by
  have hcollectable := hvw.isCollectable_eq
  unfold measureArg
  rw [← hcollectable]
  cases v.isCollectable with
  | false => cases hsource <;> exact .ok rfl
  | true =>
    cases hsource with
    | none =>
      refine .error ⟨?_, nofun⟩
      rw [Fault.mismatch, Fault.mismatch, hvw.kind_eq]
    | some iso =>
      obtain ⟨refs, refs', hmeasure, hmeasure', htotal, -⟩ := Heap.measure_eq iso hvw
      simp only [hmeasure, hmeasure']
      exact .ok htotal

/-- The copy of an argument that lives in a heap takes up what it is measured to. -/
theorem measure_of_measureArg {h h' : Heap} {k : Nat} (hk : measureArg (some h) v = .ok k)
    (iso : Iso σ h.memory h'.memory) (hvw : v.Match σ w) : h.measure v = .ok k := by
  obtain ⟨refs, refs', hmeasure, -⟩ := Heap.measure_eq iso hvw
  unfold measureArg at hk
  cases hvw with
  | inline hv =>
    rw [Value.isCollectable, hv] at hk
    rw [Heap.measure, hv, ← Except.ok.inj hk]
  | @object s r t _ =>
    have collectable : (Value.object s r).isCollectable = true := rfl
    rw [collectable] at hk
    dsimp only at hk
    rw [hmeasure] at hk
    rw [hmeasure, Except.ok.inj hk]

/-- Matched arguments take up the same room, or are refused in the same way. -/
theorem both_measureArgs (hsource : SourcesMatch σ source source') (hvs : Value.MatchList σ vs ws) :
    Both Eq (fun e e' => e = e' ∧ ∀ h, e ≠ .heap h) (measureArgs source vs)
      (measureArgs source' ws) := by
  induction hvs with
  | nil => exact .ok rfl
  | cons hvw _ ih =>
    refine (both_measureArg hsource hvw).bind ?_
    rintro n _ rfl
    exact ih.bind fun _ _ heq => .ok (congrArg (n + ·) heq)

theorem measureArgs_cons_ok {n : Nat} (h : measureArgs source (v :: vs) = .ok n) :
    ∃ k m, measureArg source v = .ok k ∧ measureArgs source vs = .ok m ∧ n = k + m := by
  unfold measureArgs at h
  cases hk : measureArg source v with
  | error e => rw [hk] at h; cases h
  | ok k =>
    cases hm : measureArgs source vs with
    | error e => rw [hk, hm] at h; cases h
    | ok m => rw [hk, hm] at h; exact ⟨k, m, rfl, rfl, (Except.ok.inj h).symm⟩

theorem measureArgs_cons_of_ok {k m : Nat} (hk : measureArg source v = .ok k)
    (hm : measureArgs source vs = .ok m) : measureArgs source (v :: vs) = .ok (k + m) := by
  rw [measureArgs, hk, hm]
  rfl

theorem measureArgs_append {n n' : Nat} (h : measureArgs source vs = .ok n)
    (h' : measureArgs source ws = .ok n') : measureArgs source (vs ++ ws) = .ok (n + n') := by
  induction vs generalizing n with
  | nil =>
    cases h
    rw [Nat.zero_add]
    exact h'
  | cons v vs ih =>
    obtain ⟨k, m, hk, hm, rfl⟩ := measureArgs_cons_ok h
    rw [List.cons_append, Nat.add_assoc]
    exact measureArgs_cons_of_ok hk (ih hm)

/-- The order of the arguments does not matter. -/
theorem measureArgs_reverse {n : Nat} (h : measureArgs source vs = .ok n) :
    measureArgs source vs.reverse = .ok n := by
  induction vs generalizing n with
  | nil => exact h
  | cons v vs ih =>
    obtain ⟨k, m, hk, hm, rfl⟩ := measureArgs_cons_ok h
    rw [List.reverse_cons, Nat.add_comm]
    have hlast : measureArgs source [v] = .ok k := measureArgs_cons_of_ok (m := 0) hk rfl
    exact measureArgs_append (ih hm) hlast

/-- Pushing copies of matched values, for all of which there is room. -/
theorem together_pushCopies (hab : a.InStep g ρ b) (hsource : SourcesMatch σ source source')
    (hvs : Value.MatchList σ vs ws) {n : Nat} (hn : measureArgs source vs = .ok n)
    (room : n ≤ a.heap.free) (room' : n ≤ b.heap.free) :
    Together (pushCopies source vs) (pushCopies source' ws) a b
      (fun _ a₁ _ b₁ => ∃ ρ', a₁.InStep g ρ' b₁) (Actor.FailInStep g B) := by
  induction hvs generalizing a b ρ n with
  | nil => exact .pure ⟨ρ, hab⟩
  | @cons v w vs ws hvw _ ih =>
    obtain ⟨k, m, hk, hm, rfl⟩ := measureArgs_cons_ok hn
    have rest : ∀ {ρ : Matching} {a b : Actor} {x y : Value}, a.InStep g ρ b → x.Match ρ y →
        m ≤ a.heap.free → m ≤ b.heap.free →
        Together (do push x; pushCopies source vs) (do push y; pushCopies source' ws) a b
          (fun _ a₁ _ b₁ => ∃ ρ', a₁.InStep g ρ' b₁) (Actor.FailInStep g B) := by
      intro ρ a b x y hab hxy room room'
      refine .bind <| (together_push hab hxy).mono ?_ fun _ _ _ _ h => h
      rintro _ a₁ _ b₁ ⟨h₁, hleft, hright⟩
      exact ih h₁ hm (by rw [hleft]; exact room) (by rw [hright]; exact room')
    unfold pushCopies
    cases hsource with
    | none =>
      refine rest hab ?_ (by omega) (by omega)
      cases hvw with
      | inline hv => exact .inline hv
      | object _ => cases hk
    | some iso =>
      refine .bind <| (together_copy hab iso hvw (measure_of_measureArg hk iso hvw) (by omega)
        (by omega)).mono ?_ fun _ _ _ _ h => h
      rintro x a₁ y b₁ ⟨ρ', h₁, hxy, hleft, hright⟩
      exact rest h₁ hxy (by omega) (by omega)

/-- Preparing first calls with matched arguments. -/
theorem together_prepareEntry (hab : a.InStep g ρ b) (hsource : SourcesMatch σ source source')
    (hvw : v.Match σ w) (hvs : Value.MatchList σ vs ws) :
    Together (prepareEntry v vs source) (prepareEntry w ws source') a b
      (fun _ a₁ _ b₁ => ∃ ρ', a₁.InStep g ρ' b₁) (Actor.FailInStep g B) := by
  unfold prepareEntry
  by_cases hcallable : v.isCallable
  · -- A value that can be called is inline.
    obtain ⟨rfl, hinline⟩ : w = v ∧ v.ref? = none := by
      cases hvw with
      | inline hv => exact ⟨rfl, hv⟩
      | object _ => cases hcallable
    simp only [if_pos hcallable]
    have hmeasured := both_measureArgs hsource hvs
    cases hn : measureArgs source vs with
    | error e =>
      cases hn' : measureArgs source' ws with
      | ok n' => rw [hn, hn'] at hmeasured; exact hmeasured.elim
      | error e' =>
        rw [hn, hn'] at hmeasured
        obtain ⟨rfl, he⟩ := hmeasured
        exact .bind <| .throw ⟨ρ, .of_ne he, hab⟩
    | ok n =>
      cases hn' : measureArgs source' ws with
      | error e' => rw [hn, hn'] at hmeasured; exact hmeasured.elim
      | ok n' =>
        rw [hn, hn'] at hmeasured
        obtain rfl : n = n' := hmeasured
        refine .bind <| .pure <| .bind <| (together_reserve hab n).mono ?_ fun _ _ _ _ h => h
        rintro _ a₁ _ b₁ ⟨ρ₁, h₁, room, room'⟩
        refine .bind <| (together_pushCopies h₁ hsource hvs.reverse (measureArgs_reverse hn) room
          room').mono ?_ fun _ _ _ _ h => h
        rintro _ a₂ _ b₂ ⟨ρ₂, h₂⟩
        refine .bind <| (together_push h₂ (.inline hinline)).mono ?_ fun _ _ _ _ h => h
        rintro _ a₃ _ b₃ ⟨h₃, -⟩
        rw [hvs.length]
        exact .modify ⟨ρ₂, h₃.setEntry _⟩
  · have hcallable' : ¬w.isCallable := by
      cases hvw with
      | inline _ => exact hcallable
      | object _ => exact hcallable
    rw [if_neg hcallable, if_neg hcallable', hvw.kind_eq]
    exact .bind <| .throw ⟨ρ, .of_ne nofun, hab⟩

end ActorM

end ActorMachine
