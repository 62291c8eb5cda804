import ActorMachine.Actor.Basic
import ActorMachine.Proofs.Reach

/-!
# Matched values

Stacks and mailboxes that match place by place (`Value.MatchAll`), under all that is done to them;
lists of arguments that do (`Value.MatchList`); and values whose objects have been moved to other
places (`Value.Relocated`).
-/

namespace ActorMachine

namespace Value

/-- Two arrays of values match place by place. -/
structure MatchAll (ρ : Matching) (vs ws : Array Value) : Prop where
  size : vs.size = ws.size
  get : ∀ (i : Nat) (v w : Value), vs[i]? = some v → ws[i]? = some w → v.Match ρ w

namespace MatchAll

variable {ρ σ : Matching} {vs ws : Array Value}

theorem rel (h : MatchAll ρ vs ws) (i : Nat) : Option.Rel (Value.Match ρ) vs[i]? ws[i]? := by
  have hget := h.get i
  have hsize := h.size
  by_cases hi : i < vs.size
  · have hi' : i < ws.size := by omega
    rw [Array.getElem?_eq_getElem hi, Array.getElem?_eq_getElem hi'] at *
    exact .some (hget _ _ rfl rfl)
  · rw [Array.getElem?_eq_none (by omega), Array.getElem?_eq_none (by omega)]
    exact .none

theorem of_rel (h : ∀ i : Nat, Option.Rel (Value.Match ρ) vs[i]? ws[i]?) : MatchAll ρ vs ws where
  size := by
    rcases Nat.lt_trichotomy vs.size ws.size with hlt | heq | hlt
    · have := h vs.size
      rw [Array.getElem?_eq_none (Nat.le_refl _), Array.getElem?_eq_getElem hlt] at this
      cases this
    · exact heq
    · have := h ws.size
      rw [Array.getElem?_eq_none (Nat.le_refl _), Array.getElem?_eq_getElem hlt] at this
      cases this
  get i v w hv hw := by
    have := h i
    rw [hv, hw] at this
    cases this with
    | some h => exact h

theorem mono (h : MatchAll ρ vs ws) (himp : ∀ {s r t}, ρ s r t → σ s r t) : MatchAll σ vs ws :=
  ⟨h.size, fun i v w hv hw => (h.get i v w hv hw).mono himp⟩

theorem symm (h : MatchAll ρ vs ws) : MatchAll ρ.inverse ws vs :=
  ⟨h.size.symm, fun i v w hv hw => (h.get i w v hw hv).symm⟩

theorem trans {xs : Array Value} (h : MatchAll ρ vs ws) (h' : MatchAll σ ws xs) :
    MatchAll (ρ.comp σ) vs xs := by
  refine of_rel fun i => ?_
  have h1 := h.rel i
  have h2 := h'.rel i
  generalize vs[i]? = a at *
  generalize ws[i]? = b at *
  generalize xs[i]? = c at *
  cases h1 with
  | none => cases h2; exact .none
  | some h1 =>
    cases h2 with
    | some h2 => exact .some (h1.trans h2)

theorem empty (ρ : Matching) : MatchAll ρ #[] #[] := of_rel fun _ => .none

theorem getD (h : MatchAll ρ vs ws) (i : Nat) : (vs.getD i .nil).Match ρ (ws.getD i .nil) := by
  have := h.rel i
  rw [Array.getD_eq_getD_getElem?, Array.getD_eq_getD_getElem?]
  generalize vs[i]? = a at *
  generalize ws[i]? = b at *
  cases this with
  | none => exact .inline rfl
  | some h => exact h

theorem back? (h : MatchAll ρ vs ws) : Option.Rel (Value.Match ρ) vs.back? ws.back? := by
  rw [Array.back?_eq_getElem?, Array.back?_eq_getElem?, h.size]
  exact h.rel _

theorem push (h : MatchAll ρ vs ws) {v w : Value} (hvw : v.Match ρ w) :
    MatchAll ρ (vs.push v) (ws.push w) := by
  refine of_rel fun i => ?_
  rw [Array.getElem?_push, Array.getElem?_push, h.size]
  split
  · exact .some hvw
  · exact h.rel i

theorem pop (h : MatchAll ρ vs ws) : MatchAll ρ vs.pop ws.pop := by
  refine of_rel fun i => ?_
  rw [Array.getElem?_pop, Array.getElem?_pop, h.size]
  split
  · exact h.rel i
  · exact .none

theorem extract (h : MatchAll ρ vs ws) (start stop : Nat) :
    MatchAll ρ (vs.extract start stop) (ws.extract start stop) := by
  refine of_rel fun i => ?_
  rw [Array.getElem?_extract, Array.getElem?_extract, h.size]
  split
  · exact h.rel _
  · exact .none

theorem shrink (h : MatchAll ρ vs ws) (height : Nat) :
    MatchAll ρ (vs.shrink height) (ws.shrink height) := by
  rw [Array.shrink_eq_take, Array.shrink_eq_take]
  exact h.extract 0 height

theorem append (h : MatchAll ρ vs ws) {vs' ws' : Array Value} (h' : MatchAll ρ vs' ws') :
    MatchAll ρ (vs ++ vs') (ws ++ ws') := by
  refine of_rel fun i => ?_
  rw [Array.getElem?_append, Array.getElem?_append, h.size]
  split
  · exact h.rel i
  · exact h'.rel _

/-- What matches an array that has been put together comes apart in the same way. -/
theorem of_append {vs' : Array Value} (h : MatchAll ρ (vs ++ vs') ws) :
    ∃ xs ys, ws = xs ++ ys ∧ MatchAll ρ vs xs ∧ MatchAll ρ vs' ys := by
  have hsize := h.size
  rw [Array.size_append] at hsize
  refine ⟨ws.extract 0 vs.size, ws.extract vs.size ws.size, ?_, ?_, ?_⟩
  · rw [Array.extract_append_extract, Nat.zero_min, Nat.max_eq_right (by omega), Array.extract_size]
  · have hfirst := h.extract 0 vs.size
    rwa [Array.extract_append_left, Array.extract_size] at hfirst
  · have hlast := h.extract vs.size (vs.size + vs'.size)
    rwa [Array.extract_append_right, Array.extract_size, hsize] at hlast

theorem setIfInBounds (h : MatchAll ρ vs ws) (i : Nat) {v w : Value} (hvw : v.Match ρ w) :
    MatchAll ρ (vs.setIfInBounds i v) (ws.setIfInBounds i w) := by
  refine of_rel fun j => ?_
  rw [Array.getElem?_setIfInBounds, Array.getElem?_setIfInBounds, h.size]
  split
  · split
    · exact .some hvw
    · exact .none
  · exact h.rel j

theorem eraseIdxIfInBounds (h : MatchAll ρ vs ws) (i : Nat) :
    MatchAll ρ (vs.eraseIdxIfInBounds i) (ws.eraseIdxIfInBounds i) := by
  refine of_rel fun j => ?_
  rw [← Array.getElem?_toList, ← Array.getElem?_toList, Array.toList_eraseIdxIfInBounds,
    Array.toList_eraseIdxIfInBounds, List.getElem?_eraseIdx, List.getElem?_eraseIdx,
    Array.getElem?_toList, Array.getElem?_toList, Array.getElem?_toList, Array.getElem?_toList]
  split
  · exact h.rel j
  · exact h.rel _

theorem of_mem (h : MatchAll ρ vs ws) {v : Value} (hv : v ∈ vs) : ∃ w ∈ ws, v.Match ρ w := by
  obtain ⟨i, hi, rfl⟩ := Array.mem_iff_getElem.mp hv
  have hi' : i < ws.size := h.size ▸ hi
  exact ⟨ws[i], Array.getElem_mem hi',
    h.get i _ _ (Array.getElem?_eq_getElem hi) (Array.getElem?_eq_getElem hi')⟩

theorem of_mem_right (h : MatchAll ρ vs ws) {w : Value} (hw : w ∈ ws) : ∃ v ∈ vs, v.Match ρ w := by
  obtain ⟨i, hi, rfl⟩ := Array.mem_iff_getElem.mp hw
  have hi' : i < vs.size := h.size ▸ hi
  exact ⟨vs[i], Array.getElem_mem hi',
    h.get i _ _ (Array.getElem?_eq_getElem hi') (Array.getElem?_eq_getElem hi)⟩

end MatchAll

/-- Two lists of values match one by one. -/
inductive MatchList (ρ : Matching) : List Value → List Value → Prop
  | nil : MatchList ρ [] []
  | cons {v w : Value} {vs ws : List Value} (head : v.Match ρ w) (tail : MatchList ρ vs ws) :
    MatchList ρ (v :: vs) (w :: ws)

namespace MatchList

variable {ρ : Matching} {vs ws : List Value}

theorem length (h : MatchList ρ vs ws) : vs.length = ws.length := by
  induction h with
  | nil => rfl
  | cons _ _ ih => exact congrArg Nat.succ ih

theorem of_forall (h : ∀ v ∈ vs, v.Match ρ v) : MatchList ρ vs vs := by
  induction vs with
  | nil => exact .nil
  | cons v vs ih =>
    exact .cons (h v List.mem_cons_self) (ih fun w hw => h w (List.mem_cons_of_mem _ hw))

/-- Each of the values matches itself. -/
theorem of_mem (h : MatchList ρ vs vs) : ∀ v ∈ vs, v.Match ρ v := by
  induction vs with
  | nil => exact nofun
  | cons v vs ih =>
    cases h with
    | cons head tail => exact List.forall_mem_cons.mpr ⟨head, ih tail⟩

theorem append (h : MatchList ρ vs ws) {vs' ws' : List Value} (h' : MatchList ρ vs' ws') :
    MatchList ρ (vs ++ vs') (ws ++ ws') := by
  induction h with
  | nil => exact h'
  | cons head _ ih => exact .cons head ih

theorem reverse (h : MatchList ρ vs ws) : MatchList ρ vs.reverse ws.reverse := by
  induction h with
  | nil => exact .nil
  | cons head _ ih =>
    rw [List.reverse_cons, List.reverse_cons]
    exact ih.append (.cons head .nil)

end MatchList

/-! ## Values that have been moved -/

/-- The places of objects in some values, with their places in others. -/
def between (vs ws : Array Value) : Matching :=
  fun s r t => ∃ i : Nat, vs[i]? = some (.object s r) ∧ ws[i]? = some (.object s t)

/-- The first values of `ws` are the values `vs`, with their objects at other places: objects keep
their shapes and their sizes, strings keep their bytes, and different objects stay different. -/
structure Relocated (m m' : Memory) (vs ws : Array Value) : Prop where
  size_le : vs.size ≤ ws.size
  get : ∀ (i : Nat) (v w : Value), vs[i]? = some v → ws[i]? = some w → v.Match (between vs ws) w
  unique : ∀ {s r t s' r' t'}, between vs ws s r t → between vs ws s' r' t' → (r = r' ↔ t = t')
  sizeAt : ∀ {s r t}, between vs ws s r t → m'.sizeAt t = m.sizeAt r
  stringAt : ∀ {r t}, between vs ws .string r t → m'.stringAt t = m.stringAt r

namespace Relocated

variable {m m' m'' : Memory} {vs ws xs : Array Value}

/-- No values are anywhere. -/
theorem empty (m m' : Memory) (ws : Array Value) : Relocated m m' #[] ws where
  size_le := Nat.zero_le _
  get i v w hv := by
    rw [Array.getElem?_empty] at hv
    cases hv
  unique := by
    rintro s r t s' r' t' ⟨i, hv, -⟩
    rw [Array.getElem?_empty] at hv
    cases hv
  sizeAt := by
    rintro s r t ⟨i, hv, -⟩
    rw [Array.getElem?_empty] at hv
    cases hv
  stringAt := by
    rintro r t ⟨i, hv, -⟩
    rw [Array.getElem?_empty] at hv
    cases hv

theorem between_congr (h : ∀ i : Nat, i < vs.size → xs[i]? = ws[i]?) {s : Shape} {r t : Ref} :
    between vs xs s r t ↔ between vs ws s r t := by
  have hlt : ∀ {i : Nat} {v : Value}, vs[i]? = some v → i < vs.size := fun hv =>
    (Array.getElem?_eq_some_iff.mp hv).1
  constructor
  · rintro ⟨i, hv, hw⟩
    exact ⟨i, hv, by rw [← h i (hlt hv), hw]⟩
  · rintro ⟨i, hv, hw⟩
    exact ⟨i, hv, by rw [h i (hlt hv), hw]⟩

/-- Only the first values matter. -/
theorem congr (h : Relocated m m' vs ws) (size_le : vs.size ≤ xs.size)
    (heq : ∀ i : Nat, i < vs.size → xs[i]? = ws[i]?) : Relocated m m' vs xs where
  size_le := size_le
  get i v w hv hw := by
    rw [heq i (Array.getElem?_eq_some_iff.mp hv).1] at hw
    exact (h.get i v w hv hw).mono fun hb => (between_congr heq).mpr hb
  unique hb hb' := h.unique ((between_congr heq).mp hb) ((between_congr heq).mp hb')
  sizeAt hb := h.sizeAt ((between_congr heq).mp hb)
  stringAt hb := h.stringAt ((between_congr heq).mp hb)

/-- The objects of the values may change as long as sizes and strings do not. -/
theorem update (h : Relocated m m' vs ws)
    (hsize : ∀ {s r t}, between vs ws s r t → m''.sizeAt t = m'.sizeAt t)
    (hstring : ∀ {r t}, between vs ws .string r t → m''.stringAt t = m'.stringAt t) :
    Relocated m m'' vs ws where
  size_le := h.size_le
  get := h.get
  unique := h.unique
  sizeAt hb := (hsize hb).trans (h.sizeAt hb)
  stringAt hb := (hstring hb).trans (h.stringAt hb)

/-- What has been relocated may be moved again. -/
theorem move {γ : Matching} (h : Relocated m m' vs ws) (iso : Iso γ m' m'')
    (moved : MatchAll γ ws xs) : Relocated m m'' vs xs := by
  -- Between the first and the last places there are the places in the middle.
  have middle : ∀ {s r u}, between vs xs s r u → ∃ t, between vs ws s r t ∧ γ s t u := by
    rintro s r u ⟨i, hv, hx⟩
    have hlt := (Array.getElem?_eq_some_iff.mp hv).1
    obtain ⟨w, hw⟩ : ∃ w, ws[i]? = some w :=
      ⟨_, Array.getElem?_eq_getElem (Nat.lt_of_lt_of_le hlt h.size_le)⟩
    have hmatch := moved.get i _ _ hw hx
    have hold := h.get i _ _ hv hw
    cases hold with
    | inline h => cases h
    | object hb =>
      cases hmatch with
      | inline h => cases h
      | object hγ => exact ⟨_, ⟨i, hv, hw⟩, hγ⟩
  refine ⟨moved.size ▸ h.size_le, ?_, ?_, ?_, ?_⟩
  · intro i v x hv hx
    have hlt := (Array.getElem?_eq_some_iff.mp hv).1
    obtain ⟨w, hw⟩ : ∃ w, ws[i]? = some w :=
      ⟨_, Array.getElem?_eq_getElem (Nat.lt_of_lt_of_le hlt h.size_le)⟩
    have hmatch := moved.get i _ _ hw hx
    have hold := h.get i _ _ hv hw
    cases hold with
    | inline h =>
      cases hmatch with
      | inline _ => exact .inline h
      | object _ => cases h
    | object hb =>
      cases hmatch with
      | inline h => cases h
      | object hγ => exact .object ⟨i, hv, hx⟩
  · intro s r u s' r' u' hb hb'
    obtain ⟨t, ht, hγ⟩ := middle hb
    obtain ⟨t', ht', hγ'⟩ := middle hb'
    exact (h.unique ht ht').trans (iso.unique hγ hγ')
  · intro s r u hb
    obtain ⟨t, ht, hγ⟩ := middle hb
    rw [← (iso.alike hγ).size]
    exact h.sizeAt ht
  · intro r u hb
    obtain ⟨t, ht, hγ⟩ := middle hb
    rw [← (iso.alike hγ).string rfl]
    exact h.stringAt ht

/-- The first of the values that have been relocated may be relocated again, with others behind
them. -/
theorem trans {n : Nat} (h : Relocated m m' vs ws) (h' : Relocated m' m'' (ws.extract 0 n) xs)
    (le : vs.size ≤ n) : Relocated m m'' vs xs := by
  have hws : ∀ {i : Nat}, i < vs.size → (ws.extract 0 n)[i]? = ws[i]? := by
    intro i hi
    have := h.size_le
    rw [Array.getElem?_extract, if_pos (by omega), Nat.zero_add]
  have found : ∀ {i : Nat}, i < vs.size → ∃ w, ws[i]? = some w := fun hi =>
    ⟨_, Array.getElem?_eq_getElem (Nat.lt_of_lt_of_le hi h.size_le)⟩
  -- Between the first and the last places there are the places in the middle.
  have middle : ∀ {s r u}, between vs xs s r u →
      ∃ t, between vs ws s r t ∧ between (ws.extract 0 n) xs s t u := by
    rintro s r u ⟨i, hv, hx⟩
    have hi := (Array.getElem?_eq_some_iff.mp hv).1
    obtain ⟨w, hw⟩ := found hi
    have hold := h.get i _ _ hv hw
    cases hold with
    | inline h => cases h
    | object _ => exact ⟨_, ⟨i, hv, hw⟩, ⟨i, (hws hi).trans hw, hx⟩⟩
  refine ⟨?_, ?_, ?_, ?_, ?_⟩
  · have h1 := h.size_le
    have h2 := h'.size_le
    rw [Array.size_extract] at h2
    omega
  · intro i v x hv hx
    have hi := (Array.getElem?_eq_some_iff.mp hv).1
    obtain ⟨w, hw⟩ := found hi
    have hnew := h'.get i _ _ ((hws hi).trans hw) hx
    have hold := h.get i _ _ hv hw
    cases hold with
    | inline h =>
      cases hnew with
      | inline _ => exact .inline h
      | object _ => cases h
    | object _ =>
      cases hnew with
      | inline h => cases h
      | object _ => exact .object ⟨i, hv, hx⟩
  · intro s r u s' r' u' hb hb'
    obtain ⟨t, ht, hu⟩ := middle hb
    obtain ⟨t', ht', hu'⟩ := middle hb'
    exact (h.unique ht ht').trans (h'.unique hu hu')
  · intro s r u hb
    obtain ⟨t, ht, hu⟩ := middle hb
    exact (h'.sizeAt hu).trans (h.sizeAt ht)
  · intro r u hb
    obtain ⟨t, ht, hu⟩ := middle hb
    exact (h'.stringAt hu).trans (h.stringAt ht)

/-- Values are where they are. -/
theorem refl (m : Memory) (vs : Array Value) : Relocated m m vs vs := by
  have self : ∀ {s r t}, between vs vs s r t → r = t := by
    rintro s r t ⟨i, hv, hw⟩
    rw [hv] at hw
    cases hw
    rfl
  refine ⟨Nat.le_refl _, fun i v w hv hw => ?_, fun hb hb' => ?_, fun hb => ?_, fun hb => ?_⟩
  · rw [hv] at hw
    cases hw
    cases v with
    | object s r => exact .object ⟨i, hv, hv⟩
    | _ => exact .inline rfl
  · rw [self hb, self hb']
  · rw [self hb]
  · rw [self hb]

end Relocated

end Value

end ActorMachine
