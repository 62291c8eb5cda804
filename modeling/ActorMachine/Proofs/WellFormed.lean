import ActorMachine.Proofs.Checked
import ActorMachine.Proofs.Loaders
import Mathlib.Logic.Relation

/-!
# Well-formed actors

Calls, stack and mailbox of an actor stay in range in every life that begins with a prepared first
call, whatever code it runs. Its protected calls stay with the calls that they protect until a fault
is reported to one that is nested directly in another: the outer one is then left behind, and
nothing else ever parts them (`Session.wellFormed_of_life`).
-/

namespace ActorMachine

namespace Outline

/-- The positions that calls hold are within the stack and in the order of the calls; stack, calls
and mailbox are within their limits. -/
structure InRange (l : Loader) (o : Outline) : Prop where
  args_le_base : ∀ f ∈ o.frames.toList, f.argCount ≤ f.base
  above : ∀ (i : Nat) (outer inner : Frame), o.frames[i]? = some outer →
    o.frames[i + 1]? = some inner → outer.base ≤ inner.base - inner.argCount
  floor_le_height : o.floor ≤ o.height
  height_le : o.height ≤ o.limits.maxStack
  frames_le : o.frames.size ≤ o.limits.maxFrames
  code : ∀ f ∈ o.frames.toList, ∃ p, l.prototype f.func = .ok p ∧ f.ip ≤ p.code.size
  cursor_le : o.cursor ≤ o.messages
  messages_le : o.messages ≤ o.limits.maxMailbox

/-- Every protected call has a call of its own and its outcome goes to the place where the arguments
of that call begin. A protected call lies nowhere below those outside of it. -/
structure Matched (o : Outline) : Prop where
  own : ∀ c ∈ o.catches, ∃ f, o.frames[c.frameDepth]? = some f ∧
    c.stackHeight = f.base - f.argCount
  sorted : o.catches.Pairwise fun inner outer =>
    outer.frameDepth ≤ inner.frameDepth ∧ outer.stackHeight ≤ inner.stackHeight

variable {l : Loader} {o : Outline}

theorem Fits.inRange (h : o.Fits l) : o.InRange l where
  args_le_base f hf := (h.inside f hf).1
  above i outer inner houter hinner := by
    rw [← Array.getElem?_toList, List.getElem?_eq_some_iff] at houter hinner
    obtain ⟨hi, rfl⟩ := houter
    obtain ⟨hj, rfl⟩ := hinner
    have := List.pairwise_iff_getElem.mp h.nested i (i + 1) hi hj (Nat.lt_succ_self i)
    omega
  floor_le_height := h.floor_le_height
  height_le := h.height_le
  frames_le := h.frames_le
  code := h.code
  cursor_le := h.cursor_le
  messages_le := h.messages_le

/-- What is in range matches if and only if it is aligned and anchored. -/
theorem Fits.matched_iff (h : o.Fits l) : o.Matched ↔ o.Aligned ∧ o.Anchored := by
  have hmem : ∀ {i : Nat} {f : Frame}, o.frames[i]? = some f → f ∈ o.frames.toList := by
    intro i f hf
    rw [← Array.getElem?_toList] at hf
    exact List.mem_of_getElem? hf
  constructor
  · intro matched
    refine ⟨fun c hc f hf => ?_, fun c hc => ?_⟩
    · obtain ⟨g, hg, hheight⟩ := matched.own c hc
      rw [hf] at hg
      cases hg
      have := (h.inside f (hmem hf)).1
      omega
    · obtain ⟨g, hg, -⟩ := matched.own c hc
      exact (Array.getElem?_eq_some_iff.mp hg).1
  · rintro ⟨aligned, anchored⟩
    have hown : ∀ c ∈ o.catches, ∃ f, o.frames[c.frameDepth]? = some f ∧
        c.stackHeight = f.base - f.argCount := by
      intro c hc
      have hf := Array.getElem?_eq_getElem (anchored c hc)
      have := aligned c hc _ hf
      exact ⟨_, hf, by omega⟩
    refine ⟨hown, h.catches_sorted.imp_of_mem ?_⟩
    intro inner outer hinner houter hdepth
    refine ⟨hdepth, ?_⟩
    obtain ⟨f, hf, hfh⟩ := hown inner hinner
    obtain ⟨g, hg, hgh⟩ := hown outer houter
    by_cases heq : outer.frameDepth = inner.frameDepth
    · rw [heq, hf] at hg
      cases hg
      omega
    · rw [← Array.getElem?_toList, List.getElem?_eq_some_iff] at hf hg
      obtain ⟨hi, rfl⟩ := hf
      obtain ⟨hj, rfl⟩ := hg
      have := List.pairwise_iff_getElem.mp h.nested _ _ hj hi (by omega)
      omega

end Outline

namespace Session

variable {κ : Type} [Kernel κ] {l : Loader}

/-- The ways in which a message comes to an actor. -/
inductive Delivery : ActorM Unit → Prop
  | copy (self : Pid) (source : Heap) (message : Value) :
    Delivery (ActorM.deliver self source message)
  | own (self : Pid) (message : Value) : Delivery (ActorM.deliverLocal self message)
  | bytes (self : Pid) (bytes : ByteArray) : Delivery (ActorM.deliverBytes self bytes)

theorem Delivery.delivers {m : ActorM Unit} (h : Delivery m) : ActorM.Delivers m := by
  cases h with
  | copy => exact ActorM.delivers_deliver _ _ _
  | own => exact ActorM.delivers_deliverLocal _ _
  | bytes => exact ActorM.delivers_deliverBytes _ _

/-- What can happen to an actor: it does what it does next, one instruction or a first call; a
protected call takes the fault that this ends with; a message comes or is refused; and the world
around it changes. -/
inductive Happens (l : Loader) : Session κ → Session κ → Prop
  | advanced {s s' : Session κ} {signal : Signal} (run : Exec.advance l s = .ok signal s') :
    Happens l s s'
  | stepped {s s' : Session κ} {signal : Signal} (run : Exec.step l s = .ok signal s') :
    Happens l s s'
  | reported {s t : Session κ} {fault : Fault} {a : Actor}
    (run : Exec.advance l s = .error fault t) (taken : t.actor.recover fault = (true, a)) :
    Happens l s ⟨a, t.kernel⟩
  | delivered (s : Session κ) {m : ActorM Unit} (delivery : Delivery m) :
    Happens l s ⟨leaves m s.actor, s.kernel⟩
  | turned (s : Session κ) (kernel : κ) : Happens l s ⟨s.actor, kernel⟩

/-- A fault of the actor is reported to a protected call that is nested directly in another. -/
def NestedReport (l : Loader) (s s' : Session κ) : Prop :=
  ∃ fault t point outer, Exec.advance l s = .error fault t ∧
    t.actor.recover fault = (true, s'.actor) ∧ point :: outer <:+ t.actor.catches ∧
    s'.actor.catches = outer ∧ ∃ c ∈ outer, c.frameDepth = point.frameDepth

/-- A delivery leaves calls and protected calls as they are, even if it fails. -/
theorem proceeds_leaves {m : ActorM Unit} (delivery : Delivery m) {a : Actor}
    (fits : a.outline.Fits l) : a.outline.Proceeds l (leaves m a).outline := by
  have h := (delivery.delivers a).and (delivery.delivers.sound a fits)
  unfold Ends at h
  unfold leaves
  split at h
  · exact h.2
  · rw [h.1]
    exact fits.proceeds (.of_eq rfl rfl)

/-- Whatever happens keeps everything in range. -/
theorem Happens.fits {s s' : Session κ} (h : Happens l s s') (fits : s.actor.outline.Fits l) :
    s'.actor.outline.Fits l := by
  cases h with
  | advanced run => exact ((Exec.sound_advance s fits).of_ok run).1
  | stepped run => exact ((Exec.sound_step s fits).of_ok run).1
  | reported run taken =>
    exact (Actor.recover_spec ((Exec.sound_advance s fits).of_error run).1 taken).1
  | delivered delivery => exact (proceeds_leaves delivery fits).1
  | turned => exact fits

/-- A report to a protected call that is nested directly in another leaves the outer one behind. -/
theorem NestedReport.not_matched {s s' : Session κ} (h : NestedReport l s s')
    (fits : s.actor.outline.Fits l) : ¬s'.actor.outline.Matched := by
  obtain ⟨fault, t, point, outer, run, taken, hsuffix, houter, c, hc, hdepth⟩ := h
  have hfits := ((Exec.sound_advance s fits).of_error run).1
  obtain ⟨hfits', himp⟩ := Actor.recover_spec hfits taken
  obtain ⟨point', outer', hsuffix', houter', hframes⟩ := himp rfl
  -- The catch point that took the report is the one before those that are left.
  have hpoint : point' = point := by
    rw [← houter', houter] at hsuffix'
    have := List.suffix_of_suffix_length_le hsuffix hsuffix' (by simp)
    exact (List.cons.inj (this.eq_of_length (by simp))).1.symm
  intro matched
  have anchored := (hfits'.matched_iff.mp matched).2
  have hlt : c.frameDepth < s'.actor.frames.size := anchored c (by
    show c ∈ s'.actor.catches
    rwa [houter])
  rw [hframes, Array.size_extract, hpoint, hdepth] at hlt
  omega

/-- Protected calls stay matched unless a report is made to one that is nested directly in
another. -/
theorem Happens.matched_iff {s s' : Session κ} (h : Happens l s s')
    (fits : s.actor.outline.Fits l) (matched : s.actor.outline.Matched) :
    s'.actor.outline.Matched ↔ ¬NestedReport l s s' := by
  obtain ⟨aligned, anchored⟩ := fits.matched_iff.mp matched
  have of_proceeds : s.actor.outline.Proceeds l s'.actor.outline → s'.actor.outline.Matched :=
    fun h => h.1.matched_iff.mpr (h.2 aligned anchored)
  refine ⟨fun matched' nested => nested.not_matched fits matched', fun notNested => ?_⟩
  cases h with
  | advanced run => exact of_proceeds ((Exec.sound_advance s fits).of_ok run)
  | stepped run => exact of_proceeds ((Exec.sound_step s fits).of_ok run)
  | reported run taken =>
    rename_i t fault a
    have hfaults := (Exec.sound_advance s fits).of_error run
    obtain ⟨hfits, himp⟩ := Actor.recover_spec hfaults.1 taken
    obtain ⟨point, outer, hsuffix, houter, hframes⟩ := himp rfl
    have htail : outer <:+ t.actor.catches := (List.suffix_cons _ _).trans hsuffix
    have hpoint : point.frameDepth ≤ t.actor.frames.size :=
      hfaults.1.catches_depth point (hsuffix.mem List.mem_cons_self)
    refine hfits.matched_iff.mpr ⟨?_, ?_⟩
    · intro c hc f hf
      have hf : a.frames[c.frameDepth]? = some f := hf
      have hc : c ∈ outer := by
        rw [← houter]
        exact hc
      rw [hframes, Array.getElem?_extract] at hf
      split at hf
      · rw [Nat.zero_add] at hf
        exact hfaults.2 aligned anchored c (htail.mem hc) f hf
      · cases hf
    · intro c hc
      have hc : c ∈ outer := by
        rw [← houter]
        exact hc
      have hle : c.frameDepth ≤ point.frameDepth :=
        (List.pairwise_cons.mp (hfaults.1.catches_sorted.sublist hsuffix.sublist)).1 c hc
      have hne : c.frameDepth ≠ point.frameDepth := fun heq =>
        notNested ⟨fault, t, point, outer, run, taken, hsuffix, houter, c, hc, heq⟩
      show c.frameDepth < a.frames.size
      rw [hframes, Array.size_extract]
      omega
  | delivered delivery => exact of_proceeds (proceeds_leaves delivery fits)
  | turned => exact matched

/-- What a prepared first call leaves is in range, and there is no protected call yet. -/
theorem fits_prepareEntry {callee : Value} {args : List Value} {source : Option Heap}
    {config : ActorConfig} {a : Actor}
    (prepared : ActorM.prepareEntry callee args source (Actor.create config) = .ok () a) :
    a.outline.Fits l ∧ a.outline.Matched := by
  have fits : (Actor.create config).outline.Fits l := by
    constructor <;> simp [Actor.create, Actor.outline, Mailbox.empty, Mailbox.size]
  have h := (ActorM.sound_prepareEntry callee args source _ fits).of_ok prepared
  refine ⟨h.1, h.1.matched_iff.mpr (h.2 ?_ ?_)⟩ <;> exact fun c hc => (List.not_mem_nil hc).elim

open Relation (ReflTransGen)

theorem fits_of_life {s s' : Session κ} (life : ReflTransGen (Happens l) s s')
    (fits : s.actor.outline.Fits l) : s'.actor.outline.Fits l := by
  induction life with
  | refl => exact fits
  | tail _ last ih => exact last.fits ih

/-- As long as no fault is reported to a protected call that is nested directly in another,
protected calls stay matched. Only what is in range stays so, and both are carried along the
life. -/
theorem matched_of_straight {s s' : Session κ}
    (straight : ReflTransGen (fun s s' => Happens l s s' ∧ ¬NestedReport l s s') s s')
    (fits : s.actor.outline.Fits l) (matched : s.actor.outline.Matched) :
    s'.actor.outline.Fits l ∧ s'.actor.outline.Matched := by
  induction straight with
  | refl => exact ⟨fits, matched⟩
  | tail _ last ih => exact ⟨last.1.fits ih.1, (last.1.matched_iff ih.1 ih.2).mpr last.2⟩

/-- In every life that begins with a prepared first call, whatever code is run and whatever the
world does, calls, stack and mailbox are in range, and so no access is out of range. Protected calls
are matched until a fault is reported to one that is nested directly in another, and no longer. -/
theorem wellFormed_of_life {callee : Value} {args : List Value} {source : Option Heap}
    {config : ActorConfig} {a : Actor} {k : κ} {s : Session κ}
    (prepared : ActorM.prepareEntry callee args source (Actor.create config) = .ok () a)
    (life : ReflTransGen (Happens l) ⟨a, k⟩ s) :
    s.actor.outline.InRange l ∧
    (∀ crash, Checked.advance crash l s = Exec.advance l s ∧
      Checked.step crash l s = Exec.step l s) ∧
    (ReflTransGen (fun s s' => Happens l s s' ∧ ¬NestedReport l s s') ⟨a, k⟩ s →
      s.actor.outline.Matched ∧
      ∀ s', Happens l s s' → (s'.actor.outline.Matched ↔ ¬NestedReport l s s')) := by
  obtain ⟨first, matched⟩ := fits_prepareEntry (l := l) prepared
  have fits := fits_of_life life first
  refine ⟨fits.inRange, fun crash => ⟨Checked.advance_eq fits, Checked.step_eq fits⟩, ?_⟩
  intro straight
  have hmatched := (matched_of_straight straight first matched).2
  exact ⟨hmatched, fun s' happens => happens.matched_iff fits hmatched⟩

/-- What `count` steps of a run come to, if it does not end before. -/
def steps (l : Loader) (s : Session κ) : (count : Nat) → Option (Session κ)
  | 0 => some s
  | count + 1 =>
    match s.next l with
    | .inl _ => none
    | .inr s => s.steps l count

/-- A step of a run happens. -/
theorem happens_of_next {s s' : Session κ} (next : s.next l = .inr s') : Happens l s s' := by
  rcases advance_of_next_inr next with run | ⟨fault, t, a, run, recovered, rfl⟩
  · exact .advanced run
  · exact .reported run recovered

/-- The steps of a run are a life. -/
theorem life_of_steps {count : Nat} {s s' : Session κ} (run : s.steps l count = some s') :
    ReflTransGen (Happens l) s s' := by
  induction count generalizing s with
  | zero =>
    cases run
    exact .refl
  | succ count ih =>
    unfold steps at run
    split at run
    · cases run
    · exact .head (happens_of_next (by assumption)) (ih run)

end Session

/-- A loader whose only function calls the protected call of a protected call of a native that
fails. -/
def nestedTries : Loader where
  natives := ⟨#[⟨"std", "error", .operation .raise⟩, ⟨"std", "try", .protectedCall⟩]⟩
  chunks := #[⟨"m", #[{
    source := ""
    symbol := "m"
    code := #[.pack .imp 0, .pack .imp 1, .pack .imp 1, .pack .ivk 2, .pack .nil 0, .pack .rcv 0]
    constants := #[]
    imports := #[.native 0, .native 1]
    nested := #[] }], .empty⟩]
  modules := Directory.empty.enter "m" 0
  policy := .refuse

/-- The chunk that it loads. -/
def nestedTriesChunk : Chunk where
  header := .host
  module := {
    source := ""
    symbol := "m"
    code := [.pack .imp 0, .pack .imp 1, .pack .imp 1, .pack .ivk 2, .pack .nil 0, .pack .rcv 0]
    constants := []
    imports := [⟨"std", "error"⟩, ⟨"std", "try"⟩]
    nested := [] }

theorem nestedTries_built : nestedTries.Built := by
  have load : (Loader.create nestedTries.natives .refuse).loadChunk nestedTriesChunk =
      .ok ⟨nestedTries, 0, []⟩ := by
    simp only [Loader.loadChunk, nestedTriesChunk, Prototype.flatten, Prototype.flattenForest,
      Loader.create, Directory.find?_empty, List.findIdx?_toArray, List.mapM_cons, Loader.link,
      Loader.linkImports, Loader.resolve?, Registry.lookup, nestedTries]
    rfl
  exact .extend (.create nestedTries.natives .refuse) (.loadChunk load)

namespace Session

open Relation (ReflTransGen)

/-- The run of the nested protected calls: the fault is reported to the inner one, and the outer one
is left with the depth of the calls outside of it. -/
theorem nestedTries_run :
    ∃ (a : Actor) (s : Session Solitude),
      ActorM.prepareEntry (.function ⟨0, 0⟩) [] none (Actor.create {}) = .ok () a ∧
      steps nestedTries ⟨a, ⟨⟨0⟩⟩⟩ 5 = some s ∧
      s.actor.catches = [⟨1, 0⟩] ∧ s.actor.frames.size = 1 := by
  have run : ((completes? (ActorM.prepareEntry (.function ⟨0, 0⟩) [] none) (Actor.create {})).bind
    fun a => (steps nestedTries (⟨a, ⟨⟨0⟩⟩⟩ : Session Solitude) 5).map fun s =>
        (s.actor.catches, s.actor.frames.size)) =
      some ([⟨1, 0⟩], 1) := by decide +kernel
  obtain ⟨a, prepared, run⟩ := Option.bind_eq_some_iff.mp run
  have prepared := eq_ok_of_completes? prepared
  obtain ⟨s, hs, hresult⟩ := Option.map_eq_some_iff.mp run
  simp only [Prod.mk.injEq] at hresult
  exact ⟨a, s, prepared, hs, hresult.1, hresult.2⟩

/-- A nested report is possible: the protected call that it leaves behind is not matched. -/
theorem exists_life_not_matched :
    ∃ (a : Actor) (s : Session Solitude),
      ActorM.prepareEntry (.function ⟨0, 0⟩) [] none (Actor.create {}) = .ok () a ∧
      ReflTransGen (Happens nestedTries) ⟨a, ⟨⟨0⟩⟩⟩ s ∧ ¬s.actor.outline.Matched := by
  obtain ⟨a, s, prepared, run, hcatches, hsize⟩ := nestedTries_run
  refine ⟨a, s, prepared, life_of_steps run, fun matched => ?_⟩
  obtain ⟨f, hf, -⟩ := matched.own ⟨1, 0⟩ (by
    show _ ∈ s.actor.catches
    rw [hcatches]
    exact List.mem_cons_self)
  have hlt : 1 < s.actor.frames.size := (Array.getElem?_eq_some_iff.mp hf).1
  omega

/-- The life of the nested protected calls is in range all the same. -/
theorem nestedTries_wellFormed :
    ∃ (a : Actor) (s : Session Solitude),
      ActorM.prepareEntry (.function ⟨0, 0⟩) [] none (Actor.create {}) = .ok () a ∧
      ReflTransGen (Happens nestedTries) ⟨a, ⟨⟨0⟩⟩⟩ s ∧
      s.actor.outline.InRange nestedTries ∧
      (∀ crash, Checked.advance crash nestedTries s = Exec.advance nestedTries s ∧
        Checked.step crash nestedTries s = Exec.step nestedTries s) ∧
      (ReflTransGen (fun s s' => Happens nestedTries s s' ∧ ¬NestedReport nestedTries s s')
          ⟨a, ⟨⟨0⟩⟩⟩ s →
        s.actor.outline.Matched ∧ ∀ s', Happens nestedTries s s' →
          (s'.actor.outline.Matched ↔ ¬NestedReport nestedTries s s')) := by
  obtain ⟨a, s, prepared, run, -⟩ := nestedTries_run
  exact ⟨a, s, prepared, life_of_steps run, wellFormed_of_life prepared (life_of_steps run)⟩

end Session

end ActorMachine
