import ActorMachine.Proofs.Deliveries
import ActorMachine.Proofs.Loaders
import ActorMachine.Proofs.Protections
import ActorMachine.Proofs.Reports

/-!
# The outcome of a protected call

A protected call is over in one of three ways (`Session.Over`): its callee has returned, and the
result is wrapped; a fault has left its callee, and is reported; or there is no room for the
outcome, and the fault goes on as if it had been raised where the protected call began. In each case
the calls and the protected calls outside and the stack below the arguments are what they were.

Protected calls that begin together have one exception to this: a fault is reported to the innermost
of them, and the others, which are over as well, are left behind (`Session.LeftBehind`).
-/

namespace ActorMachine

open Memory

/-! ## Unwinding -/

/-- A report is made at the first point, or it cannot be made there and the next ones are tried. -/
theorem Actor.recoverAt_cons {a a' : Actor} {e : Fault} {point : CatchPoint}
    {outer : List CatchPoint} {taken : Bool} (run : a.recoverAt e (point :: outer) = (taken, a')) :
    (taken = true ∧ ∃ u, ActorM.reportAt point e { a with catches := outer } = .ok u a') ∨
      ∃ e' b, ActorM.reportAt point e { a with catches := outer } = .error e' b ∧
        b.recoverAt e outer = (taken, a') := by
  rw [recoverAt] at run
  split at run
  · rename_i u b hat
    cases run
    exact .inl ⟨rfl, u, hat⟩
  · rename_i e' b hat
    exact .inr ⟨e', b, hat, run⟩

namespace Protection

variable (c : Protection)

/-- The outcome of the protected calls is the report of a fault, and `count` of them are left
behind. -/
structure Reported (e : Fault) (count : Nat) (a : Actor) : Prop where
  frames : a.frames = c.frames
  catches : a.catches = c.points count
  height : a.stack.size = c.stack.size + 1
  holds : c.Holds a
  outcome : ∃ v, a.stack.back? = some v ∧ a.heap.memory.Reports e v

/-- There has been no room for the report of a fault. -/
def Unreported (e : Fault) (b : Actor) : Prop :=
  ∃ a e', c.Holds a ∧ ActorM.reportAt c.point e a = .error e' b ∧ e'.IsOutOfMemory

variable {c} {a a' : Actor} {e : Fault} {taken : Bool}

theorem Holds.setCatches (holds : c.Holds a) (catches : List CatchPoint) :
    c.Holds { a with catches } := by
  obtain ⟨ρ, h⟩ := holds
  exact ⟨ρ, h.setCatches _⟩

/-- A report at a place above what is kept. -/
theorem Holds.ends_reportAt (holds : c.Holds a) {point : CatchPoint} (e : Fault)
    (low : c.stack.size ≤ point.stackHeight) :
    Ends (ActorM.reportAt point e) a
      (fun _ b => c.Holds b ∧ (∃ v, b.stack.back? = some v ∧ b.heap.memory.Reports e v) ∧
        b.outline = { a.outline with
          frames := a.frames.extract 0 point.frameDepth, pendingReceive := none
          height := min point.stackHeight a.stack.size + 1 })
      fun e' b => e'.IsOutOfMemory ∧ c.Holds b ∧ b.outline = { a.outline with
        frames := a.frames.extract 0 point.frameDepth, pendingReceive := none
        height := min point.stackHeight a.stack.size } := by
  have hreporting := ActorM.ends_reporting holds.sound point e
  obtain ⟨ρ, h⟩ := holds
  have hkept := (ActorM.together_reportAt (B := fun _ => True) h point e low).ends
  refine ((hkept.and hreporting).and (ActorM.ends_reportAt point e a)).mono ?_ ?_
  · intro _ b hb
    obtain ⟨⟨⟨ρ', hb⟩, -, hreports⟩, hout⟩ := hb
    exact ⟨⟨ρ', hb⟩, hreports, hout⟩
  · intro e' b hb
    obtain ⟨⟨⟨ρ', -, hb⟩, hmemory, -⟩, hout⟩ := hb
    exact ⟨hmemory, ⟨ρ', hb⟩, hout⟩

/-- A report to the protected calls themselves leaves one value where their outcome goes, or
none. -/
theorem Holds.ends_report (holds : c.Holds a) (e : Fault)
    (frames : a.frames.extract 0 c.frames.size = c.frames) (count : Nat) :
    Ends (ActorM.reportAt c.point e) { a with catches := c.points count }
      (fun _ b => c.Reported e count b) fun e' b => e'.IsOutOfMemory ∧ c.Left count b := by
  have hle := holds.keeps.size_le
  have hmin : min c.stack.size a.stack.size = c.stack.size := Nat.min_eq_left hle
  refine ((holds.setCatches (c.points count)).ends_reportAt e (Nat.le_refl _)).mono ?_ ?_
  · intro _ b hb
    obtain ⟨holds, hreports, hout⟩ := hb
    refine ⟨(congrArg Outline.frames hout).trans frames, congrArg Outline.catches hout, ?_, holds,
      hreports⟩
    exact (congrArg Outline.height hout).trans (congrArg (· + 1) hmin)
  · intro e' b hb
    obtain ⟨hmemory, holds, hout⟩ := hb
    exact ⟨hmemory, (congrArg Outline.frames hout).trans frames, congrArg Outline.catches hout,
      (congrArg Outline.height hout).trans hmin, holds⟩

/-- A fault is reported to one of the protected calls that began together, or it goes on from where
they began. -/
theorem recoverAt_points {count : Nat} (frames : a.frames.extract 0 c.frames.size = c.frames)
    (holds : c.Holds a) (run : a.recoverAt e (c.points (count + 1)) = (taken, a')) :
    (taken = true ∧ ∃ i ≤ count, c.Reported e i a') ∨
      ∃ b, c.Unreported e b ∧ c.Left 0 b ∧ b.recover e = (taken, a') := by
  induction count generalizing a with
  | zero =>
    have hreport := holds.ends_report e frames 0
    rcases Actor.recoverAt_cons run with ⟨htaken, u, hat⟩ | ⟨e', b, hat, hrest⟩
    · exact .inl ⟨htaken, 0, Nat.le_refl 0, hreport.of_ok hat⟩
    · obtain ⟨hmemory, left⟩ := hreport.of_error hat
      refine .inr ⟨b, ⟨_, e', holds.setCatches _, hat, hmemory⟩, left, ?_⟩
      rw [Actor.recover, left.catches]
      exact hrest
  | succ count ih =>
    have hreport := holds.ends_report e frames (count + 1)
    rcases Actor.recoverAt_cons run with ⟨htaken, u, hat⟩ | ⟨e', b, hat, hrest⟩
    · exact .inl ⟨htaken, count + 1, Nat.le_refl _, hreport.of_ok hat⟩
    · obtain ⟨-, left⟩ := hreport.of_error hat
      rcases ih (by rw [left.frames, Array.extract_size]) left.holds hrest with
        ⟨htaken, i, hi, reported⟩ | passed
      · exact .inl ⟨htaken, i, Nat.le_succ_of_le hi, reported⟩
      · exact .inr passed

/-- A fault in the protected calls is reported within them, or to one of them, or goes on from where
they began. -/
theorem Raised.recover {inner : List CatchPoint} (raised : c.Raised inner a)
    (positive : 0 < c.count) (run : a.recoverAt e (inner ++ c.points c.count) = (taken, a')) :
    (taken = true ∧ (c.Within a' ∨ ∃ i < c.count, c.Reported e i a')) ∨
      ∃ b, c.Unreported e b ∧ c.Left 0 b ∧ b.recover e = (taken, a') := by
  induction inner generalizing a with
  | nil =>
    obtain ⟨count, hcount⟩ : ∃ count, c.count = count + 1 := ⟨c.count - 1, by omega⟩
    rw [List.nil_append, hcount] at run
    rcases recoverAt_points raised.frames raised.holds run with ⟨htaken, i, hi, reported⟩ | passed
    · exact .inl ⟨htaken, .inr ⟨i, by omega, reported⟩⟩
    · exact .inr passed
  | cons point inner ih =>
    obtain ⟨hdepth, hlow⟩ := raised.above point List.mem_cons_self
    obtain ⟨f, hf, hbase⟩ := raised.callee (List.cons_ne_nil _ _)
    have hreport := (raised.holds.setCatches (inner ++ c.points c.count)).ends_reportAt e hlow
    -- The calls from the point on are gone; those that matter here are further out.
    have hframes : (a.frames.extract 0 point.frameDepth).extract 0 c.frames.size = c.frames := by
      refine Eq.trans ?_ raised.frames
      rw [Array.extract_extract]
      congr 1
      omega
    have hcallee : (a.frames.extract 0 point.frameDepth)[c.frames.size]? = some f := by
      have hlt : c.frames.size < a.frames.size := (Array.getElem?_eq_some_iff.mp hf).1
      rw [Array.getElem?_extract, if_pos (by omega), Nat.zero_add, hf]
    rcases Actor.recoverAt_cons run with ⟨htaken, u, hat⟩ | ⟨e', b, hat, hrest⟩
    · obtain ⟨hb, -, hout⟩ := hreport.of_ok hat
      have hbframes : a'.frames = _ := congrArg Outline.frames hout
      refine .inl ⟨htaken, .inl ⟨?_, ⟨f, ?_, hbase⟩,
        ⟨inner, congrArg Outline.catches hout, ?_⟩, hb⟩⟩
      · rw [hbframes]
        exact hframes
      · rw [hbframes]
        exact hcallee
      · exact fun p hp => (raised.above p (List.mem_cons_of_mem _ hp)).1
    · obtain ⟨-, hb, hout⟩ := hreport.of_error hat
      have hbframes : b.frames = _ := congrArg Outline.frames hout
      refine ih (a := b) ⟨?_, fun _ => ⟨f, ?_, hbase⟩, congrArg Outline.catches hout, ?_, hb⟩ hrest
      · rw [hbframes]
        exact hframes
      · rw [hbframes]
        exact hcallee
      · exact fun p hp => raised.above p (List.mem_cons_of_mem _ hp)

/-- A fault because a result cannot be wrapped is reported to one of the protected calls that are
left, or goes on from where they began. -/
theorem Left.recover {count : Nat} (left : c.Left count a) (run : a.recover e = (taken, a')) :
    (taken = true ∧ ∃ i < count, c.Reported e i a') ∨
      ∃ b, (b = a ∨ c.Unreported e b) ∧ c.Left 0 b ∧ b.recover e = (taken, a') := by
  cases count with
  | zero => exact .inr ⟨a, .inl rfl, left, run⟩
  | succ count =>
    rw [Actor.recover, left.catches] at run
    rcases recoverAt_points (by rw [left.frames, Array.extract_size]) left.holds run with
      ⟨htaken, i, hi, reported⟩ | ⟨b, unreported, hb, hrun⟩
    · exact .inl ⟨htaken, i, Nat.lt_succ_of_le hi, reported⟩
    · exact .inr ⟨b, .inr unreported, hb, hrun⟩

end Protection

/-- Unwinding only gives protected calls up. -/
theorem Actor.length_recoverAt_le {a : Actor} {e : Fault} {points : List CatchPoint}
    (le : a.catches.length ≤ points.length) :
    (a.recoverAt e points).2.catches.length ≤ points.length := by
  induction points generalizing a with
  | nil => exact le
  | cons point outer ih =>
    have hout := ActorM.ends_reportAt point e { a with catches := outer }
    have hrun : a.recoverAt e (point :: outer) = (_, (a.recoverAt e (point :: outer)).2) := rfl
    rcases recoverAt_cons hrun with ⟨-, u, hat⟩ | ⟨e', b, hat, hrest⟩
    · have hcatches : _ = outer := congrArg Outline.catches (hout.of_ok hat)
      exact Nat.le_trans (Nat.le_of_eq (congrArg List.length hcatches)) (Nat.le_succ _)
    · have hcatches : b.catches = outer := congrArg Outline.catches (hout.of_error hat)
      rw [← congrArg Prod.snd hrest]
      exact Nat.le_succ_of_le (ih (Nat.le_of_eq (congrArg List.length hcatches)))

/-! ## Outcomes -/

/-- A value that lives in a heap, with all that it reaches. -/
def Heap.Owns (h : Heap) (v : Value) : Prop :=
  ∃ σ, Iso σ h.memory h.memory ∧ v.Match σ v

namespace Session

variable {κ : Type} [Kernel κ] {l : Loader} {c : Protection}

/-- An actor does what it does next. A fault is reported, or it ends the actor. -/
inductive Acts (l : Loader) (x : Session κ) : Session κ → Prop
  | advanced {signal : Signal} {u : Session κ} (run : Exec.advance l x = .ok signal u) : Acts l x u
  | failed {e : Fault} {t : Session κ} {taken : Bool} {a : Actor}
    (run : Exec.advance l x = .error e t) (recover : t.actor.recover e = (taken, a)) :
    Acts l x ⟨a, t.kernel⟩

omit [Kernel κ] in
/-- What comes to an actor from elsewhere: a message or a text, even if it is refused, and changes
of the world around. -/
inductive Befalls (x : Session κ) : Session κ → Prop
  | message (self : Pid) {source : Heap} {v : Value} (owns : source.Owns v) :
    Befalls x ⟨leaves (ActorM.deliver self source v) x.actor, x.kernel⟩
  | text (self : Pid) (bytes : ByteArray) :
    Befalls x ⟨leaves (ActorM.deliverBytes self bytes) x.actor, x.kernel⟩
  | turned (kernel : κ) : Befalls x ⟨x.actor, kernel⟩

/-- The protected calls that a session has begun are under way, and have been ever since. -/
inductive Trying (l : Loader) (c : Protection) (s : Session κ) : Session κ → Prop
  | begun {u : Session κ} (acts : s.Acts l u) (inProgress : c.InProgress u.actor) : Trying l c s u
  | acted {x u : Session κ} (trying : Trying l c s x) (acts : x.Acts l u)
    (inProgress : c.InProgress u.actor) : Trying l c s u
  | befallen {x u : Session κ} (trying : Trying l c s x) (befalls : x.Befalls u) : Trying l c s u

/-- The next step of a session is the end of protected calls that began together. -/
inductive Over (l : Loader) (c : Protection) (x u : Session κ) : Prop
  /-- The callee has returned. The outcome is its result, wrapped once for each protected call. -/
  | returned {signal : Signal} {y : Actor} {r : Value} (run : Exec.advance l x = .ok signal u)
    (returns : x.Returns l y r) (settled : c.Settled y r u.actor)
  /-- A fault has left the callee. The outcome is its report. -/
  | reported {e : Fault} {t : Session κ} (run : Exec.advance l x = .error e t)
    (recover : t.actor.recover e = (true, u.actor)) (reported : c.Reported e 0 u.actor)
  /-- There is no room for the outcome: the fault goes on from where the protected calls began. -/
  | passedOn {e : Fault} {t : Session κ} {b : Actor} {taken : Bool}
    (run : Exec.advance l x = .error e t) (recover : t.actor.recover e = (taken, u.actor))
    (noRoom : c.Unreported e b ∨ e.IsOutOfMemory ∧ ∃ y r, x.Returns l y r) (back : c.Left 0 b)
    (goesOn : b.recover e = (taken, u.actor))

/-- A fault has been reported to one of the protected calls that began together, but not to the
outermost one, and those outside of it are left behind although they are over. -/
def LeftBehind (l : Loader) (c : Protection) (x u : Session κ) : Prop :=
  ∃ e t i, Exec.advance l x = .error e t ∧ t.actor.recover e = (true, u.actor) ∧ 0 < i ∧
    i < c.count ∧
    c.Reported e i u.actor

end Session

namespace Protection

variable {c : Protection} {a b : Actor}

theorem not_inProgress {i : Nat} (hi : i < c.count) (le : a.catches.length ≤ (c.points i).length) :
    ¬c.InProgress a := by
  intro h
  have := h.length_le
  simp only [points, List.length_append, List.length_replicate] at this le
  omega

end Protection

namespace Session

variable {κ : Type} [Kernel κ] {l : Loader} {c : Protection} {x u : Session κ}

/-- What a step may come to decides what becomes of the protected calls. -/
theorem Acts.within_or_over (positive : 0 < c.count) (acts : x.Acts l u)
    (ends : Ends (Exec.advance l) x
      (fun _ u => c.Within u.actor ∨ ∃ y r, x.Returns l y r ∧ c.Settled y r u.actor)
      fun e t => (∃ inner, c.Raised inner t.actor) ∨
        e.IsOutOfMemory ∧ (∃ y r, x.Returns l y r) ∧ ∃ j < c.count, c.Left j t.actor) :
    c.Within u.actor ∨ ¬c.InProgress u.actor ∧ (Over l c x u ∨ LeftBehind l c x u) := by
  cases acts with
  | advanced run =>
    rcases ends.of_ok run with within | ⟨y, r, returns, settled⟩
    · exact .inl within
    · refine .inr ⟨Protection.not_inProgress positive ?_, .inl (.returned run returns settled)⟩
      rw [settled.catches]
      exact Nat.le_refl _
  | failed run recover =>
    rename_i e t taken a
    have reported : taken = true → ∀ i < c.count, c.Reported e i a →
        ¬c.InProgress a ∧ (Over l c x ⟨a, t.kernel⟩ ∨ LeftBehind l c x ⟨a, t.kernel⟩) := by
      rintro rfl i hi reported
      refine ⟨Protection.not_inProgress hi (by rw [reported.catches]), ?_⟩
      by_cases hzero : i = 0
      · subst hzero
        exact .inl (.reported run recover reported)
      · exact .inr ⟨e, t, i, run, recover, by omega, hi, reported⟩
    have passedOn : ∀ b, (c.Unreported e b ∨ e.IsOutOfMemory ∧ ∃ y r, x.Returns l y r) →
      c.Left 0 b →
        b.recover e = (taken, a) →
        ¬c.InProgress a ∧ (Over l c x ⟨a, t.kernel⟩ ∨ LeftBehind l c x ⟨a, t.kernel⟩) := by
      intro b noRoom back goesOn
      refine ⟨Protection.not_inProgress positive ?_,
        .inl (.passedOn run recover noRoom back goesOn)⟩
      have hle := Actor.length_recoverAt_le (a := b) (e := e) (Nat.le_refl b.catches.length)
      rw [Actor.recover] at goesOn
      rw [goesOn, back.catches] at hle
      exact hle
    rcases ends.of_error run with ⟨inner, raised⟩ | ⟨hmemory, hreturns, j, hj, left⟩
    · rw [Actor.recover, raised.catches] at recover
      rcases raised.recover positive recover with
        ⟨htaken, within | ⟨i, hi, h⟩⟩ | ⟨b, h, back, goesOn⟩
      · exact .inl within
      · exact .inr (reported htaken i hi h)
      · exact .inr (passedOn b (.inl h) back goesOn)
    · rcases left.recover recover with ⟨htaken, i, hi, h⟩ | ⟨b, h, back, goesOn⟩
      · exact .inr (reported htaken i (Nat.lt_trans hi hj) h)
      · exact .inr (passedOn b (h.elim (fun _ => .inr ⟨hmemory, hreturns⟩) .inl) back goesOn)

omit [Kernel κ] in
/-- What comes from elsewhere leaves the calls and the protected calls as they are. -/
theorem Befalls.calls (befalls : x.Befalls u) :
    u.actor.frames = x.actor.frames ∧ u.actor.catches = x.actor.catches := by
  have kept : ∀ {m : ActorM Unit}, ActorM.Delivers m →
      (leaves m x.actor).frames = x.actor.frames ∧
      (leaves m x.actor).catches = x.actor.catches := by
    intro m delivers
    refine Ends.leaves (P := fun a => a.frames = x.actor.frames ∧ a.catches = x.actor.catches)
      ((delivers x.actor).mono ?_ ?_)
    · exact fun _ a h => ⟨congrArg Outline.frames h.2, congrArg Outline.catches h.2⟩
    · exact fun _ a h => ⟨congrArg Outline.frames h, congrArg Outline.catches h⟩
  cases befalls with
  | message self owns => exact kept (ActorM.delivers_deliver self _ _)
  | text self bytes => exact kept (ActorM.delivers_deliverBytes self bytes)
  | turned kernel => exact ⟨rfl, rfl⟩

omit [Kernel κ] in
/-- What comes from elsewhere leaves the values from an earlier time in their place. -/
theorem Befalls.inStep (befalls : x.Befalls u) {g : Origin} {ρ : Matching}
    (h : x.actor.InStep g ρ x.actor) : ∃ ρ', u.actor.InStep g ρ' u.actor := by
  cases befalls with
  | message self owns =>
    obtain ⟨σ, iso, hv⟩ := owns
    have hdeliver := ActorM.same_deliver (g := g) (B := fun _ => True) self iso hv _ _ h
    refine Ends.leaves (P := fun a => ∃ ρ', a.InStep g ρ' a) (hdeliver.ends.mono ?_ ?_)
    · exact fun _ a h => h.imp fun _ h => h.1
    · exact fun _ a h => h.imp fun _ h => h.2
  | text self bytes =>
    have hdeliver := ActorM.same_deliverBytes (g := g) (B := fun _ => True) self bytes _ _ h
    refine Ends.leaves (P := fun a => ∃ ρ', a.InStep g ρ' a) (hdeliver.ends.mono ?_ ?_)
    · exact fun _ a h => h.imp fun _ h => h.1
    · exact fun _ a h => h.imp fun _ h => h.2
  | turned kernel => exact ⟨ρ, h⟩

omit [Kernel κ] in
/-- Nothing that comes from elsewhere disturbs a protected call. -/
theorem Befalls.within (befalls : x.Befalls u) (within : c.Within x.actor) : c.Within u.actor := by
  obtain ⟨hframes, hcatches⟩ := befalls.calls
  obtain ⟨ρ, h⟩ := within.holds
  exact ⟨hframes ▸ within.frames, hframes ▸ within.callee, hcatches ▸ within.catches,
    befalls.inStep h⟩

theorem Acts.fits (acts : x.Acts l u) (fits : x.actor.outline.Fits l) : u.actor.outline.Fits l := by
  cases acts with
  | advanced run => exact ((Exec.sound_advance x fits).of_ok run).1
  | failed run recover =>
    exact (Actor.recover_spec ((Exec.sound_advance x fits).of_error run).1 recover).1

omit [Kernel κ] in
theorem Befalls.fits (befalls : x.Befalls u) (fits : x.actor.outline.Fits l) :
    u.actor.outline.Fits l := by
  cases befalls with
  | message self owns => exact (proceeds_leaves (.copy self _ _) fits).1
  | text self bytes => exact (proceeds_leaves (.bytes self bytes) fits).1
  | turned kernel => exact fits

section

variable {s : Session κ} {argCount : Nat} {b : Actor} (inline : l.Inline) (fit : s.actor.Fit l)
  (calls : s.actor.Calls l argCount b) (args : b.basePointer + argCount + 1 ≤ b.stack.size)
  (positive : 0 < (b.protection l argCount).count)

include fit calls args positive

/-- The step in which protected calls begin. -/
theorem Acts.of_calls (acts : s.Acts l u) :
    (b.protection l argCount).Within u.actor ∨ ¬(b.protection l argCount).InProgress u.actor ∧
      (Over l (b.protection l argCount) s u ∨ LeftBehind l (b.protection l argCount) s u) := by
  refine acts.within_or_over positive ((ends_begin fit calls args).mono (fun _ _ h => h) ?_)
  exact fun _ _ h => h.imp (fun raised => ⟨[], raised⟩) id

include inline

/-- As long as the protected calls are under way, nothing outside of them changes. -/
theorem Trying.within (trying : s.Trying l (b.protection l argCount) x) :
    (b.protection l argCount).Within x.actor ∧ x.actor.outline.Fits l := by
  have anchored := calls.anchored fit
  induction trying with
  | begun acts inProgress =>
    refine ⟨?_, acts.fits fit.fits⟩
    exact (acts.of_calls fit calls args positive).resolve_right fun h => h.1 inProgress
  | acted _ acts inProgress ih =>
    refine ⟨?_, acts.fits ih.2⟩
    have hstep := acts.within_or_over positive (ends_within inline anchored ih.2 ih.1)
    exact hstep.resolve_right fun h => h.1 inProgress
  | befallen _ befalls ih => exact ⟨befalls.within ih.1, befalls.fits ih.2⟩

end

theorem acts_of_next (next : x.next l = .inr u) : x.Acts l u := by
  rcases advance_of_next_inr next with run | ⟨e, t, a, run, recovered, rfl⟩
  · exact .advanced run
  · exact .failed run recovered

theorem next_of_steps (run : x.steps l 1 = some u) : x.next l = .inr u := by
  unfold steps at run
  split at run
  · cases run
  · cases run
    assumption

/-- Whatever an actor does, it holds objects of its heap. -/
theorem Acts.sound (inline : l.Inline) (acts : x.Acts l u) (sound : x.actor.Sound) :
    u.actor.Sound := by
  obtain ⟨ρ, h⟩ := sound
  have hadvance := Exec.inStep_advance inline (.of_equivalent h x.actor.heap.memory) trivial
  cases acts with
  | advanced run =>
    obtain ⟨ρ', hu⟩ := hadvance.of_ok run
    exact ⟨ρ', hu.toEquivalent⟩
  | failed run recover =>
    rename_i e t taken a
    obtain ⟨ρ', ht⟩ := hadvance.of_error run
    obtain ⟨-, ρ'', hu⟩ := Actor.recover_inStep ht e fun c _ => Nat.zero_le _
    rw [recover] at hu
    exact ⟨ρ'', hu.toEquivalent⟩

theorem sound_of_steps (inline : l.Inline) {count : Nat} (run : x.steps l count = some u)
    (sound : x.actor.Sound) : u.actor.Sound := by
  induction count generalizing x with
  | zero =>
    cases run
    exact sound
  | succ count ih =>
    unfold steps at run
    split at run
    · cases run
    · exact ih run ((acts_of_next (by assumption)).sound inline sound)

/-- An actor in its first steps, outside of all protected calls, is in order. -/
theorem fit_of_steps (inline : l.Inline) {f : FuncRef} {a : Actor} {k : κ} {count : Nat}
    (prepared : ActorM.prepareEntry (.function f) [] none (Actor.create {}) = .ok () a)
    (run : steps l ⟨a, k⟩ count = some u) (outside : u.actor.catches = []) : u.actor.Fit l := by
  have hprepare := ActorM.together_prepareEntry (B := fun _ => True) (v := .function f)
    (.of_equivalent (.create (c := {}) (d := {}) rfl rfl) ByteArray.empty) (.none (σ := .empty))
      (.inline rfl) .nil
  obtain ⟨ρ, ha⟩ := hprepare.ends.of_ok prepared
  refine ⟨fits_of_life (life_of_steps run) (fits_prepareEntry prepared).1, ⟨?_, ?_⟩,
    sound_of_steps inline run ⟨ρ, ha.toEquivalent⟩⟩
  · show ∀ c ∈ u.actor.catches, _
    rw [outside]
    exact fun c hc => absurd hc List.not_mem_nil
  · show u.actor.catches.Pairwise _
    rw [outside]
    exact .nil

/-- The end of a protected call. An actor that is in order makes a protected call of a callee, with
its arguments on the stack. Whatever the callee does and whatever comes from elsewhere, nothing
outside of the protected call changes while it is under way; and the step with which it is no longer
under way leaves the outcome and nothing else where the arguments were, or the fault goes on if
there is no room. The one exception are protected calls that call one another directly, when a fault
is reported to an inner one of them. -/
theorem outcome_of_protectedCall (inline : l.Inline) {s : Session κ} {argCount : Nat} {b : Actor}
    {callee : Value} (fit : s.actor.Fit l) (calls : s.actor.Calls l argCount b)
    (back : b.stack.back? = some callee) (protects : l.protects callee) (some_args : 0 < argCount)
    (args : b.basePointer + argCount + 1 ≤ b.stack.size) :
    (∀ x, s.Trying l (b.protection l argCount) x → (b.protection l argCount).Within x.actor) ∧
    ∀ x u, x = s ∨ s.Trying l (b.protection l argCount) x → x.Acts l u →
      ¬(b.protection l argCount).InProgress u.actor →
      Over l (b.protection l argCount) x u ∨ LeftBehind l (b.protection l argCount) x u := by
  have positive : 0 < (b.protection l argCount).count := by
    obtain ⟨n, rfl⟩ : ∃ n, argCount = n + 1 := ⟨argCount - 1, by omega⟩
    show 0 < l.protections (n + 1) b.stack.toList.reverse
    rw [toList_of_back? back, List.reverse_append]
    show 0 < l.protections (n + 1) (callee :: b.stack.pop.toList.reverse)
    rw [Loader.protections, if_pos protects]
    exact Nat.succ_pos _
  refine ⟨fun x trying => (trying.within inline fit calls args positive).1, ?_⟩
  intro x u hx acts finished
  have hstep : (b.protection l argCount).Within u.actor ∨
      ¬(b.protection l argCount).InProgress u.actor ∧
        (Over l (b.protection l argCount) x u ∨ LeftBehind l (b.protection l argCount) x u) := by
    rcases hx with rfl | trying
    · exact acts.of_calls fit calls args positive
    · obtain ⟨within, fits⟩ := trying.within inline fit calls args positive
      exact acts.within_or_over positive (ends_within inline (calls.anchored fit) fits within)
  rcases hstep with within | ⟨-, ended⟩
  · exact absurd within.inProgress finished
  · exact ended

end Session

/-- A function is called by a protected call and returns seven. -/
def seven : Chunk :=
  .ofModule { Prototype.named "m" with
    code := [.pack .cls 0, .pack .imp 0, .pack .ivk 1, .pack .ret 0]
    imports := [⟨"std", "try"⟩]
    nested := [{ Prototype.named "f" with code := [.pack .lsi 7, .pack .ret 0] }] }

/-- The loader that has loaded it. -/
def sevenLoader : Loader :=
  match (Loader.create ⟨#[⟨"std", "try", .protectedCall⟩]⟩ .refuse).loadChunk seven with
  | .ok loaded => loaded.loader
  | .error _ => .create ⟨#[]⟩ .refuse

theorem sevenLoader_built : sevenLoader.Built := by
  unfold sevenLoader
  split
  · exact .extend (.create _ _) (.loadChunk (by assumption))
  · exact .create _ _

namespace Session

/-- The protected call of that function is under way for two steps, and the third is its end. -/
theorem outcome_of_protectedCall_seven :
    ∃ (s x u : Session Solitude) (b : Actor), sevenLoader.Built ∧ s.actor.Fit sevenLoader ∧
      s.actor.Calls sevenLoader 1 b ∧ b.stack.back? = some (.native 0) ∧
      s.Trying sevenLoader (b.protection sevenLoader 1) x ∧ x.Acts sevenLoader u ∧
      ¬(b.protection sevenLoader 1).InProgress u.actor ∧
      (Over sevenLoader (b.protection sevenLoader 1) x u ∨
        LeftBehind sevenLoader (b.protection sevenLoader 1) x u) := by
  have runs : ((completes? (ActorM.prepareEntry (.function ⟨0, 0⟩) [] none) (Actor.create {})).bind
    fun a => do
        let s ← steps sevenLoader (⟨a, ⟨⟨0⟩⟩⟩ : Session Solitude) 3
        let x ← s.steps sevenLoader 1
        let y ← x.steps sevenLoader 1
        let u ← y.steps sevenLoader 1
        some (decide s.actor.Steps, s.actor.frames, s.actor.stack,
          [s.actor.catches, x.actor.catches, y.actor.catches, u.actor.catches])) =
      some (true, #[⟨⟨0, 0⟩, 2, 0, 0⟩], #[.function ⟨0, 1⟩, .native 0],
        [[], [⟨1, 0⟩], [⟨1, 0⟩], []]) := by decide +kernel
  have code : ((sevenLoader.prototype ⟨0, 0⟩).toOption.bind fun p => p.code[2]?) =
      some (.pack .ivk 1) := by decide +kernel
  have protects : sevenLoader.protects (.native 0) := by decide +kernel
  obtain ⟨p, prototype, code⟩ := Option.bind_eq_some_iff.mp code
  have prototype : sevenLoader.prototype ⟨0, 0⟩ = .ok p := by
    cases hp : sevenLoader.prototype ⟨0, 0⟩ with
    | ok q =>
      rw [hp] at prototype
      cases prototype
      rfl
    | error e =>
      rw [hp] at prototype
      cases prototype
  obtain ⟨a, prepared, runs⟩ := Option.bind_eq_some_iff.mp runs
  have prepared := eq_ok_of_completes? prepared
  simp only [Option.bind_eq_bind, Option.bind_eq_some_iff, Option.some.injEq, Prod.mk.injEq,
    List.cons.injEq, and_true] at runs
  obtain ⟨s, hs, x, hx, y, hy, u, hu, steps, hframes, hstack, hcatches, hxc, hyc, huc⟩ := runs
  have fit : s.actor.Fit sevenLoader := fit_of_steps sevenLoader_built.inline prepared hs hcatches
  let b : Actor := { s.actor with frames := s.actor.frames.pop.push ⟨⟨0, 0⟩, 3, 0, 0⟩ }
  have calls : s.actor.Calls sevenLoader 1 b :=
    .instruction (of_decide_eq_true steps) (by rw [hframes]; rfl) prototype code rfl (by decide)
  have back : b.stack.back? = some (.native 0) := by
    show s.actor.stack.back? = _
    rw [hstack]
    rfl
  have args : b.basePointer + 1 + 1 ≤ b.stack.size := by
    have hlast : b.frames.back? = some ⟨⟨0, 0⟩, 3, 0, 0⟩ := Array.back?_push
    rw [Actor.basePointer, hlast]
    show 0 + 1 + 1 ≤ s.actor.stack.size
    rw [hstack]
    decide
  have hpoints : (b.protection sevenLoader 1).points (b.protection sevenLoader 1).count =
      [⟨1, 0⟩] := by
    show List.replicate (sevenLoader.protections 1 s.actor.stack.toList.reverse)
      ⟨(s.actor.frames.pop.push ⟨⟨0, 0⟩, 3, 0, 0⟩).size,
        (s.actor.stack.extract 0 (s.actor.stack.size - 1 - 1)).size⟩ ++ s.actor.catches = _
    rw [hframes, hstack, hcatches]
    decide +kernel
  have acts : ∀ {x u : Session Solitude}, x.steps sevenLoader 1 = some u → x.Acts sevenLoader u :=
    fun run => acts_of_next (next_of_steps run)
  have trying : s.Trying sevenLoader (b.protection sevenLoader 1) y := by
    have begun : (b.protection sevenLoader 1).InProgress x.actor := ⟨[], hpoints.trans hxc.symm⟩
    have under_way : (b.protection sevenLoader 1).InProgress y.actor := ⟨[], hpoints.trans hyc.symm⟩
    exact .acted (.begun (acts hx) begun) (acts hy) under_way
  have finished : ¬(b.protection sevenLoader 1).InProgress u.actor := by
    rw [Protection.InProgress, hpoints, huc]
    decide
  have outcome := outcome_of_protectedCall sevenLoader_built.inline fit calls back protects
    (by decide) args
  exact ⟨s, y, u, b, sevenLoader_built, fit, calls, back, trying, acts hu, finished,
    outcome.2 y u (.inr trying) (acts hu) finished⟩

/-- Two protected calls, one of which calls the other: the fault of their callee is reported to the
inner one. The calls are those that were outside and there is one value more on the stack, but the
outer one has not been removed. -/
theorem exists_protectedCall_leftBehind :
    ∃ (s u : Session Solitude) (b : Actor), s.actor.Fit nestedTries ∧
      s.actor.Calls nestedTries 2 b ∧
      b.stack.back? = some (.native 1) ∧ nestedTries.protects (.native 1) ∧
      b.basePointer + 2 + 1 ≤ b.stack.size ∧ s.next nestedTries = .inr u ∧
      u.actor.frames = b.frames ∧ u.actor.stack.size = b.stack.size - 1 - 2 + 1 ∧
      b.catches = [] ∧ u.actor.catches = [⟨1, 0⟩] := by
  have runs : ((completes? (ActorM.prepareEntry (.function ⟨0, 0⟩) [] none) (Actor.create {})).bind
    fun a => do
        let s ← steps nestedTries (⟨a, ⟨⟨0⟩⟩⟩ : Session Solitude) 4
        let u ← s.steps nestedTries 1
        some (decide (s.actor.Steps ∧ u.actor.stack.size = 1), [s.actor.frames, u.actor.frames],
          [s.actor.catches, u.actor.catches], s.actor.stack)) =
      some (true, [#[⟨⟨0, 0⟩, 3, 0, 0⟩], #[⟨⟨0, 0⟩, 4, 0, 0⟩]], [[], [⟨1, 0⟩]],
        #[.native 0, .native 1, .native 1]) := by decide +kernel
  obtain ⟨a, prepared, runs⟩ := Option.bind_eq_some_iff.mp runs
  have prepared := eq_ok_of_completes? prepared
  simp only [Option.bind_eq_bind, Option.bind_eq_some_iff, Option.some.injEq, Prod.mk.injEq,
    List.cons.injEq, and_true] at runs
  obtain ⟨s, hs, u, hu, checked, ⟨hframes, huframes⟩, ⟨hcatches, huc⟩, hstack⟩ := runs
  obtain ⟨steps, husize⟩ := of_decide_eq_true checked
  have calls : s.actor.Calls nestedTries 2
      { s.actor with frames := s.actor.frames.pop.push ⟨⟨0, 0⟩, 4, 0, 0⟩ } :=
    .instruction steps (by rw [hframes]; rfl) rfl
      (show _ = some (Instruction.pack .ivk 2) from rfl) rfl (by decide)
  refine ⟨s, u, _, fit_of_steps nestedTries_built.inline prepared hs hcatches, calls, ?_, ?_, ?_,
    next_of_steps hu, ?_, ?_, hcatches, huc⟩
  · show s.actor.stack.back? = _
    rw [hstack]
    rfl
  · decide +kernel
  · have hlast : (s.actor.frames.pop.push ⟨⟨0, 0⟩, 4, 0, 0⟩).back? = some ⟨⟨0, 0⟩, 4, 0, 0⟩ :=
      Array.back?_push
    rw [Actor.basePointer, hlast]
    show 0 + 2 + 1 ≤ s.actor.stack.size
    rw [hstack]
    decide
  · show _ = s.actor.frames.pop.push ⟨⟨0, 0⟩, 4, 0, 0⟩
    rw [huframes, hframes]
    rfl
  · show _ = s.actor.stack.size - 1 - 2 + 1
    rw [husize, hstack]
    rfl

end Session

end ActorMachine
