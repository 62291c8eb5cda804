import ActorMachine.Proofs.Handing
import ActorMachine.Proofs.Linking

/-!
# References to code do not dangle

Nobody in a system can make up functions and natives, if none are given from outside but by the
names of exports (`Moment.Secluded`): all that there are come from loaded code. So there is code
behind each function, and an entry behind each native, that a process holds on its stack, in its
mailbox or in its heap, and behind each call under way, at every moment and though chunks go on
being loaded and natives being registered (`Moment.resolved_of_secluded`). No process ever fails
because there is none.
-/

namespace ActorMachine

open Memory

/-! ## Actors -/

/-- Whatever can be called of what the actor holds is there, and so is the code of the calls under
way. -/
structure Actor.Resolved (l : Loader) (a : Actor) : Prop where
  roots : ∀ v ∈ a.roots, v.Vouched l.Resolves
  slots : ∀ s r, a.heap.memory.Reaches (· ∈ a.roots) s r →
    ∀ i, i < a.heap.memory.slotsAt r s → (a.heap.memory.slotAt r i).Vouched l.Resolves
  frames : ∀ frame ∈ a.frames, ∃ p, l.prototype frame.func = .ok p

theorem Actor.Follows.resolved {l : Loader} {L : Ledger} {a : Actor} (h : a.Follows l.Resolves L)
    (fits : a.outline.Fits l) : a.Resolved l where
  roots v hv := by
    obtain ⟨ρ, h⟩ := h.stows
    cases Array.mem_append.mp hv with
    | inl hstack => exact h.held v hstack
    | inr hmessage => exact h.messages v hmessage
  slots s r hreach i hi := by
    obtain ⟨σ, sound, objects⟩ := h.equivalent
    have hmatched : ∃ t, σ s r t :=
      hreach.subset sound.iso.closedLeft fun s r hroot => sound.matched_of_mem hroot
    exact objects hmatched i hi
  frames frame hframe := by
    obtain ⟨p, hp, -⟩ := fits.code frame (Array.mem_toList_iff.mpr hframe)
    exact ⟨p, hp⟩

/-! ## Systems to which no functions are given -/

/-- Nothing that can be called is given with the request, and a process is started under the name of
an export, if one is. -/
def Request.Modest : Request → Prop
  | spawn _ _ => False
  | spawnExport _ _ args => ∀ v, .value v ∈ args → ¬v.isCallable
  | send _ v => ¬v.isCallable
  | _ => True

theorem Request.Modest.vouched {r : Request} (h : r.Modest) (F : Value → Prop) : r.Vouched F := by
  have given : ∀ args : List HostArg, (∀ v, .value v ∈ args → ¬v.isCallable) →
      ∀ arg ∈ args, arg.Vouched F := by
    intro args hargs arg harg
    cases arg with
    | value v => exact fun hcallable => absurd hcallable (hargs v harg)
    | text s => exact trivial
  cases r with
  | spawn callee args => exact h.elim
  | spawnExport module name args => exact given args h
  | send target v => exact fun hcallable => absurd hcallable h
  | _ => exact trivial

namespace Moment

/-- A moment in the life of a system to which no functions are given. Chunks have been loaded and
natives registered before it was created, and this goes on between its rotations. -/
inductive Secluded : Moment → Prop
  | create {s : Scheduler} (created : s.Created) : Secluded (rest s)
  | ask {s : Scheduler} {r : Request} (before : Secluded (rest s)) (modest : r.Modest) :
    Secluded (rest (s.ask r))
  | go {m : Moment} (before : Secluded m) : Secluded m.go
  | elapse {m : Moment} (before : Secluded m) (usecs : Nat) : Secluded (m.elapse usecs)

/-- All that is held can be found in the loader, and what the loader hands out as well. -/
structure Backed (m : Moment) : Prop where
  coherent : m.loader.Coherent
  fits : m.Fits
  table : m.table.Each (Process.Follows m.loader.Resolves)
  session : ∀ session, m.session? = some session → ∃ L, session.actor.Follows m.loader.Resolves L

namespace Backed

variable {m : Moment} {s : Scheduler}

/-- A loader that has grown finds all that it has found before. -/
theorem grow {l : Loader} (h : (rest s).Backed) (grows : s.loader.Grows l) (coherent : l.Coherent) :
    (rest { s with loader := l }).Backed where
  coherent := coherent
  fits :=
    { table := fun i slot p hi hp => (h.fits.table i slot p hi hp).of_loader grows.prototype
      session := nofun }
  table := fun i slot p hi hp => by
    obtain ⟨L, hL⟩ := h.table i slot p hi hp
    exact ⟨L, hL.mono fun _ hv => hv.grow grows⟩
  session := nofun

theorem create (created : s.Created) : (rest s).Backed where
  coherent := by
    obtain ⟨config, loader, built, run⟩ := created
    show s.loader.Coherent
    rw [Scheduler.loader_create run]
    exact built.coherent
  fits := ⟨Scheduler.each_created created, nofun⟩
  table := Scheduler.each_created created
  session := nofun

theorem ask {r : Request} (h : (rest s).Backed) (modest : r.Modest) : (rest (s.ask r)).Backed := by
  -- What is asked for is done with the loader as it was.
  have same : (rest { s.ask r with loader := s.loader }).Backed :=
    { coherent := h.coherent
      fits := ⟨Scheduler.each_ask (Process.lasting_fits s.loader) h.fits.table r, nofun⟩
      table := Scheduler.follows_ask h.table (modest.vouched _) h.coherent.resolves_of_find?
      session := nofun }
  rcases s.loader_ask r with heq | step
  · rwa [← heq] at same
  · exact same.grow step.grows (h.coherent.extend step)

/-- The process that runs is handed nothing by the loader but what is there, and hands the others no
more. -/
theorem go (h : m.Backed) : m.go.Backed := by
  have everyone : m.go.Everyone fun a => ∃ L, a.Follows m.loader.Resolves L := by
    refine .go ⟨h.table, h.session⟩ fun session hsession running => ?_
    obtain ⟨L, hL⟩ := running.actor
    have hnext := Session.follows_next (Dispatch.trusts m.loader.Resolves) h.coherent.backs
      (h.fits.session session hsession) ⟨hL, running.table⟩
    exact Session.next_mono (P := fun t => t.Follows m.loader.Resolves _ _)
      (Q := (·.Everyone fun a => ∃ L, a.Follows m.loader.Resolves L)) hnext fun t h' =>
        ⟨⟨_, h'.actor⟩, h'.kernel⟩
  rw [← loader_go] at everyone
  exact
    { coherent := by
        rw [loader_go]
        exact h.coherent
      fits := h.fits.go
      table := everyone.table
      session := everyone.session }

theorem elapse (h : m.Backed) (usecs : Nat) : (m.elapse usecs).Backed := by
  have hfits := h.fits.elapse usecs
  cases m <;> exact ⟨h.coherent, hfits, h.table, h.session⟩

end Backed

variable {m : Moment}

theorem backed_of_secluded (h : m.Secluded) : m.Backed := by
  induction h with
  | create created => exact .create created
  | ask _ modest ih => exact ih.ask modest
  | go _ ih => exact ih.go
  | elapse _ usecs ih => exact ih.elapse usecs

/-- In a system to which no functions are given, every function and every native that a process
holds on its stack, in its mailbox or in a slot of an object that these reach is there, and so is
the code of every call under way, at every moment. The process that runs never fails because a
function or a native is not there. -/
theorem resolved_of_secluded (h : m.Secluded) :
    (m.table.Each fun p => p.actor.Resolved m.loader) ∧
    ∀ session, m.session? = some session → session.actor.Resolved m.loader ∧
      ∀ e s', Exec.advance m.loader session = .error e s' →
        (∀ f, e ≠ .invalidFunction f) ∧ ∀ id, e ≠ .unknownNative id := by
  have backed := backed_of_secluded h
  constructor
  · intro i slot p hi hp
    obtain ⟨L, hL⟩ := backed.table i slot p hi hp
    exact hL.resolved (backed.fits.table i slot p hi hp)
  · intro session hsession
    obtain ⟨L, hL⟩ := backed.session session hsession
    have fits := backed.fits.session session hsession
    refine ⟨hL.resolved fits, fun e s' run => ?_⟩
    have htable : session.kernel.table.Each (Process.Follows m.loader.Resolves) :=
      table_of_session hsession ▸ backed.table
    have hplain := ((Session.ends_advance (Dispatch.trusts _) backed.coherent.backs fits
      ⟨hL, htable⟩).of_error run).1
    constructor
    · rintro f rfl
      exact hplain (.function f)
    · rintro id rfl
      exact hplain (.native id)

/-- A module whose function `f` refers to a native and to a function of its own. -/
def referrer : Chunk :=
  .ofModule { Prototype.named "m" with
    nested := [{ Prototype.named "f" with
      code := [.pack .imp 0, .pack .cls 0]
      imports := [⟨"actor", "self"⟩]
      nested := [Prototype.named "g"] }] }

/-- A process holds a native that has been registered once more since its code was loaded, and a
function. -/
theorem resolved_of_secluded_referrer : ∃ (m : Moment) (session : Session Dispatch) (id : UInt32)
    (f : FuncRef), m.Secluded ∧ m.session? = some session ∧
      Value.native id ∈ session.actor.roots ∧ Value.function f ∈ session.actor.roots ∧
      m.loader.Resolves (.native id) ∧ m.loader.Resolves (.function f) := by
  let loader := (Loader.create .empty .refuse).register "actor" "self" (.operation .selfPid)
  let s : Scheduler := { Scheduler.twoSlots with loader }
  let again : Request := .register "actor" "self" (.operation .giveTurn)
  let s₁ := (s.ask (.load referrer)).ask again
  let m := (rest (s₁.ask (.spawnExport "m" "f" []))).go.go.go.go.go
  have created : Scheduler.create { indexBits := 1, generationBits := 1 } loader = .ok s := rfl
  have first : (rest s).Secluded :=
    .create ⟨_, _, .extend (.create _ _) (.register _ _ _), created⟩
  have loaded : (rest s₁).Secluded :=
    (first.ask (r := .load referrer) trivial).ask (r := again) trivial
  have secluded : m.Secluded := (loaded.ask (r := .spawnExport "m" "f" []) nofun).go.go.go.go.go
  have runs : m.session?.map (fun session => (session.actor.roots[0]?, session.actor.roots[1]?)) =
      some (some (.native 0), some (.function ⟨0, 2⟩)) := by decide +kernel
  obtain ⟨session, hsession, hroots⟩ := Option.map_eq_some_iff.mp runs
  obtain ⟨hnative, hfunction⟩ := Prod.mk.inj hroots
  have hnative := Array.mem_of_getElem? hnative
  have hfunction := Array.mem_of_getElem? hfunction
  have resolved := ((resolved_of_secluded secluded).2 session hsession).1
  exact ⟨m, session, 0, ⟨0, 2⟩, secluded, hsession, hnative, hfunction,
    resolved.roots _ hnative rfl, resolved.roots _ hfunction rfl⟩

end Moment

end ActorMachine
