import ActorMachine.Proofs.Partition
import ActorMachine.Proofs.Residents
import ActorMachine.Proofs.Tables
import ActorMachine.Proofs.Transparency

/-!
# Heaps stay intact

An actor is intact if whatever its stack and its mailbox reach are objects that lie whole in its
heap, have not moved, and are what the references to them say (`Actor.Intact`). Actors that are
equivalent to themselves are intact, and computations of equivalent actors come to equivalent
actors; so, reading what is known of two actors as a statement about one, no actor of a system is
ever anything else (`Moment.intact_of_reachable`), and no process raises a fault because a reference
is wrong.
-/

namespace ActorMachine

open Memory

namespace Actor

/-- All that the stack and the mailbox reach are objects that lie whole in the heap, have not moved,
have the kind that the references to them say, and a payload as objects of that kind have. -/
def Intact (a : Actor) : Prop :=
  ∀ s r, a.heap.memory.Reaches (· ∈ a.roots) s r →
    a.heap.memory.IsObject s r ∧ a.heap.memory.WellTyped r s

variable {a : Actor}

/-- What is matched with anything is an object, and what the roots reach is matched. -/
theorem Sound.intact (h : a.Sound) : a.Intact := by
  obtain ⟨ρ, h⟩ := h
  intro s r hreach
  have hmatched : ∃ t, ρ s r t :=
    hreach.subset h.iso.closedLeft fun s r hroot => h.matched_of_mem hroot
  exact ⟨h.iso.left.isObject hmatched, h.iso.left.typed hmatched⟩

end Actor

/-! ## Tables of sound actors -/

namespace ProcessTable

variable {t : ProcessTable}

/-- A table is equivalent to itself if the actors in it are. -/
theorem equivalent_self_iff : t.Equivalent t ↔ t.Each fun p => p.actor.Sound := by
  constructor
  · intro h i slot p hi hp
    have hslot := h.slots i
    rw [hi] at hslot
    cases hslot with
    | some hslot =>
      have hoccupant := hslot.occupant
      rw [hp] at hoccupant
      cases hoccupant with
      | resident hpp => exact hpp.actor
  · intro h
    refine ⟨rfl, rfl, fun i => ?_, rfl, rfl, rfl, rfl⟩
    cases hi : t.slots[i]? with
    | none => exact .none
    | some slot =>
      refine .some ⟨rfl, ?_⟩
      cases hoccupant : slot.occupant with
      | vacant => exact .vacant
      | away => exact .away
      | resident p => exact .resident ⟨rfl, rfl, rfl, h i slot p hi hoccupant⟩

end ProcessTable

/-! ## Arguments from outside -/

namespace HostArg

variable {F : Value → Prop} {ρ : Matching} {h h' : Heap}

/-- What is given from outside is vouched for, if it can be called. -/
def Vouched (F : Value → Prop) : HostArg → Prop
  | .value v => v.Vouched F
  | .text _ => True

theorem Vouched.of_forall (all : ∀ v, F v) (arg : HostArg) : arg.Vouched F := by
  cases arg with
  | value v => exact Value.Vouched.of_forall all
  | text s => exact trivial

/-- Where there is room for it, a string from outside is staged by adding it to the heap. -/
theorem stage_text {u : String} (bounded : h.Bounded)
    (hsize : Heap.stringSize u.toUTF8.size ≤ Heap.sizeLimit)
    (room : allocSize (Heap.stringSize u.toUTF8.size) ≤ h.free) :
    ∃ (p : Ref) (m : Memory), (HostArg.text u).stage h =
      .ok (.object .string p) { h with memory := m } ∧
      NewObject h.memory m .string p ∧ m.size ≤ h.capacity ∧
      m.sizeAt p = Heap.stringSize u.toUTF8.size ∧
      m.lengthAt p = (hashBytes u.toUTF8).toNat + 256 ^ 4 * u.toUTF8.size ∧
      m.stringAt p = u.toUTF8 := by
  have hlt : Heap.stringSize u.toUTF8.size < 2 ^ 32 := Nat.lt_of_le_of_lt hsize (by decide)
  have hp : (Ref.ofNat h.used).start = h.memory.size :=
    Ref.start_ofNat (Nat.le_trans bounded.used_le_limit (by decide))
  have obj := isObject_allocated (s := .string) hp hlt
  have hsizeAt := sizeAt_allocated (s := .string) hp hlt
  obtain ⟨new, hsame, hfits⟩ := newObject_string
    (extends_allocated h.memory (.object .string) _) hp obj hsizeAt
  refine ⟨_, _, (bind_of_ok (HeapM.tryAlloc_eq hsize room)).trans
    (bind_of_ok (HeapM.initString_eq obj hsizeAt)), new, ?_, hfits⟩
  have hused : h.memory.size ≤ h.capacity := bounded.used_le
  have hroom : allocSize (Heap.stringSize u.toUTF8.size) ≤ h.capacity - h.memory.size := room
  refine Nat.le_trans (Nat.le_of_eq (hsame.trans (size_allocated _ _ _))) ?_
  show h.memory.size + allocSize (Heap.stringSize u.toUTF8.size) ≤ h.capacity
  omega

/-- A string from outside that has been staged had room, and has been added to the heap. -/
theorem exists_of_stage_text {u : String} {v : Value} (bounded : h.Bounded)
    (run : (HostArg.text u).stage h = .ok v h') :
    ∃ (p : Ref) (m : Memory), v = .object .string p ∧ h' = { h with memory := m } ∧
      NewObject h.memory m .string p ∧ ({ h with memory := m } : Heap).Bounded ∧
      m.lengthAt p = (hashBytes u.toUTF8).toNat + 256 ^ 4 * u.toUTF8.size ∧
      m.stringAt p = u.toUTF8 := by
  by_cases room : Heap.sizeLimit < Heap.stringSize u.utf8ByteSize ∨
      h.free < allocSize (Heap.stringSize u.utf8ByteSize)
  · obtain ⟨r, h₁, halloc, -⟩ := exists_of_run_bind_ok run
    rw [HeapM.tryAlloc_error room] at halloc
    cases halloc
  · obtain ⟨hsize, hfree⟩ := not_or.mp room
    obtain ⟨p, m, hrun, new, hcapacity, -, hlength, hstring⟩ := stage_text (u := u) bounded
      (Nat.le_of_not_lt hsize) (Nat.le_of_not_lt hfree)
    rw [hrun] at run
    cases run
    exact ⟨p, m, rfl, rfl, new, ⟨hcapacity, bounded.capacity_le, bounded.max_le⟩, hlength, hstring⟩

/-- Arguments from outside are staged one after the other. -/
theorem exists_of_stageAll_cons {arg : HostArg} {args : List HostArg} {values : List Value}
    (run : (arg :: args).mapM stage h = .ok values h') :
    ∃ v vs h₁, arg.stage h = .ok v h₁ ∧ args.mapM stage h₁ = .ok vs h' ∧ values = v :: vs := by
  rw [List.mapM_cons] at run
  obtain ⟨v, h₁, hv, run⟩ := exists_of_run_bind_ok run
  obtain ⟨vs, h₂, hvs, run⟩ := exists_of_run_bind_ok run
  cases run
  exact ⟨v, vs, h₁, hv, hvs, rfl⟩

/-- An argument from outside is a value of the heap in which it is staged. -/
theorem stage_spec {arg : HostArg} {n : Nat} {v : Value} (measured : arg.measure = .ok n)
    (bounded : h.Bounded) (iso : Iso ρ h.memory h.memory) (vouched : arg.Vouched F)
    (objects : h.memory.Vouched F fun s r => ∃ t, ρ s r t) (run : arg.stage h = .ok v h') :
    ∃ ρ', (∀ {s r t}, ρ s r t → ρ' s r t) ∧ h'.Bounded ∧ Iso ρ' h'.memory h'.memory ∧
      v.Held F ρ' v ∧ h'.memory.Vouched F fun s r => ∃ t, ρ' s r t := by
  cases arg with
  | value w =>
    cases run
    refine ⟨ρ, id, bounded, iso, ⟨.inline ?_, vouched⟩, objects⟩
    -- A value from outside is refused unless it is inline.
    cases hv : v.ref? with
    | none => rfl
    | some r => simp [measure, Value.isCollectable, hv] at measured
  | text s =>
    obtain ⟨p, m, rfl, rfl, new, bounded', -⟩ := exists_of_stage_text bounded run
    refine ⟨ρ.union (.single .string p p), .inl, bounded',
      iso.addObject new new rfl rfl fun _ => rfl, .object (.inr ⟨rfl, rfl, rfl⟩), ?_⟩
    refine (objects.addObject iso.left new).subset ?_
    rintro s r ⟨t, hrt | ⟨rfl, rfl, -⟩⟩
    · exact .inl ⟨t, hrt⟩
    · exact .inr ⟨rfl, rfl⟩

/-- All arguments from outside are values of the heap in which they are staged. -/
theorem stageAll_spec {args : List HostArg} {sizes : List Nat} {values : List Value}
    (measured : args.mapM measure = .ok sizes) (bounded : h.Bounded) (iso : Iso ρ h.memory h.memory)
    (vouched : ∀ arg ∈ args, arg.Vouched F) (objects : h.memory.Vouched F fun s r => ∃ t, ρ s r t)
    (run : args.mapM stage h = .ok values h') :
    ∃ ρ', (∀ {s r t}, ρ s r t → ρ' s r t) ∧ Iso ρ' h'.memory h'.memory ∧
      (∀ v ∈ values, v.Held F ρ' v) ∧ h'.memory.Vouched F fun s r => ∃ t, ρ' s r t := by
  induction args generalizing ρ h sizes values with
  | nil =>
    cases run
    exact ⟨ρ, id, iso, nofun, objects⟩
  | cons arg args ih =>
    rw [List.mapM_cons] at measured
    obtain ⟨n, hn, measured⟩ := exists_of_bind_ok measured
    obtain ⟨ns, hns, -⟩ := exists_of_bind_ok measured
    obtain ⟨v, vs, h₁, hv, hvs, rfl⟩ := exists_of_stageAll_cons run
    obtain ⟨ρ₁, himp, bounded₁, iso₁, held, objects₁⟩ := stage_spec hn bounded iso
      (vouched arg List.mem_cons_self) objects hv
    obtain ⟨ρ₂, himp₂, iso₂, helds, objects₂⟩ := ih hns bounded₁ iso₁
      (fun arg harg => vouched arg (List.mem_cons_of_mem _ harg)) objects₁ hvs
    refine ⟨ρ₂, fun hrt => himp₂ (himp hrt), iso₂, ?_, objects₂⟩
    intro w hw
    cases List.mem_cons.mp hw with
    | inl heq => exact heq ▸ ⟨held.alike.mono himp₂, held.vouched⟩
    | inr hlater => exact helds w hlater

end HostArg

/-- The arguments of a process that is started from outside are values of the heap in which they are
staged, if there is one, and what can be called of them is vouched for. -/
theorem Scheduler.stageArgs_spec {F : Value → Prop} {args : List HostArg} {values : List Value}
    {source : Option Heap} (vouched : ∀ arg ∈ args, arg.Vouched F)
    (run : stageArgs args = .ok (values, source)) :
    ∃ σ, ActorM.SourcesMatch σ source source ∧ (∀ v ∈ values, v.Held F σ v) ∧
      ∀ h, source = some h → h.memory.Vouched F fun s r => ∃ t, σ s r t := by
  unfold stageArgs at run
  cases hsizes : args.mapM HostArg.measure with
  | error e =>
    rw [hsizes] at run
    cases run
  | ok sizes =>
    rw [hsizes] at run
    simp only [bind, Except.bind, EStateM.run] at run
    split at run
    · rename_i values' staging hrun
      obtain ⟨σ, -, iso, held, objects⟩ :=
        HostArg.stageAll_spec hsizes (.create _ _) (.empty _ _) vouched
          (fun _ _ ⟨_, h⟩ => h.elim) hrun
      cases run
      refine ⟨σ, ?_, held, ?_⟩
      · split
        · exact .none
        · exact .some iso
      · intro h hsource
        split at hsource
        · cases hsource
        · cases hsource
          exact objects
    · cases run

/-! ## Requests -/

namespace Scheduler

variable {s : Scheduler}

/-- What is started in a sound table with arguments from outside leaves a sound table. -/
theorem equivalent_spawn (h : s.table.Equivalent s.table) {callee : Value} {args : List HostArg}
    {values : List Value} {source : Option Heap} {pid : Pid} {table : ProcessTable}
    (staged : stageArgs args = .ok (values, source))
    (spawned : ProcessTable.spawn callee values source s.table = .ok pid table) :
    table.Equivalent table := by
  obtain ⟨σ, hsource, held, -⟩ := stageArgs_spec (F := fun _ => True)
    (fun arg _ => .of_forall (fun _ => trivial) arg) staged
  have hvalues : Value.MatchList σ values values := .of_forall fun v hv => (held v hv).alike
  -- Only functions and natives can be called, and these are inline.
  have hcallee : callee.ref? = none := by
    cases callee with
    | object shape r => cases spawned
    | _ => rfl
  obtain ⟨_, _, spawned', -, h'⟩ :=
    (ProcessTable.together_spawn h hsource (.inline hcallee) hvalues).of_ok spawned
  rw [spawned] at spawned'
  cases spawned'
  exact h'

/-- Whatever is asked for, tables stay sound. -/
theorem equivalent_ask (h : s.table.Equivalent s.table) (r : Request) :
    (s.ask r).table.Equivalent (s.ask r).table := by
  have reached : ∀ {m : EStateM Fault ProcessTable Unit},
      Together m m s.table s.table (fun _ t _ u => t.Equivalent u)
        (SameRefusal ProcessTable.Equivalent) →
      (leaves m s.table).Equivalent (leaves m s.table) :=
    fun hm => (hm.mono (fun _ _ _ _ h => h) fun _ _ _ _ h => h.2.2).leaves
  have met := s.meets_ask r
  generalize s.ask r = s' at met ⊢
  cases met with
  | refuses => exact h
  | starts _ staged spawned => exact equivalent_spawn h staged spawned
  | reaches reach =>
    cases r with
    | send target v =>
      cases reach
      -- Any value from outside matches itself, if every place is matched with itself.
      have self : v.Match (fun _ r t => r = t) v := by
        cases v <;> first | exact .inline rfl | exact .object rfl
      exact reached (ProcessTable.together_deliver h _ .none self)
    | sendText target text =>
      cases reach
      exact reached (ProcessTable.together_deliverBytes h _ _)
    | kill target =>
      cases reach
      exact reached (ProcessTable.together_kill h _)
    | _ => cases reach
  | advances => exact h
  | learns => exact h

/-- The loader only changes as it may. -/
theorem loader_ask (s : Scheduler) (r : Request) :
    (s.ask r).loader = s.loader ∨ s.loader.Extends (s.ask r).loader := by
  have met := s.meets_ask r
  generalize s.ask r = s' at met ⊢
  cases met with
  | learns _ step => exact .inr step
  | _ => exact .inl rfl

theorem loader_admitPending (s : Scheduler) : s.admitPending.loader = s.loader := by
  rw [admitPending_eq]
  refine foldl_keeps (·.loader) (fun s pid => ?_) _ _
  unfold admitProcess
  split <;> rfl

theorem loader_wakeReady (s : Scheduler) : s.wakeReady.loader = s.loader := by
  rw [wakeReady_eq]
  refine foldl_keeps (·.loader) (fun s pid => ?_) _ _
  unfold wake
  split
  · rfl
  · split <;> rfl

end Scheduler

/-! ## Turns -/

namespace Session

/-- The next step of a sound actor among sound others leaves them so, and if it fails this is not
because a reference is wrong. -/
theorem equivalent_next {l : Loader} {s : Session Dispatch} (inline : l.Inline)
    (h : s.Equivalent Dispatch.Equivalent s) :
    Sum.elim (fun finished : Outcome × Session Dispatch =>
        finished.2.Equivalent Dispatch.Equivalent finished.2)
      (fun s' => s'.Equivalent Dispatch.Equivalent s') (s.next l) := by
  have hidden : ¬ ShowsPlace l s s := by
    intro hshown
    obtain ⟨e, s', e', t', hs, ht, hne, -⟩ := hshown
    rw [hs] at ht
    cases ht
    exact hne rfl
  rcases next_equivalent Dispatch.respects inline h hidden with
    ⟨outcome, s', t', hs, ht, h'⟩ | ⟨s', t', hs, ht, h'⟩
  · rw [hs] at ht
    cases ht
    rw [hs]
    exact h'
  · rw [hs] at ht
    cases ht
    rw [hs]
    exact h'

theorem benign_of_advance {l : Loader} {s s' : Session Dispatch} {e : Fault} (inline : l.Inline)
    (h : s.Equivalent Dispatch.Equivalent s) (run : Exec.advance l s = .error e s') : e.Benign := by
  obtain ⟨⟨ρ, hactor⟩, hkernel⟩ := h
  have hrun := Exec.together_advance (B := Fault.Benign) Dispatch.respects inline
    (g := ⟨s.actor.heap.memory, #[], True⟩) ⟨.of_equivalent hactor _, hkernel⟩ trivial
  obtain ⟨e', t', -, ρ', hfault, -⟩ := hrun.of_error run
  cases hfault with
  | same hbenign => exact hbenign.elim id id
  | shown => exact nofun

end Session

/-! ## Every moment -/

namespace Moment

/-- The loader. -/
def loader : Moment → Loader
  | rest s => s.loader
  | between _ s => s.loader
  | turn _ s _ _ _ => s.loader

theorem loader_endTurn {ready : List Pid} {s : Scheduler} {pid : Pid} {p : Process}
    {outcome : Outcome} {session : Session Dispatch} :
    (Moment.endTurn ready s pid p outcome session).loader = s.loader := by
  have hloader := (s.endTurn_spec pid outcome).2.1
  unfold Moment.endTurn
  generalize s.endTurn pid outcome = ended at hloader
  obtain ⟨state, s'⟩ := ended
  cases state <;> exact hloader

/-- No moment of a rotation changes the loader. -/
theorem loader_go (m : Moment) : m.go.loader = m.loader := by
  cases m with
  | rest s => exact s.loader_admitPending
  | between pids s =>
    cases pids with
    | nil => exact s.loader_wakeReady
    | cons pid pids =>
      rw [Moment.go]
      cases s.table.checkout? pid <;> rfl
  | turn pids s pid p running =>
    rw [Moment.go]
    split
    · exact loader_endTurn
    · split
      · exact loader_endTurn
      · rfl

/-- The process that runs, among the others. -/
def session? : Moment → Option (Session Dispatch)
  | turn _ _ _ _ session => some session
  | _ => none

theorem table_of_session {m : Moment} {session : Session Dispatch} (h : m.session? = some session) :
    m.table = session.kernel.table := by
  cases m with
  | turn =>
    cases h
    rfl
  | _ => cases h

end Moment

/-- An actor that runs has the property, and so have all others. -/
structure Session.Everyone (A : Actor → Prop) (s : Session Dispatch) : Prop where
  actor : A s.actor
  table : s.kernel.table.Each fun p => A p.actor

namespace Moment

/-- All actors have the property, whether they run or not. -/
structure Everyone (A : Actor → Prop) (m : Moment) : Prop where
  table : m.table.Each fun p => A p.actor
  session : ∀ session, m.session? = some session → A session.actor

/-- A property of actors is lost in a rotation only by a step of the one that runs. -/
theorem Everyone.go {A : Actor → Prop} {m : Moment} (h : m.Everyone A)
    (next : ∀ session, m.session? = some session → session.Everyone A →
      Sum.elim (fun finished : Outcome × Session Dispatch => finished.2.Everyone A) (·.Everyone A)
        (session.next m.loader)) : m.go.Everyone A := by
  have ready : ∀ {p : Process}, A p.actor → A { p with state := .running }.actor := id
  cases m with
  | rest s => exact ⟨Scheduler.each_admitPending ready h.table, by rintro _ ⟨⟩⟩
  | between pids s =>
    cases pids with
    | nil =>
      have hwoken : s.wakeReady.table.Each fun p => A p.actor :=
        Scheduler.each_wakeReady ready h.table
      exact ⟨hwoken.releases _, by rintro _ ⟨⟩⟩
    | cons pid pids =>
      rw [Moment.go]
      cases hout : s.table.checkout? pid with
      | none => exact ⟨h.table, by rintro _ ⟨⟩⟩
      | some found =>
        obtain ⟨hp, htable⟩ := ProcessTable.Each.checkout? h.table hout
        refine ⟨htable, ?_⟩
        rintro _ ⟨⟩
        exact hp
  | turn pids s pid p running =>
    have hrunning := h.session running rfl
    have hnext : Sum.elim (fun finished : Outcome × Session Dispatch => finished.2.Everyone A)
      (·.Everyone A) (running.next s.loader) := next running rfl ⟨hrunning, h.table⟩
    rw [Moment.go]
    split
    · exact ⟨each_endTurn h.table hrunning, by rintro _ ⟨⟩⟩
    · split
      · rename_i outcome session' heq
        rw [heq] at hnext
        exact ⟨each_endTurn hnext.table hnext.actor, by rintro _ ⟨⟩⟩
      · rename_i session' heq
        rw [heq] at hnext
        refine ⟨hnext.table, ?_⟩
        rintro _ ⟨⟩
        exact hnext.actor

/-- Every actor is sound, and what is loaded has been linked. -/
structure Sound (m : Moment) : Prop where
  built : m.loader.Built
  table : m.table.Equivalent m.table
  session : ∀ session, m.session? = some session → session.actor.Sound

theorem Sound.create {s : Scheduler} (created : s.Created) : (rest s).Sound where
  built := by
    obtain ⟨config, loader, built, run⟩ := created
    show s.loader.Built
    rw [Scheduler.loader_create run]
    exact built
  table := ProcessTable.equivalent_self_iff.mpr (Scheduler.each_created created)
  session := nofun

theorem Sound.ask {s : Scheduler} (h : (rest s).Sound) (r : Request) : (rest (s.ask r)).Sound where
  built := by
    show (s.ask r).loader.Built
    rcases s.loader_ask r with heq | step
    · rw [heq]
      exact h.built
    · exact .extend h.built step
  table := Scheduler.equivalent_ask h.table r
  session := nofun

/-- The actor that runs is sound among sound others. -/
theorem Sound.equivalent {m : Moment} (h : m.Sound) {session : Session Dispatch}
    (hsession : m.session? = some session) : session.Equivalent Dispatch.Equivalent session :=
  ⟨h.session session hsession, table_of_session hsession ▸ h.table, rfl⟩

/-- The next moment of a rotation is sound again. -/
theorem Sound.go {m : Moment} (h : m.Sound) : m.go.Sound := by
  have everyone : m.go.Everyone Actor.Sound := by
    refine .go ⟨ProcessTable.equivalent_self_iff.mp h.table, h.session⟩ fun session hsession _ => ?_
    have hnext := Session.equivalent_next h.built.inline (h.equivalent hsession)
    exact Session.next_mono (P := fun t => t.Equivalent Dispatch.Equivalent t)
      (Q := (·.Everyone Actor.Sound))
      hnext fun t h' => ⟨h'.actor, ProcessTable.equivalent_self_iff.mp h'.kernel.table⟩
  exact
    { built := by
        rw [loader_go]
        exact h.built
      table := ProcessTable.equivalent_self_iff.mpr everyone.table
      session := everyone.session }

theorem Sound.elapse {m : Moment} (h : m.Sound) (usecs : Nat) : (m.elapse usecs).Sound := by
  cases m <;> exact ⟨h.built, h.table, h.session⟩

theorem sound_of_reachable {m : Moment} (h : m.Reachable) : m.Sound :=
  h.induction (fun _ => .create) (fun _ r h => h.ask r) (fun _ h => h.go)
    fun _ usecs h => h.elapse usecs

/-- At every moment, all that the stack and the mailbox of any process reach are objects that lie
whole in its own heap and are what the references to them say; and a process that runs never fails
because a reference is wrong, whatever it has been loaded from and whatever has been asked for. -/
theorem intact_of_reachable {m : Moment} (h : m.Reachable) :
    (m.table.Each fun p => p.actor.Intact) ∧
    ∀ session, m.session? = some session → session.actor.Intact ∧
      ∀ e s', Exec.advance m.loader session = .error e s' →
        (∀ r, e ≠ .heap (.invalidRef r)) ∧
          ∀ expected found, e ≠ .heap (.kindMismatch expected found) := by
  have sound := sound_of_reachable h
  refine ⟨fun i slot p hi hp => ?_, fun session hsession => ?_⟩
  · exact (ProcessTable.equivalent_self_iff.mp sound.table i slot p hi hp).intact
  · have hactor := sound.session session hsession
    refine ⟨hactor.intact, fun e s' run => ?_⟩
    have hbenign := Session.benign_of_advance sound.built.inline (sound.equivalent hsession) run
    constructor
    · rintro r rfl
      exact hbenign _ rfl
    · rintro expected found rfl
      exact hbenign _ rfl

/-- A program that makes a string. -/
def speaker : Chunk :=
  .ofModule { Prototype.named "m" with code := [.pack .ldk 0], constants := [.text "a"] }

/-- A process has made a string. -/
theorem intact_of_reachable_speaker : ∃ (m : Moment) (session : Session Dispatch) (r : Ref),
    m.Reachable ∧ m.session? = some session ∧ .object .string r ∈ session.actor.roots ∧
      session.actor.heap.memory.IsObject .string r ∧
      session.actor.heap.memory.WellTyped r .string := by
  let s := Scheduler.twoSlots
  have created : s.Created :=
    ⟨{ indexBits := 1, generationBits := 1 }, _, .create ⟨#[]⟩ .refuse, rfl⟩
  let acts : List Act := [.ask (.load speaker), .ask (.spawn (.function ⟨0, 0⟩) []),
    .go, .go, .go, .go]
  have reachable : ((rest s).after acts).Reachable := ⟨s, acts, created, rfl⟩
  have runs : ((rest s).after acts).session?.map (fun session => session.actor.roots[0]?) =
      some (some (.object .string (Ref.ofNat 0))) := by decide +kernel
  obtain ⟨session, hsession, hroot⟩ := Option.map_eq_some_iff.mp runs
  have hmem : .object .string (Ref.ofNat 0) ∈ session.actor.roots := Array.mem_of_getElem? hroot
  obtain ⟨hintact, -⟩ := (intact_of_reachable reachable).2 session hsession
  obtain ⟨hobject, htyped⟩ := hintact .string (Ref.ofNat 0) (.root hmem)
  exact ⟨_, session, _, reachable, hsession, hmem, hobject, htyped⟩

end Moment

end ActorMachine
