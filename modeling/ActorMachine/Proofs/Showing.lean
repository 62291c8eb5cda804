import ActorMachine.Proofs.Doings
import ActorMachine.Proofs.Handing

/-!
# Every process shows a sight

A process begins with copies of its arguments, and then does nothing but deeds and is sent what
others have. So every process of a system shows a sight at every moment
(`Moment.shows_of_reachable`): all its arrays and tables are as its program sees them, and their
stores are hidden. What it does next is part of a life.
-/

namespace ActorMachine

open Memory

/-! ## First calls -/

/-- Arguments, from a heap whose objects are known or on their own. -/
inductive Shown : Option Heap → List Value → Prop
  | some {h : Heap} {args : List Value} (letters : ∀ v ∈ args, ∃ M x, Letter.Shows ⟨v, h⟩ M x) :
    Shown (some h) args
  | none {args : List Value} : Shown none args

/-- Nothing has to be known of the heap of a value that refers to nothing. -/
theorem Letter.shows_of_inline {v : Value} (inline : v.ref? = none) (h : Heap) :
    Letter.Shows ⟨v, h⟩ [] (.inline v) :=
  ⟨⟨nofun, nofun⟩, _, _, .nameless (.empty _ _) fun h => h.elim, .inline inline⟩

namespace Actor

variable {V : Sight} {a : Actor} {v : Value}

/-- An actor shows a sight after every deed, whether or not it succeeds. -/
theorem Shows.ends_deed (h : a.Shows V) {d : Deed} (sound : d.Sound) {m : ActorM Unit}
    (perform : (d.perform : Exec Solitude Unit) = Exec.onActor m) :
    Ends m a (fun _ b => ∃ V, b.Shows V) fun _ b => ∃ V, b.Shows V := by
  have deed := (Doing.refl (⟨⟨0⟩⟩ : Solitude) a).ends_deed sound fun _ => congrFun perform _
  exact deed.mono (fun _ _ after => after.exists_shows h) fun _ _ after => after.exists_shows h

theorem Shows.push_inline (h : a.Shows V) (inline : v.ref? = none) :
    ∃ V, ({ a with stack := a.stack.push v } : Actor).Shows V := by
  obtain ⟨sound, ν, σ, shows⟩ := h
  exact ⟨_, sound.push (x := .inline v) trivial, ν, σ, shows.push (.inline inline)⟩

/-- Where there is room for it, a copy is made of what lives elsewhere. -/
theorem Shows.ends_copy (h : a.Shows V) {letter : Letter} {M : Contents} {x : Item}
    (shown : letter.Shows M x) {n : Nat} (measured : letter.source.measure letter.message = .ok n)
    (room : n ≤ a.heap.free) :
    Ends (ActorM.onHeap (HeapM.copy letter.source letter.message)) a
      (fun v b => b.heap.free = a.heap.free - n ∧
        ∃ V, ({ b with stack := b.stack.push v } : Actor).Shows V)
      fun _ _ => False := by
  obtain ⟨sound, ν, σ, shows⟩ := h
  obtain ⟨sound', ν', σ', named, hx⟩ := shown
  have hmessage := hx.still named.within
  obtain ⟨refs, -, hmeasure, -, -, enumerates, -⟩ := Heap.measure_eq named.iso hmessage
  obtain rfl : n = letter.source.memory.total refs := Except.ok.inj (measured.symm.trans hmeasure)
  have hfree : a.heap.free = a.heap.capacity - a.heap.used := rfl
  have hused := shows.bounded.used_le
  obtain ⟨w, τ, m, run, ext, hsize, copied, copy, hplace⟩ := HeapM.copy_iso a.heap named.iso.left
    named.iso.closedLeft (fun _ _ => hmessage.exists_of_object) enumerates (by omega)
    (Nat.le_trans shows.bounded.capacity_le shows.bounded.max_le)
  -- The copy lies behind all that has been there.
  have joined := (shows.named.extend ext).join (named.move copied) (by
    rintro s r s' r' hr ⟨u, -, hu⟩
    exact shows.named.iso.left.apart_end ext (hplace hu) ⟨_, hr⟩)
  refine .intro (fun v b hrun => ?_) fun e b hrun => ?_
  · rw [ActorM.onHeap_ok run] at hrun
    cases hrun
    have known : (x.shift V.objects.length).Known
        (V.objects ++ M.map (Content.shift V.objects.length)) :=
      Contents.known_shift (hx.known named)
    have after := (shows.setMemory joined .inl (by omega)).push (hx.move copy).shift
    refine ⟨?_, _, (sound.grow (sound.objects.join sound') (.append _ _)).push known, _, _, after⟩
    show a.heap.capacity - m.size = _
    omega
  · rw [ActorM.onHeap_ok run] at hrun
    cases hrun

end Actor

/-- Copies of what is known can be pushed. -/
theorem Actor.Shows.keptByCopies {source : Option Heap} {args : List Value}
    (shown : Shown source args) :
    ActorM.KeptByCopies (fun b => ∃ V, b.Shows V) source args where
  inline := by
    rintro - v - hinline b ⟨V, h⟩
    exact h.push_inline hinline
  copied := by
    rintro heap rfl v hv k hk b ⟨V, h⟩ room
    cases shown with
    | some letters =>
      obtain ⟨M, x, hx⟩ := letters v hv
      obtain ⟨-, ν, σ, named, hat⟩ := id hx
      exact h.ends_copy hx (ActorM.measure_of_measureArg hk named.iso (hat.still named.within)) room

/-- An actor that has been started shows its arguments. -/
theorem Actor.shows_of_prepareEntry {config : ActorConfig} {callee : Value} {args : List Value}
    {source : Option Heap} {a : Actor} (shown : Shown source args)
    (run : ActorM.prepareEntry callee args source (Actor.create config) = .ok () a) :
    ∃ V, a.Shows V := by
  obtain ⟨sound, ν, σ, shows⟩ := shows_create config
  refine ((Shows.keptByCopies shown).ends_prepareEntry (fun n => ?_) ?_).of_ok run
  · refine (shows.ends_reserve n).mono ?_ fun _ _ _ => trivial
    rintro _ b ⟨ν', σ', shows', room⟩
    exact ⟨⟨_, sound, ν', σ', shows'⟩, room⟩
  · rintro hinline b ⟨V, h⟩
    obtain ⟨V', sound', ν', σ', shows'⟩ := h.push_inline hinline
    exact ⟨V', sound', ν', σ', { shows' with }⟩

/-! ## Processes -/

/-- A process whose actor shows a sight. -/
def Process.Shows (p : Process) : Prop := ∃ V, p.actor.Shows V

namespace Process

variable {p : Process}

/-- A deed of its actor is one of a process. -/
theorem Shows.ends_delivered (h : p.Shows) {d : Deed} (sound : d.Sound) {m : ActorM Unit}
    (perform : (d.perform : Exec Solitude Unit) = Exec.onActor m) :
    Ends (do onActor m; modify Process.notify) p (fun _ p' => p'.Shows) fun _ p' => p'.Shows := by
  obtain ⟨V, h⟩ := h
  refine .bind <| ends_onActor <| (h.ends_deed sound perform).mono (fun _ _ h => .modify ?_)
    fun _ _ h => h
  rw [notify_eq]
  exact h

theorem Shows.ends_deliver (h : p.Shows) (address : Pid) {letter : Letter} {M : Contents} {x : Item}
    (shown : letter.Shows M x) :
    Ends (deliver address (some letter.source) letter.message) p (fun _ p' => p'.Shows)
      fun _ p' => p'.Shows :=
  h.ends_delivered (d := .deliver address letter) ⟨M, x, shown⟩ rfl

/-- A value from outside is delivered, if it is inline. -/
theorem Shows.ends_send (h : p.Shows) (address : Pid) (v : Value) :
    Ends (deliver address none v) p (fun _ p' => p'.Shows) fun _ p' => p'.Shows := by
  refine .ite (fun _ => .bind <| .throw h) fun inline => ?_
  have hinline : v.ref? = none := by
    cases hv : v.ref? with
    | none => rfl
    | some r => exact absurd (by rw [Value.isCollectable, hv]; rfl) inline
  have hdeliver := h.ends_deliver address (Letter.shows_of_inline hinline (Heap.create 0 0))
  unfold deliver at hdeliver
  dsimp only at hdeliver
  rwa [ActorM.deliver_of_inline address _ inline] at hdeliver

/-- A string from outside is delivered. -/
theorem Shows.ends_deliverBytes (h : p.Shows) (address : Pid) (bytes : ByteArray) :
    Ends (deliverBytes address bytes) p (fun _ p' => p'.Shows) fun _ p' => p'.Shows :=
  h.ends_delivered (d := .deliverBytes address bytes) trivial rfl

end Process

namespace Dispatch

/-- The others go on showing sights when they are sent what others show. -/
theorem minds : Kernel.Minds fun d : Dispatch => d.table.Each Process.Shows where
  send {d letter M x} h shown target :=
    (ends_onTable (h.ends_onProcess target (E := fun _ => True)
      (fun p hp => (hp.ends_deliver target shown).mono (fun _ _ h => h) fun _ _ h => ⟨trivial, h⟩)
        trivial)).mono (fun _ _ h => h) fun _ _ h => h.2
  spawn {d heap args} h shown callee := by
    have ends : Ends (ProcessTable.spawn callee args (some heap)) d.table
        (fun _ t => t.Each Process.Shows) fun _ t => t.Each Process.Shows := by
      refine .intro (fun pid t run => ?_) fun e t run => ?_
      · exact h.spawn (fun _ prepared => Actor.shows_of_prepareEntry (.some shown) prepared) run
      · exact ProcessTable.eq_of_spawn_eq_error run ▸ h
    exact ends_onTable ends
  kill {d} h target :=
    (ends_onTable (h.ends_onProcess target (m := Process.requestExit) (E := fun _ => True)
      (fun p hp => .modify hp) trivial)).mono (fun _ _ h => h) fun _ _ h => h.2

end Dispatch

/-! ## Arguments from outside -/

namespace HostArg

variable {h h' : Heap} {M : Contents} {ν : Naming} {σ : Matching}

/-- An argument from outside is known in the heap in which it is staged. -/
theorem stage_shown {arg : HostArg} {n : Nat} {v : Value} (measured : arg.measure = .ok n)
    (bounded : h.Bounded) (sound : M.Sound) (named : Named ν M σ h.memory)
    (run : arg.stage h = .ok v h') :
    ∃ M' ν' σ', h'.Bounded ∧ M'.Sound ∧ Named ν' M' σ' h'.memory ∧ (∀ {s i r}, ν s i r → ν' s i r) ∧
      ∃ x : Item, x.At ν' v := by
  cases arg with
  | value w =>
    cases run
    refine ⟨M, ν, σ, bounded, sound, named, id, .inline v, .inline ?_⟩
    -- A value from outside is refused unless it is inline.
    cases hv : v.ref? with
    | none => rfl
    | some r => simp [measure, Value.isCollectable, hv] at measured
  | text s =>
    obtain ⟨p, m, rfl, rfl, new, bounded', hlength, hstring⟩ := exists_of_stage_text bounded run
    obtain ⟨hshape, hlies⟩ :=
      (Content.New.string _ s.toUTF8).lies new hlength (fun _ => hstring) (.single .string p)
    have joined := (named.extend new.extends_).join (.new new hshape hlies) (by
      rintro s' r s'' r' hr ⟨-, rfl, -⟩
      exact named.iso.left.apart_end new.extends_ (Nat.le_of_eq new.start.symm) ⟨_, hr⟩)
    exact ⟨_, _, _, bounded', sound.addString _, joined, .inl, _,
      .object (.inr ⟨0, rfl, rfl, rfl, rfl⟩)⟩

/-- All arguments from outside are known in the heap in which they are staged. -/
theorem stageAll_shown {args : List HostArg} {sizes : List Nat} {values : List Value}
    (measured : args.mapM measure = .ok sizes) (bounded : h.Bounded) (sound : M.Sound)
    (named : Named ν M σ h.memory) (run : args.mapM stage h = .ok values h') :
    ∃ M' ν' σ', M'.Sound ∧ Named ν' M' σ' h'.memory ∧ (∀ {s i r}, ν s i r → ν' s i r) ∧
      ∀ v ∈ values, ∃ x : Item, x.At ν' v := by
  induction args generalizing M ν σ h sizes values with
  | nil =>
    cases run
    exact ⟨M, ν, σ, sound, named, id, nofun⟩
  | cons arg args ih =>
    rw [List.mapM_cons] at measured
    obtain ⟨n, hn, measured⟩ := exists_of_bind_ok measured
    obtain ⟨ns, hns, -⟩ := exists_of_bind_ok measured
    obtain ⟨v, vs, h₁, hv, hvs, rfl⟩ := exists_of_stageAll_cons run
    obtain ⟨M₁, ν₁, σ₁, bounded₁, sound₁, named₁, himp, x, hx⟩ :=
      stage_shown hn bounded sound named hv
    obtain ⟨M₂, ν₂, σ₂, sound₂, named₂, himp₂, hvalues⟩ := ih hns bounded₁ sound₁ named₁ hvs
    refine ⟨M₂, ν₂, σ₂, sound₂, named₂, fun hi => himp₂ (himp hi), ?_⟩
    exact List.forall_mem_cons.mpr ⟨⟨x, hx.mono himp₂⟩, hvalues⟩

end HostArg

namespace Scheduler

variable {s : Scheduler}

/-- Arguments that are staged are known. -/
theorem shown_of_stageArgs {args : List HostArg} {values : List Value} {source : Option Heap}
    (run : stageArgs args = .ok (values, source)) : Shown source values := by
  unfold stageArgs at run
  obtain ⟨sizes, hsizes, run⟩ := exists_of_bind_ok run
  simp only [EStateM.run] at run
  split at run
  · rename_i values' staging hrun
    obtain ⟨M, ν, σ, sound, named, -, hvalues⟩ :=
      HostArg.stageAll_shown (M := []) hsizes (.create _ _) ⟨nofun, nofun⟩
        (.nameless (.empty _ _) fun h => h.elim) hrun
    cases run
    split
    · exact .none
    · refine .some fun v hv => ?_
      obtain ⟨x, hx⟩ := hvalues v hv
      exact ⟨M, x, sound, ν, σ, named, hx⟩
  · cases run

/-- Whatever is asked for from outside, all processes go on showing sights. -/
theorem each_shows_ask (h : s.table.Each Process.Shows) (r : Request) :
    (s.ask r).table.Each Process.Shows := by
  refine each_ask_of h r ?_ ?_
  · intro callee args _ values source staged actor pid prepared
    exact Actor.shows_of_prepareEntry (shown_of_stageArgs staged) prepared
  · intro target m hreach p hp
    cases r with
    | send target v =>
      cases hreach
      exact (hp.ends_send _ v).leaves
    | sendText target text =>
      cases hreach
      exact (hp.ends_deliverBytes _ _).leaves
    | kill target =>
      cases hreach
      exact hp
    | _ => cases hreach

end Scheduler

/-! ## Every moment -/

namespace Moment

/-- Every process shows a sight. -/
structure Shows (m : Moment) : Prop where
  table : m.table.Each Process.Shows
  session : ∀ session, m.session? = some session → ∃ V, session.actor.Shows V

/-- The process that runs shows a sight after its next step, and so do the others. -/
theorem Shows.go {m : Moment} (built : m.loader.Built) (h : m.Shows) : m.go.Shows := by
  have everyone : m.go.Everyone fun a => ∃ V, a.Shows V := by
    refine .go ⟨h.table, h.session⟩ fun session _ running => ?_
    obtain ⟨V, shows⟩ := running.actor
    have hnext := Session.doing_next Dispatch.minds built.inline
      ⟨running.actor, .refl session.kernel session.actor, running.table⟩
    exact Session.next_mono (P := fun t => ∃ w, t.Doing _ session.actor w)
      (Q := (·.Everyone fun a => ∃ V, a.Shows V)) hnext
      fun t ⟨w, after⟩ => ⟨after.actor.settle.exists_shows shows, after.kernel⟩
  exact ⟨everyone.table, everyone.session⟩

/-- At every moment every process shows a sight, whether it runs or not. What it does next when it
runs is part of a life of its actor, whatever its code. -/
theorem shows_of_reachable {m : Moment} (h : m.Reachable) :
    (m.table.Each fun p => ∃ V, p.actor.Shows V) ∧
    ∀ session, m.session? = some session → (∃ V, session.actor.Shows V) ∧
      Sum.elim (fun finished : Outcome × Session Dispatch =>
          ∃ deeds, session.actor.Lives Dispatch deeds finished.2.actor)
        (fun t => ∃ deeds, session.actor.Lives Dispatch deeds t.actor) (session.next m.loader) := by
  obtain ⟨sound, shows⟩ : m.Sound ∧ m.Shows := by
    -- Sound moments have linked what they have loaded, and so no code hands out objects.
    refine h.induction (P := fun m => m.Sound ∧ m.Shows) (fun s created => ?_) (fun s r h => ?_)
      (fun m h => ?_) fun m usecs h => ?_
    · exact ⟨.create created, Scheduler.each_created created, nofun⟩
    · exact ⟨h.1.ask r, Scheduler.each_shows_ask h.2.table r, nofun⟩
    · exact ⟨h.1.go, h.2.go h.1.built⟩
    · exact ⟨h.1.elapse usecs, by cases m <;> exact ⟨h.2.table, h.2.session⟩⟩
  refine ⟨shows.table, fun session hsession => ?_⟩
  obtain ⟨V, hV⟩ := shows.session session hsession
  exact ⟨⟨V, hV⟩, Session.lives_next sound.built.inline hV⟩

/-- At no moment can a process get hold of the store of one of its arrays or tables, and no two of
them have the same one. -/
theorem hides_of_reachable {m : Moment} (h : m.Reachable) :
    (m.table.Each fun p => p.actor.Hides) ∧ ∀ session, m.session? = some session →
      session.actor.Hides := by
  have hides : ∀ {a : Actor}, (∃ V, a.Shows V) → a.Hides := fun ⟨_, _, _, _, shows⟩ => shows.hides
  obtain ⟨table, running⟩ := shows_of_reachable h
  exact ⟨fun i slot p hi hp => hides (table i slot p hi hp), fun session hsession =>
    hides (running session hsession).1⟩

end Moment

end ActorMachine
