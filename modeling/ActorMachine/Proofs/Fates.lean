import ActorMachine.Proofs.Rotations

/-!
# What becomes of a process

A process that is not having its turn is reached by nothing but what the one whose turn it is, or
somebody from outside, asks for and is granted: letters, and that it is to end. Otherwise it only
changes its state, as a rotation begins or is closed, until it gets a turn or is released
(`Moment.fate`).
-/

namespace ActorMachine

open Memory
open ProcessTable (Tally)
open Ask (letters)

/-! ## Letters from outside -/

/-- A string from outside as a letter. -/
def Letter.ofText (text : String) : Letter :=
  let need := allocSize (Heap.stringSize text.utf8ByteSize)
  match (HostArg.text text).stage (Heap.create need need) with
  | .ok message source => ⟨message, source⟩
  | .error _ source => ⟨.nil, source⟩

namespace ActorM

variable {ρ : Matching} {a : Actor}

/-- A new string is put into the actor's own heap, where it is a copy of the letter. -/
theorem ends_newText (sound : a.Equivalent ρ a) (text : String) :
    Ends (newString text.toUTF8) a
      (fun v b => ∃ γ, a.Receives γ [.ofText text] { b with mailbox := b.mailbox.push v })
      fun _ b => ∃ γ, a.Receives γ [] b := by
  rw [newString, alloc, bind_assoc]
  refine .bind <| (ends_reserve sound _).mono ?_ ?_
  · rintro _ b ⟨γ, moved, room⟩
    obtain ⟨p, m, run, new, -, hsize, hlength, hstring⟩ :=
      makes_string text.toUTF8 b moved.right room
    have hlimit : allocSize (Heap.stringSize text.toUTF8.size) ≤ Heap.sizeLimit :=
      Nat.le_trans room (Nat.le_trans (Nat.sub_le _ _)
        (Nat.le_trans moved.right.capacity_le moved.right.max_le))
    have hcapacity : (Heap.create (allocSize (Heap.stringSize text.toUTF8.size))
        (allocSize (Heap.stringSize text.toUTF8.size))).capacity =
        allocSize (Heap.stringSize text.toUTF8.size) := by
      show min _ (min _ Heap.sizeLimit) = _
      omega
    have hle := le_allocSize (Heap.stringSize text.toUTF8.size)
    obtain ⟨p', m', run', new', -, hsize', hlength', hstring'⟩ :=
      HostArg.stage_text (.create _ _) (by omega) (Nat.le_of_eq hcapacity.symm)
    have hletter : (Letter.ofText text).message = .object .string p' ∧
        (Letter.ofText text).source.memory = m' := by
      unfold Letter.ofText
      rw [show text.utf8ByteSize = text.toUTF8.size from rfl]
      dsimp only
      rw [run']
      exact ⟨rfl, rfl⟩
    have iso := (Iso.empty _ b.heap.memory).addObject new' new (hsize'.trans hsize.symm)
      (hlength'.trans hlength.symm) fun h => hstring'.trans (hstring h).symm
    rw [← hletter.2] at iso
    unfold Ends
    rw [run]
    refine ⟨γ, .of_copy moved new.extends_ iso ?_ ?_⟩
    · rw [hletter.1]
      exact .object (.inr ⟨rfl, rfl, rfl⟩)
    · rintro s r t (h | ⟨-, -, rfl⟩)
      · exact h.elim
      · exact Nat.le_of_eq new.start.symm
  · rintro e b ⟨-, γ, moved⟩
    exact ⟨γ, .of_equivalent moved⟩

/-- An inline message is delivered in the same way from wherever it comes. -/
theorem deliver_of_inline (self : Pid) (source : Heap) {v : Value} (inline : ¬v.isCollectable) :
    deliver self source v = deliverLocal self v := by
  unfold deliver deliverLocal
  simp only [if_neg inline]

/-- A string from outside is delivered like a letter. -/
theorem ends_deliverText (sound : a.Equivalent ρ a) (self : Pid) (text : String) :
    Ends (deliverBytes self text.toUTF8) a (fun _ b => ∃ γ, a.Receives γ [.ofText text] b)
      fun _ b => ∃ γ, a.Receives γ [] b := by
  refine .bind <| (ends_checkMailbox self a).mono ?_ ?_
  · rintro _ _ ⟨-, rfl⟩
    exact .bind <| (ends_newText sound text).mono (fun _ _ h => .modify h) fun _ _ h => h
  · rintro _ _ ⟨-, rfl⟩
    exact ⟨ρ, .of_equivalent sound⟩

end ActorM

namespace Process

variable {l : PidLayout} {q : Process}

/-- An inline value from outside is a letter as from another process. -/
theorem touched_send (sound : q.actor.Sound) {address : Pid} {v : Value}
    (meant : l.Addresses address q.pid) :
    Ends (deliver address none v) q (fun _ q' => q.Touched l [.send address v (Heap.create 0 0)] q')
      fun _ q' => q.Touched l [] q' := by
  refine .ite (fun _ => .bind <| .throw (.refl sound rfl rfl)) fun hinline => ?_
  have hx : Letter.Sound ⟨v, Heap.create 0 0⟩ :=
    (Letter.Vouched.of_inline hinline (.of_forall fun _ => trivial) _ : Letter.Vouched
      (fun _ => True) _).sound
  have hdeliver := touched_deliver sound (x := ⟨v, Heap.create 0 0⟩) hx meant
  unfold deliver at hdeliver
  dsimp only at hdeliver
  rwa [ActorM.deliver_of_inline address _ hinline] at hdeliver

/-- A string from outside is a letter. -/
theorem touched_sendText (sound : q.actor.Sound) {address : Pid} {text : String}
    (meant : l.Addresses address q.pid) :
    Ends (deliverBytes address text.toUTF8) q (fun _ q' => q.Touched l
        [.send address (Letter.ofText text).message (Letter.ofText text).source] q')
      fun _ q' => q.Touched l [] q' := by
  obtain ⟨ρ, sound⟩ := sound
  have hletters : letters l q.pid
      [.send address (Letter.ofText text).message (Letter.ofText text).source] =
      [Letter.ofText text] := by
    simp [letters, Ask.letter?, meant]
  refine .bind <| (ends_onActor ((ActorM.ends_deliverText sound address text).mono ?_ ?_))
  · rintro _ a ⟨γ, hactor⟩
    refine .modify ?_
    rw [notify_eq]
    refine ⟨rfl, ⟨γ, ?_⟩, (Bool.or_false _).symm, ?_⟩
    · rw [hletters]
      exact hactor
    · rw [hletters]
      rfl
  · rintro _ a ⟨γ, hactor⟩
    exact ⟨rfl, ⟨γ, hactor⟩, (Bool.or_false _).symm, rfl⟩

end Process

namespace ProcessTable.Tally

variable {t : ProcessTable} {listed rest : List (Pid × Place)} {log : List Nat} {q : Process}

/-- Whoever is not released is not concerned by releases. -/
theorem lives_releases {dead : List Pid} (h : Tally (dead.map (·, .dead) ++ rest) log t)
    (hq : t.Lives q.pid q) (alive : q.pid ∉ dead) :
    (dead.foldl ProcessTable.release t).Lives q.pid q := by
  induction dead generalizing t log with
  | nil => exact hq
  | cons first dead ih =>
    have tally : Tally ((first, .dead) :: (dead.map (·, .dead) ++ rest)) log t := h
    refine ih tally.release ?_ fun hmem => alive (List.mem_cons_of_mem _ hmem)
    obtain ⟨slot, hslot, hresident, -⟩ := tally.slot_of_lives hq
    have hne := tally.index_ne hq List.mem_cons_self fun heq => alive (heq ▸ List.mem_cons_self)
    exact ⟨_, slot, by rw [tally.slots_release, if_neg hne, hslot], hresident, rfl⟩

/-- A process that comes home is there. -/
theorem lives_checkin (h : Tally listed log t) {place : Place} (hmem : (q.pid, place) ∈ listed) :
    (t.checkin q).Lives q.pid q := by
  obtain ⟨slot, hslot, -⟩ := h.exists_slot hmem
  exact ⟨_, _, slots_setOccupant hslot _, rfl, rfl⟩

/-- When a rotation is closed, the dead are those that have ended in it. -/
theorem dead_iff_mem {s : Scheduler} (h : Tally s.queued log s.table)
    (hq : s.table.Lives q.pid q) : q.state = .dead ↔ q.pid ∈ s.dead := by
  have hlisted := h.place_of_lives hq
  constructor
  · intro hdead
    rw [hdead] at hlisted
    exact Scheduler.mem_queued_dead.mp hlisted
  · intro hmem
    have hplace := h.place_unique hlisted (Scheduler.mem_queued_dead.mpr hmem)
    cases hstate : q.state <;> rw [hstate] at hplace <;> first | rfl | cases hplace

end ProcessTable.Tally

namespace Moment

open Scheduler

variable {m : Moment} {log : List Nat} {s : Scheduler} {ready : List Pid} {pid : Pid}
  {process q : Process} {session : Session Dispatch}

/-- What an act grants of the requests that are made of processes. -/
def granted : Moment → Act → List Ask
  | rest s, .ask (.send target v) =>
    (Ask.send target v (Heap.create 0 0)).grantedBy (Scheduler.send target v s)
  | rest s, .ask (.sendText target text) =>
    (Ask.send target (Letter.ofText text).message (Letter.ofText text).source).grantedBy
      (Scheduler.sendText target text s)
  | rest s, .ask (.kill target) => (Ask.kill target).grantedBy (Scheduler.kill target s)
  | turn _ s _ process session, .go =>
    if process.exitRequested then [] else session.granted s.loader
  | _, _ => []

/-! ## Requests from outside -/

/-- What is asked for from outside does to a process what is granted of it, and nothing else. -/
theorem touched_ask (reachable : (rest s).Reachable) (hq : s.table.Lives q.pid q) (r : Request) :
    ∃ q', (s.ask r).table.Lives q.pid q' ∧
      q.Touched s.table.layout ((rest s).granted (.ask r)) q' := by
  obtain ⟨layout, log, numbered⟩ := reachable.exists_numbered
  have tally : Tally s.queued log s.table := numbered.orderly.tally
  have sound : q.actor.Sound := by
    obtain ⟨i, slot, hslot, hresident, -⟩ := hq
    exact ProcessTable.equivalent_self_iff.mp (sound_of_reachable reachable).table i slot q
      hslot hresident
  have nothing : q.Touched s.table.layout [] q := .refl sound rfl rfl
  -- A request that reaches somebody is met the same way, whoever the address is for.
  have reached : ∀ {ask : Ask} {address : Pid} {m : EStateM Fault Process Unit},
      (s.table.layout.Addresses address q.pid →
        Ends m q (fun _ q' => q.Touched s.table.layout [ask] q')
          fun _ q' => q.Touched s.table.layout [] q') →
      (¬s.table.layout.Addresses address q.pid → q.Touched s.table.layout [ask] q) →
      ∃ q', (leaves (ProcessTable.onProcess address m) s.table).Lives q.pid q' ∧
        q.Touched s.table.layout
          (ask.grantedBy (onTable (ProcessTable.onProcess address m) s)) q' := by
    intro ask address m meant spared
    have hgranted : ask.grantedBy (onTable (ProcessTable.onProcess address m) s) =
        ask.grantedBy (ProcessTable.onProcess address m s.table) := by
      unfold onTable
      dsimp only
      cases ProcessTable.onProcess address m s.table <;> rfl
    rw [hgranted]
    exact ProcessTable.touched_of_onProcess tally sound hq meant spared
  have silent : r.reach? = none → (rest s).granted (.ask r) = [] := by
    cases r with
    | send | sendText | kill => rintro ⟨⟩
    | _ => exact fun _ => rfl
  have met := s.meets_ask r
  generalize s.ask r = s' at met ⊢
  cases met with
  | refuses unreached => exact ⟨q, hq, silent unreached ▸ nothing⟩
  | starts start _ spawned =>
    have unreached : r.reach? = none := by
      cases r with
      | spawn | spawnExport => rfl
      | _ => cases start
    exact ⟨q, tally.lives_spawn spawned hq, silent unreached ▸ nothing⟩
  | reaches reach =>
    cases r with
    | send target v =>
      cases reach
      exact reached (fun meant => Process.touched_send sound meant)
        fun spared => .refl sound (by simp [letters, Ask.letter?, spared]) rfl
    | sendText target text =>
      cases reach
      exact reached (fun meant => Process.touched_sendText sound meant)
        fun spared => .refl sound (by simp [letters, Ask.letter?, spared]) rfl
    | kill target =>
      cases reach
      exact reached (fun meant => Process.touched_requestExit sound meant)
        fun spared => .refl sound rfl (by simp [Ask.kills, spared])
    | _ => cases reach
  | advances advance => exact ⟨q, hq, silent (advance ▸ rfl) ▸ nothing⟩
  | learns unreached => exact ⟨q, hq, silent unreached ▸ nothing⟩

/-! ## Turns -/

/-- At every moment the books are in order and the processes at home are sound. -/
theorem Reachable.exists_orderly (reachable : m.Reachable) : ∃ log, m.Orderly log := by
  obtain ⟨layout, log, numbered⟩ := reachable.exists_numbered
  exact ⟨log, numbered.orderly⟩

theorem Reachable.exists_tally (reachable : m.Reachable) : ∃ log, m.table.Tally m.listed log := by
  obtain ⟨log, orderly⟩ := reachable.exists_orderly
  exact ⟨log, orderly.tally⟩

theorem Reachable.after (reachable : m.Reachable) (acts : List Act) : (m.after acts).Reachable := by
  obtain ⟨s, before, created, rfl⟩ := reachable
  exact ⟨s, before ++ acts, created, (after_append _ before acts).symm⟩

/-- Pids are read in the same way at all times. -/
theorem Reachable.layout_after (reachable : m.Reachable) (acts : List Act) :
    (m.after acts).table.layout = m.table.layout := by
  obtain ⟨s, before, created, rfl⟩ := reachable
  rw [← after_append, (numbered_after created (before ++ acts)).layout,
    (numbered_after created before).layout]

theorem Reachable.sound_of_lives (reachable : m.Reachable) (hq : m.table.Lives pid q) :
    q.actor.Sound := by
  obtain ⟨i, slot, hslot, hresident, -⟩ := hq
  exact ProcessTable.equivalent_self_iff.mp (sound_of_reachable reachable).table i slot q
    hslot hresident

/-- What is known of a process that has its turn. -/
theorem Reachable.session_orderly (reachable : (turn ready s pid process session).Reachable) :
    session.Orderly ∧ process.pid = pid ∧ session.kernel.current = pid := by
  obtain ⟨layout, log, numbered⟩ := reachable.exists_numbered
  have sound := sound_of_reachable reachable
  exact ⟨⟨⟨sound.session _ rfl, sound.table, rfl⟩, _, log, numbered.orderly.tally⟩,
    numbered.orderly.named, numbered.speaking⟩

/-- The process whose turn has ended is at home, and the others have not been concerned. -/
theorem lives_endTurn {outcome : Outcome} {listed : List (Pid × Place)}
    (tally : session.kernel.table.Tally listed log) (away : (process.pid, Place.away) ∈ listed) :
    (Moment.endTurn ready s pid process outcome session).table.Lives process.pid
        { process with actor := session.actor, state := (s.endTurn pid outcome).1 } ∧
      ∀ q, session.kernel.table.Lives q.pid q →
        (Moment.endTurn ready s pid process outcome session).table.Lives q.pid q := by
  obtain ⟨now, hend, -, -, -, htable⟩ := exists_endTurn ready s pid process outcome session
  rw [hend]
  show now.table.Lives _ _ ∧ ∀ q, _ → now.table.Lives q.pid q
  rw [htable]
  refine ⟨tally.lives_checkin away, fun q hq =>
    tally.lives_setOccupant hq (tally.index_ne hq away ?_) _⟩
  intro heq
  have hplace := tally.place_of_lives hq
  rw [heq] at hplace
  have haway := tally.place_unique hplace away
  cases hstate : q.state <;> rw [hstate] at haway <;> cases haway

/-- A step of a turn: the turn ends at once if the process has been asked to end, and else it goes
on or ends as the step comes out. -/
theorem go_turn_cases (reachable : (turn ready s pid process session).Reachable) :
    (process.exitRequested = true ∧ (turn ready s pid process session).go =
      Moment.endTurn ready s pid process (.ok .exit) session) ∨
    process.exitRequested = false ∧ ∃ (session' : Session Dispatch) (log : List Nat),
      session'.kernel = Session.world (session.next s.loader) ∧
      session'.kernel.table.Tally (listedIn ready s pid session'.kernel.table) log ∧
      (session.next s.loader = .inr session' ∧ (turn ready s pid process session).go =
          turn ready s pid process session' ∨
        ∃ outcome, session.next s.loader = .inl (outcome, session') ∧
          (turn ready s pid process session).go =
            Moment.endTurn ready s pid process outcome session') := by
  obtain ⟨log, tally⟩ := reachable.exists_tally
  rw [go]
  cases hexit : process.exitRequested with
  | true => exact .inl ⟨rfl, rfl⟩
  | false =>
    refine .inr ⟨rfl, ?_⟩
    have hnext := tally_next s.loader tally
    rw [if_neg Bool.false_ne_true]
    cases heq : session.next s.loader with
    | inl finished =>
      rw [heq] at hnext
      exact ⟨finished.2, log, rfl, hnext, .inr ⟨finished.1, rfl, rfl⟩⟩
    | inr session' =>
      rw [heq] at hnext
      exact ⟨session', log, rfl, hnext, .inl ⟨rfl, rfl⟩⟩

/-! ## Whoever is at home -/

/-- What becomes of a process that is at home by an act. -/
inductive Fate (m : Moment) (a : Act) (q : Process) : Prop
  /-- Requests reach it, or nothing does. -/
  | touched {q' : Process} (unclosed : ∀ s, m = between [] s → a ≠ .go)
    (lives : (m.act a).table.Lives q.pid q') (touched : q.Touched m.table.layout (m.granted a) q')
  /-- A rotation begins. -/
  | admitted {s : Scheduler} (hm : m = rest s) (ha : a = .go)
    (lives : (m.act a).table.Lives q.pid q.admitted)
  /-- It gets a turn. -/
  | called {ready : List Pid} {s : Scheduler} (hm : m = between (q.pid :: ready) s) (ha : a = .go)
    (hgo : m.act a = turn ready { s with table := default } q.pid q
      ⟨q.actor, ⟨s.table.setOccupant q.pid .away, q.pid⟩⟩)
  /-- A rotation is closed, and whoever waits is looked at. -/
  | looked {s : Scheduler} (hm : m = between [] s) (ha : a = .go)
    (alive : q.state ≠ .dead) (lives : (m.act a).table.Lives q.pid (q.looked s.tick.now))
  /-- A rotation is closed in which it has ended, and its slot becomes free. -/
  | released {s : Scheduler} (hm : m = between [] s) (ha : a = .go)
    (hdead : q.state = .dead) (hmem : q.pid ∈ s.dead)

/-- When a rotation is closed, a process that has ended in it is released, and any other is looked
at. -/
theorem fate_closing (reachable : (between [] s).Reachable) (hq : s.table.Lives q.pid q) :
    (between [] s).Fate .go q := by
  obtain ⟨log, tally⟩ := reachable.exists_tally
  have tally : s.table.Tally s.queued log := tally
  have hmem := tally.dead_iff_mem hq
  by_cases hdead : q.state = .dead
  · exact .released rfl rfl hdead (hmem.mp hdead)
  · have hlooked := (wakeReady_spec tally).2.2.2 _ _ hq
    have hpid := q.pid_looked s.tick.now
    rw [← hpid] at hlooked
    have hlives := ((tally_wakeReady tally).perm List.perm_append_comm).lives_releases hlooked
      (by rw [hpid, s.keeps_wakeReady.2]; exact fun h => hdead (hmem.mpr h))
    rw [hpid] at hlives
    exact .looked rfl rfl hdead hlives

/-- The next turn is given to a process or to another one. -/
theorem fate_calling (reachable : (between (pid :: ready) s).Reachable)
    (hq : s.table.Lives q.pid q) :
    (between (pid :: ready) s).Fate .go q := by
  obtain ⟨log, tally⟩ := reachable.exists_tally
  obtain ⟨process, hlives, -, hgo⟩ := go_ready tally
  obtain rfl := hlives.pid_eq
  by_cases heq : q.pid = process.pid
  · obtain rfl := tally.lives_unique hq (heq ▸ hlives)
    exact .called rfl rfl hgo
  · refine .touched (by rintro _ ⟨⟩) ?_ (.refl (reachable.sound_of_lives hq) rfl rfl)
    show (between (process.pid :: ready) s).go.table.Lives q.pid q
    rw [hgo]
    exact tally.lives_setOccupant hq (tally.index_ne hq List.mem_cons_self heq) _

/-- A step of another's turn does to a process at home what is granted of it, and if it is the last
step of the turn, bringing the other one home does nothing more. -/
theorem fate_stepping (reachable : (turn ready s pid process session).Reachable)
    (hq : (turn ready s pid process session).table.Lives q.pid q) :
    (turn ready s pid process session).Fate .go q := by
  obtain ⟨log, tally⟩ := reachable.exists_tally
  have sound := reachable.sound_of_lives hq
  obtain ⟨orderly, rfl, -⟩ := reachable.session_orderly
  rcases go_turn_cases reachable with ⟨hexit, hgo⟩ | ⟨hstays, session', log', hkernel, tally', hgo⟩
  · refine .touched (by rintro _ ⟨⟩) ?_ (.refl sound ?_ ?_)
    · rw [act, hgo]
      exact (lives_endTurn tally List.mem_cons_self).2 q hq
    · rw [granted, if_pos hexit]
      rfl
    · rw [granted, if_pos hexit]
      rfl
  · obtain ⟨q', hlives, htouched⟩ :=
      Session.touched_of_next (sound_of_reachable reachable).built.inline orderly hq
    have hlives : (Session.world (session.next s.loader)).table.Lives q.pid q' := hlives
    rw [← hkernel] at hlives
    have home : ((turn ready s process.pid process session).act .go).table.Lives q.pid q' := by
      rw [act]
      rcases hgo with ⟨-, hgo⟩ | ⟨outcome, -, hgo⟩
      · rw [hgo]
        exact hlives
      · rw [hgo, ← htouched.pid]
        exact (lives_endTurn tally' List.mem_cons_self).2 q' (htouched.pid ▸ hlives)
    refine .touched (by rintro _ ⟨⟩) home ?_
    rw [granted, if_neg (by rw [hstays]; exact Bool.false_ne_true)]
    exact htouched

/-- What can become of a process that is at home. -/
theorem fate (reachable : m.Reachable) (hq : m.table.Lives q.pid q) (a : Act) : m.Fate a q := by
  have sound := reachable.sound_of_lives hq
  cases m with
  | rest s =>
    cases a with
    | ask r =>
      obtain ⟨q', hlives, htouched⟩ := touched_ask reachable hq r
      exact .touched (by rintro _ ⟨⟩) hlives htouched
    | elapse => exact .touched (by rintro _ ⟨⟩) hq (.refl sound rfl rfl)
    | go =>
      obtain ⟨log, tally⟩ := reachable.exists_tally
      exact .admitted rfl rfl ((admitPending_spec tally).2.2.2 _ _ hq)
  | between ready s =>
    cases a with
    | ask | elapse => exact .touched (by rintro _ _ ⟨⟩) hq (.refl sound rfl rfl)
    | go =>
      cases ready with
      | nil => exact fate_closing reachable hq
      | cons pid ready => exact fate_calling reachable hq
  | turn ready s pid process session =>
    cases a with
    | ask | elapse => exact .touched (by rintro _ ⟨⟩) hq (.refl sound rfl rfl)
    | go => exact fate_stepping reachable hq

end Moment

end ActorMachine
