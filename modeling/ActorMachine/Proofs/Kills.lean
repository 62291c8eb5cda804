import ActorMachine.Proofs.Deadlines

/-!
# Kills

A process that has been asked to end executes nothing any more: until its slot is released it is at
home, or at the beginning of a turn that ends at once, and all that happens to it is that it
receives letters (`Moment.Condemned`). It has its turn in the rotation that is under way or in the
next one, whatever it waits for, so its slot is released when the second rotation is closed at the
latest (`Moment.kill_completes`), and no fault is reported of it.
-/

namespace ActorMachine

open ProcessTable (Tally)
open Ask (letters)

theorem Process.Touched.place {l : PidLayout} {asks : List Ask} {q q' : Process}
    (h : q.Touched l asks q') :
    q'.state.place = q.state.place := by
  rw [h.state]
  split
  · rfl
  · cases q.state <;> rfl

/-- Whoever has been asked to end does not wait any more after the look at those that wait. -/
theorem Process.awake_of_exitRequested {q : Process} (exits : q.exitRequested = true) (time : Nat) :
    (q.looked time).state.place ≠ .waiting := by
  have hready : Scheduler.isReady time q = true := by
    unfold Scheduler.isReady
    rw [exits]
    cases q.state <;> simp
  unfold looked
  split
  · nofun
  · rename_i hnot
    exact fun waits => hnot ⟨waits, hready⟩

theorem Ask.of_mem_grantedBy {ε σ α : Type} {ask ask' : Ask} {result : EStateM.Result ε σ α}
    (h : ask ∈ ask'.grantedBy result) : ask = ask' ∧ ∃ x s, result = .ok x s := by
  cases result with
  | ok x s => exact ⟨List.mem_singleton.mp h, x, s, rfl⟩
  | error e s => cases h

namespace Moment

open Scheduler

variable {m : Moment} {q q' : Process} {a : Act} {acts : List Act}

/-! ## Rotations that are closed -/

/-- How many rotations are closed in some acts. -/
def closings (m : Moment) (acts : List Act) : Nat :=
  (m.trace (fun m a => (m.looks a).toList) acts).length

theorem closings_concat (m : Moment) (acts : List Act) (a : Act) :
    m.closings (acts ++ [a]) = m.closings acts + ((m.after acts).looks a).toList.length := by
  unfold closings
  rw [trace_concat, List.length_append]

theorem closings_of_passes {m' : Moment} (passes : m.Passes acts m') : m.closings acts = 0 := by
  induction passes with
  | refl => rfl
  | go before unclosed ih =>
    rw [closings_concat, ih, before.after, (looks_of_unclosed fun s h _ => unclosed s h).1]
    rfl
  | elapse before usecs ih =>
    rw [closings_concat, ih, (looks_of_unclosed (a := .elapse usecs) fun _ _ => nofun).1]
    rfl

/-- One rotation closes one. -/
theorem closings_of_rotates {s s' : Scheduler} {state : RunState} (h : s.Rotates state s') :
    ∃ acts, (rest s).after acts = rest s' ∧ (rest s).closings acts = 1 := by
  obtain ⟨acts, last, passes, rfl, -⟩ := h
  refine ⟨acts ++ [.go], ?_, ?_⟩
  · rw [after_concat, passes.after]
    rfl
  · rw [closings_concat, closings_of_passes passes, passes.after]
    rfl

/-! ## Who has a turn soon -/

/-- The processes that have a turn in the rotation that is under way, or in the next one if none is,
and those that have ended in it. -/
def soon : Moment → List Pid
  | rest s => s.table.pending ++ s.running.toList
  | between ready s => ready ++ s.dead
  | turn ready s pid _ _ => pid :: (ready ++ s.dead)

theorem mem_soon_rest {s : Scheduler} {log : List Nat} (orderly : (rest s).Orderly log)
    (hq : s.table.Lives q.pid q) : q.pid ∈ (rest s).soon ↔ q.state.place ≠ .waiting := by
  have hplace := orderly.tally_rest.place_of_lives hq
  have hsoon : q.pid ∈ (rest s).soon ↔ q.pid ∈ s.table.pending ∨ q.pid ∈ s.running := by
    rw [soon, List.mem_append, Array.mem_toList_iff]
  rw [hsoon]
  constructor
  · intro hmem hwaiting
    rw [hwaiting] at hplace
    rcases hmem with hmem | hmem
    · cases orderly.tally_rest.place_unique hplace (mem_queued_pending.mpr hmem)
    · cases orderly.tally_rest.place_unique hplace (mem_queued_running.mpr hmem)
  · intro hwaiting
    generalize q.state.place = place at hplace hwaiting
    cases place <;> simp [orderly.dead_rest] at hplace hwaiting ⊢
    · exact .inl hplace
    · exact .inr hplace

/-- Whoever is at home does not have its turn. -/
theorem not_turn_of_lives {ready : List Pid} {s : Scheduler} {process : Process}
    {session : Session Dispatch} (reachable : (turn ready s q.pid process session).Reachable) :
    ¬(turn ready s q.pid process session).table.Lives q.pid q' := by
  intro hq
  obtain ⟨log, tally⟩ := reachable.exists_tally
  have haway := tally.place_unique (tally.place_of_lives hq) List.mem_cons_self
  cases hstate : q'.state <;> rw [hstate] at haway <;> cases haway

/-- Whoever is at home ends no turn. -/
theorem not_ended_of_lives (reachable : m.Reachable) (hq : m.table.Lives q.pid q)
    (outcome : Outcome) :
    (q.pid, outcome) ∉ m.ended a := by
  intro hmem
  cases m with
  | rest | between => cases hmem
  | turn ready s pid process session =>
    cases a with
    | ask | elapse => cases hmem
    | go =>
      obtain ⟨log, tally⟩ := reachable.exists_tally
      obtain ⟨-, hnamed, -⟩ := reachable.session_orderly
      obtain ⟨-, -, ⟨hended, -⟩ | ⟨outcome, hended, -⟩⟩ := go_turn rfl ⟨tally, hnamed, trivial⟩
      · rw [hended] at hmem
        cases hmem
      · rw [hended] at hmem
        cases List.mem_singleton.mp hmem
        exact not_turn_of_lives reachable hq

/-- As long as the rotation is not closed, whoever has a turn in it and is at home goes on being
so. -/
theorem mem_soon_act (reachable : m.Reachable) (hq : m.table.Lives q.pid q)
    (hq' : (m.act a).table.Lives q.pid q')
    (hplace : ∀ r, a = .ask r → q'.state.place = q.state.place)
    (unclosed : ∀ s, m = between [] s → a ≠ .go) (hmem : q.pid ∈ m.soon) :
    q.pid ∈ (m.act a).soon := by
  obtain ⟨log, orderly⟩ := reachable.exists_orderly
  have tally := orderly.tally
  cases m with
  | rest s =>
    cases a with
    | ask r =>
      obtain ⟨log', orderly'⟩ := (reachable.act (.ask r)).exists_orderly
      have hwaits := (mem_soon_rest orderly hq).mp hmem
      rw [← hplace r rfl] at hwaits
      have hpid := hq'.pid_eq
      rw [← hpid] at hq' ⊢
      exact (mem_soon_rest orderly' hq').mpr hwaits
    | elapse => exact hmem
    | go =>
      have hmem : q.pid ∈ s.table.pending ++ s.running.toList := hmem
      show q.pid ∈ s.admitPending.running.toList ++ _
      rw [(admitPending_spec tally).1]
      exact List.mem_append_left _ (List.mem_append.mpr (List.mem_append.mp hmem).symm)
  | between ready s =>
    cases a with
    | ask | elapse => exact hmem
    | go =>
      cases ready with
      | nil => exact absurd rfl (unclosed s rfl)
      | cons pid ready =>
        obtain ⟨process, -, -, hgo⟩ := go_ready tally
        rw [act, hgo]
        exact hmem
  | turn ready s pid process session =>
    cases a with
    | ask | elapse => exact hmem
    | go =>
      obtain ⟨-, hnamed, -⟩ := reachable.session_orderly
      obtain ⟨session', -, ⟨-, hgo⟩ | ⟨outcome, -, hgo⟩⟩ := go_turn rfl ⟨tally, hnamed, trivial⟩
      · rw [act, hgo]
        exact hmem
      · obtain ⟨now, hend, hdead, -⟩ := exists_endTurn ready s pid process outcome session'
        rw [act, hgo, hend]
        rcases List.mem_cons.mp hmem with rfl | hmem
        · exact absurd hq (not_turn_of_lives reachable)
        · rw [soon, hdead, ← List.append_assoc]
          exact List.mem_append_left _ hmem

/-! ## Reports -/

/-- The faults that have been reported of a process. -/
def reportsOf (m : Moment) (pid : Pid) : List Fault :=
  m.system.panics.toList.filterMap fun report => if report.1 = pid then some report.2 else none

theorem panics_endTurn {ready : List Pid} {s : Scheduler} {pid : Pid} {process : Process}
    {outcome : Outcome} {session : Session Dispatch} :
    (Moment.endTurn ready s pid process outcome session).system.panics =
      s.panics ++ (match outcome with | .error e => #[(pid, e)] | .ok _ => #[]) := by
  unfold Moment.endTurn
  rcases outcome with fault | (_ | ⟨_ | usecs⟩ | _ | _)
  · rfl
  all_goals exact Array.append_empty.symm

/-- Faults are reported only of those whose turns end with them. -/
theorem reportsOf_act (reachable : m.Reachable) {pid : Pid}
    (unfaulted : ∀ fault, (pid, .error fault) ∉ m.ended a) :
    (m.act a).reportsOf pid = m.reportsOf pid := by
  have same : (m.act a).system.panics = m.system.panics →
      (m.act a).reportsOf pid = m.reportsOf pid :=
    fun h => by rw [reportsOf, h]; rfl
  obtain ⟨log, tally⟩ := reachable.exists_tally
  cases m with
  | rest s =>
    cases a with
    | ask r =>
      refine same ?_
      obtain ⟨loader, table, hask⟩ := s.exists_ask r
      rw [act, hask]
      rfl
    | elapse => rfl
    | go =>
      refine same ?_
      show s.admitPending.panics = s.panics
      rw [admitPending_eq]
      refine foldl_keeps (·.panics) (fun s pid => ?_) _ _
      unfold admitProcess
      split <;> rfl
  | between ready s =>
    cases a with
    | ask | elapse => rfl
    | go =>
      refine same ?_
      cases ready with
      | nil => exact panics_close
      | cons pid ready =>
        obtain ⟨process, -, -, hgo⟩ := go_ready tally
        rw [act, hgo]
        rfl
  | turn ready s first process session =>
    cases a with
    | ask | elapse => rfl
    | go =>
      obtain ⟨-, hnamed, -⟩ := reachable.session_orderly
      obtain ⟨session', -, ⟨-, hgo⟩ | ⟨outcome, hended, hgo⟩⟩ :=
        go_turn rfl ⟨tally, hnamed, trivial⟩
      · refine same ?_
        rw [act, hgo]
        rfl
      · -- The turn is over. If it has ended with a fault, that is reported of another process.
        rw [hended] at unfaulted
        rw [reportsOf, act, hgo, panics_endTurn, Array.toList_append, List.filterMap_append]
        refine (congrArg (_ ++ ·) ?_).trans (List.append_nil _)
        cases outcome with
        | ok pause => rfl
        | error fault =>
          have hne : first ≠ pid := by
            rintro rfl
            exact unfaulted fault (List.mem_singleton_self _)
          simp [hne]

/-! ## Those that have been asked to end -/

/-- The process is at home, or its turn has begun but it has done nothing in it; it has been asked
to end, and since it was `q` only these letters have reached its actor. -/
inductive Inert (q : Process) (received : List Letter) : Moment → Prop
  | home {m : Moment} {q' : Process} (lives : m.table.Lives q.pid q')
    (exits : q'.exitRequested = true)
    (actor : ∃ γ, q.actor.Receives γ received q'.actor) : Inert q received m
  | turn {ready : List Pid} {s : Scheduler} {q' : Process} {session : Session Dispatch}
    (exits : q'.exitRequested = true) (undone : session.actor = q'.actor)
    (actor : ∃ γ, q.actor.Receives γ received q'.actor) :
    Inert q received (turn ready s q.pid q' session)

/-- Through some acts a process that has been asked to end executes nothing, its slot is not
released, and no fault is reported of it. If a rotation is closed meanwhile, it is only one, and the
process has a turn in the next one. -/
structure Condemned (m : Moment) (q : Process) (acts : List Act) : Prop where
  inert : (m.after acts).Inert q (letters m.table.layout q.pid (m.trace granted acts))
  unreleased : m.table.layout.index q.pid ∉ m.trace released acts
  unreported : (m.after acts).reportsOf q.pid = m.reportsOf q.pid
  closings : m.closings acts = 0 ∨ m.closings acts = 1 ∧ q.pid ∈ (m.after acts).soon

/-- After some acts the process is released: its slot is vacant and in its next generation, and its
pid reaches nothing. -/
structure Vanishes (m : Moment) (q : Process) (acts : List Act) : Prop where
  condemned : m.Condemned q acts
  released : m.table.layout.index q.pid ∈ (m.after acts).released .go
  unreported : (m.after (acts ++ [.go])).reportsOf q.pid = m.reportsOf q.pid
  vacant : (m.after (acts ++ [.go])).table.slots[m.table.layout.index q.pid]? =
    some ⟨m.table.layout.nextGeneration (m.table.layout.generation q.pid), .vacant⟩
  refused : (m.after (acts ++ [.go])).table.Refuses q.pid

/-- An act that closes no rotation takes nothing from what is known of a process that has been asked
to end, if it leaves the process inert. -/
theorem Condemned.concat (h : m.Condemned q acts) (reachable : m.Reachable)
    (inert : ((m.after acts).act a).Inert q
      (letters m.table.layout q.pid (m.trace granted acts ++ (m.after acts).granted a)))
    (unfaulted : ∀ fault, (q.pid, .error fault) ∉ (m.after acts).ended a)
    (unclosed : ∀ s, m.after acts = between [] s → a ≠ .go)
    (soon : q.pid ∈ (m.after acts).soon → q.pid ∈ ((m.after acts).act a).soon) :
    m.Condemned q (acts ++ [a]) := by
  obtain ⟨hlooks, hreleased⟩ := looks_of_unclosed unclosed
  refine ⟨?_, ?_, ?_, ?_⟩
  · rw [after_concat, trace_concat]
    exact inert
  · rw [trace_concat, hreleased, List.append_nil]
    exact h.unreleased
  · rw [after_concat]
    exact (reportsOf_act (reachable.after acts) unfaulted).trans h.unreported
  · rw [closings_concat, hlooks, after_concat]
    exact h.closings.imp id fun ⟨hone, hsoon⟩ => ⟨hone, soon hsoon⟩

section

variable {ready : List Pid} {s : Scheduler} {session : Session Dispatch}

/-- The turn of a process that has been asked to end ends at once. -/
theorem Condemned.of_turn (h : m.Condemned q acts) (reachable : m.Reachable) (a : Act)
    (hm : m.after acts = turn ready s q.pid q' session) (exits : q'.exitRequested = true)
    (undone : session.actor = q'.actor)
    (actor : ∃ γ, q.actor.Receives γ
      (letters m.table.layout q.pid (m.trace granted acts)) q'.actor) :
    m.Condemned q (acts ++ [a]) := by
  have now := hm ▸ reachable.after acts
  obtain ⟨log, tally⟩ := now.exists_tally
  obtain ⟨-, hnamed, -⟩ := now.session_orderly
  have hgranted : (turn ready s q.pid q' session).granted a = [] := by
    cases a with
    | ask | elapse => rfl
    | go => rw [granted, if_pos exits]
  refine h.concat reachable ?_ ?_ ?_ ?_ <;> rw [hm]
  · rw [hgranted, List.append_nil]
    cases a with
    | ask | elapse => exact .turn exits undone actor
    | go =>
      have home : (Moment.endTurn ready s q.pid q' (.ok .exit) session).table.Lives q'.pid _ :=
        (lives_endTurn tally (hnamed ▸ List.mem_cons_self)).1
      rw [act, go, if_pos exits]
      obtain ⟨i, slot, hslot, hresident, -⟩ := home
      exact .home ⟨i, slot, hslot, hresident, hnamed⟩ exits (by rw [undone]; exact actor)
  · cases a with
    | ask | elapse => exact fun _ => List.not_mem_nil
    | go =>
      rw [ended, if_pos exits]
      rintro fault hmem
      cases List.mem_singleton.mp hmem
  · rintro _ ⟨⟩
  · intro _
    cases a with
    | ask | elapse => exact List.mem_cons_self
    | go =>
      obtain ⟨now, hend, hdead, -⟩ := exists_endTurn ready s q.pid q' (.ok .exit) session
      rw [act, go, if_pos exits, hend, soon, hdead]
      exact List.mem_append_right _ (List.mem_append_right _ List.mem_cons_self)

/-- When the rotation is closed and the process has not ended in it, it has a turn in the next one,
even if it has been waiting. -/
theorem Condemned.of_looked (h : m.Condemned q acts) (reachable : m.Reachable)
    (hm : m.after acts = between [] s) (lives : s.table.Lives q.pid q')
    (exits : q'.exitRequested = true)
    (actor : ∃ γ, q.actor.Receives γ (letters m.table.layout q.pid (m.trace granted acts)) q'.actor)
    (alive : q'.state ≠ .dead) (hlooked : s.close.table.Lives q.pid (q'.looked s.tick.now)) :
    m.Condemned q (acts ++ [.go]) := by
  have now := hm ▸ reachable.after acts
  have hpid := lives.pid_eq
  have hlayout : s.table.layout = m.table.layout := by
    rw [← reachable.layout_after acts, hm]
    rfl
  obtain ⟨log, tally⟩ := now.exists_tally
  have tally : s.table.Tally s.queued log := tally
  have hnot : q.pid ∉ s.dead := by
    rw [← hpid] at lives ⊢
    exact fun hmem => alive ((tally.dead_iff_mem lives).mpr hmem)
  have hkept : (q'.looked s.tick.now).exitRequested = q'.exitRequested ∧
      (q'.looked s.tick.now).actor = q'.actor := by
    unfold Process.looked
    split <;> exact ⟨rfl, rfl⟩
  refine ⟨?_, ?_, ?_, ?_⟩
  · rw [after_concat, trace_concat, hm]
    refine .home hlooked (hkept.1.trans exits) ?_
    rw [hkept.2]
    exact (List.append_nil (m.trace granted acts)).symm ▸ actor
  · rw [trace_concat, hm, List.mem_append, not_or]
    refine ⟨h.unreleased, fun hreleased => ?_⟩
    obtain ⟨pid, hmem, hindex⟩ := List.mem_map.mp hreleased
    rw [← hpid] at lives
    refine tally.index_ne lives (mem_queued_dead.mpr hmem)
      (by rw [hpid]; rintro rfl; exact hnot hmem) ?_
    rw [hindex, hpid, hlayout]
  · rw [after_concat, hm]
    refine (reportsOf_act now fun _ => nofun).trans ?_
    rw [← hm]
    exact h.unreported
  · rw [closings_concat, after_concat, hm]
    rcases h.closings with hnone | ⟨-, hmem⟩
    · rw [hnone]
      obtain ⟨log', orderly'⟩ := (now.act .go).exists_orderly
      refine .inr ⟨rfl, ?_⟩
      have hpid' : (q'.looked s.tick.now).pid = q.pid := (q'.pid_looked _).trans hpid
      rw [← hpid'] at hlooked ⊢
      exact (mem_soon_rest orderly' hlooked).mpr (Process.awake_of_exitRequested exits _)
    · rw [hm] at hmem
      exact absurd hmem hnot

/-- When the rotation is closed in which the process has ended, its slot is released. -/
theorem Condemned.vanishes (h : m.Condemned q acts) (reachable : m.Reachable)
    (hm : m.after acts = between [] s) (hmem : q.pid ∈ s.dead) : m.Vanishes q acts := by
  have now := hm ▸ reachable.after acts
  have hlayout : s.table.layout = m.table.layout := by
    rw [← reachable.layout_after acts, hm]
    rfl
  obtain ⟨log, tally⟩ := now.exists_tally
  have tally : s.table.Tally s.queued log := tally
  have hvacant := ((tally_wakeReady tally).perm List.perm_append_comm).slots_releases
    (s.keeps_wakeReady.2.symm ▸ hmem)
  have hwoken : s.wakeReady.table.layout = m.table.layout :=
    (congrArg Prod.fst s.naming_wakeReady).trans hlayout
  rw [hwoken] at hvacant
  have hafter : m.after (acts ++ [.go]) = rest s.close := by
    rw [after_concat, hm]
    rfl
  refine ⟨h, ?_, ?_, by rw [hafter]; exact hvacant, ?_⟩
  · rw [hm, ← hlayout]
    exact List.mem_map_of_mem (f := s.table.layout.index) hmem
  · rw [after_concat, hm]
    refine (reportsOf_act now fun _ => nofun).trans ?_
    rw [← hm]
    exact h.unreported
  · have hclosed := reachable.layout_after (acts ++ [.go])
    rw [hafter] at hclosed ⊢
    have hslot : (rest s.close).table.slots[m.table.layout.index q.pid]? = some _ := hvacant
    rw [← hclosed] at hslot
    exact ProcessTable.refuses_of_vacant hslot rfl

end

/-- An act leaves a process that has been asked to end inert, or closes the rotation in which it has
ended. -/
theorem Condemned.step (h : m.Condemned q acts) (reachable : m.Reachable) (a : Act) :
    m.Condemned q (acts ++ [a]) ∨ a = .go ∧ m.Vanishes q acts := by
  have now := reachable.after acts
  have hlayout : (m.after acts).table.layout = m.table.layout := reachable.layout_after acts
  have hinert := h.inert
  generalize hm : m.after acts = m' at now hlayout hinert
  cases hinert with
  | turn exits undone actor => exact .inl (h.of_turn reachable a hm exits undone actor)
  | @home _ q' lives exits actor =>
    have hpid := lives.pid_eq
    have hlives : m'.table.Lives q'.pid q' := hpid ▸ lives
    -- An act that grants nothing to anybody leaves what the actor has received.
    have unmoved : m'.granted a = [] → ∃ γ, q.actor.Receives γ
        (letters m.table.layout q.pid (m.trace granted acts ++ m'.granted a)) q'.actor := by
      intro hnone
      rw [hnone, List.append_nil]
      exact actor
    have unfaulted : ∀ fault, (q.pid, .error fault) ∉ m'.ended a :=
      fun fault => hpid ▸ not_ended_of_lives now hlives _
    cases fate now hlives a with
    | @touched q'' unclosed hlives' htouched =>
      left
      refine h.concat reachable ?_ (hm ▸ unfaulted) (hm ▸ unclosed) ?_ <;> rw [hm]
      · obtain ⟨γ, hreceived⟩ := actor
        obtain ⟨γ', hreceived'⟩ := htouched.actor
        rw [hpid] at hlives'
        refine .home hlives' (by rw [htouched.exitRequested, exits, Bool.true_or]) ⟨γ.comp γ', ?_⟩
        rw [letters, List.filterMap_append]
        rw [hlayout, hpid] at hreceived'
        exact hreceived.trans hreceived'
      · intro hsoon
        rw [← hpid] at hsoon ⊢
        exact mem_soon_act now hlives hlives' (fun _ _ => htouched.place) unclosed hsoon
    | @admitted s hs ha hlives' =>
      subst hs ha
      left
      refine h.concat reachable ?_ (hm ▸ unfaulted) (hm ▸ by rintro _ ⟨⟩) ?_ <;> rw [hm]
      · have hkept : q'.admitted.exitRequested = q'.exitRequested ∧
            q'.admitted.actor = q'.actor := by
          unfold Process.admitted
          split <;> exact ⟨rfl, rfl⟩
        rw [hpid] at hlives'
        refine .home hlives' (hkept.1.trans exits) ?_
        rw [hkept.2]
        exact unmoved rfl
      · intro hsoon
        rw [← hpid] at hsoon ⊢
        exact mem_soon_act now hlives hlives' (by rintro _ ⟨⟩) (by rintro _ ⟨⟩) hsoon
    | @called ready s hs ha hgo =>
      subst hs ha
      left
      refine h.concat reachable ?_ (hm ▸ unfaulted) (hm ▸ by rintro _ ⟨⟩) ?_ <;> rw [hm, hgo]
      · rw [hpid]
        exact .turn exits rfl (unmoved rfl)
      · exact id
    | looked hs ha alive hlives' =>
      subst hs ha
      exact .inl (h.of_looked reachable hm lives exits actor alive (hpid ▸ hlives'))
    | released hs ha hdead hmem =>
      subst hs ha
      exact .inr ⟨rfl, h.vanishes reachable hm (hpid ▸ hmem)⟩

/-- A process that has been asked to end executes nothing, and is released when the second rotation
from then on is closed at the latest. -/
theorem condemned_or_vanishes (reachable : m.Reachable) (hq : m.table.Lives q.pid q)
    (exits : q.exitRequested = true) (acts : List Act) :
    m.Condemned q acts ∨ ∃ before, before ++ [.go] <+: acts ∧ m.Vanishes q before := by
  induction acts using List.reverseRecOn with
  | nil =>
    obtain ⟨ρ, sound⟩ := reachable.sound_of_lives hq
    exact .inl ⟨.home hq exits ⟨ρ, .of_equivalent sound⟩, List.not_mem_nil, rfl, .inl rfl⟩
  | append_singleton acts a ih =>
    rcases ih with condemned | ⟨before, hprefix, vanishes⟩
    · rcases condemned.step reachable a with condemned | ⟨rfl, vanishes⟩
      · exact .inl condemned
      · exact .inr ⟨acts, List.prefix_refl _, vanishes⟩
    · exact .inr ⟨before, hprefix.trans (List.prefix_append acts [a]), vanishes⟩

/-- Only those that are at home and alive can be asked to end. -/
theorem get?_of_kill {target : Pid} (h : Ask.kill target ∈ m.granted a) :
    ∃ p, m.table.get? target = some p := by
  refine Option.ne_none_iff_exists'.mp fun hnone => ?_
  have hrefused := ProcessTable.onProcess_of_get?_eq_none hnone Process.requestExit
  cases m with
  | between => cases h
  | rest s =>
    cases a with
    | go | elapse => cases h
    | ask r =>
      cases r with
      | kill target' =>
        have h : Ask.kill target ∈ (Ask.kill target').grantedBy (Scheduler.kill target' s) := h
        obtain ⟨heq, _, _, run⟩ := Ask.of_mem_grantedBy h
        cases heq
        have hrefused : ProcessTable.kill target s.table = _ := hrefused
        rw [Scheduler.kill, Scheduler.onTable, hrefused] at run
        cases run
      | send | sendText => cases (Ask.of_mem_grantedBy h).1
      | _ => cases h
  | turn ready s pid process session =>
    cases a with
    | ask | elapse => cases h
    | go =>
      rw [granted, Session.granted] at h
      split at h
      · cases h
      · split at h
        · rename_i ask _
          rw [ask.granted_eq] at h
          obtain ⟨heq, _, _, run⟩ := Ask.of_mem_grantedBy h
          cases heq
          have hperform : (Ask.kill target).perform session.kernel = EStateM.map (fun _ => none)
            (Dispatch.onTable (ProcessTable.kill target)) session.kernel := rfl
          have hrefused : ProcessTable.kill target session.kernel.table = _ := hrefused
          rw [hperform, EStateM.map, Dispatch.onTable, hrefused] at run
          cases run
        · cases h

/-- Whoever has been asked to end, from outside or by another process, was at home and alive. From
then on it executes nothing, whatever it has been doing or waiting for; no fault is reported of it;
and it is released when the second rotation is closed at the latest. -/
theorem kill_completes (reachable : m.Reachable) {target : Pid}
    (h : Ask.kill target ∈ m.granted a) :
    ∃ q, m.table.layout.Addresses target q.pid ∧ (m.act a).table.Lives q.pid q ∧ q.state ≠ .dead ∧
      (∀ acts, (m.act a).Condemned q acts ∨ ∃ before, before ++ [.go] <+: acts ∧
        (m.act a).Vanishes q before) ∧
      ∀ acts, 2 ≤ (m.act a).closings acts → ∃ before, before ++ [.go] <+: acts ∧
        (m.act a).Vanishes q before := by
  obtain ⟨log, tally⟩ := reachable.exists_tally
  obtain ⟨p, hget⟩ := get?_of_kill h
  obtain ⟨hoccupant, alive⟩ := ProcessTable.get?_eq_some hget
  have meant := tally.addresses_of_get? hget
  have hp : m.table.Lives p.pid p := by
    unfold ProcessTable.occupant at hoccupant
    split at hoccupant
    · cases hoccupant
    · rename_i slot hslot
      split at hoccupant
      · exact ⟨_, slot, hslot, hoccupant, rfl⟩
      · cases hoccupant
  -- Of what can become of it, only that a request reaches it grants one.
  have silent : m.granted a = [] → False := fun hnone => by
    rw [hnone] at h
    cases h
  cases fate reachable hp a with
  | @touched q unclosed lives touched =>
    have hpid := touched.pid
    have exits : q.exitRequested = true := by
      rw [touched.exitRequested, Bool.or_eq_true]
      exact .inr (List.any_eq_true.mpr ⟨_, h, decide_eq_true meant⟩)
    have hplace := touched.place
    rw [← hpid] at meant lives
    have either := condemned_or_vanishes (reachable.act a) lives exits
    refine ⟨q, meant, lives, ?_, either, fun acts hcount => ?_⟩
    · intro hdead
      rw [hdead] at hplace
      cases hstate : p.state <;> rw [hstate] at hplace <;> first | exact alive hstate | cases hplace
    · rcases either acts with condemned | vanishes
      · rcases condemned.closings with hnone | ⟨hone, -⟩ <;> omega
      · exact vanishes
  | admitted hm ha => exact (silent (by rw [hm, ha]; rfl)).elim
  | called hm ha => exact (silent (by rw [hm, ha]; rfl)).elim
  | looked hm ha => exact (silent (by rw [hm, ha]; rfl)).elim
  | released hm ha => exact (silent (by rw [hm, ha]; rfl)).elim

/-- A process that waits for five microseconds is asked to end. -/
theorem kill_completes_drowsy : ∃ (s s' : Scheduler) (q : Process), History [] s ∧
    s.runOnce 3 = some (.idle (some 5), s') ∧ (s'.ask (.kill ⟨0⟩)).table.Lives q.pid q ∧
      (rest (s'.ask (.kill ⟨0⟩))).Condemned q [] ∧
      ∀ acts, 2 ≤ (rest (s'.ask (.kill ⟨0⟩))).closings acts →
        ∃ before, before ++ [.go] <+: acts ∧ (rest (s'.ask (.kill ⟨0⟩))).Vanishes q before := by
  have created : twoSlots.Created :=
    ⟨{ indexBits := 1, generationBits := 1 }, _, .create ⟨#[]⟩ .refuse, rfl⟩
  let s := (twoSlots.ask (.load drowsy)).ask (.spawn (.function ⟨0, 0⟩) [])
  have history : History [] s := .ask (.ask (.create created) _) _
  have runs : (s.runOnce 3).map (fun result =>
        (result.1, (Ask.kill ⟨0⟩).grantedBy (Scheduler.kill ⟨0⟩ result.2) |>.length)) =
      some (.idle (some 5), 1) := by decide +kernel
  obtain ⟨⟨state, s'⟩, hrun, hstate⟩ := Option.map_eq_some_iff.mp runs
  obtain ⟨rfl, hlength⟩ := Prod.mk.inj hstate
  obtain ⟨-, log, s₁, reachable, -, rfl⟩ := (rotates_of_runOnce hrun).exists_close history
  have hgranted : Ask.kill ⟨0⟩ ∈ (rest s₁.close).granted (.ask (.kill ⟨0⟩)) := by
    obtain ⟨ask, hmem⟩ := List.exists_mem_of_length_pos
      (Nat.lt_of_lt_of_eq Nat.one_pos hlength.symm)
    obtain ⟨rfl, -⟩ := Ask.of_mem_grantedBy hmem
    exact hmem
  obtain ⟨q, -, lives, -, either, completes⟩ := kill_completes (reachable.act .go) hgranted
  refine ⟨s, _, q, history, hrun, lives, ?_, completes⟩
  rcases either [] with condemned | ⟨before, hprefix, -⟩
  · exact condemned
  · exact absurd (List.prefix_nil.mp hprefix) (by simp)

end Moment

end ActorMachine
