import ActorMachine.Proofs.Isolation

/-!
# Containment of panics

A turn of a process leaves every other process as it is, but for what has been asked for in it and
granted, however the turn ends (`Scheduler.contained_turn`). A panic is reported once, the process
is released when the rotation is closed, and until then the others cannot tell it from one that has
asked to end (`Scheduler.Contained`).
-/

namespace ActorMachine

open ProcessTable (Tally)

namespace Scheduler

variable {s s' : Scheduler} {ready : List Pid} {bound : Nat}

/-- The new state of a process whose turn has ended, and the system with the process at home
again. -/
def afterTurn (s : Scheduler) (pid : Pid) (process : Process) (outcome : Outcome) (actor : Actor)
    (table : ProcessTable) : ProcessState × Scheduler :=
  let (state, s) := { s with table := default }.endTurn pid outcome
  (state, { s with table := table.checkin { process with actor, state } })

theorem resume_eq (pid : Pid) : s.resume pid bound =
    match s.table.checkout? pid with
    | none => some (none, s)
    | some (process, table) =>
      (runTurn s.loader table process bound).map fun (outcome, actor, table) =>
        let (state, s) := s.afterTurn pid process outcome actor table
        (some state, s) := rfl

/-! ## Reports do not matter -/

/-- The same system, in which some panics have been reported before. -/
def reporting (s : Scheduler) (panics : Array (Pid × Fault)) : Scheduler :=
  { s with panics := panics ++ s.panics }

variable (panics : Array (Pid × Fault))

theorem afterTurn_reporting (pid : Pid) (process : Process) (outcome : Outcome) (actor : Actor)
    (table : ProcessTable) : (s.reporting panics).afterTurn pid process outcome actor table =
      ((s.afterTurn pid process outcome actor table).1,
        (s.afterTurn pid process outcome actor table).2.reporting panics) := by
  cases outcome with
  | error e => simp [afterTurn, endTurn, reporting]
  | ok pause =>
    cases pause with
    | block timeout => cases timeout <;> rfl
    | _ => rfl

theorem resume_reporting (pid : Pid) :
    (s.reporting panics).resume pid bound =
      (s.resume pid bound).map fun x => (x.1, x.2.reporting panics) := by
  rw [resume_eq, resume_eq]
  show (match s.table.checkout? pid with
    | none => _
    | some (process, table) => _) = _
  cases s.table.checkout? pid with
  | none => rfl
  | some out =>
    simp only [afterTurn_reporting, Option.map_map]
    rfl

theorem enlist_reporting (pid : Pid) (state : ProcessState) :
    (s.reporting panics).enlist pid state = (s.enlist pid state).reporting panics := by
  cases state <;> rfl

/-- The turns of a rotation take the same course whatever has been reported before. -/
theorem giveTurns_reporting :
    giveTurns bound ready (s.reporting panics) =
      (giveTurns bound ready s).map fun t => t.reporting panics := by
  induction ready generalizing s with
  | nil => rfl
  | cons pid ready ih =>
    rw [giveTurns_cons, giveTurns_cons, resume_reporting]
    cases s.resume pid bound with
    | none => rfl
    | some resumed =>
      obtain ⟨state, t⟩ := resumed
      cases state with
      | none => exact ih
      | some state =>
        show giveTurns bound ready ((t.reporting panics).enlist pid state) = _
        rw [enlist_reporting]
        exact ih

/-! ## What turns leave behind -/

theorem panics_afterTurn (pid : Pid) (process : Process) (outcome : Outcome) (actor : Actor)
    (table : ProcessTable) : (s.afterTurn pid process outcome actor table).2.panics =
      s.panics ++ (match outcome with | .error e => #[(pid, e)] | .ok _ => #[]) := by
  cases outcome with
  | error e => rfl
  | ok pause =>
    cases pause with
    | block timeout => cases timeout <;> simp [afterTurn, endTurn, tick]
    | _ => simp [afterTurn, endTurn]

theorem panics_resume {pid : Pid} {state : Option ProcessState}
    (run : s.resume pid bound = some (state, s')) :
    ∃ more, s'.panics = s.panics ++ more ∧ ∀ x ∈ more, x.1 = pid := by
  rw [resume_eq] at run
  cases hout : s.table.checkout? pid with
  | none =>
    rw [hout] at run
    cases run
    exact ⟨#[], Array.append_empty.symm, by simp⟩
  | some out =>
    rw [hout] at run
    obtain ⟨⟨outcome, actor, table⟩, -, hended⟩ := Option.map_eq_some_iff.mp run
    cases hended
    refine ⟨_, panics_afterTurn pid out.1 outcome actor table, ?_⟩
    cases outcome <;> simp

/-- Turns do not touch the list of those that have ended before. -/
theorem dead_resume {pid : Pid} {state : Option ProcessState}
    (run : s.resume pid bound = some (state, s')) : s'.dead = s.dead := by
  rw [resume_eq] at run
  cases hout : s.table.checkout? pid with
  | none =>
    rw [hout] at run
    cases run
    rfl
  | some out =>
    rw [hout] at run
    obtain ⟨⟨outcome, actor, table⟩, -, hended⟩ := Option.map_eq_some_iff.mp run
    cases hended
    exact (endTurn_spec _ pid outcome).2.2.2.2

/-- In a rotation a process ends no more than once, and panics are reported of those only whose
turns were to come. -/
theorem panics_giveTurns (run : giveTurns bound ready s = some s') :
    (∃ more, s'.panics = s.panics ++ more ∧ ∀ x ∈ more, x.1 ∈ ready) ∧ s.dead <+: s'.dead := by
  induction ready generalizing s with
  | nil =>
    cases run
    exact ⟨⟨#[], Array.append_empty.symm, by simp⟩, List.prefix_rfl⟩
  | cons pid ready ih =>
    rw [giveTurns_cons] at run
    cases hresume : s.resume pid bound with
    | none =>
      rw [hresume] at run
      cases run
    | some resumed =>
      obtain ⟨state, t⟩ := resumed
      rw [hresume] at run
      obtain ⟨first, hfirst, hpid⟩ := panics_resume hresume
      have joined : ∀ {t' : Scheduler} {more : Array (Pid × Fault)}, t'.panics = t.panics →
          s'.panics = t'.panics ++ more → (∀ x ∈ more, x.1 ∈ ready) →
          ∃ more, s'.panics = s.panics ++ more ∧ ∀ x ∈ more, x.1 ∈ pid :: ready := by
        intro t' more ht' hmore hready
        refine ⟨first ++ more, by rw [hmore, ht', hfirst, Array.append_assoc], fun x hx => ?_⟩
        rcases Array.mem_append.mp hx with hx | hx
        · rw [hpid x hx]
          exact List.mem_cons_self
        · exact List.mem_cons_of_mem _ (hready x hx)
      cases state with
      | none =>
        obtain ⟨⟨more, hmore, hready⟩, hdead⟩ := ih run
        exact ⟨joined rfl hmore hready, dead_resume hresume ▸ hdead⟩
      | some state =>
        obtain ⟨⟨more, hmore, hready⟩, hdead⟩ := ih run
        refine ⟨joined (by cases state <;> rfl) hmore hready, List.IsPrefix.trans ?_ hdead⟩
        rw [← dead_resume hresume]
        cases state with
        | dead => exact List.prefix_append _ _
        | _ => exact List.prefix_rfl

theorem panics_close : s.close.panics = s.panics := by
  have hwoken : s.wakeReady.panics = s.panics := by
    rw [wakeReady_eq]
    refine foldl_keeps (·.panics) (fun s pid => ?_) _ _
    unfold wake
    split
    · rfl
    · split <;> rfl
  exact hwoken

end Scheduler

/-! ## Releases -/

namespace ProcessTable

variable {t : ProcessTable} {log : List Nat} {rest : List (Pid × Place)} {dead : List Pid}

theorem Tally.slots_release {pid : Pid} {place : Place} {listed : List (Pid × Place)}
    (h : Tally ((pid, place) :: listed) log t) (i : Nat) :
    (t.release pid).slots[i]? = if t.layout.index pid = i then
      some ⟨t.layout.nextGeneration (t.layout.generation pid), .vacant⟩ else t.slots[i]? := by
  obtain ⟨slot, hslot, -⟩ := h.exists_slot List.mem_cons_self
  rw [h.release_eq, Array.getElem?_modify]
  split
  · rename_i hi
    rw [← hi, hslot]
    rfl
  · rfl

/-- A slot that is vacant is not concerned by releases. -/
theorem Tally.slots_releases_of_vacant (h : Tally (dead.map (·, .dead) ++ rest) log t) {i : Nat}
    {slot : Slot} (hslot : t.slots[i]? = some slot) (hvacant : slot.occupant = .vacant) :
    (dead.foldl ProcessTable.release t).slots[i]? = some slot := by
  induction dead generalizing t log with
  | nil => exact hslot
  | cons pid dead ih =>
    have tally : Tally ((pid, .dead) :: (dead.map (·, .dead) ++ rest)) log t := h
    refine ih tally.release ?_
    rw [tally.slots_release]
    have hne : t.layout.index pid ≠ i := by
      rintro rfl
      obtain ⟨slot', hslot', -, -, hplace⟩ := tally.exists_slot List.mem_cons_self
      rw [hslot] at hslot'
      cases hslot'
      rw [hvacant] at hplace
      cases hplace
    rw [if_neg hne, hslot]

/-- What has been released is free, under the next generation. -/
theorem Tally.slots_releases (h : Tally (dead.map (·, .dead) ++ rest) log t) {pid : Pid}
    (hpid : pid ∈ dead) : (dead.foldl ProcessTable.release t).slots[t.layout.index pid]? =
      some ⟨t.layout.nextGeneration (t.layout.generation pid), .vacant⟩ := by
  induction dead generalizing t log with
  | nil => cases hpid
  | cons first dead ih =>
    have hlayout : (t.release first).layout = t.layout := (Scheduler.keeps_release t first).1
    have tally : Tally ((first, .dead) :: (dead.map (·, .dead) ++ rest)) log t := h
    rcases List.mem_cons.mp hpid with rfl | hpid
    · exact tally.release.slots_releases_of_vacant (by rw [tally.slots_release, if_pos rfl]) rfl
    · have hrest := ih tally.release hpid
      rw [hlayout] at hrest
      exact hrest

variable {listed : List (Pid × Place)} {q : Process}

theorem Tally.slot_of_lives (h : Tally listed log t) (hq : t.Lives q.pid q) :
    ∃ slot, t.slots[t.layout.index q.pid]? = some slot ∧ slot.occupant = .resident q ∧
      t.pidOf (t.layout.index q.pid) slot = q.pid := by
  obtain ⟨i, slot, hslot, hresident, -⟩ := hq
  have hpid := h.named i slot q hslot hresident
  have hindex : t.layout.index q.pid = i := by rw [hpid, h.index_pidOf hslot]
  exact ⟨slot, by rw [hindex, hslot], hresident, by rw [hindex, hpid]⟩

/-- Different processes have different slots. -/
theorem Tally.index_ne (h : Tally listed log t) (hq : t.Lives q.pid q) {pid : Pid} {place : Place}
    (hmem : (pid, place) ∈ listed) (hne : q.pid ≠ pid) :
    t.layout.index pid ≠ t.layout.index q.pid := by
  intro heq
  obtain ⟨slot, hslot, -, hpidOf⟩ := h.slot_of_lives hq
  obtain ⟨slot', hslot', hpidOf', -⟩ := h.exists_slot hmem
  rw [heq, hslot] at hslot'
  cases hslot'
  rw [heq, hpidOf] at hpidOf'
  exact hne hpidOf'

theorem Tally.lives_setOccupant (h : Tally listed log t) (hq : t.Lives q.pid q) {address : Pid}
    (hne : t.layout.index address ≠ t.layout.index q.pid) (o : Occupant) :
    (t.setOccupant address o).Lives q.pid q := by
  obtain ⟨slot, hslot, hresident, -⟩ := h.slot_of_lives hq
  exact ⟨_, slot, (slots_setOccupant_of_ne hne o).trans hslot, hresident, rfl⟩

end ProcessTable

/-! ## Turns -/

namespace Moment

variable {m : Moment} {layout : PidLayout} {log : List Nat}

theorem Reachable.exists_numbered (h : m.Reachable) : ∃ layout log, m.Numbered layout log := by
  obtain ⟨s, acts, created, rfl⟩ := h
  exact ⟨_, _, numbered_after created acts⟩

theorem Numbered.after_go (h : m.Numbered layout log) (count : Nat) :
    ∃ log', (m.after (.replicate count .go)).Numbered layout log' := by
  induction count generalizing m log with
  | zero => exact ⟨log, h⟩
  | succ count ih => exact ih h.go

/-- Who is to have a turn yet, and the system, if no turn is under way in a rotation. -/
def betweenTurns? : Moment → Option (List Pid × Scheduler)
  | between ready s => some (ready, s)
  | _ => none

end Moment

namespace Scheduler

variable {s : Scheduler} {ready : List Pid} {pid : Pid}

/-- What is asked for in a turn and granted. -/
def grants (l : Loader) (table : ProcessTable) (process : Process) (bound : Nat) : List Ask :=
  if process.exitRequested then []
  else (⟨process.actor, ⟨table, process.pid⟩⟩ : Session Dispatch).grants l bound

/-- The turn of `pid` has ended in a panic, `panicked`, and `exited` is what it would have been if
the process had asked to end. The panic is reported, and the turns of the others take the same
course in both. When the rotation is closed, nothing more has been reported of the process, and only
then it is released. -/
structure Contained (pid : Pid) (e : Fault) (bound : Nat) (ready : List Pid)
    (s panicked exited : Scheduler) : Prop where
  reported : panicked.panics = s.panics.push (pid, e)
  unreported : exited.panics = s.panics
  goes_on : giveTurns bound (pid :: ready) s = giveTurns bound ready (panicked.enlist pid .dead)
  alike : ∀ turns, ∃ course : Option Scheduler,
    giveTurns bound turns (exited.enlist pid .dead) = course.map (·.reporting s.panics) ∧
    giveTurns bound turns (panicked.enlist pid .dead) =
      course.map (·.reporting (s.panics.push (pid, e)))
  released : ∀ last, giveTurns bound ready (panicked.enlist pid .dead) = some last →
    (∃ q, last.table.Lives pid q ∧ q.state = .dead) ∧
    last.close.table.slots[s.table.layout.index pid]? =
      some ⟨s.table.layout.nextGeneration (s.table.layout.generation pid), .vacant⟩ ∧
    s.table.layout.index pid ∈ last.close.table.free ∧
    ∃ later, last.close.panics = s.panics.push (pid, e) ++ later ∧ ∀ x ∈ later, x.1 ≠ pid

open Moment

/-- The process whose turn it is is at home and has not been asked for anything yet. -/
theorem exists_turn (reachable : (between (pid :: ready) s).Reachable) :
    s.loader.Built ∧ ∃ process, s.table.occupant pid = .resident process ∧ process.pid = pid ∧
      s.table.checkout? pid = some (process, s.table.setOccupant pid .away) ∧
      (⟨process.actor, ⟨s.table.setOccupant pid .away, process.pid⟩⟩ :
        Session Dispatch).Orderly := by
  have sound := sound_of_reachable (reachable.act .go)
  obtain ⟨layout, log, numbered⟩ := Moment.Reachable.exists_numbered reachable
  have tally := numbered.orderly.tally
  obtain ⟨process, hoccupant, hpid, -⟩ :=
    tally.exists_resident pid .running List.mem_cons_self (by decide)
  have hoccupant : s.table.occupant pid = .resident process := hoccupant
  have hout : s.table.checkout? pid = some (process, s.table.setOccupant pid .away) := by
    rw [ProcessTable.checkout?, hoccupant]
  have tally : Tally ((pid, .running) :: (ready.map (·, .running) ++ s.queued)) log s.table := tally
  have away := tally.setOccupant .away .away rfl (by rintro _ ⟨⟩)
  have hgo : (between (pid :: ready) s).act .go = turn ready { s with table := default } pid
      process ⟨process.actor, ⟨s.table.setOccupant pid .away, process.pid⟩⟩ := by
    rw [act, go, hout]
  rw [hgo] at sound
  exact ⟨sound.built, process, hoccupant, hpid, hout,
    ⟨sound.session _ rfl, sound.table, rfl⟩, _, _, away⟩

/-- What a turn does to each of the others. -/
theorem touched_of_runTurn (reachable : (between (pid :: ready) s).Reachable) {process : Process}
    {table table' : ProcessTable} (present : s.table.checkout? pid = some (process, table))
    {bound : Nat} {outcome : Outcome} {actor : Actor}
    (run : runTurn s.loader table process bound = some (outcome, actor, table')) {q : Process}
    (hq : s.table.Lives q.pid q) (hne : q.pid ≠ pid) :
    ∃ q', (s.afterTurn pid process outcome actor table').2.table.Lives q.pid q' ∧
      q.Touched s.table.layout (grants s.loader table process bound) q' := by
  obtain ⟨layout, log, numbered⟩ := Moment.Reachable.exists_numbered reachable
  have tally := numbered.orderly.tally
  have hne' : s.table.layout.index pid ≠ s.table.layout.index q.pid :=
    tally.index_ne hq List.mem_cons_self hne
  have hq' := tally.lives_setOccupant hq hne' .away
  obtain ⟨built, process, -, hpid, hout, orderly⟩ := exists_turn reachable
  rw [hout] at present
  cases present
  -- Bringing the process back concerns its own slot only.
  have back : ∀ {state : ProcessState} {q' : Process}, table'.layout = s.table.layout →
      (∃ listed log, Tally listed log table') → table'.Lives q.pid q' → q'.pid = q.pid →
      (table'.checkin { process with actor, state }).Lives q.pid q' := by
    intro state q' hlayout ⟨listed, log, tally⟩ hlives hpid'
    rw [← hpid'] at hlives hne' ⊢
    rw [← hlayout] at hne'
    refine tally.lives_setOccupant hlives ?_ _
    rw [hpid]
    exact hne'
  unfold runTurn at run
  unfold grants
  split at run
  · rename_i hexit
    cases run
    rw [if_pos hexit]
    exact ⟨q, back rfl orderly.tally hq' rfl, .refl (orderly.sound_of_lives hq') rfl rfl⟩
  · rename_i hstays
    obtain ⟨⟨outcome', session⟩, hrun, hended⟩ := Option.map_eq_some_iff.mp run
    cases hended
    rw [if_neg hstays]
    obtain ⟨q', hlives, touched⟩ := Session.touched_of_run built.inline orderly hrun hq'
    obtain ⟨hlayout, orderly'⟩ := orderly.run built.inline hrun
    exact ⟨q', back hlayout orderly'.tally hlives touched.pid, touched⟩

/-- A panic is contained. -/
theorem contained_of_runTurn (reachable : (between (pid :: ready) s).Reachable) {process : Process}
    {table table' : ProcessTable} (present : s.table.checkout? pid = some (process, table))
    {bound : Nat} {e : Fault} {actor : Actor}
    (run : runTurn s.loader table process bound = some (.error e, actor, table')) :
    Contained pid e bound ready s (s.afterTurn pid process (.error e) actor table').2
      (s.afterTurn pid process (.ok .exit) actor table').2 := by
  generalize hpanicked : (s.afterTurn pid process (.error e) actor table').2 = panicked
  generalize hexited : (s.afterTurn pid process (.ok .exit) actor table').2 = exited
  have hresume : s.resume pid bound = some (some .dead, panicked) := by
    rw [resume_eq, present]
    dsimp only
    rw [run, ← hpanicked]
    rfl
  have hgoes : giveTurns bound (pid :: ready) s =
      giveTurns bound ready (panicked.enlist pid .dead) := by
    rw [giveTurns_cons, hresume]
    rfl
  refine ⟨?_, ?_, hgoes, fun turns => ?_, fun last hlast => ?_⟩
  · rw [← hpanicked]
    rfl
  · rw [← hexited]
    rfl
  · -- Both are the same system, with different reports before.
    have hquiet : ∀ panics, giveTurns bound turns
        (reporting (enlist pid { exited with panics := #[] } .dead) panics) = _ :=
      fun panics => giveTurns_reporting panics
    refine ⟨_, (congrArg (giveTurns bound turns) ?_).trans (hquiet s.panics),
      (congrArg (giveTurns bound turns) ?_).trans (hquiet (s.panics.push (pid, e)))⟩
    · rw [← hexited]
      rfl
    · rw [← hpanicked, ← hexited]
      rfl
  · -- When the rotation is closed, the process that has panicked is among the dead.
    obtain ⟨layout, log, numbered⟩ := Moment.Reachable.exists_numbered reachable
    obtain ⟨count, passes⟩ := passes_of_giveTurns (hgoes.trans hlast)
    obtain ⟨log', numbered'⟩ := numbered.after_go count
    rw [passes.after] at numbered'
    have hlayout : last.table.layout = s.table.layout := numbered'.layout.trans numbered.layout.symm
    obtain ⟨⟨later, hlater, hready⟩, hdead⟩ := panics_giveTurns hlast
    have hpid : pid ∈ last.dead := hdead.subset (List.mem_append_right _ List.mem_cons_self)
    have tally : Tally last.queued log' last.table := numbered'.orderly.tally
    have hlisted : (pid, Place.dead) ∈ last.queued :=
      List.mem_append_right _ (List.mem_map_of_mem hpid)
    have woken := tally_wakeReady tally
    have hended : pid ∈ last.wakeReady.dead := last.keeps_wakeReady.2.symm ▸ hpid
    have hwoken : last.wakeReady.table.layout = s.table.layout :=
      (congrArg Prod.fst (naming_wakeReady (s := last))).trans hlayout
    have hslot := (woken.perm List.perm_append_comm).slots_releases hended
    rw [hwoken] at hslot
    refine ⟨?_, hslot, ?_, later, ?_, fun x hx => ?_⟩
    · obtain ⟨q, hoccupant, -, hplace⟩ := tally.exists_resident pid .dead hlisted nofun
      obtain ⟨slot, hslot, hpidOf, hoccupant', -⟩ := tally.exists_slot hlisted
      have hresident := hoccupant'.symm.trans hoccupant
      refine ⟨q, ⟨_, slot, hslot, hresident, (tally.named _ slot q hslot hresident).trans hpidOf⟩,
        ?_⟩
      cases hstate : q.state <;> rw [hstate] at hplace <;> first | rfl | cases hplace
    · exact ((tally_close tally).mem_free _).mpr ⟨_, hslot, rfl⟩
    · rw [panics_close, hlater, ← hpanicked]
      rfl
    · -- Those whose turns are to come are others.
      have hnodup : (pid :: (ready ++ s.queued.map Prod.fst)).Nodup := by
        have hpids := numbered.orderly.tally.nodup_pids
        simpa [Moment.listed, Function.comp_def] using hpids
      rintro rfl
      exact (List.nodup_cons.mp hnodup).1 (List.mem_append_left _ (hready x hx))

/-- The process whose turn it is gets one, and however its turn ends, nothing else has been done to
the others than what it has asked for and been granted. A panic is contained. -/
theorem contained_turn (reachable : (between (pid :: ready) s).Reachable) :
    ∃ process table, s.table.checkout? pid = some (process, table) ∧ process.pid = pid ∧
    ∀ bound outcome actor table',
      runTurn s.loader table process bound = some (outcome, actor, table') →
      ∃ state s', s.resume pid bound = some (some state, s') ∧ s'.loader = s.loader ∧
        (∀ q, s.table.Lives q.pid q → q.pid ≠ pid → ∃ q', s'.table.Lives q.pid q' ∧
          q.Touched s.table.layout (grants s.loader table process bound) q') ∧
        ∀ e, outcome = .error e → Contained pid e bound ready s s'
          (s.afterTurn pid process (.ok .exit) actor table').2 := by
  obtain ⟨-, process, -, hpid, present, -⟩ := exists_turn reachable
  refine ⟨process, _, present, hpid, fun bound outcome actor table' run => ?_⟩
  refine ⟨(s.afterTurn pid process outcome actor table').1,
    (s.afterTurn pid process outcome actor table').2, ?_, ?_, fun q hq hne => ?_, ?_⟩
  · rw [resume_eq, present]
    dsimp only
    rw [run]
    rfl
  · exact (endTurn_spec { s with table := default } pid outcome).2.1
  · exact touched_of_runTurn reachable present run hq hne
  · rintro e rfl
    exact contained_of_runTurn reachable present run

/-- A program that sends a number to the process that it is told, and panics. -/
def greeter : Chunk :=
  .ofModule { Prototype.named "m" with
    code := [.pack .llv (-1), .pack .lsi 7, .pack .snd 0, .pack .ldk 0] }

/-- A process has sent a number to another one, and has panicked. -/
theorem contained_turn_greeter :
    ∃ (s : Scheduler) (p q : Pid) (process : Process) (table : ProcessTable),
    (between [p, q] s).Reachable ∧ s.table.checkout? p = some (process, table) ∧
    ∃ e actor table' s', runTurn s.loader table process 5 = some (.error e, actor, table') ∧
      s.resume p 5 = some (some .dead, s') ∧ (grants s.loader table process 5).length = 1 ∧
      Contained p e 5 [q] s s' (s.afterTurn p process (.ok .exit) actor table').2 := by
  have created : twoSlots.Created :=
    ⟨{ indexBits := 1, generationBits := 1 }, _, .create ⟨#[]⟩ .refuse, rfl⟩
  let p := twoSlots.table.layout.pid 0 0
  let q := twoSlots.table.layout.pid 1 0
  let acts : List Act := [.ask (.load greeter), .ask (.spawn (.function ⟨0, 0⟩) [.value (.pid q)]),
    .ask (.spawn (.function ⟨0, 0⟩) [.value .nil]), .go]
  have reachable : ((rest twoSlots).after acts).Reachable := ⟨twoSlots, acts, created, rfl⟩
  have runs : (((rest twoSlots).after acts).betweenTurns?.bind fun b =>
      (b.2.table.checkout? p).bind fun out =>
        (runTurn b.2.loader out.2 out.1 5).map fun ended =>
          (b.1, ended.1.toOption, (grants b.2.loader out.2 out.1 5).length)) =
    some ([p, q], none, 1) := by decide +kernel
  obtain ⟨b, hb, runs⟩ := Option.bind_eq_some_iff.mp runs
  generalize (rest twoSlots).after acts = m at reachable hb
  cases m with
  | between ready s =>
    cases hb
    obtain ⟨⟨process, table⟩, present, runs⟩ := Option.bind_eq_some_iff.mp runs
    obtain ⟨⟨outcome, actor, table'⟩, run, hended⟩ := Option.map_eq_some_iff.mp runs
    simp only [Prod.mk.injEq] at hended
    obtain ⟨rfl, houtcome, hgrants⟩ := hended
    cases outcome with
    | ok pause => cases houtcome
    | error e =>
      obtain ⟨process', table'', present', -, hturn⟩ := contained_turn reachable
      cases present.symm.trans present'
      obtain ⟨state, s', hresume, -, -, hcontained⟩ := hturn 5 (.error e) actor table' run
      have hdead : state = .dead := by
        rw [resume_eq, present] at hresume
        dsimp only at hresume
        rw [run] at hresume
        cases hresume
        rfl
      rw [hdead] at hresume
      exact ⟨s, p, q, process, table, reachable, present, e, actor, table', s', run,
        hresume, hgrants, hcontained e rfl⟩
  | rest | turn => cases hb

end Scheduler

end ActorMachine
