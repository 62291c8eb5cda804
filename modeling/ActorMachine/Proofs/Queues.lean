import ActorMachine.Proofs.Moments
import ActorMachine.Proofs.Others
import ActorMachine.Proofs.Slots

/-!
# The queues of a system

At every moment each process that has not been released is in exactly one queue, and it is the queue
of its state (`Moment.Reachable.orderly`): started and not admitted yet, ready, waiting, ended in
this rotation, or being run. Nothing else is in the queues.

A request can start a process, reach one, advance the clock or load a chunk, or be refused, and
nothing else (`Scheduler.meets_ask`).
-/

namespace ActorMachine

open ProcessTable (Tally)

namespace ProcessTable

variable {t : ProcessTable} {listed : List (Pid × Place)} {log : List Nat}

/-- A process that is listed as neither ended nor being run is found. -/
theorem Tally.exists_get? (h : Tally listed log t) (pid : Pid) (place : Place)
    (hmem : (pid, place) ∈ listed) (home : place ≠ .away) (alive : place ≠ .dead) :
    ∃ p, t.get? pid = some p ∧ p.pid = pid ∧ p.state.place = place := by
  obtain ⟨p, hoccupant, hpid, hplace⟩ := h.exists_resident pid place hmem home
  refine ⟨p, ?_, hpid, hplace⟩
  have hstate : p.state ≠ .dead := by
    rintro hdead
    rw [hdead] at hplace
    exact alive hplace.symm
  rw [get?, hoccupant]
  exact if_neg hstate

theorem get?_eq_some {pid : Pid} {p : Process} (h : t.get? pid = some p) :
    t.occupant pid = .resident p ∧ p.state ≠ .dead := by
  unfold get? Occupant.process? at h
  split at h
  · split at h
    · cases h
    · cases h
      exact ⟨by assumption, by assumption⟩
  · cases h

/-- Reaching a process leaves the rest of the table as it is. -/
theorem keeps_onProcess (address : Pid) (m : EStateM Fault Process α) :
    Keeps (fun t => (t.layout, t.config, t.free, t.pending, t.live)) (onProcess address m) := by
  intro t
  unfold leaves onProcess
  cases t.get? address with
  | none => rfl
  | some p =>
    dsimp only
    cases m p <;> rfl

end ProcessTable

namespace Process

theorem keeps_onActor (m : ActorM α) :
    Keeps (fun p => (p.pid, p.state, p.exitRequested)) (onActor m) := by
  intro p
  unfold leaves onActor
  dsimp only
  cases m p.actor <;> rfl

theorem keeps_notify : Keeps (fun p => (p.pid, p.state.place))
    (modify notify : EStateM Fault Process PUnit) := by
  refine .modify fun p => ?_
  unfold notify
  split
  · rename_i hstate
    rw [hstate]
    rfl
  · rfl

/-- What changes neither the pid nor the state of a process does not move it. -/
theorem keeps_place {m : EStateM Fault Process α}
    (h : Keeps (fun p => (p.pid, p.state, p.exitRequested)) m) :
    Keeps (fun p => (p.pid, p.state.place)) m := by
  intro p
  have h := h p
  rw [Prod.mk.injEq, Prod.mk.injEq] at h
  show ((leaves m p).pid, (leaves m p).state.place) = (p.pid, p.state.place)
  rw [h.1, h.2.1]

theorem keeps_deliver (address : Pid) (source : Option Heap) (message : Value) :
    Keeps (fun p => (p.pid, p.state.place)) (deliver address source message) := by
  unfold deliver
  cases source with
  | some source => exact .bind (keeps_place (keeps_onActor _)) fun _ => keeps_notify
  | none =>
    refine .ite (fun _ => .bind (.throw _) fun _ => ?_) fun _ => ?_
    all_goals exact .bind (keeps_place (keeps_onActor _)) fun _ => keeps_notify

theorem keeps_deliverBytes (address : Pid) (bytes : ByteArray) :
    Keeps (fun p => (p.pid, p.state.place)) (deliverBytes address bytes) :=
  .bind (keeps_place (keeps_onActor _)) fun _ => keeps_notify

theorem keeps_requestExit : Keeps (fun p => (p.pid, p.state.place)) requestExit :=
  .modify fun _ => rfl

end Process

/-! ## Lists of processes -/

namespace Scheduler

/-- The processes in the queues of a system. -/
def queued (s : Scheduler) : List (Pid × Place) :=
  s.table.pending.map (·, .pending) ++ s.running.toList.map (·, .running) ++
    s.waiting.toList.map (·, .waiting) ++ s.dead.map (·, .dead)

/-- The process of a pid is made ready. -/
def makeReady (s : Scheduler) (pid : Pid) (process : Process) : Scheduler :=
  { s with
    table := s.table.setOccupant pid (.resident { process with state := .running })
    running := s.running.push pid }

/-- A process that has been started is admitted to the turns. -/
def admitProcess (s : Scheduler) (pid : Pid) : Scheduler :=
  match s.table.get? pid with
  | none => s
  | some process => s.makeReady pid process

/-- A waiting process is woken if it is to go on. -/
def wake (s : Scheduler) (pid : Pid) : Scheduler :=
  match s.table.get? pid with
  | none => s
  | some process =>
    if isReady s.now process then s.makeReady pid process
    else { s with waiting := s.waiting.push pid }

theorem admitPending_eq (s : Scheduler) : s.admitPending =
    s.table.pending.foldl admitProcess { s with table := { s.table with pending := [] } } := rfl

theorem wakeReady_eq (s : Scheduler) : s.wakeReady =
    s.waiting.toList.foldl wake { s.tick with waiting := #[] } := by
  rw [wakeReady, Array.foldl_toList]
  rfl

/-- What none of the steps changes, all of them together do not change. -/
theorem foldl_keeps (view : Scheduler → α) {f : Scheduler → Pid → Scheduler}
    (h : ∀ s pid, view (f s pid) = view s) (pids : List Pid) (s : Scheduler) :
    view (pids.foldl f s) = view s := by
  induction pids generalizing s with
  | nil => rfl
  | cons pid pids ih => rw [List.foldl_cons, ih, h]

end Scheduler

namespace Moment

/-- The process table. -/
def table : Moment → ProcessTable
  | rest s => s.table
  | between _ s => s.table
  | turn _ _ _ _ session => session.kernel.table

/-- The processes that have not been released. -/
def listed : Moment → List (Pid × Place)
  | rest s => s.queued
  | between ready s => ready.map (·, .running) ++ s.queued
  | turn ready s pid _ session =>
    (pid, .away) :: (ready.map (·, .running) ++ { s with table := session.kernel.table }.queued)

/-- The process that has its turn is the one whose turn it is. -/
def Named : Moment → Prop
  | turn _ _ pid process _ => process.pid = pid
  | _ => True

/-- Between two rotations nobody is left to be released. -/
def Cleared : Moment → Prop
  | rest s => s.dead = []
  | _ => True

/-- The books of a system are in order. -/
structure Orderly (log : List Nat) (m : Moment) : Prop where
  tally : m.table.Tally m.listed log
  named : m.Named
  cleared : m.Cleared

theorem Orderly.tally_rest {s : Scheduler} {log : List Nat} (h : (rest s).Orderly log) :
    s.table.Tally s.queued log :=
  h.tally

theorem Orderly.dead_rest {s : Scheduler} {log : List Nat} (h : (rest s).Orderly log) :
    s.dead = [] :=
  h.cleared

end Moment

/-! ## What a turn does to the queues -/

namespace Dispatch

theorem leaves_onTable (m : EStateM Fault ProcessTable α) (d : Dispatch) :
    leaves (onTable m) d = ⟨leaves m d.table, d.current⟩ := by
  unfold leaves onTable
  dsimp only
  cases m d.table <;> rfl

theorem leaves_send (target : Pid) (message : Value) (source : Heap) (d : Dispatch) :
    leaves (Kernel.send target message source) d =
      ⟨leaves (ProcessTable.deliver target (some source) message) d.table, d.current⟩ :=
  leaves_onTable _ d

theorem leaves_kill (target : Pid) (d : Dispatch) :
    leaves (Kernel.kill target) d = ⟨leaves (ProcessTable.kill target) d.table, d.current⟩ :=
  leaves_onTable _ d

theorem leaves_spawn_ok {callee : Value} {args : List Value} {source : Heap} {d : Dispatch}
    {pid : Pid} {t : ProcessTable}
    (run : ProcessTable.spawn callee args (some source) d.table = .ok pid t) :
    leaves (Kernel.spawn callee args source) d = ⟨t, d.current⟩ := by
  refine (leaves_onTable _ d).trans ?_
  unfold leaves
  simp only [run]

theorem leaves_spawn_error {callee : Value} {args : List Value} {source : Heap} {d : Dispatch}
    {e : Fault} {t : ProcessTable}
    (run : ProcessTable.spawn callee args (some source) d.table = .error e t) :
    leaves (Kernel.spawn callee args source) d = d := by
  obtain rfl := ProcessTable.eq_of_spawn_eq_error run
  refine (leaves_onTable _ d).trans ?_
  unfold leaves
  simp only [run]

/-- What is not lost when a process is reached and stays where it is, nor when one is started, holds
whatever a running process asks of the others. -/
theorem upholds_of_place {P : Dispatch → Prop}
    (reached : ∀ {d : Dispatch} (address : Pid) {m : EStateM Fault Process Unit},
      Keeps (fun p => (p.pid, p.state.place)) m → P d →
      P ⟨leaves (ProcessTable.onProcess address m) d.table, d.current⟩)
    (started : ∀ {d : Dispatch} {callee : Value} {args : List Value}
      {source : Option Heap} {pid : Pid}
      {t : ProcessTable}, ProcessTable.spawn callee args source d.table = .ok pid t → P d →
      P ⟨t, d.current⟩) :
    Kernel.Upholds P where
  send {d} target message source h := by
    rw [leaves_send]
    exact reached target (Process.keeps_deliver _ _ _) h
  spawn {d} callee args source h := by
    cases hspawn : ProcessTable.spawn callee args (some source) d.table with
    | error e t =>
      rw [leaves_spawn_error hspawn]
      exact h
    | ok pid t =>
      rw [leaves_spawn_ok hspawn]
      exact started hspawn h
  kill {d} target h := by
    rw [leaves_kill]
    exact reached target Process.keeps_requestExit h

/-- Whatever a running process asks of the others, each of them stays in its queue; the processes
that it starts are pending. -/
theorem upholds_tally (others : List (Pid × Place)) (log : List Nat) :
    Kernel.Upholds fun d : Dispatch =>
      Tally (others ++ d.table.pending.map (·, .pending)) log d.table := by
  refine upholds_of_place (fun {d} address m hm h => ?_)
    fun {d callee args source pid t} run h => ?_
  · have hpending : (leaves (ProcessTable.onProcess address m) d.table).pending = d.table.pending :=
      congrArg (fun x => x.2.2.2.1) (ProcessTable.keeps_onProcess address m d.table)
    rw [hpending]
    exact h.onProcess hm
  · obtain ⟨actor, -, hstarted, htally⟩ := h.started_of_spawn run
    rw [hstarted.pending]
    refine htally.perm ?_
    rw [List.map_append, List.perm_iff_count]
    intro x
    simp only [List.count_append, List.count_cons, List.map_cons, List.map_nil, List.count_nil]
    omega

end Dispatch

namespace Scheduler

variable {s : Scheduler} {rest : List (Pid × Place)} {log : List Nat} {pid : Pid}

/-- A process that is made ready goes to the end of the turns. -/
theorem tally_makeReady (place : Place) {process : Process} (hpid : process.pid = pid)
    (h : Tally ((pid, place) :: (rest ++ s.queued)) log s.table) :
    Tally (rest ++ (s.makeReady pid process).queued) log (s.makeReady pid process).table := by
  have hmoved := h.setOccupant (.resident { process with state := .running }) .running rfl
    (by rintro _ ⟨⟩; exact hpid)
  refine hmoved.perm ?_
  rw [List.perm_iff_count]
  intro x
  unfold queued makeReady ProcessTable.setOccupant
  simp only [List.count_append, List.count_cons, List.map_cons, List.map_nil, List.count_nil,
    List.map_append, Array.toList_push]
  omega

/-- Some of the processes that have been started are made ready one after the other. -/
theorem tally_foldl_admitProcess (pids : List Pid)
    (h : Tally (pids.map (·, .pending) ++ s.queued) log s.table) :
    Tally (pids.foldl admitProcess s).queued log (pids.foldl admitProcess s).table := by
  induction pids generalizing s with
  | nil => exact h
  | cons pid pids ih =>
    refine ih ?_
    obtain ⟨process, hget, hpid, -⟩ := h.exists_get? pid .pending List.mem_cons_self nofun nofun
    unfold admitProcess
    rw [hget]
    exact tally_makeReady .pending hpid h

/-- Admitting begins with all processes that have been started in no queue. -/
theorem tally_pending (h : Tally s.queued log s.table) :
    Tally (s.table.pending.map (·, .pending) ++
      queued { s with table := { s.table with pending := [] } }) log
        { s.table with pending := [] } := by
  have hperm : s.queued.Perm (s.table.pending.map (·, .pending) ++
      queued { s with table := { s.table with pending := [] } }) := by
    simp only [queued, List.append_assoc, List.map_nil, List.nil_append, List.Perm.refl]
  exact { h.perm hperm with }

/-- Admitting the processes that have been started. -/
theorem tally_admitPending (h : Tally s.queued log s.table) :
    Tally s.admitPending.queued log s.admitPending.table := by
  rw [admitPending_eq]
  exact tally_foldl_admitProcess _ (tally_pending h)

/-- A waiting process is woken or goes on waiting. -/
theorem tally_wake (h : Tally ((pid, .waiting) :: (rest ++ s.queued)) log s.table) :
    Tally (rest ++ (s.wake pid).queued) log (s.wake pid).table := by
  obtain ⟨process, hget, hpid, -⟩ := h.exists_get? pid .waiting List.mem_cons_self nofun nofun
  unfold wake
  rw [hget]
  dsimp only
  split
  · exact tally_makeReady .waiting hpid h
  · refine h.perm ?_
    rw [List.perm_iff_count]
    intro x
    unfold queued
    simp only [List.count_append, List.count_cons, List.map_cons, List.map_nil, List.count_nil,
      List.map_append, Array.toList_push]
    omega

/-- Waking begins with all waiting processes in no queue. -/
theorem tally_tick (h : Tally s.queued log s.table) :
    Tally (s.waiting.toList.map (·, .waiting) ++ queued { s.tick with waiting := #[] }) log
      s.table := by
  refine h.perm ?_
  rw [List.perm_iff_count]
  intro x
  unfold queued tick
  simp only [List.count_append, List.map_nil, List.count_nil]
  omega

/-- Some of the waiting processes are looked at one after the other. -/
theorem tally_foldl_wake (pids : List Pid)
    (h : Tally (pids.map (·, .waiting) ++ s.queued) log s.table) :
    Tally (pids.foldl wake s).queued log (pids.foldl wake s).table := by
  induction pids generalizing s with
  | nil => exact h
  | cons pid pids ih => exact ih (tally_wake h)

/-- Waking some of the waiting processes. -/
theorem tally_wakeReady (h : Tally s.queued log s.table) :
    Tally s.wakeReady.queued log s.wakeReady.table := by
  rw [wakeReady_eq]
  exact tally_foldl_wake _ (tally_tick h)

theorem keeps_release (t : ProcessTable) (pid : Pid) :
    (t.release pid).layout = t.layout ∧ (t.release pid).pending = t.pending := by
  unfold ProcessTable.release
  split <;> exact ⟨rfl, rfl⟩

/-- Releasing the processes that have ended. -/
theorem tally_releases {dead : List Pid} {t : ProcessTable}
    (h : Tally (dead.map (·, .dead) ++ rest) log t) :
    Tally rest (log ++ dead.map t.layout.index) (dead.foldl ProcessTable.release t) ∧
      (dead.foldl ProcessTable.release t).layout = t.layout ∧
      (dead.foldl ProcessTable.release t).pending = t.pending := by
  induction dead generalizing t log with
  | nil =>
    rw [List.map_nil, List.append_nil]
    exact ⟨h, rfl, rfl⟩
  | cons pid dead ih =>
    obtain ⟨hlayout, hpending⟩ := keeps_release t pid
    have hrest := ih (Tally.release h)
    rw [hlayout, hpending] at hrest
    rw [List.map_cons, ← List.singleton_append, ← List.append_assoc]
    exact hrest

theorem dead_admitPending (s : Scheduler) : s.admitPending.dead = s.dead := by
  rw [admitPending_eq]
  refine foldl_keeps (·.dead) (fun s pid => ?_) _ _
  unfold admitProcess
  split <;> rfl

/-- Waking changes neither the layout of pids nor who has ended. -/
theorem keeps_wakeReady (s : Scheduler) :
    s.wakeReady.table.layout = s.table.layout ∧ s.wakeReady.dead = s.dead := by
  rw [wakeReady_eq]
  have hkeeps := foldl_keeps (fun s => (s.table.layout, s.dead)) (f := wake) (fun s pid => ?_)
    s.waiting.toList { s.tick with waiting := #[] }
  · exact Prod.mk.inj hkeeps
  · unfold wake
    split
    · rfl
    · split <;> rfl

/-- Those that have ended are released. -/
theorem tally_releaseDead (h : Tally s.queued log s.table) :
    Tally s.releaseDead.queued (log ++ s.dead.map s.table.layout.index) s.releaseDead.table := by
  let others : List (Pid × Place) :=
    s.table.pending.map (·, .pending) ++ s.running.toList.map (·, .running) ++
      s.waiting.toList.map (·, .waiting)
  have ended : Tally (s.dead.map (·, .dead) ++ others) log s.table :=
    h.perm List.perm_append_comm
  obtain ⟨hreleased, -, hpending⟩ := tally_releases ended
  have hqueued : s.releaseDead.queued = others := by
    unfold queued releaseDead
    rw [hpending]
    exact List.append_nil others
  rw [hqueued]
  exact hreleased

/-- Closing a rotation releases the processes that have ended in it. -/
theorem tally_close (h : Tally s.queued log s.table) :
    Tally s.close.queued (log ++ s.dead.map s.table.layout.index) s.close.table := by
  obtain ⟨hlayout, hdead⟩ := s.keeps_wakeReady
  rw [← hlayout, ← hdead]
  exact tally_releaseDead (tally_wakeReady h)

/-- The end of a turn changes neither the loader nor the queues. -/
theorem endTurn_spec (s : Scheduler) (pid : Pid) (outcome : Outcome) :
    (s.endTurn pid outcome).1 ≠ .pending ∧ (s.endTurn pid outcome).2.loader = s.loader ∧
      (s.endTurn pid outcome).2.running = s.running ∧
      (s.endTurn pid outcome).2.waiting = s.waiting ∧
      (s.endTurn pid outcome).2.dead = s.dead := by
  rcases outcome with fault | (_ | ⟨_ | usecs⟩ | _ | _) <;> exact ⟨nofun, rfl, rfl, rfl, rfl⟩

/-- A process that has had its turn goes to the list of its new state. -/
theorem tally_enlist {ready : List Pid} {state : ProcessState} (hstate : state ≠ .pending)
    (h : Tally ((pid, state.place) :: (ready.map (·, .running) ++ s.queued)) log s.table) :
    Tally (ready.map (·, .running) ++ (s.enlist pid state).queued) log
      (s.enlist pid state).table := by
  cases state with
  | pending => exact absurd rfl hstate
  | running =>
    refine h.perm ?_
    rw [List.perm_iff_count]
    intro x
    simp only [enlist, queued, ProcessState.place, List.count_append, List.count_cons,
      List.map_cons, List.map_nil, List.count_nil, List.map_append, Array.toList_push]
    omega
  | waiting =>
    refine h.perm ?_
    rw [List.perm_iff_count]
    intro x
    simp only [enlist, queued, ProcessState.place, List.count_append, List.count_cons,
      List.map_cons, List.map_nil, List.count_nil, List.map_append, Array.toList_push]
    omega
  | dead =>
    refine h.perm ?_
    rw [List.perm_iff_count]
    intro x
    simp only [enlist, queued, ProcessState.place, List.count_append, List.count_cons,
      List.map_cons, List.map_nil, List.count_nil, List.map_append]
    omega

theorem orderly_endTurn {ready : List Pid} {process : Process} {outcome : Outcome}
    {session : Session Dispatch} (hpid : process.pid = pid)
    (h : Tally ((pid, .away) :: (ready.map (·, .running) ++
      { s with table := session.kernel.table }.queued)) log session.kernel.table) :
    (Moment.endTurn ready s pid process outcome session).Orderly log := by
  obtain ⟨hstate, -, hrunning, hwaiting, hdead⟩ := s.endTurn_spec pid outcome
  unfold Moment.endTurn
  generalize s.endTurn pid outcome = ended at hstate hrunning hwaiting hdead
  obtain ⟨state, s'⟩ := ended
  dsimp only at hstate hrunning hwaiting hdead ⊢
  refine ⟨tally_enlist hstate ?_, trivial, trivial⟩
  subst hpid
  have hqueued : queued { s' with
      table := session.kernel.table.checkin { process with actor := session.actor, state } } =
      queued { s with table := session.kernel.table } := by
    unfold queued
    rw [hrunning, hwaiting, hdead]
    rfl
  rw [hqueued]
  exact h.setOccupant _ _ rfl (by rintro _ ⟨⟩; rfl)

/-- Starting a process from outside is starting one in the table, once its arguments are staged. -/
theorem spawn_eq (s : Scheduler) (callee : Value) (args : List HostArg) :
    spawn callee args s = match stageArgs args with
      | .error e => .error e s
      | .ok (values, source) => match ProcessTable.spawn callee values source s.table with
        | .error e _ => .error e s
        | .ok pid table => .ok pid { s with table } := by
  unfold spawn
  cases stageArgs args with
  | error e => rfl
  | ok staged =>
    obtain ⟨values, source⟩ := staged
    dsimp only [onTable]
    cases run : ProcessTable.spawn callee values source s.table with
    | error e table =>
      obtain rfl := ProcessTable.eq_of_spawn_eq_error run
      rfl
    | ok pid table => rfl

end Scheduler

/-! ## Requests -/

/-- What the process calls that a request starts, and with which arguments. -/
def Request.start? (l : Loader) : Request → Option (Value × List HostArg)
  | spawn callee args => some (callee, args)
  | spawnExport module name args => (l.find? module name).map fun f => (.function f, args)
  | _ => none

/-- The process that a request reaches, and what is done to it. -/
def Request.reach? : Request → Option (Pid × EStateM Fault Process Unit)
  | send target v => some (target, Process.deliver target none v)
  | sendText target text => some (target, Process.deliverBytes target text.toUTF8)
  | kill target => some (target, Process.requestExit)
  | _ => none

/-- Whatever reaches a process leaves it in its place. -/
theorem Request.keeps_place {r : Request} {target : Pid} {m : EStateM Fault Process Unit}
    (reach : r.reach? = some (target, m)) : Keeps (fun p => (p.pid, p.state.place)) m := by
  cases r with
  | send target v =>
    cases reach
    exact Process.keeps_deliver _ _ _
  | sendText target text =>
    cases reach
    exact Process.keeps_deliverBytes _ _
  | kill target =>
    cases reach
    exact Process.keeps_requestExit
  | _ => cases reach

namespace Scheduler

theorem leaves_onTable (m : EStateM Fault ProcessTable α) (s : Scheduler) :
    leaves (onTable m) s = { s with table := leaves m s.table } := by
  unfold leaves onTable
  dsimp only
  cases m s.table <;> rfl

theorem spawnExport_eq (s : Scheduler) (module name : String) (args : List HostArg) :
    spawnExport module name args s = match s.loader.find? module name with
      | some f => spawn (.function f) args s
      | none => .error (.unknownExport module name) s := by
  have hget : (get : EStateM Fault Scheduler Scheduler) s = .ok s s := rfl
  rw [spawnExport, bind_of_ok hget]
  cases s.loader.find? module name <;> rfl

theorem leaves_spawnExport (s : Scheduler) (module name : String) (args : List HostArg) :
    leaves (spawnExport module name args) s = match s.loader.find? module name with
      | some f => leaves (spawn (.function f) args) s
      | none => s := by
  rw [leaves, spawnExport_eq]
  cases s.loader.find? module name <;> rfl

/-- What becomes of a system that is asked for something. -/
inductive Meets (s : Scheduler) (r : Request) : Scheduler → Prop
  /-- It refuses to start a process or to load a chunk. -/
  | refuses (unreached : r.reach? = none) : s.Meets r s
  /-- It starts a process. -/
  | starts {callee : Value} {args : List HostArg} {values : List Value} {source : Option Heap}
    {pid : Pid} {table : ProcessTable} (start : r.start? s.loader = some (callee, args))
    (staged : stageArgs args = .ok (values, source))
    (spawned : ProcessTable.spawn callee values source s.table = .ok pid table) : s.Meets r
      { s with table }
  /-- It turns to the process, which may refuse. -/
  | reaches {target : Pid} {m : EStateM Fault Process Unit} (reach : r.reach? = some (target, m)) :
    s.Meets r { s with table := leaves (ProcessTable.onProcess target m) s.table }
  | advances {usecs : Nat} (advance : r = .advanceClock usecs) : s.Meets r (s.advanceClock usecs)
  /-- It is given code or natives. -/
  | learns {loader : Loader} (unreached : r.reach? = none) (step : s.loader.Extends loader) :
    s.Meets r { s with loader }

theorem meets_ask (s : Scheduler) (r : Request) : s.Meets r (s.ask r) := by
  have spawned : ∀ {callee : Value} {args : List HostArg}, r.reach? = none →
      r.start? s.loader = some (callee, args) → s.Meets r (s.ask (.spawn callee args)) := by
    intro callee args unreached start
    rw [ask, leaves, spawn_eq]
    cases staged : stageArgs args with
    | error e => exact .refuses unreached
    | ok found =>
      dsimp only
      cases hspawn : ProcessTable.spawn callee found.1 found.2 s.table with
      | error e t => exact .refuses unreached
      | ok pid t => exact .starts start staged hspawn
  have reached : ∀ {target : Pid} {m : EStateM Fault Process Unit}, r.reach? = some (target, m) →
      s.Meets r (leaves (onTable (ProcessTable.onProcess target m)) s) := by
    intro target m reach
    rw [leaves_onTable]
    exact .reaches reach
  cases r with
  | spawn callee args => exact spawned rfl rfl
  | spawnExport module name args =>
    rw [ask, leaves_spawnExport]
    cases hfound : s.loader.find? module name with
    | none => exact .refuses rfl
    | some f => exact spawned rfl (by rw [Request.start?, hfound]; rfl)
  | send target v => exact reached rfl
  | sendText target text => exact reached rfl
  | kill target => exact reached rfl
  | advanceClock usecs => exact .advances rfl
  | load c =>
    rw [ask]
    cases run : s.loader.loadChunk c with
    | error e => exact .refuses rfl
    | ok loaded => exact .learns rfl (.loadChunk run)
  | register module name builtin => exact .learns rfl (.register module name builtin)
  | report => exact .learns rfl .report

end Scheduler

/-! ## Every moment -/

namespace Moment

open Scheduler

variable {log : List Nat} {m : Moment}

/-- The processes that have not been released while `pid` has its turn, in the midst of which the
table is `t`. -/
def listedIn (ready : List Pid) (s : Scheduler) (pid : Pid) (t : ProcessTable) :
    List (Pid × Place) :=
  (pid, .away) :: (ready.map (·, .running) ++ { s with table := t }.queued)

/-- A step of a turn moves nobody from one queue to another. -/
theorem tally_next {ready : List Pid} {s : Scheduler} {pid : Pid} {session : Session Dispatch}
    (l : Loader) (h : Tally (listedIn ready s pid session.kernel.table) log session.kernel.table) :
    Sum.elim
      (fun finished => Tally (listedIn ready s pid finished.2.kernel.table) log
        finished.2.kernel.table)
      (fun session' => Tally (listedIn ready s pid session'.kernel.table) log session'.kernel.table)
      (session.next l) := by
  -- The queue of those that have been started is the only one that a step can change.
  let others := (pid, Place.away) :: (ready.map (·, .running) ++
    (s.running.toList.map (·, .running) ++ s.waiting.toList.map (·, .waiting) ++
      s.dead.map (·, .dead)))
  have hsplit : ∀ t : ProcessTable, (listedIn ready s pid t).Perm
      (others ++ t.pending.map (·, .pending)) := by
    intro t
    rw [List.perm_iff_count]
    intro x
    simp only [others, listedIn, queued, List.count_append, List.count_cons, List.cons_append]
    omega
  have hnext := Session.upholds_next (l := l) (Dispatch.upholds_tally others log)
    (h.perm (hsplit _))
  exact Session.next_mono
    (P := fun t : Session Dispatch =>
      Tally (others ++ t.kernel.table.pending.map (·, .pending)) log t.kernel.table)
    (Q := fun t : Session Dispatch => Tally (listedIn ready s pid t.kernel.table) log
      t.kernel.table) hnext fun _ h' => h'.perm (hsplit _).symm

/-- The next moment of a rotation keeps the books in order. -/
theorem Orderly.go (h : m.Orderly log) : m.go.Orderly (log ++ released m .go) := by
  obtain ⟨htally, hnamed, -⟩ := h
  cases m with
  | rest s =>
    have hadmitted := tally_admitPending htally
    show (Moment.between _ _).Orderly (log ++ [])
    rw [List.append_nil]
    refine ⟨hadmitted.perm ?_, trivial, trivial⟩
    show s.admitPending.queued.Perm (s.admitPending.running.toList.map (·, .running) ++ queued _)
    rw [List.perm_iff_count]
    intro x
    simp only [queued, List.count_append, List.map_nil, List.append_nil]
    omega
  | between ready s =>
    cases ready with
    | nil => exact ⟨tally_close htally, trivial, rfl⟩
    | cons pid ready =>
      show (Moment.between (pid :: ready) s).go.Orderly (log ++ [])
      rw [List.append_nil]
      obtain ⟨process, hoccupant, hpid, -⟩ :=
        htally.exists_resident pid .running List.mem_cons_self (by decide)
      have hoccupant : s.table.occupant pid = .resident process := hoccupant
      have hout : s.table.checkout? pid = some (process, s.table.setOccupant pid .away) := by
        rw [ProcessTable.checkout?, hoccupant]
      rw [Moment.go, hout]
      exact ⟨Tally.setOccupant htally _ _ rfl (by rintro _ ⟨⟩), hpid, trivial⟩
  | turn ready s pid process session =>
    show (Moment.turn ready s pid process session).go.Orderly (log ++ [])
    rw [List.append_nil, Moment.go]
    split
    · exact orderly_endTurn hnamed htally
    · have hnext := tally_next s.loader htally
      split
      · rename_i outcome session' heq
        rw [heq] at hnext
        exact orderly_endTurn hnamed hnext
      · rename_i session' heq
        rw [heq] at hnext
        exact ⟨hnext, hnamed, trivial⟩

/-- What reaches one process moves none. -/
theorem Orderly.onProcess {s : Scheduler} {m : EStateM Fault Process α} {address : Pid}
    (h : (rest s).Orderly log) (hm : Keeps (fun p => (p.pid, p.state.place)) m) :
    (rest { s with table := leaves (ProcessTable.onProcess address m) s.table }).Orderly log := by
  have hpending : (leaves (ProcessTable.onProcess address m) s.table).pending = s.table.pending :=
    congrArg (fun x => x.2.2.2.1) (ProcessTable.keeps_onProcess address m s.table)
  refine ⟨?_, trivial, h.cleared⟩
  show Tally (queued _) log (leaves _ s.table)
  unfold queued
  rw [hpending]
  exact h.tally.onProcess hm

/-- What is started from outside is pending. -/
theorem Orderly.spawn {s : Scheduler} {callee : Value} {args : List Value} {source : Option Heap}
    {pid : Pid} {table : ProcessTable} (h : (rest s).Orderly log)
    (spawned : ProcessTable.spawn callee args source s.table = .ok pid table) :
    (rest { s with table }).Orderly log := by
  obtain ⟨actor, -, hstarted, htally⟩ := h.tally.started_of_spawn spawned
  have hpending : table.pending = s.table.pending ++ [pid] := hstarted.pending
  refine ⟨htally.perm ?_, trivial, h.cleared⟩
  show List.Perm (_ :: queued s) (queued _)
  unfold queued
  rw [hpending, List.perm_iff_count]
  intro x
  simp only [List.count_append, List.count_cons, List.map_cons, List.map_nil, List.count_nil,
    List.map_append]
  omega

/-- Whatever a system is asked for, its books stay in order. -/
theorem Orderly.ask {s : Scheduler} (h : (rest s).Orderly log) (r : Request) :
    (rest (s.ask r)).Orderly log := by
  have met := s.meets_ask r
  generalize s.ask r = s' at met ⊢
  cases met with
  | refuses => exact h
  | starts _ _ spawned => exact h.spawn spawned
  | reaches reach => exact h.onProcess (Request.keeps_place reach)
  | advances => exact ⟨h.tally, trivial, h.cleared⟩
  | learns => exact ⟨h.tally, trivial, h.cleared⟩

/-- The books of a system do not tell the time. -/
theorem Orderly.elapse (h : m.Orderly log) (usecs : Nat) : (m.elapse usecs).Orderly log := by
  cases m <;> exact ⟨h.tally, h.named, h.cleared⟩

theorem Orderly.create {s : Scheduler} (created : s.Created) : (rest s).Orderly [] := by
  obtain ⟨config, loader, -, run⟩ := created
  obtain ⟨layout, -, hs⟩ := exists_of_bind_ok run
  cases hs
  have hnone : ∀ (i : Nat) (slot : Slot), (#[] : Array Slot)[i]? ≠ some slot := fun i slot h => by
    rw [Array.getElem?_empty] at h
    cases h
  refine ⟨⟨rfl, Nat.zero_le _, fun i slot h => absurd h (hnone i slot),
    fun i slot _ h => absurd h (hnone i slot), rfl, List.nodup_nil, fun i => ⟨nofun, ?_⟩,
    List.suffix_rfl, List.nodup_nil, fun pid place => ⟨nofun, ?_⟩⟩, trivial, rfl⟩
  · rintro ⟨slot, h, -⟩
    exact absurd h (hnone i slot)
  · rintro ⟨i, slot, h, -⟩
    exact absurd h (hnone i slot)

/-- At every moment the books of a system are in order. -/
theorem orderly_after {s : Scheduler} (created : s.Created) (acts : List Act) :
    ((rest s).after acts).Orderly ((rest s).trace released acts) := by
  refine invariant released (fun log m => m.Orderly log) [] (.create created)
    (fun log m a h => ?_) acts
  cases a with
  | go => exact h.go
  | elapse usecs =>
    rw [m.released_of_ne_go (a := .elapse usecs) nofun, List.append_nil]
    exact h.elapse usecs
  | ask r =>
    rw [m.released_of_ne_go (a := .ask r) nofun, List.append_nil]
    cases m with
    | rest s => exact h.ask r
    | between | turn => exact h

end Moment

end ActorMachine
