import ActorMachine.Proofs.Asking
import ActorMachine.Proofs.Partition
import ActorMachine.Proofs.Residents
import Mathlib.Data.Nat.ModEq

/-!
# Stale pids

The generation of a slot is the number of its releases, modulo the number of generations
(`Moment.Numbered`). So a pid that has been given to a process is refused by everything that looks
processes up as soon as the slot has been released, and until the generations have come round
(`Moment.stale_pid`): from outside and by instructions, and whether or not the slot is occupied
again.
-/

namespace ActorMachine

open ProcessTable (Tally)

namespace ProcessTable

variable {t : ProcessTable} {listed : List (Pid × Place)} {log : List Nat}

/-! ## The generations of the slots -/

/-- The generation of a slot; a slot that has not been opened is in the first one. -/
def generationAt (t : ProcessTable) (i : Nat) : Nat :=
  (t.slots.getD i default).generation

/-- What the pids of processes are made from. -/
def naming (t : ProcessTable) : PidLayout × (Nat → Nat) :=
  (t.layout, t.generationAt)

theorem generationAt_of_slot {i : Nat} {slot : Slot} (h : t.slots[i]? = some slot) :
    t.generationAt i = slot.generation := by
  rw [generationAt, Array.getD_eq_getD_getElem?, h]
  rfl

theorem Tally.generationAt_lt (h : Tally listed log t) (i : Nat) :
    t.generationAt i < t.layout.generations := by
  cases hi : t.slots[i]? with
  | none =>
    rw [generationAt, Array.getD_eq_getD_getElem?, hi]
    exact t.layout.generations_pos
  | some slot =>
    rw [generationAt_of_slot hi]
    exact h.generation_lt i slot hi

theorem naming_setOccupant (p : Pid) (o : Occupant) : (t.setOccupant p o).naming = t.naming := by
  refine Prod.ext rfl (funext fun i => ?_)
  show generationAt _ i = t.generationAt i
  rw [generationAt, generationAt, setOccupant, Array.getD_eq_getD_getElem?,
    Array.getD_eq_getD_getElem?, Array.getElem?_modify]
  split
  · cases t.slots[i]? <;> rfl
  · rfl

theorem keeps_naming_onProcess (address : Pid) (m : EStateM Fault Process α) :
    Keeps naming (onProcess address m) := by
  intro t
  unfold leaves onProcess
  cases t.get? address with
  | none => rfl
  | some p =>
    dsimp only
    cases m p <;> exact (naming_setOccupant _ _).trans (naming_setOccupant _ _)

/-- A slot that is opened is in the first generation, and one that is used again stays in its
own. -/
theorem naming_takeSlot {i : Nat} {t₁ : ProcessTable} (h : t.takeSlot = some (i, t₁)) :
    t₁.naming = t.naming := by
  unfold takeSlot at h
  split at h
  · cases h
    refine Prod.ext rfl (funext fun j => ?_)
    show generationAt _ j = t.generationAt j
    rw [generationAt, generationAt, Array.getD_eq_getD_getElem?, Array.getD_eq_getD_getElem?,
      Array.getElem?_push]
    split
    · rename_i hj
      rw [hj, Array.getElem?_size]
      rfl
    · rfl
  · split at h
    · cases h
    · cases h
      rfl

/-- A process is started under the pid of its slot. -/
theorem Tally.naming_spawn {callee : Value} {args : List Value} {source : Option Heap} {pid : Pid}
    {t' : ProcessTable} (h : Tally listed log t)
    (run : ProcessTable.spawn callee args source t = .ok pid t') :
    t'.naming = t.naming ∧ ∃ i < t.layout.maxProcesses,
      pid = t.layout.pid i (t.generationAt i) := by
  obtain ⟨actor, i, t₁, -, htake, rfl, rfl⟩ := exists_of_spawn run
  have hnaming := naming_takeSlot htake
  have hlayout : t₁.layout = t.layout := congrArg Prod.fst hnaming
  obtain ⟨g, taken⟩ := h.taken_of_takeSlot htake
  refine ⟨(naming_setOccupant _ _).trans hnaming, i, taken.lt_maxProcesses, ?_⟩
  have hgeneration : t₁.generationAt i = t.generationAt i :=
    congrFun (congrArg Prod.snd hnaming) i
  rw [hlayout, ← hgeneration]
  rfl

/-- A release moves the slot on by one generation. -/
theorem Tally.generationAt_release {pid : Pid} {place : Place}
    (h : Tally ((pid, place) :: listed) log t) (i : Nat) : (t.release pid).generationAt i =
      (t.generationAt i + [t.layout.index pid].count i) % t.layout.generations := by
  obtain ⟨slot, hslot, hpid, -⟩ := h.exists_slot List.mem_cons_self
  have hgeneration : t.layout.generation pid = slot.generation := by
    rw [← h.generation_pidOf hslot, hpid]
  rw [generationAt, Array.getD_eq_getD_getElem?, h.release_eq, Array.getElem?_modify,
    List.count_singleton]
  by_cases hi : t.layout.index pid = i
  · rw [if_pos hi, ← hi, hslot, generationAt_of_slot hslot, hgeneration]
    simp [PidLayout.nextGeneration]
  · rw [if_neg hi, if_neg (by simpa using hi), Nat.add_zero, Nat.mod_eq_of_lt (h.generationAt_lt i),
      generationAt, Array.getD_eq_getD_getElem?]

/-- The generation of each slot is the number of its releases in the log, modulo the number of
generations. -/
def Counts (log : List Nat) (t : ProcessTable) : Prop :=
  ∀ i, t.generationAt i = log.count i % t.layout.generations

theorem Counts.of_naming {t' : ProcessTable} (h : t.Counts log) (hnaming : t'.naming = t.naming) :
    t'.Counts log := by
  intro i
  have hlayout : t'.layout = t.layout := congrArg Prod.fst hnaming
  rw [hlayout, ← h i]
  exact congrFun (congrArg Prod.snd hnaming) i

theorem Counts.release {pid : Pid} {place : Place} (h : t.Counts log)
    (tally : Tally ((pid, place) :: listed) log t) :
    (t.release pid).Counts (log ++ [t.layout.index pid]) := by
  intro i
  rw [tally.generationAt_release, h i, (Scheduler.keeps_release t pid).1, List.count_append,
    Nat.mod_add_mod]

theorem Counts.releases {dead : List Pid} {rest : List (Pid × Place)} (h : t.Counts log)
    (tally : Tally (dead.map (·, .dead) ++ rest) log t) :
    (dead.foldl ProcessTable.release t).Counts (log ++ dead.map t.layout.index) := by
  induction dead generalizing t log with
  | nil =>
    rw [List.map_nil, List.append_nil]
    exact h
  | cons pid dead ih =>
    have hrest := ih (h.release tally) tally.release
    rw [(Scheduler.keeps_release t pid).1, List.append_assoc] at hrest
    exact hrest

/-! ## Lookups -/

/-- A pid reaches nothing in the table: whatever looks a process up under it fails and leaves the
table as it is. -/
structure Refuses (t : ProcessTable) (p : Pid) : Prop where
  get? : t.get? p = none
  isAlive : t.isAlive p = false
  deliver : ∀ source message, ProcessTable.deliver p source message t = .error (.invalidPid p) t
  deliverBytes : ∀ bytes, ProcessTable.deliverBytes p bytes t = .error (.invalidPid p) t
  kill : ProcessTable.kill p t = .error (.invalidPid p) t

/-- A pid reaches the process `q`. -/
structure Accepts (t : ProcessTable) (p : Pid) (q : Process) : Prop where
  get? : t.get? p = some q
  isAlive : t.isAlive p = true
  kill : ∃ t', ProcessTable.kill p t = .ok () t' ∧ t'.get? p = some { q with exitRequested := true }

theorem onProcess_of_get?_eq_none {p : Pid} (h : t.get? p = none) (m : EStateM Fault Process α) :
    onProcess p m t = .error (.invalidPid p) t := by
  unfold onProcess
  rw [h]

theorem Refuses.intro {p : Pid} (hget : t.get? p = none) (halive : t.isAlive p = false) :
    t.Refuses p where
  get? := hget
  isAlive := halive
  deliver _ _ := onProcess_of_get?_eq_none hget _
  deliverBytes _ := onProcess_of_get?_eq_none hget _
  kill := onProcess_of_get?_eq_none hget _

/-- A pid reaches nothing if the slot is in another generation, whatever the slot holds. -/
theorem refuses_of_generationAt {p : Pid}
    (h : t.generationAt (t.layout.index p) ≠ t.layout.generation p) :
    t.Refuses p := by
  have hvacant : t.occupant p = .vacant := by
    unfold occupant
    split
    · rfl
    · rename_i slot hslot
      rw [generationAt_of_slot hslot] at h
      exact if_neg h
  refine .intro ?_ ?_
  · rw [get?, hvacant]
    rfl
  · rw [isAlive, hvacant]

/-- A pid reaches nothing in a vacant slot. -/
theorem refuses_of_vacant {p : Pid} {slot : Slot} (hslot : t.slots[t.layout.index p]? = some slot)
    (vacant : slot.occupant = .vacant) : t.Refuses p := by
  have hvacant : t.occupant p = .vacant := by
    unfold occupant
    rw [hslot]
    dsimp only
    split
    · exact vacant
    · rfl
  refine .intro ?_ ?_
  · rw [get?, hvacant]
    rfl
  · rw [isAlive, hvacant]

theorem Tally.occupant_of_lives {p : Pid} {q : Process} (h : Tally listed log t)
    (hq : t.Lives p q) :
    t.occupant p = .resident q := by
  obtain ⟨i, slot, hslot, hresident, rfl⟩ := hq
  rw [h.named i slot q hslot hresident, h.occupant_pidOf hslot, hresident]

theorem Tally.refuses_of_dead {p : Pid} {q : Process} (h : Tally listed log t) (hq : t.Lives p q)
    (dead : q.state = .dead) : t.Refuses p := by
  have hoccupant := h.occupant_of_lives hq
  refine .intro ?_ ?_
  · rw [get?, hoccupant]
    exact if_pos dead
  · simp [isAlive, hoccupant, dead]

theorem occupant_setOccupant {p : Pid} (h : t.occupant p ≠ .vacant) (o : Occupant) :
    (t.setOccupant p o).occupant p = o := by
  unfold occupant at h
  split at h
  · exact absurd rfl h
  · rename_i slot hslot
    split at h
    · rename_i hgeneration
      unfold occupant setOccupant
      dsimp only
      rw [Array.getElem?_modify, if_pos rfl, hslot]
      exact if_pos hgeneration
    · exact absurd rfl h

theorem Tally.accepts_of_lives {p : Pid} {q : Process} (h : Tally listed log t) (hq : t.Lives p q)
    (alive : q.state ≠ .dead) : t.Accepts p q := by
  have hoccupant := h.occupant_of_lives hq
  have hget : t.get? p = some q := by
    rw [ProcessTable.get?, hoccupant]
    exact if_neg alive
  refine ⟨hget, by simp [isAlive, hoccupant, alive],
    (t.setOccupant p .away).setOccupant p (.resident { q with exitRequested := true }), ?_, ?_⟩
  · show ProcessTable.onProcess p Process.requestExit t = _
    unfold ProcessTable.onProcess
    rw [hget]
    rfl
  · have haway : (t.setOccupant p .away).occupant p = .away :=
      occupant_setOccupant (by rw [hoccupant]; rintro ⟨⟩) _
    rw [ProcessTable.get?, occupant_setOccupant (by rw [haway]; rintro ⟨⟩)]
    exact if_neg alive

end ProcessTable

namespace Dispatch

/-- What a running process asks of the others changes no generation, and leaves its own pid to
it. -/
theorem upholds_naming (log : List Nat) (naming : PidLayout × (Nat → Nat)) (pid : Pid) :
    Kernel.Upholds fun d : Dispatch =>
      (∃ listed, Tally listed log d.table) ∧ d.table.naming = naming ∧ d.current = pid := by
  refine upholds_of_place (fun _ _ hm h => ?_) fun run h => ?_
  · obtain ⟨⟨listed, tally⟩, hnaming, hcurrent⟩ := h
    exact ⟨⟨listed, tally.onProcess hm⟩,
      (ProcessTable.keeps_naming_onProcess _ _ _).trans hnaming, hcurrent⟩
  · obtain ⟨⟨listed, tally⟩, hnaming, hcurrent⟩ := h
    obtain ⟨actor, -, -, htally⟩ := tally.started_of_spawn run
    exact ⟨⟨_, htally⟩, (tally.naming_spawn run).1.trans hnaming, hcurrent⟩

/-- Starting a process for a running one is starting one in the table. -/
theorem perform_spawn (callee : Value) (args : List Value) (source : Heap) (d : Dispatch) :
    (Ask.spawn callee args source).perform d =
    match ProcessTable.spawn callee args (some source) d.table with
      | .ok pid t => .ok (some pid) ⟨t, d.current⟩
      | .error e _ => .error e d := by
  show EStateM.map some (onTable _) d = _
  unfold EStateM.map onTable
  dsimp only
  cases run : ProcessTable.spawn callee args (some source) d.table with
  | ok pid t => rfl
  | error e t =>
    obtain rfl := ProcessTable.eq_of_spawn_eq_error run
    rfl

/-- The only request that starts a process is that for one. -/
theorem spawn_of_starts? {q : Ask} {d : Dispatch} {pid : Pid} (h : q.starts? d = some pid) :
    ∃ callee args source t, q = .spawn callee args source ∧
      ProcessTable.spawn callee args (some source) d.table = .ok pid t := by
  unfold Ask.starts? at h
  cases q with
  | spawn callee args source =>
    rw [perform_spawn] at h
    cases hspawn : ProcessTable.spawn callee args (some source) d.table with
    | error e t => rw [hspawn] at h; cases h
    | ok pid t =>
      rw [hspawn] at h
      cases h
      exact ⟨callee, args, source, t, rfl, hspawn⟩
  | send target message source =>
    have hperform : (Ask.send target message source).perform d =
        EStateM.map (fun _ => none) (Kernel.send target message source) d := rfl
    rw [hperform, EStateM.map] at h
    cases hrun : Kernel.send target message source d with
    | ok x d' => rw [hrun] at h; cases h
    | error e d' => rw [hrun] at h; cases h
  | kill target =>
    have hperform : (Ask.kill target).perform d =
        EStateM.map (fun _ => none) (Kernel.kill target) d := rfl
    rw [hperform, EStateM.map] at h
    cases hrun : Kernel.kill target d with
    | ok x d' => rw [hrun] at h; cases h
    | error e d' => rw [hrun] at h; cases h

end Dispatch

namespace Scheduler

variable {s : Scheduler}

theorem naming_makeReady (pid : Pid) (process : Process) :
    (s.makeReady pid process).table.naming = s.table.naming :=
  ProcessTable.naming_setOccupant _ _

theorem naming_admitPending : s.admitPending.table.naming = s.table.naming := by
  rw [admitPending_eq]
  refine foldl_keeps (·.table.naming) (fun s pid => ?_) _ _
  unfold admitProcess
  split
  · rfl
  · exact naming_makeReady _ _

theorem naming_wakeReady : s.wakeReady.table.naming = s.table.naming := by
  rw [wakeReady_eq]
  refine foldl_keeps (·.table.naming) (fun s pid => ?_) _ _
  unfold wake
  split
  · rfl
  · split
    · exact naming_makeReady _ _
    · rfl

/-- Closing a rotation counts the releases of the processes that have ended in it. -/
theorem counts_close {log : List Nat} (tally : Tally s.queued log s.table)
    (h : s.table.Counts log) :
    s.close.table.layout = s.table.layout ∧
      s.close.table.Counts (log ++ s.dead.map s.table.layout.index) := by
  obtain ⟨hlayout, hdead⟩ := s.keeps_wakeReady
  have hwoken := (tally_wakeReady tally).perm List.perm_append_comm
  refine ⟨(tally_releases hwoken).2.1.trans hlayout, ?_⟩
  rw [← hlayout, ← hdead]
  exact (h.of_naming naming_wakeReady).releases hwoken

/-- What is asked for from outside changes no generation. -/
theorem naming_ask {listed : List (Pid × Place)} {log : List Nat} (tally : s.table.Tally listed log)
    (r : Request) : (s.ask r).table.naming = s.table.naming := by
  have met := s.meets_ask r
  generalize s.ask r = s' at met ⊢
  cases met with
  | refuses => rfl
  | starts _ _ spawned => exact (tally.naming_spawn spawned).1
  | reaches => exact ProcessTable.keeps_naming_onProcess _ _ _
  | advances => rfl
  | learns => rfl

end Scheduler

namespace Moment

open Scheduler

variable {m : Moment} {log : List Nat} {layout : PidLayout}

/-- The process that has its turn goes by the pid whose turn it is. -/
def Speaking : Moment → Prop
  | turn _ _ pid _ session => session.kernel.current = pid
  | _ => True

/-- The books of a system are in order, and its generations count the releases in the log. -/
structure Numbered (layout : PidLayout) (log : List Nat) (m : Moment) : Prop where
  orderly : m.Orderly log
  layout : m.table.layout = layout
  counts : m.table.Counts log
  speaking : m.Speaking

/-- A moment that comes about without a release. -/
theorem Numbered.of_naming {m' : Moment} (h : m.Numbered layout log) (orderly : m'.Orderly log)
    (hnaming : m'.table.naming = m.table.naming) (speaking : m'.Speaking) :
    m'.Numbered layout log where
  orderly := orderly
  layout := (congrArg Prod.fst hnaming).trans h.layout
  counts := h.counts.of_naming hnaming
  speaking := speaking

theorem naming_endTurn {ready : List Pid} {s : Scheduler} {pid : Pid} {process : Process}
    {outcome : Outcome} {session : Session Dispatch} :
    (Moment.endTurn ready s pid process outcome session).table.naming =
      session.kernel.table.naming ∧
    (Moment.endTurn ready s pid process outcome session).Speaking := by
  unfold Moment.endTurn
  generalize s.endTurn pid outcome = ended
  obtain ⟨state, s'⟩ := ended
  refine ⟨?_, trivial⟩
  cases state <;> exact ProcessTable.naming_setOccupant _ _

/-- The next moment of a rotation counts what it releases. -/
theorem Numbered.go (h : m.Numbered layout log) : m.go.Numbered layout (log ++ released m .go) := by
  have horderly := h.orderly.go
  cases m with
  | rest s =>
    show (Moment.rest s).go.Numbered layout (log ++ [])
    rw [List.append_nil]
    have horderly : (Moment.rest s).go.Orderly (log ++ []) := horderly
    rw [List.append_nil] at horderly
    exact h.of_naming horderly naming_admitPending trivial
  | between ready s =>
    cases ready with
    | nil =>
      obtain ⟨hlayout, hcounts⟩ := counts_close h.orderly.tally h.counts
      exact ⟨horderly, hlayout.trans h.layout, hcounts, trivial⟩
    | cons pid ready =>
      show (Moment.between (pid :: ready) s).go.Numbered layout (log ++ [])
      have horderly : (Moment.between (pid :: ready) s).go.Orderly (log ++ []) := horderly
      rw [List.append_nil] at horderly ⊢
      obtain ⟨process, hoccupant, hpid, -⟩ :=
        h.orderly.tally.exists_resident pid .running List.mem_cons_self nofun
      have hoccupant : s.table.occupant pid = .resident process := hoccupant
      have hout : s.table.checkout? pid = some (process, s.table.setOccupant pid .away) := by
        rw [ProcessTable.checkout?, hoccupant]
      rw [Moment.go, hout] at horderly ⊢
      exact h.of_naming horderly (ProcessTable.naming_setOccupant _ _) hpid
  | turn ready s pid process session =>
    show (Moment.turn ready s pid process session).go.Numbered layout (log ++ [])
    have horderly : (Moment.turn ready s pid process session).go.Orderly (log ++ []) := horderly
    rw [List.append_nil] at horderly ⊢
    have hnext := Session.upholds_next (l := s.loader)
      (Dispatch.upholds_naming log session.kernel.table.naming pid)
      (s := session) ⟨⟨_, h.orderly.tally⟩, rfl, h.speaking⟩
    rw [Moment.go] at horderly ⊢
    split at horderly
    · rename_i hexit
      rw [if_pos hexit]
      exact h.of_naming horderly naming_endTurn.1 naming_endTurn.2
    · rename_i hstays
      rw [if_neg hstays]
      cases heq : session.next s.loader with
      | inl finished =>
        rw [heq] at hnext horderly
        exact h.of_naming horderly (naming_endTurn.1.trans hnext.2.1) naming_endTurn.2
      | inr session' =>
        rw [heq] at hnext horderly
        exact h.of_naming horderly hnext.2.1 hnext.2.2

theorem Numbered.elapse (h : m.Numbered layout log) (usecs : Nat) :
    (m.elapse usecs).Numbered layout log := by
  cases m <;> exact h.of_naming (h.orderly.elapse usecs) rfl h.speaking

theorem Numbered.create {s : Scheduler} (created : s.Created) :
    (rest s).Numbered s.table.layout [] := by
  refine ⟨.create created, rfl, fun i => ?_, trivial⟩
  obtain ⟨config, loader, -, run⟩ := created
  obtain ⟨layout, -, hs⟩ := exists_of_bind_ok run
  cases hs
  rw [List.count_nil, Nat.zero_mod]
  rfl

/-- At every moment the generations count the releases. -/
theorem numbered_after {s : Scheduler} (created : s.Created) (acts : List Act) :
    ((rest s).after acts).Numbered s.table.layout ((rest s).trace released acts) := by
  refine invariant released (fun log m => m.Numbered s.table.layout log) [] (.create created)
    (fun log m a h => ?_) acts
  cases a with
  | go => exact h.go
  | ask r =>
    rw [m.released_of_ne_go (a := .ask r) nofun, List.append_nil]
    cases m with
    | rest s' => exact h.of_naming (h.orderly.ask r) (naming_ask h.orderly.tally r) trivial
    | between | turn => exact h
  | elapse usecs =>
    rw [m.released_of_ne_go (a := .elapse usecs) nofun, List.append_nil]
    exact h.elapse usecs

/-- The pids under which an act starts processes: from outside, or by the process that has its
turn. -/
def started : Moment → Act → List Pid
  | rest s, .ask (.spawn callee args) => (answer? (Scheduler.spawn callee args) s).toList
  | rest s, .ask (.spawnExport module name args) =>
    (answer? (Scheduler.spawnExport module name args) s).toList
  | turn _ s _ process session, .go =>
    if process.exitRequested then []
    else ((session.ask? s.loader).bind (·.starts? session.kernel)).toList
  | _, _ => []

/-- Whatever is started from outside is started in the table, once its arguments are staged. -/
theorem exists_spawn_of_started {s : Scheduler} {r : Request} {p : Pid}
    (hp : p ∈ (rest s).started (.ask r)) :
    ∃ (callee : Value) (args : List HostArg) (values : List Value) (source : Option Heap)
      (table : ProcessTable),
      stageArgs args = .ok (values, source) ∧
      ProcessTable.spawn callee values source s.table = .ok p table ∧
      s.ask r = { s with table } := by
  have asked : ∀ {callee : Value} {args : List HostArg},
      p ∈ (answer? (spawn callee args) s).toList →
      ∃ (values : List Value) (source : Option Heap) (table : ProcessTable),
        stageArgs args = .ok (values, source) ∧
        ProcessTable.spawn callee values source s.table = .ok p table ∧
        s.ask (.spawn callee args) = { s with table } := by
    intro callee args hp
    rw [Scheduler.ask, leaves]
    rw [answer?, spawn_eq] at hp
    rw [spawn_eq]
    cases staged : stageArgs args with
    | error e =>
      rw [staged] at hp
      cases hp
    | ok found =>
      rw [staged] at hp
      dsimp only at hp ⊢
      cases spawned : ProcessTable.spawn callee found.1 found.2 s.table with
      | error e t =>
        rw [spawned] at hp
        cases hp
      | ok pid t =>
        rw [spawned] at hp
        obtain rfl : p = pid := List.mem_singleton.mp hp
        exact ⟨_, _, _, rfl, spawned, rfl⟩
  cases r with
  | spawn callee args => exact ⟨callee, args, asked hp⟩
  | spawnExport module name args =>
    rw [started, answer?, spawnExport_eq] at hp
    rw [Scheduler.ask, leaves_spawnExport]
    cases hfound : s.loader.find? module name with
    | none =>
      rw [hfound] at hp
      cases hp
    | some f =>
      rw [hfound] at hp
      exact ⟨.function f, args, asked hp⟩
  | _ => cases hp

/-- A process is started under the pid of its slot, whose generation counts the releases so far. -/
theorem Numbered.started (h : m.Numbered layout log) {a : Act} {p : Pid} (hp : p ∈ m.started a) :
    m.released a = [] ∧ ∃ i < layout.maxProcesses,
      p = layout.pid i (log.count i % layout.generations) := by
  have spawned : ∀ {callee : Value} {args : List Value} {source : Option Heap} {t : ProcessTable},
      ProcessTable.spawn callee args source m.table = .ok p t →
      ∃ i < layout.maxProcesses, p = layout.pid i (log.count i % layout.generations) := by
    intro callee args source t hspawn
    obtain ⟨-, i, hi, hpid⟩ := h.orderly.tally.naming_spawn hspawn
    rw [h.counts i, h.layout] at hpid
    rw [h.layout] at hi
    exact ⟨i, hi, hpid⟩
  cases m with
  | rest s =>
    cases a with
    | go | elapse => cases hp
    | ask r =>
      obtain ⟨callee, args, values, source, table, -, hspawn, -⟩ := exists_spawn_of_started hp
      exact ⟨rfl, spawned hspawn⟩
  | between ready s => cases a <;> cases hp
  | turn ready s pid process session =>
    cases a with
    | ask | elapse => cases hp
    | go =>
      refine ⟨rfl, ?_⟩
      rw [Moment.started] at hp
      split at hp
      · cases hp
      · obtain ⟨q, -, hq⟩ := Option.bind_eq_some_iff.mp (Option.mem_toList.mp hp)
        obtain ⟨callee, args, source, t, -, hspawn⟩ := Dispatch.spawn_of_starts? hq
        exact spawned hspawn

/-- A pid reaches nothing at a moment: what is asked for under it from outside is refused and
changes nothing, and so is what a running process asks for under it, which is not its own, but that
the fault is raised in it. -/
def Refuses (p : Pid) : Moment → Prop
  | rest s => s.table.Refuses p ∧ (∀ v, Scheduler.send p v s = .error (.invalidPid p) s) ∧
      (∀ text, Scheduler.sendText p text s = .error (.invalidPid p) s) ∧
      Scheduler.kill p s = .error (.invalidPid p) s
  | between _ s => s.table.Refuses p
  | turn _ _ _ _ session => session.kernel.table.Refuses p ∧ session.kernel.current ≠ p ∧
      ∀ l q, session.ask? l = some q → q.target? = some p →
        ∃ actor, Exec.advance l session = .error (.invalidPid p) ⟨actor, session.kernel⟩

end Moment

theorem Scheduler.onTable_error {s : Scheduler} {m : EStateM Fault ProcessTable α} {e : Fault}
    (h : m s.table = .error e s.table) : onTable m s = .error e s := by
  unfold onTable
  dsimp only
  rw [h]

/-- What a running process asks for under a pid that reaches nothing is refused. -/
theorem Dispatch.perform_of_refuses {d : Dispatch} {p : Pid} {q : Ask} (h : d.table.Refuses p)
    (hq : q.target? = some p) : q.perform d = .error (.invalidPid p) d := by
  have refused : ∀ {m : EStateM Fault ProcessTable Unit},
    m d.table = .error (.invalidPid p) d.table →
      EStateM.map (fun _ => none) (onTable m) d = .error (.invalidPid p) d (α := Option Pid) := by
    intro m hm
    unfold EStateM.map onTable
    dsimp only
    rw [hm]
  cases q with
  | send target message source =>
    cases hq
    exact refused (h.deliver _ _)
  | spawn callee args source => cases hq
  | kill target =>
    cases hq
    exact refused h.kill

namespace Moment

open Scheduler

variable {m : Moment} {log : List Nat} {layout : PidLayout}

/-- A pid that reaches nothing in the table reaches nothing at the moment. -/
theorem Numbered.refuses (h : m.Numbered layout log) {p : Pid} (hp : m.table.Refuses p) :
    m.Refuses p := by
  cases m with
  | rest s =>
    exact ⟨hp, fun _ => onTable_error (hp.deliver _ _), fun _ => onTable_error (hp.deliverBytes _),
      onTable_error hp.kill⟩
  | between ready s => exact hp
  | turn ready s pid process session =>
    refine ⟨hp, ?_, fun l q hask hq => ?_⟩
    · -- The process that has its turn is alive, though nobody else reaches it.
      rintro rfl
      have hcurrent : session.kernel.current = pid := h.speaking
      obtain ⟨slot, -, -, hoccupant, hplace⟩ := h.orderly.tally.exists_slot List.mem_cons_self
      have halive := hp.isAlive
      have haway : slot.occupant = .away := by
        cases hslot : slot.occupant with
        | vacant => rw [hslot] at hplace; cases hplace
        | away => rfl
        | resident q =>
          rw [hslot] at hplace
          obtain hstate : q.state.place = .away := Option.some.inj hplace
          cases hq : q.state <;> rw [hq] at hstate <;> cases hstate
      rw [hcurrent, ProcessTable.isAlive, hoccupant, haway] at halive
      cases halive
    · exact Session.advance_of_ask?.2 q _ _ hask (Dispatch.perform_of_refuses hp hq)

/-- A pid under which a process has been started is stale once its slot has been released, until the
generations have come round: then nothing is reached under it, whoever holds the slot. After as many
releases as there are generations it is the pid of the slot again. A process is reached under its
pid when it is at home, unless it is dead. -/
theorem stale_pid {s : Scheduler} (created : s.Created) (before since : List Act) (a : Act)
    (p : Pid) (hp : p ∈ ((rest s).after before).started a) :
    let m := (rest s).after (before ++ a :: since)
    let releases := (((rest s).after (before ++ [a])).trace released since).count
      (s.table.layout.index p)
    (1 ≤ releases → releases < 2 ^ s.table.layout.generationBits → m.Refuses p) ∧
    (releases = 2 ^ s.table.layout.generationBits →
      s.table.layout.pid (s.table.layout.index p)
        (m.table.generationAt (s.table.layout.index p)) = p ∧
      ∀ slot q, m.table.slots[s.table.layout.index p]? = some slot → slot.occupant = .resident q →
        m.table.Lives p q) ∧
    ∀ q, m.table.Lives p q →
      (q.state ≠ .dead → m.table.Accepts p q) ∧ (q.state = .dead → m.Refuses p) := by
  intro m releases
  obtain ⟨hsilent, i, hi, hpid⟩ := (numbered_after created before).started hp
  have hnumbered := numbered_after created (before ++ a :: since)
  have hlog : (rest s).trace released (before ++ a :: since) =
      (rest s).trace released before ++ ((rest s).after (before ++ [a])).trace released since := by
    rw [trace_append, trace, hsilent, List.nil_append, after_append]
    rfl
  have hgenerations := s.table.layout.generations_pos
  have hindex : s.table.layout.index p = i := by
    rw [hpid, PidLayout.index_pid _ hi (Nat.mod_lt _ hgenerations)]
  have hgeneration : s.table.layout.generation p =
      ((rest s).trace released before).count i % s.table.layout.generations := by
    rw [hpid, PidLayout.generation_pid _ hi (Nat.mod_lt _ hgenerations)]
  -- The generation of a slot counts its releases, those before the pid was given included.
  have hnow : m.table.generationAt (s.table.layout.index p) =
      (((rest s).trace released before).count i + releases) % s.table.layout.generations := by
    have hreleases : releases = (((rest s).after (before ++ [a])).trace released since).count i :=
      congrArg (List.count · _) hindex
    rw [hnumbered.counts, hlog, List.count_append, hnumbered.layout, hindex, ← hreleases]
  have hlayout : m.table.layout = s.table.layout := hnumbered.layout
  have hround' : releases = s.table.layout.generations →
      m.table.generationAt (s.table.layout.index p) = s.table.layout.generation p := by
    intro hround
    rw [hnow, hround, Nat.add_mod_right, hgeneration]
  rw [← PidLayout.generations_eq]
  refine ⟨fun hpos hlt => hnumbered.refuses (ProcessTable.refuses_of_generationAt ?_),
    fun hround => ⟨?_, fun slot q hslot hq => ⟨_, slot, hslot, hq, ?_⟩⟩,
    fun q hq => ⟨hnumbered.orderly.tally.accepts_of_lives hq, fun hdead =>
      hnumbered.refuses (hnumbered.orderly.tally.refuses_of_dead hq hdead)⟩⟩
  · intro heq
    have heq : m.table.generationAt (m.table.layout.index p) = m.table.layout.generation p := heq
    rw [hlayout, hnow, hgeneration] at heq
    have hzero : releases % s.table.layout.generations = 0 % s.table.layout.generations :=
      Nat.ModEq.add_left_cancel' (((rest s).trace released before).count i) heq
    rw [Nat.mod_eq_of_lt hlt, Nat.zero_mod] at hzero
    omega
  · rw [hround' hround, hgeneration, hindex, ← hpid]
  · have hgeneration' := ProcessTable.generationAt_of_slot hslot
    rw [hround' hround, hgeneration] at hgeneration'
    rw [hnumbered.orderly.tally.named _ slot q hslot hq]
    show m.table.layout.pid _ slot.generation = p
    rw [hlayout, ← hgeneration', hindex, ← hpid]

/-- There are two generations. The slot of a process that has panicked holds another one, which the
old pid does not reach; when that has panicked as well, the old pid reaches the third. -/
theorem stale_pid_twoSlots :
    let f : Act := .ask (.spawn (.function ⟨0, 0⟩) [])
    let once : List Act := .replicate 4 .go ++ [f, f]
    let twice : List Act := once ++ .replicate 6 .go ++ [f, f]
    let p := twoSlots.table.layout.pid 0 0
    twoSlots.Created ∧ p ∈ ((rest twoSlots).after []).started f ∧
      ((rest twoSlots).after ([] ++ f :: once)).table.live = 2 ∧
      ((rest twoSlots).after ([] ++ f :: once)).Refuses p ∧
      ∃ q, ((rest twoSlots).after ([] ++ f :: twice)).table.Accepts p q := by
  intro f once twice p
  have created : twoSlots.Created :=
    ⟨{ indexBits := 1, generationBits := 1 }, _, .create ⟨#[]⟩ .refuse, rfl⟩
  have hp : p ∈ ((rest twoSlots).after []).started f := by decide +kernel
  obtain ⟨hstale, -, -⟩ := stale_pid created [] once f p hp
  obtain ⟨-, hround, hlives⟩ := stale_pid created [] twice f p hp
  have hplace : ((rest twoSlots).after
    ([] ++ f :: twice)).table.slots[twoSlots.table.layout.index p]?.map
      (·.occupant.place?) = some (some .pending) := by decide +kernel
  obtain ⟨⟨generation, occupant⟩, hslot, hpending⟩ := Option.map_eq_some_iff.mp hplace
  refine ⟨created, hp, by decide +kernel, hstale (by decide +kernel) (by decide +kernel), ?_⟩
  cases occupant with
  | vacant => cases hpending
  | away => cases hpending
  | resident q =>
    have hq := (hround (by decide +kernel)).2 _ q hslot rfl
    refine ⟨q, (hlives q hq).1 ?_⟩
    rintro hdead
    have hpending : some q.state.place = some .pending := hpending
    rw [hdead] at hpending
    cases hpending

end Moment

end ActorMachine
