import ActorMachine.Proofs.Queues
import ActorMachine.Proofs.Tables

/-!
# Processes, slots and queues between rotations

Between two rotations no process is being run and none is dead, so every process is in one of the
three queues and every slot that holds none is free (`Scheduler.partitioned`). The index that is
given out next is the number of the slots that have been given out, and nobody is left to be
released. That a process cannot be started for want of a slot means that all slots hold one.
-/

namespace ActorMachine

/-- The process `p` is in some slot, under this pid. -/
def ProcessTable.Lives (t : ProcessTable) (pid : Pid) (p : Process) : Prop :=
  ∃ (i : Nat) (slot : Slot), t.slots[i]? = some slot ∧ slot.occupant = .resident p ∧ p.pid = pid

namespace Scheduler

/-- Between two rotations processes, slots and queues belong together; `log` are the slots that have
been released so far, in order. -/
structure Partitioned (s : Scheduler) (log : List Nat) : Prop where
  size_eq : s.table.slots.size = s.table.nextIndex
  size_le : s.table.slots.size ≤ s.table.layout.maxProcesses
  live : s.table.live = s.table.slots.countP fun slot => slot.occupant.place?.isSome
  /-- No slot is free twice, and the slots are free in the order in which they have been
  released. -/
  free_nodup : s.table.free.Nodup
  free_suffix : s.table.free <:+ log
  mem_free : ∀ i : Nat, i ∈ s.table.free ↔
    ∃ slot, s.table.slots[i]? = some slot ∧ slot.occupant = .vacant
  /-- A slot that is not vacant holds a process of the slot's own pid, and it is not dead. -/
  resident : ∀ (i : Nat) (slot : Slot), s.table.slots[i]? = some slot → slot.occupant ≠ .vacant →
    ∃ p, slot.occupant = .resident p ∧ p.pid = s.table.layout.pid i slot.generation ∧
      p.state ≠ .dead
  distinct : ∀ (i j : Nat) (slot slot' : Slot) (p q : Process), s.table.slots[i]? = some slot →
    s.table.slots[j]? = some slot' → slot.occupant = .resident p → slot'.occupant = .resident q →
    p.pid = q.pid → i = j
  nodup : (s.table.pending ++ s.running.toList ++ s.waiting.toList).Nodup
  pending : ∀ pid, pid ∈ s.table.pending ↔ ∃ p, s.table.Lives pid p ∧ p.state = .pending
  running : ∀ pid, pid ∈ s.running ↔ ∃ p, s.table.Lives pid p ∧ p.state = .running
  waiting : ∀ pid, pid ∈ s.waiting ↔
    ∃ p deadline wake, s.table.Lives pid p ∧ p.state = .waiting deadline wake
  /-- Nobody is left to be released. -/
  dead : s.dead = []

variable {s : Scheduler} {log : List Nat}

section

variable {pid : Pid}

@[simp]
theorem mem_queued_pending : (pid, Place.pending) ∈ s.queued ↔ pid ∈ s.table.pending := by
  simp [queued]

@[simp]
theorem mem_queued_running : (pid, Place.running) ∈ s.queued ↔ pid ∈ s.running := by
  simp [queued]

@[simp]
theorem mem_queued_waiting : (pid, Place.waiting) ∈ s.queued ↔ pid ∈ s.waiting := by
  simp [queued]

@[simp]
theorem mem_queued_dead : (pid, Place.dead) ∈ s.queued ↔ pid ∈ s.dead := by
  simp [queued]

@[simp]
theorem not_mem_queued_away : (pid, Place.away) ∉ s.queued := by
  simp [queued]

end

end Scheduler

namespace ProcessTable.Tally

variable {t : ProcessTable} {listed : List (Pid × Place)} {log : List Nat}

/-- The slots that hold processes are as many as there are processes. -/
theorem live_eq (h : Tally listed log t) :
    t.live = t.slots.countP fun slot => slot.occupant.place?.isSome := by
  let vacant : Nat → Bool := fun i => !(t.slots.getD i default).occupant.place?.isSome
  have hrange : t.slots.toList = (List.range t.slots.size).map fun i => t.slots.getD i default := by
    refine List.ext_getElem (by simp) fun i hi hi' => ?_
    rw [List.getElem_map, List.getElem_range, Array.getElem_toList, Array.getD_eq_getD_getElem?,
      Array.getElem?_eq_getElem, Option.getD_some]
  -- The free slots are those among all slots that hold no process.
  have hperm : t.free.Perm ((List.range t.slots.size).filter vacant) := by
    refine (List.perm_ext_iff_of_nodup h.nodup_free (List.nodup_range.filter _)).mpr fun i => ?_
    rw [h.mem_free, List.mem_filter, List.mem_range]
    constructor
    · rintro ⟨slot, hslot, hvacant⟩
      refine ⟨lt_size hslot, ?_⟩
      simp only [vacant, Array.getD_eq_getD_getElem?, hslot, Option.getD_some, hvacant]
      rfl
    · rintro ⟨hlt, hvacant⟩
      simp only [vacant, Array.getD_eq_getD_getElem?, Array.getElem?_eq_getElem hlt,
        Option.getD_some] at hvacant
      refine ⟨_, Array.getElem?_eq_getElem hlt, ?_⟩
      generalize t.slots[i].occupant = o at hvacant
      cases o with
      | vacant => rfl
      | away => cases hvacant
      | resident p => cases hvacant
  have hfree : t.free.length =
      t.slots.toList.countP fun slot => !slot.occupant.place?.isSome := by
    rw [hperm.length_eq, ← List.countP_eq_length_filter, hrange, List.countP_map]
    rfl
  have hall := List.length_eq_countP_add_countP (fun slot : Slot => slot.occupant.place?.isSome)
    (l := t.slots.toList)
  have hcount := h.count
  rw [← Array.countP_toList]
  simp only [Bool.not_eq_true, Bool.decide_eq_false] at hall
  rw [Array.length_toList] at hall
  omega

theorem holds_iff (h : Tally listed log t) (pid : Pid) (place : Place) (home : place ≠ .away) :
    t.Holds pid place ↔ ∃ p, t.Lives pid p ∧ p.state.place = place := by
  constructor
  · rintro ⟨i, slot, hi, rfl, hplace⟩
    cases hslot : slot.occupant with
    | vacant => rw [hslot] at hplace; cases hplace
    | away => rw [hslot] at hplace; cases hplace; exact absurd rfl home
    | resident p =>
      rw [hslot] at hplace
      exact ⟨p, ⟨i, slot, hi, hslot, h.named _ _ _ hi hslot⟩, Option.some.inj hplace⟩
  · rintro ⟨p, ⟨i, slot, hi, hslot, rfl⟩, rfl⟩
    refine ⟨i, slot, hi, (h.named _ _ _ hi hslot).symm, ?_⟩
    rw [hslot]
    rfl

end ProcessTable.Tally

namespace ProcessState

variable {state : ProcessState}

theorem place_eq_pending_iff : state.place = .pending ↔ state = .pending := by
  cases state <;> simp [place]

theorem place_eq_running_iff : state.place = .running ↔ state = .running := by
  cases state <;> simp [place]

theorem place_eq_waiting_iff :
    state.place = .waiting ↔ ∃ deadline wake, state = .waiting deadline wake := by
  cases state <;> simp [place]

end ProcessState

namespace ActorM

/-- A first call that cannot be prepared is no reason to say that the table is full. -/
theorem prepareEntry_ne_processTableFull {callee : Value} {args : List Value} {source : Option Heap}
    {a a' : Actor} {e : Fault} (run : prepareEntry callee args source a = .error e a') :
    e ≠ .processTableFull := by
  rintro rfl
  exact (unraised_prepareEntry callee args source a).of_error run

end ActorM

namespace Scheduler

variable {s : Scheduler} {listed : List (Pid × Place)} {log : List Nat}

/-- Those that wait are in their queue. -/
theorem mem_waiting_iff (h : s.table.Tally s.queued log) (pid : Pid) : pid ∈ s.waiting ↔
    ∃ p deadline wake, s.table.Lives pid p ∧ p.state = .waiting deadline wake := by
  rw [← mem_queued_waiting, h.mem_listed, h.holds_iff pid .waiting (by decide)]
  simp only [ProcessState.place_eq_waiting_iff, exists_and_left]

theorem partitioned_of_orderly (orderly : (Moment.rest s).Orderly log) : s.Partitioned log where
  size_eq := orderly.tally_rest.size_eq
  size_le := orderly.tally_rest.size_le
  live := orderly.tally_rest.live_eq
  free_nodup := orderly.tally_rest.nodup_free
  free_suffix := orderly.tally_rest.suffix
  mem_free := orderly.tally_rest.mem_free
  resident i slot hi hne := by
    cases hslot : slot.occupant with
    | vacant => exact absurd hslot hne
    | away =>
      -- No queue is for processes that are being run.
      exact absurd ((orderly.tally_rest.mem_listed (s.table.pidOf i slot) .away).mpr
        ⟨i, slot, hi, rfl, by rw [hslot]; rfl⟩) not_mem_queued_away
    | resident p =>
      refine ⟨p, rfl, orderly.tally_rest.named i slot p hi hslot, fun hdead => ?_⟩
      have hmem := (orderly.tally_rest.mem_listed (s.table.pidOf i slot) .dead).mpr
        ⟨i, slot, hi, rfl, by rw [hslot, Occupant.place?, hdead]; rfl⟩
      rw [mem_queued_dead, orderly.dead_rest] at hmem
      cases hmem
  distinct i j slot slot' p q hi hj hp hq heq := by
    rw [orderly.tally_rest.named i slot p hi hp, orderly.tally_rest.named j slot' q hj hq] at heq
    exact orderly.tally_rest.pidOf_inj hi hj heq
  nodup := by
    have hnodup := orderly.tally_rest.nodup_pids
    simp only [queued, orderly.dead_rest, List.map_append, List.map_map, List.map_nil,
      List.append_nil] at hnodup
    have hmap : ∀ (place : Place) (pids : List Pid),
        pids.map (Prod.fst ∘ fun pid => (pid, place)) = pids := fun _ pids => List.map_id pids
    rwa [hmap, hmap, hmap] at hnodup
  pending pid := by
    rw [← mem_queued_pending, orderly.tally_rest.mem_listed,
      orderly.tally_rest.holds_iff pid .pending (by decide)]
    simp only [ProcessState.place_eq_pending_iff]
  running pid := by
    rw [← mem_queued_running, orderly.tally_rest.mem_listed,
      orderly.tally_rest.holds_iff pid .running (by decide)]
    simp only [ProcessState.place_eq_running_iff]
  waiting := mem_waiting_iff orderly.tally_rest
  dead := orderly.dead_rest

theorem measure_ne_processTableFull {arg : HostArg} {e : Fault} (run : arg.measure = .error e) :
    e ≠ .processTableFull := by
  unfold HostArg.measure at run
  split at run
  · cases run
  · split at run
    · cases run
      exact nofun
    · cases run

theorem measureAll_ne_processTableFull {args : List HostArg} {e : Fault}
    (run : args.mapM HostArg.measure = .error e) : e ≠ .processTableFull := by
  induction args with
  | nil => exact nomatch run
  | cons arg args ih =>
    rw [List.mapM_cons] at run
    cases harg : arg.measure with
    | error e' =>
      rw [harg] at run
      cases run
      exact measure_ne_processTableFull harg
    | ok n =>
      rw [harg] at run
      cases hargs : args.mapM HostArg.measure with
      | error e' =>
        rw [hargs] at run
        cases run
        exact ih hargs
      | ok ns =>
        rw [hargs] at run
        cases run

/-- What keeps the arguments of a process from being staged is no reason to say that the table is
full. -/
theorem stageArgs_ne_processTableFull {args : List HostArg} {e : Fault}
    (run : stageArgs args = .error e) : e ≠ .processTableFull := by
  unfold stageArgs at run
  cases hmeasure : args.mapM HostArg.measure with
  | error e' =>
    rw [hmeasure] at run
    cases run
    exact measureAll_ne_processTableFull hmeasure
  | ok sizes =>
    rw [hmeasure] at run
    simp only [bind, Except.bind] at run
    split at run
    · cases run
    · cases run
      exact nofun

/-- A process cannot be started from outside for want of a slot exactly if its entry can be prepared
and all slots hold processes. -/
theorem spawn_processTableFull_iff (h : s.table.Tally listed log) (callee : Value)
    (args : List HostArg) : spawn callee args s = .error .processTableFull s ↔
      (∃ values source actor, stageArgs args = .ok (values, source) ∧
        ActorM.prepareEntry callee values source (Actor.create s.table.config) = .ok () actor) ∧
      s.table.live = s.table.layout.maxProcesses := by
  rw [spawn_eq]
  cases hstage : stageArgs args with
  | error e =>
    constructor
    · intro heq
      cases heq
      exact absurd rfl (stageArgs_ne_processTableFull hstage)
    · rintro ⟨⟨_, _, _, ⟨⟩, -⟩, -⟩
  | ok staged =>
    obtain ⟨values, source⟩ := staged
    have hfull := h.spawn_processTableFull_iff callee values source fun e a run =>
      ActorM.prepareEntry_ne_processTableFull run
    dsimp only
    constructor
    · intro heq
      obtain ⟨⟨actor, hentry⟩, hlive⟩ := hfull.mp (by
        cases hspawn : ProcessTable.spawn callee values source s.table with
        | error e t =>
          obtain rfl := ProcessTable.eq_of_spawn_eq_error hspawn
          rw [hspawn] at heq
          cases heq
          rfl
        | ok pid t =>
          rw [hspawn] at heq
          cases heq)
      exact ⟨⟨values, source, actor, rfl, hentry⟩, hlive⟩
    · rintro ⟨⟨_, _, actor, ⟨⟩, hentry⟩, hlive⟩
      rw [hfull.mpr ⟨⟨actor, hentry⟩, hlive⟩]

/-- A process is started from outside in a slot that was vacant or is new. -/
theorem started_of_spawn {s' : Scheduler} {callee : Value} {args : List HostArg} {pid : Pid}
    (h : s.table.Tally listed log) (run : spawn callee args s = .ok pid s') :
    ∃ actor, ProcessTable.Tally.Started s.table ⟨pid, actor, .pending, false⟩ s'.table := by
  rw [spawn_eq] at run
  cases hstage : stageArgs args with
  | error e => rw [hstage] at run; cases run
  | ok staged =>
    obtain ⟨values, source⟩ := staged
    rw [hstage] at run
    dsimp only at run
    cases hspawn : ProcessTable.spawn callee values source s.table with
    | error e t => rw [hspawn] at run; cases run
    | ok pid' table =>
      rw [hspawn] at run
      cases run
      obtain ⟨actor, -, hstarted, -⟩ := h.started_of_spawn hspawn
      exact ⟨actor, hstarted⟩

/-- What cannot be started changes nothing. -/
theorem eq_of_spawn_eq_error {s' : Scheduler} {callee : Value} {args : List HostArg} {e : Fault}
    (run : spawn callee args s = .error e s') : s' = s := by
  rw [spawn_eq] at run
  cases hstage : stageArgs args with
  | error e =>
    rw [hstage] at run
    cases run
    rfl
  | ok staged =>
    rw [hstage] at run
    dsimp only at run
    cases hspawn : ProcessTable.spawn callee staged.1 staged.2 s.table with
    | error e t =>
      rw [hspawn] at run
      cases run
      rfl
    | ok pid t =>
      rw [hspawn] at run
      cases run

/-- Between any two rotations, whatever has been asked for, processes, slots and queues belong
together. A process cannot be started for want of a slot exactly if its entry can be prepared and
there are as many processes as pids can number, and then nothing changes; and where one is started,
its slot was vacant and the other slots stay as they are. -/
theorem partitioned (history : History log s) :
    s.Partitioned log ∧
    (∀ callee args s', spawn callee args s = .error .processTableFull s' ↔ s' = s ∧
      (∃ values source actor, stageArgs args = .ok (values, source) ∧
        ActorM.prepareEntry callee values source (Actor.create s.table.config) = .ok () actor) ∧
      s.table.live = s.table.layout.maxProcesses) ∧
    ∀ callee args pid s', spawn callee args s = .ok pid s' →
      (∀ slot, s.table.slots[s.table.layout.index pid]? = some slot → slot.occupant = .vacant) ∧
      ∀ j : Nat, j ≠ s.table.layout.index pid → s'.table.slots[j]? = s.table.slots[j]? := by
  obtain ⟨s₀, acts, created, hafter, htrace⟩ := history.exists_acts
  have horderly := Moment.orderly_after created acts
  rw [hafter, htrace] at horderly
  have htally := horderly.tally_rest
  refine ⟨partitioned_of_orderly horderly, fun callee args s' => ?_,
    fun callee args pid s' run => ?_⟩
  · constructor
    · intro run
      obtain rfl := eq_of_spawn_eq_error run
      exact ⟨rfl, (spawn_processTableFull_iff htally callee args).mp run⟩
    · rintro ⟨rfl, full⟩
      exact (spawn_processTableFull_iff htally callee args).mpr full
  · obtain ⟨actor, hstarted⟩ := started_of_spawn htally run
    exact ⟨hstarted.vacant, fun j hne => (hstarted.slots j).trans (if_neg hne)⟩

/-- A system for two processes, which cannot run any function. -/
def twoSlots : Scheduler where
  loader := .create ⟨#[]⟩ .refuse
  table := .create ⟨1, 1, by decide, by decide, by decide⟩ {}
  running := #[]
  waiting := #[]
  dead := []
  clock := .start
  now := 0
  panics := #[]

/-- Two processes are started, and both panic. -/
theorem partitioned_twoSlots :
    ∃ s s' : Scheduler, History [] s ∧ s.Partitioned [] ∧ s.table.live = 2 ∧
      spawn (.function ⟨0, 0⟩) [] s = .error .processTableFull s ∧
      History [0, 1] s' ∧ s'.Partitioned [0, 1] ∧ s'.table.free = [0, 1] := by
  have created : twoSlots.Created :=
    ⟨{ indexBits := 1, generationBits := 1 }, _, .create ⟨#[]⟩ .refuse, rfl⟩
  let f : Request := .spawn (.function ⟨0, 0⟩) []
  have full : History [] ((twoSlots.ask f).ask f) := .ask (.ask (.create created) f) f
  have runs : ((((twoSlots.ask f).ask f).runOnce 1).map fun result => result.2.table.free) =
        some [0, 1] ∧ ((twoSlots.ask f).ask f).released 1 = some [0, 1] ∧
      ((twoSlots.ask f).ask f).table.live = 2 := by decide +kernel
  obtain ⟨hfree, hreleased, hlive⟩ := runs
  obtain ⟨⟨state, s'⟩, hrun, hfree⟩ := Option.map_eq_some_iff.mp hfree
  have emptied : History [0, 1] s' := .rotate full hrun hreleased
  obtain ⟨hpartitioned, hspawn, -⟩ := partitioned full
  obtain ⟨hpartitioned', -⟩ := partitioned emptied
  have hfull := (hspawn (.function ⟨0, 0⟩) [] _).mpr ⟨rfl, ⟨[], none, _, rfl, rfl⟩, hlive⟩
  exact ⟨_, s', full, hpartitioned, hlive, hfull, emptied, hpartitioned', hfree⟩

end Scheduler

end ActorMachine
