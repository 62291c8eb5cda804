import ActorMachine.Proofs.Entering
import ActorMachine.Proofs.Fates

/-!
# Starting processes

A process is started only if nothing is in the way: what is to be called, arguments that have no
heap to come from, the room for their copies, the height of the stack, and in the end a free slot.
`ProcessTable.Denies` lists these causes in the order in which they count, and they are all there
are (`ProcessTable.denies_or_admits`). A slot is taken last, so a start that is refused takes none
(`Moment.starts_or_denies`).
-/

namespace ActorMachine

open Memory

namespace ProcessTable

/-- Every slot that pids can number holds a process. -/
def Full (t : ProcessTable) : Prop :=
  ∀ i < t.layout.maxProcesses, ∃ slot : Slot, t.slots[i]? = some slot ∧ slot.occupant ≠ .vacant

/-- Why a process is not started whose arguments take up so many bytes. Each cause counts only if
none of the others before it does. -/
inductive Denies (t : ProcessTable) (callee : Value) (args : List Value) (source : Option Heap)
    (bytes : Nat) :
    Fault → Prop
  | notCallable (native : ∀ id, callee ≠ .native id) (function : ∀ f, callee ≠ .function f) :
    Denies t callee args source bytes (.notCallable callee.kind)
  | notInline {v : Value} (callable : callee.isCallable = true) (alone : source = none)
    (first : args.find? Value.isCollectable = some v) :
    Denies t callee args source bytes (.mismatch .inlineValue v)
  | outOfMemory (callable : callee.isCallable = true) (sendable : Sendable source args)
    (full : (Actor.create t.config).heap.maxCapacity < bytes) :
    Denies t callee args source bytes
      (.heap (.outOfMemory bytes (Actor.create t.config).heap.maxCapacity))
  | stackOverflow (callable : callee.isCallable = true) (sendable : Sendable source args)
    (room : bytes ≤ (Actor.create t.config).heap.maxCapacity)
    (high : t.config.maxStack < args.length + 1) :
    Denies t callee args source bytes .stackOverflow
  | processTableFull (callable : callee.isCallable = true) (sendable : Sendable source args)
    (room : bytes ≤ (Actor.create t.config).heap.maxCapacity)
    (height : args.length + 1 ≤ t.config.maxStack)
    (full : t.Full) : Denies t callee args source bytes .processTableFull

/-- Nothing is in the way of a start. -/
structure Admits (t : ProcessTable) (callee : Value) (args : List Value) (source : Option Heap)
    (bytes : Nat) :
    Prop where
  callable : callee.isCallable = true
  sendable : Sendable source args
  room : bytes ≤ (Actor.create t.config).heap.maxCapacity
  height : args.length + 1 ≤ t.config.maxStack
  vacancy : ¬t.Full

variable {t : ProcessTable} {callee : Value} {args : List Value} {source : Option Heap}
    {sizes : List Nat} {listed : List (Pid × Place)} {log : List Nat} {e : Fault}

theorem denies_or_admits (t : ProcessTable) (callee : Value) (args : List Value)
    (source : Option Heap)
    (bytes : Nat) : (∃ e, t.Denies callee args source bytes e) ∨
    t.Admits callee args source bytes := by
  cases callable : callee.isCallable with
  | false =>
    refine .inl ⟨_, .notCallable ?_ ?_⟩
    · rintro id rfl
      cases callable
    · rintro f rfl
      cases callable
  | true =>
    by_cases sendable : Sendable source args
    · by_cases room : bytes ≤ (Actor.create t.config).heap.maxCapacity
      · by_cases height : args.length + 1 ≤ t.config.maxStack
        · by_cases full : t.Full
          · exact .inl ⟨_, .processTableFull callable sendable room height full⟩
          · exact .inr ⟨callable, sendable, room, height, full⟩
        · exact .inl ⟨_, .stackOverflow callable sendable room (Nat.lt_of_not_le height)⟩
      · exact .inl ⟨_, .outOfMemory callable sendable (Nat.lt_of_not_le room)⟩
    · obtain ⟨alone, collectable⟩ : source = none ∧ ∃ v ∈ args, v.isCollectable = true := by
        simpa [Sendable] using sendable
      obtain ⟨v, first⟩ := Option.isSome_iff_exists.mp (List.find?_isSome.mpr collectable)
      exact .inl ⟨_, .notInline callable alone first⟩

/-- There is no slot for another process exactly if all of them are taken. -/
theorem Tally.takeSlot_eq_none_iff_full (h : Tally listed log t) : t.takeSlot = none ↔ t.Full := by
  have hsize := h.size_le
  unfold takeSlot
  rw [← h.size_eq]
  by_cases hlt : t.slots.size < t.layout.maxProcesses
  · rw [if_pos hlt]
    refine ⟨nofun, fun full => ?_⟩
    obtain ⟨slot, hslot, -⟩ := full _ hlt
    exact absurd (lt_size hslot) (Nat.lt_irrefl _)
  · rw [if_neg hlt]
    have hmem := h.mem_free
    cases hfree : t.free with
    | nil =>
      refine ⟨fun _ i hi => ?_, fun _ => rfl⟩
      have hslot := Array.getElem?_eq_getElem (show i < t.slots.size by omega)
      refine ⟨_, hslot, fun vacant => ?_⟩
      have free := (hmem i).mpr ⟨_, hslot, vacant⟩
      rw [hfree] at free
      cases free
    | cons i free =>
      refine ⟨nofun, fun full => ?_⟩
      obtain ⟨slot, hslot, vacant⟩ := (hmem i).mp (hfree ▸ List.mem_cons_self)
      obtain ⟨slot', hslot', taken⟩ := full i (Nat.lt_of_lt_of_le (lt_size hslot) hsize)
      rw [hslot] at hslot'
      cases hslot'
      exact absurd vacant taken

/-- A start fails as the stacking of the first call does. -/
theorem spawn_eq_error_of_prepareEntry {a : Actor}
    (run : ActorM.prepareEntry callee args source (Actor.create t.config) = .error e a) :
    spawn callee args source t = .error e t := by
  unfold spawn
  rw [run]

section

variable (valid : ∀ v ∈ args, v.ValidIn source)
    (measured : List.Forall₂ (Value.Measures source) args sizes)

include valid measured

/-- A first call that can be made, with arguments that can be sent, does not fit into the heap, or
not on the stack, or is stacked. -/
theorem fails_or_enters (t : ProcessTable) (callable : callee.isCallable = true)
    (sendable : Sendable source args) :
    ((Actor.create t.config).heap.maxCapacity < sizes.sum ∧ spawn callee args source t =
        .error (.heap (.outOfMemory sizes.sum (Actor.create t.config).heap.maxCapacity)) t) ∨
      (sizes.sum ≤ (Actor.create t.config).heap.maxCapacity ∧ t.config.maxStack < args.length + 1 ∧
        spawn callee args source t = .error .stackOverflow t) ∨
      sizes.sum ≤ (Actor.create t.config).heap.maxCapacity ∧ args.length + 1 ≤ t.config.maxStack ∧
        ∃ actor copies, ActorM.prepareEntry callee args source (Actor.create t.config) =
          .ok () actor ∧
          actor.Entered t.config callee args source sizes.sum copies := by
  have ends := ActorM.ends_stackEntry t.config callable sendable valid measured
  cases run : ActorM.prepareEntry callee args source (Actor.create t.config) with
  | ok _ actor =>
    obtain ⟨room, height, copies, entered⟩ := ends.of_ok run
    exact .inr (.inr ⟨room, height, actor, copies, rfl, entered⟩)
  | error e a =>
    have failed := spawn_eq_error_of_prepareEntry run
    rcases ends.of_error run with ⟨full, rfl⟩ | ⟨room, high, rfl⟩
    · exact .inl ⟨full, failed⟩
    · exact .inr (.inl ⟨room, high, failed⟩)

variable (tally : Tally listed log t)

include tally

/-- Each cause is reported, and nothing changes. -/
theorem Denies.spawn_eq_error (h : t.Denies callee args source sizes.sum e) :
    spawn callee args source t = .error e t := by
  cases h with
  | notCallable native function =>
    have hcallee : callee.isCallable = false := by
      cases callee with
      | native id => exact absurd rfl (native id)
      | function f => exact absurd rfl (function f)
      | _ => rfl
    exact spawn_eq_error_of_prepareEntry (ActorM.prepareEntry_of_not_callable args source _ hcallee)
  | notInline callable alone first =>
    subst alone
    exact spawn_eq_error_of_prepareEntry
      (ActorM.prepareEntry_of_error _ callable (ActorM.measureArgs_eq_error first))
  | outOfMemory callable sendable full =>
    rcases fails_or_enters valid measured t callable sendable with
      ⟨-, failed⟩ | ⟨room, -⟩ | ⟨room, -⟩
    · exact failed
    · exact absurd room (Nat.not_le.mpr full)
    · exact absurd room (Nat.not_le.mpr full)
  | stackOverflow callable sendable room high =>
    rcases fails_or_enters valid measured t callable sendable with
      ⟨full, -⟩ | ⟨-, -, failed⟩ | ⟨-, height, -⟩
    · exact absurd room (Nat.not_le.mpr full)
    · exact failed
    · exact absurd height (Nat.not_le.mpr high)
  | processTableFull callable sendable room height full =>
    rcases fails_or_enters valid measured t callable sendable with
      ⟨full, -⟩ | ⟨-, high, -⟩ | ⟨-, -, actor, copies, run, -⟩
    · exact absurd room (Nat.not_le.mpr full)
    · exact absurd height (Nat.not_le.mpr high)
    · unfold spawn
      rw [run, tally.takeSlot_eq_none_iff_full.mpr full]

/-- Where nothing is in the way, the process is started. -/
theorem Admits.exists_started (h : t.Admits callee args source sizes.sum) :
    ∃ pid actor t' copies, ProcessTable.spawn callee args source t = .ok pid t' ∧
      Tally.Started t ⟨pid, actor, .pending, false⟩ t' ∧ Tally ((pid, .pending) :: listed) log t' ∧
      actor.Entered t.config callee args source sizes.sum copies := by
  rcases fails_or_enters valid measured t h.callable h.sendable with
    ⟨full, -⟩ | ⟨-, high, -⟩ | ⟨-, -, actor, copies, run, entered⟩
  · exact absurd h.room (Nat.not_le.mpr full)
  · exact absurd h.height (Nat.not_le.mpr high)
  · cases spawned : ProcessTable.spawn callee args source t with
    | error e t' =>
      -- The first call has been stacked, so only the want of a slot could be in the way.
      unfold spawn at spawned
      rw [run] at spawned
      cases taken : t.takeSlot with
      | none => exact absurd (tally.takeSlot_eq_none_iff_full.mp taken) h.vacancy
      | some slot =>
        rw [taken] at spawned
        cases spawned
    | ok pid t' =>
      obtain ⟨actor', run', hstarted, tally'⟩ := tally.started_of_spawn spawned
      rw [run] at run'
      cases run'
      exact ⟨pid, actor, t', copies, rfl, hstarted, tally', entered⟩

theorem spawn_eq_error_iff {t' : ProcessTable} : spawn callee args source t = .error e t' ↔
    t' = t ∧ t.Denies callee args source sizes.sum e := by
  constructor
  · intro failed
    rcases denies_or_admits t callee args source sizes.sum with ⟨e', denies⟩ | admits
    · have failed' := denies.spawn_eq_error valid measured tally
      rw [failed] at failed'
      cases failed'
      exact ⟨rfl, denies⟩
    · obtain ⟨pid, actor, t', copies, spawned, -⟩ := admits.exists_started valid measured tally
      rw [failed] at spawned
      cases spawned
  · rintro ⟨rfl, h⟩
    exact h.spawn_eq_error valid measured tally

end

end ProcessTable

/-- A process that is refused another one goes on as it was, among the same others. -/
theorem Exec.onKernel_spawn_eq_error {s : Session Dispatch} {callee : Value}
    {args : List Value} {e : Fault}
    (failed : ProcessTable.spawn callee args (some s.actor.heap) s.kernel.table =
      .error e s.kernel.table) : onKernel (Kernel.spawn callee args) s = .error e s := by
  have hspawn : Kernel.spawn callee args s.actor.heap s.kernel = .error e s.kernel := by
    show Dispatch.onTable _ s.kernel = _
    unfold Dispatch.onTable
    dsimp only
    rw [failed]
  unfold onKernel
  dsimp only
  rw [hspawn]

namespace Heap

/-- The tuple that holds itself leads to nothing else. -/
theorem objects_knot {r : Ref} (h : knot.memory.Leads (· = .object .tuple (.ofNat 24)) r) :
    ∃ s, knot.memory.IsObject s r := by
  have scattered : Scattered (knot.memory.Leads (· = .object .tuple (.ofNat 24))) knot.memory :=
    scattered_knot rfl (by simp)
  exact scattered.isObject h

theorem measure_knot : knot.measure (.object .tuple (.ofNat 24)) = .ok 40 := by
  have only : Lists [.ofNat 24] (knot.memory.Leads (· = .object .tuple (.ofNat 24))) :=
    lists_knot rfl (by simp)
  obtain ⟨refs, hmeasure, lists⟩ := measure_spec fun _ => objects_knot
  rw [hmeasure, lists.total_eq only]
  decide +kernel

end Heap

namespace Moment

variable {m : Moment}

/-- A process is started at any moment, with arguments that lead to objects of the source heap only.
Each argument has a measure, and for their sum: the start fails with the first cause that is in the
way, and only so; then it leaves the table and the heap of the process that has asked for it as they
were. Otherwise one process is added in a slot that was free. It is pending, behind all others that
are, and its stack holds exact copies of the arguments in reverse order and the callee, its heap as
many bytes as the measures come to. A function that is called so finds its argument `k` at the local
`-1 - k`. -/
theorem starts_or_denies (reachable : m.Reachable) (callee : Value) {args : List Value}
    {source : Option Heap} (valid : ∀ v ∈ args, v.ValidIn source) :
    ∃ sizes : List Nat, List.Forall₂ (Value.Measures source) args sizes ∧
      (∀ e t', ProcessTable.spawn callee args source m.table = .error e t' ↔
        t' = m.table ∧ m.table.Denies callee args source sizes.sum e) ∧
      (∀ e, m.table.Denies callee args source sizes.sum e →
        ∀ s : Session Dispatch, s.kernel.table = m.table →
        source = some s.actor.heap → Exec.onKernel (Kernel.spawn callee args) s = .error e s) ∧
      ((∀ e, ¬m.table.Denies callee args source sizes.sum e) → ∃ pid actor table copies log,
        ProcessTable.spawn callee args source m.table = .ok pid table ∧
        m.table.Tally m.listed log ∧ table.Tally ((pid, .pending) :: m.listed) log ∧
        ProcessTable.Tally.Started m.table ⟨pid, actor, .pending, false⟩ table ∧
        actor.Entered m.table.config callee args source sizes.sum copies ∧
        ∀ f, callee = .function f → ∀ (l : Loader) (p : LinkedPrototype), l.prototype f = .ok p →
          0 < m.table.config.maxFrames → ∀ world : Dispatch, ∃ b : Actor,
            Exec.advance l ⟨actor, world⟩ = .ok .proceed ⟨b, world⟩ ∧
            b = { actor with
              stack := copies.reverse.toArray
              entry := none
              frames := #[⟨f, 0, args.length, args.length⟩] } ∧
            ∀ k (hk : k < copies.length), b.loadLocal (-1 - k) = copies[k]) := by
  obtain ⟨log, tally⟩ := reachable.exists_tally
  obtain ⟨sizes, measured⟩ := ActorM.exists_sizes valid
  refine ⟨sizes, measured, fun e t' => ProcessTable.spawn_eq_error_iff valid measured tally, ?_,
    fun admitted => ?_⟩
  · rintro e denies s htable rfl
    refine Exec.onKernel_spawn_eq_error ?_
    rw [htable]
    exact denies.spawn_eq_error valid measured tally
  · rcases ProcessTable.denies_or_admits m.table callee args source sizes.sum with
      ⟨e, denies⟩ | admits
    · exact absurd denies (admitted e)
    · obtain ⟨pid, actor, table, copies, spawned, started, tally', entered⟩ :=
        admits.exists_started valid measured tally
      refine ⟨pid, actor, table, copies, log, spawned, tally, tally', started, entered, ?_⟩
      rintro f rfl l p prototype depth world
      exact entered.finds prototype depth world

/-- In a table without processes, a number and the tuple that holds itself are handed over in forty
bytes. Without the heap of the tuple they are not. -/
theorem starts_or_denies_knot :
    (∃ pid actor table, ProcessTable.spawn (.function ⟨0, 0⟩)
      [.integer 7, .object .tuple (.ofNat 24)]
        (some .knot) Scheduler.twoSlots.table = .ok pid table ∧
      ProcessTable.Tally.Started Scheduler.twoSlots.table ⟨pid, actor, .pending, false⟩ table ∧
      actor.heap.used = 40) ∧
    ProcessTable.spawn (.function ⟨0, 0⟩) [.integer 7, .object .tuple (.ofNat 24)] none
        Scheduler.twoSlots.table =
      .error (.mismatch .inlineValue (.object .tuple (.ofNat 24))) Scheduler.twoSlots.table := by
  have created : Scheduler.twoSlots.Created :=
    ⟨{ indexBits := 1, generationBits := 1 }, _, .create ⟨#[]⟩ .refuse, rfl⟩
  have reachable : (rest Scheduler.twoSlots).Reachable := ⟨_, [], created, rfl⟩
  constructor
  · have valid : ∀ v ∈ [.integer 7, .object .tuple (.ofNat 24)], Value.ValidIn (some .knot) v := by
      intro v hv h hknot r hr
      obtain rfl := Option.some.inj hknot
      rcases List.mem_cons.mp hv with rfl | hv
      · exact absurd hr (not_leads_of_inline rfl)
      · rw [List.mem_singleton] at hv
        subst hv
        exact Heap.objects_knot hr
    obtain ⟨sizes, measured, -, -, starts⟩ := starts_or_denies reachable (.function ⟨0, 0⟩) valid
    have hsum : sizes.sum = 40 := by
      rcases measured with _ | ⟨hnumber, _ | ⟨htuple, _ | _⟩⟩
      have hknot := Except.ok.inj (Heap.measure_knot.symm.trans htuple)
      rw [List.sum_cons, List.sum_cons, ← Except.ok.inj hnumber, ← hknot]
      rfl
    rw [hsum] at starts
    have admitted : ∀ e, ¬Scheduler.twoSlots.table.Denies (.function ⟨0, 0⟩)
        [.integer 7, .object .tuple (.ofNat 24)] (some .knot) 40 e := by
      intro e denies
      cases denies with
      | notCallable native function => exact function _ rfl
      | notInline callable alone first => cases alone
      | outOfMemory callable sendable full =>
        revert full
        decide
      | stackOverflow callable sendable room high =>
        revert high
        decide
      | processTableFull callable sendable room height full =>
        obtain ⟨slot, hslot, -⟩ := full 0 (by decide)
        cases hslot
    obtain ⟨pid, actor, table, copies, log, spawned, -, -, started, entered, -⟩ := starts admitted
    exact ⟨pid, actor, table, spawned, started, entered.used_eq⟩
  · have valid : ∀ v ∈ [.integer 7, .object .tuple (.ofNat 24)], Value.ValidIn none v :=
      fun v hv => nofun
    obtain ⟨sizes, -, failed, -⟩ := starts_or_denies reachable (.function ⟨0, 0⟩) valid
    exact (failed _ _).mpr ⟨rfl, .notInline rfl rfl rfl⟩

end Moment

end ActorMachine
