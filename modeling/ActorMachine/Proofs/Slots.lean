import Mathlib.Data.List.Nodup
import Mathlib.Data.List.Perm.Subperm
import ActorMachine.Process.Table
import ActorMachine.Proofs.Outcome

/-!
# The slots of a process table

`ProcessTable.Tally listed log t` says that the books of a table are in order: every slot that is
not vacant holds the process of its own pid, the processes are those that are `listed`, each once
and under the place where it is, and the free slots are the vacant ones in the order in which they
have last been released, where `log` tells the order of all releases. Each operation of the table
has one lemma about what it does to the tally.
-/

namespace ActorMachine

namespace PidLayout

variable (l : PidLayout)

theorem maxProcesses_eq : l.maxProcesses = 2 ^ l.indexBits := Nat.one_shiftLeft _

theorem generations_eq : l.generations = 2 ^ l.generationBits := Nat.one_shiftLeft _

theorem generations_pos : 0 < l.generations := by
  rw [generations_eq]
  exact Nat.two_pow_pos _

theorem nextGeneration_lt (generation : Nat) : l.nextGeneration generation < l.generations :=
  Nat.mod_lt _ l.generations_pos

/-- The word of a pid is the index and the generation, one after the other, moved to the left. -/
theorem word_pid {i g : Nat} (hi : i < l.maxProcesses) (hg : g < l.generations) :
    (l.pid i g).word.toNat = (i * l.generations + g) * 2 ^ l.generationShift := by
  have hbits := l.bits_le
  have hi' := hi
  have hg' := hg
  rw [maxProcesses_eq] at hi'
  rw [generations_eq] at hg'
  have hshift : l.indexShift = l.generationBits + l.generationShift := by
    unfold indexShift generationShift
    omega
  have hword : i <<< l.indexShift + g <<< l.generationShift =
      (i * l.generations + g) * 2 ^ l.generationShift := by
    rw [Nat.shiftLeft_eq, Nat.shiftLeft_eq, hshift, generations_eq, Nat.pow_add, Nat.add_mul,
      Nat.mul_assoc]
  have hlt : (i * l.generations + g) * 2 ^ l.generationShift < 2 ^ 32 := by
    have hroom : i * l.generations + g < 2 ^ (l.indexBits + l.generationBits) := by
      rw [Nat.pow_add, ← generations_eq, ← maxProcesses_eq]
      calc i * l.generations + g < i * l.generations + l.generations := Nat.add_lt_add_left hg _
        _ = (i + 1) * l.generations := (Nat.succ_mul _ _).symm
        _ ≤ l.maxProcesses * l.generations := Nat.mul_le_mul_right _ hi
    have h32 : 2 ^ 32 = 2 ^ (l.indexBits + l.generationBits) * 2 ^ l.generationShift := by
      rw [← Nat.pow_add]
      congr 1
      unfold generationShift
      omega
    rw [h32]
    exact Nat.mul_lt_mul_of_pos_right hroom (Nat.two_pow_pos _)
  unfold pid
  rw [Nat.mod_eq_of_lt hi, Nat.mod_eq_of_lt hg, hword]
  exact Nat.mod_eq_of_lt hlt

theorem index_pid {i g : Nat} (hi : i < l.maxProcesses) (hg : g < l.generations) :
    l.index (l.pid i g) = i := by
  have hbits := l.bits_le
  have hshift : l.indexShift = l.generationShift + l.generationBits := by
    unfold indexShift generationShift
    omega
  unfold index
  rw [word_pid l hi hg, hshift, Nat.shiftRight_eq_div_pow, Nat.pow_add, ← Nat.div_div_eq_div_mul,
    Nat.mul_div_cancel _ (Nat.two_pow_pos _), ← generations_eq, Nat.mul_comm, Nat.mul_add_div
    l.generations_pos, Nat.div_eq_of_lt hg, Nat.add_zero]

theorem generation_pid {i g : Nat} (hi : i < l.maxProcesses) (hg : g < l.generations) :
    l.generation (l.pid i g) = g := by
  unfold generation
  rw [word_pid l hi hg, Nat.shiftRight_eq_div_pow, Nat.mul_div_cancel _ (Nat.two_pow_pos _),
    Nat.mul_comm, Nat.mul_add_mod, Nat.mod_eq_of_lt hg]

end PidLayout

/-- Where a process is that has not been released. -/
inductive Place where
  | pending
  | running
  | waiting
  | dead
  /-- It is being run. -/
  | away
deriving DecidableEq

/-- Where a process in a state is. -/
def ProcessState.place : ProcessState → Place
  | .pending => .pending
  | .running => .running
  | .waiting .. => .waiting
  | .dead => .dead

/-- Where the process of a slot is. -/
def Occupant.place? : Occupant → Option Place
  | .vacant => none
  | .away => some .away
  | .resident p => some p.state.place

namespace ProcessTable

/-- The pid of the processes in a slot, as long as the slot is in its generation. -/
def pidOf (t : ProcessTable) (i : Nat) (slot : Slot) : Pid :=
  t.layout.pid i slot.generation

/-- Some slot holds a process of the pid, which is in the place. -/
def Holds (t : ProcessTable) (pid : Pid) (place : Place) : Prop :=
  ∃ (i : Nat) (slot : Slot), t.slots[i]? = some slot ∧ t.pidOf i slot = pid ∧
    slot.occupant.place? = some place

/-- The books of a table are in order, if `listed` are the processes in it and `log` are the indices
of the slots that have been released so far. -/
structure Tally (listed : List (Pid × Place)) (log : List Nat) (t : ProcessTable) : Prop where
  size_eq : t.slots.size = t.nextIndex
  size_le : t.slots.size ≤ t.layout.maxProcesses
  generation_lt : ∀ (i : Nat) (slot : Slot), t.slots[i]? = some slot →
    slot.generation < t.layout.generations
  named : ∀ (i : Nat) (slot : Slot) (p : Process), t.slots[i]? = some slot →
    slot.occupant = .resident p → p.pid = t.pidOf i slot
  count : t.live + t.free.length = t.slots.size
  nodup_free : t.free.Nodup
  mem_free : ∀ i : Nat, i ∈ t.free ↔ ∃ slot, t.slots[i]? = some slot ∧ slot.occupant = .vacant
  suffix : t.free <:+ log
  nodup : listed.Nodup
  mem_listed : ∀ pid place, (pid, place) ∈ listed ↔ t.Holds pid place

/-- Where a process is started, its entry has been prepared and a slot has been taken for it. -/
theorem exists_of_spawn {t t' : ProcessTable} {callee : Value} {args : List Value}
    {source : Option Heap} {pid : Pid}
    (run : ProcessTable.spawn callee args source t = .ok pid t') :
    ∃ actor i t₁, ActorM.prepareEntry callee args source (Actor.create t.config) = .ok () actor ∧
      t.takeSlot = some (i, t₁) ∧ pid = t₁.layout.pid i (t₁.slots.getD i default).generation ∧
      t' = { t₁.setOccupant pid (.resident ⟨pid, actor, .pending, false⟩) with
        live := t₁.live + 1
        pending := t₁.pending ++ [pid] } := by
  unfold spawn at run
  cases hprepare : ActorM.prepareEntry callee args source (Actor.create t.config) with
  | error e a =>
    rw [hprepare] at run
    cases run
  | ok _ actor =>
    rw [hprepare] at run
    dsimp only at run
    cases htake : t.takeSlot with
    | none =>
      rw [htake] at run
      cases run
    | some found =>
      obtain ⟨i, t₁⟩ := found
      rw [htake] at run
      cases run
      exact ⟨actor, i, t₁, rfl, rfl, rfl, rfl⟩

/-- Where no process is started, nothing changes. -/
theorem eq_of_spawn_eq_error {t t' : ProcessTable} {callee : Value} {args : List Value}
    {source : Option Heap} {e : Fault}
    (run : spawn callee args source t = .error e t') : t' = t := by
  unfold spawn at run
  cases hprepare : ActorM.prepareEntry callee args source (Actor.create t.config) with
  | error _ _ =>
    rw [hprepare] at run
    cases run
    rfl
  | ok _ actor =>
    rw [hprepare] at run
    dsimp only at run
    cases htake : t.takeSlot with
    | none =>
      rw [htake] at run
      cases run
      rfl
    | some found =>
      rw [htake] at run
      cases run

namespace Tally

variable {t : ProcessTable} {listed listed' : List (Pid × Place)} {log : List Nat}

theorem perm (h : Tally listed log t) (hperm : listed.Perm listed') : Tally listed' log t :=
  { h with
    nodup := hperm.nodup_iff.mp h.nodup
    mem_listed := fun pid place => hperm.mem_iff.symm.trans (h.mem_listed pid place) }

theorem lt_size {i : Nat} {slot : Slot} (hi : t.slots[i]? = some slot) : i < t.slots.size :=
  (Array.getElem?_eq_some_iff.mp hi).1

theorem index_pidOf (h : Tally listed log t) {i : Nat} {slot : Slot}
    (hi : t.slots[i]? = some slot) : t.layout.index (t.pidOf i slot) = i :=
  t.layout.index_pid (Nat.lt_of_lt_of_le (lt_size hi) h.size_le) (h.generation_lt i slot hi)

theorem generation_pidOf (h : Tally listed log t) {i : Nat} {slot : Slot}
    (hi : t.slots[i]? = some slot) : t.layout.generation (t.pidOf i slot) = slot.generation :=
  t.layout.generation_pid (Nat.lt_of_lt_of_le (lt_size hi) h.size_le) (h.generation_lt i slot hi)

/-- Different slots have different pids. -/
theorem pidOf_inj (h : Tally listed log t) {i j : Nat} {slot slot' : Slot}
    (hi : t.slots[i]? = some slot) (hj : t.slots[j]? = some slot')
    (heq : t.pidOf i slot = t.pidOf j slot') : i = j := by
  rw [← h.index_pidOf hi, ← h.index_pidOf hj, heq]

/-- A slot is found under its pid. -/
theorem occupant_pidOf (h : Tally listed log t) {i : Nat} {slot : Slot}
    (hi : t.slots[i]? = some slot) : t.occupant (t.pidOf i slot) = slot.occupant := by
  unfold occupant
  rw [h.index_pidOf hi, h.generation_pidOf hi, hi]
  exact if_pos rfl

/-- The process of a pid that is listed is in the slot of the pid. -/
theorem exists_slot (h : Tally listed log t) {pid : Pid} {place : Place}
    (hmem : (pid, place) ∈ listed) :
    ∃ slot, t.slots[t.layout.index pid]? = some slot ∧ t.pidOf (t.layout.index pid) slot = pid ∧
      t.occupant pid = slot.occupant ∧ slot.occupant.place? = some place := by
  obtain ⟨i, slot, hi, rfl, hplace⟩ := (h.mem_listed pid place).mp hmem
  rw [h.index_pidOf hi, h.occupant_pidOf hi]
  exact ⟨slot, hi, rfl, rfl, hplace⟩

/-- A process that is at home is found. -/
theorem exists_resident (h : Tally listed log t) (pid : Pid) (place : Place)
    (hmem : (pid, place) ∈ listed) (home : place ≠ .away) :
    ∃ p, t.occupant pid = .resident p ∧ p.pid = pid ∧ p.state.place = place := by
  obtain ⟨slot, hslot, hpid, hoccupant, hplace⟩ := h.exists_slot hmem
  rw [hoccupant]
  cases hslot' : slot.occupant with
  | vacant => rw [hslot'] at hplace; cases hplace
  | away => rw [hslot'] at hplace; cases hplace; exact absurd rfl home
  | resident p =>
    rw [hslot'] at hplace
    cases hplace
    exact ⟨p, rfl, (h.named _ _ _ hslot hslot').trans hpid, rfl⟩

/-- A pid is listed once. -/
theorem place_unique (h : Tally listed log t) {pid : Pid} {place place' : Place}
    (hmem : (pid, place) ∈ listed) (hmem' : (pid, place') ∈ listed) : place = place' := by
  obtain ⟨slot, hslot, -, -, hplace⟩ := h.exists_slot hmem
  obtain ⟨slot', hslot', -, -, hplace'⟩ := h.exists_slot hmem'
  rw [hslot] at hslot'
  cases hslot'
  exact Option.some.inj (hplace.symm.trans hplace')

theorem nodup_pids (h : Tally listed log t) : (listed.map Prod.fst).Nodup := by
  refine List.Nodup.map_on ?_ h.nodup
  rintro ⟨pid, place⟩ hmem ⟨pid', place'⟩ hmem' rfl
  rw [h.place_unique hmem hmem']

/-! ## One slot changes -/

/-- Some slot other than that of index `i` holds a process of the pid, which is in the place. -/
def HoldsElsewhere (t : ProcessTable) (i : Nat) (pid : Pid) (place : Place) : Prop :=
  ∃ (j : Nat) (slot : Slot), j ≠ i ∧ t.slots[j]? = some slot ∧ t.pidOf j slot = pid ∧
    slot.occupant.place? = some place

/-- The other processes are in other slots. -/
theorem elsewhere_of_cons {pid : Pid} {place : Place} {i : Nat} {slot : Slot}
    (h : Tally ((pid, place) :: listed) log t) (hi : t.slots[i]? = some slot)
    (hpid : t.pidOf i slot = pid) (q : Pid) (pl : Place) :
    (q, pl) ∈ listed ↔ HoldsElsewhere t i q pl := by
  constructor
  · intro hmem
    obtain ⟨j, slot', hj, hq, hplace⟩ := (h.mem_listed q pl).mp (List.mem_cons_of_mem _ hmem)
    refine ⟨j, slot', ?_, hj, hq, hplace⟩
    rintro rfl
    rw [hi] at hj
    cases hj
    obtain rfl := hpid.symm.trans hq
    obtain rfl := h.place_unique List.mem_cons_self (List.mem_cons_of_mem _ hmem)
    exact (List.nodup_cons.mp h.nodup).1 hmem
  · rintro ⟨j, slot', hne, hj, rfl, hplace⟩
    have hmem := (h.mem_listed _ _).mpr ⟨j, slot', hj, rfl, hplace⟩
    refine (List.mem_cons.mp hmem).resolve_left ?_
    rintro ⟨⟩
    exact hne (h.pidOf_inj hj hi hpid.symm)

/-- Where a slot is vacant, all processes are in other slots. -/
theorem elsewhere_of_vacant {i : Nat} (h : Tally listed log t)
    (hi : ∀ slot, t.slots[i]? = some slot → slot.occupant = .vacant) (q : Pid) (pl : Place) :
    (q, pl) ∈ listed ↔ HoldsElsewhere t i q pl := by
  rw [h.mem_listed]
  constructor
  · rintro ⟨j, slot, hj, hq, hplace⟩
    refine ⟨j, slot, ?_, hj, hq, hplace⟩
    rintro rfl
    rw [hi slot hj] at hplace
    cases hplace
  · rintro ⟨j, slot, -, hj, hq, hplace⟩
    exact ⟨j, slot, hj, hq, hplace⟩

/-- A change of one slot leaves the others. -/
theorem getElem?_modify {i : Nat} {slot : Slot} (hi : t.slots[i]? = some slot)
    (f : Slot → Slot) (j : Nat) :
    (t.slots.modify i f)[j]? = if j = i then some (f slot) else t.slots[j]? := by
  rw [Array.getElem?_modify]
  by_cases heq : i = j
  · rw [if_pos heq, if_pos heq.symm, ← heq, hi]
    rfl
  · rw [if_neg heq, if_neg (Ne.symm heq)]

/-- Who is in one slot, and where. -/
theorem mem_slot {i : Nat} {slot : Slot} {q : Pid} {pl : Place} :
    (q, pl) ∈ (slot.occupant.place?.map (t.pidOf i slot, ·)).toList ↔
      t.pidOf i slot = q ∧ slot.occupant.place? = some pl := by
  rw [Option.mem_toList, Option.map_eq_some_iff]
  constructor
  · rintro ⟨place, hplace, ⟨⟩⟩
    exact ⟨rfl, hplace⟩
  · rintro ⟨rfl, hplace⟩
    exact ⟨pl, hplace, rfl⟩

/-- The slot of index `i` has changed to `slot'`, and all other processes are `listed'`. -/
theorem update (h : Tally listed log t) (t' : ProcessTable) (log' : List Nat) (i : Nat)
    (slot' : Slot) (elsewhere : ∀ q pl, (q, pl) ∈ listed' ↔ HoldsElsewhere t i q pl)
    (nodup : listed'.Nodup) (layout : t'.layout = t.layout) (hlt : i < t.layout.maxProcesses)
    (hslots : ∀ j : Nat, t'.slots[j]? = if j = i then some slot' else t.slots[j]?)
    (generation_lt : slot'.generation < t.layout.generations)
    (named : ∀ p, slot'.occupant = .resident p → p.pid = t.pidOf i slot')
    (size_eq : t'.slots.size = t'.nextIndex) (size_le : t'.slots.size ≤ t.layout.maxProcesses)
    (count : t'.live + t'.free.length = t'.slots.size) (nodup_free : t'.free.Nodup)
    (mem_free : ∀ j : Nat, j ∈ t'.free ↔ ∃ slot, t'.slots[j]? = some slot ∧ slot.occupant = .vacant)
    (suffix : t'.free <:+ log') :
    Tally ((slot'.occupant.place?.map (t.pidOf i slot', ·)).toList ++ listed') log' t' := by
  have hpidOf : ∀ j slot, t'.pidOf j slot = t.pidOf j slot := fun j slot => by
    rw [pidOf, pidOf, layout]
  have hslot : ∀ {j : Nat} {slot : Slot}, t'.slots[j]? = some slot →
      j = i ∧ slot = slot' ∨ j ≠ i ∧ t.slots[j]? = some slot := by
    intro j slot hj
    rw [hslots] at hj
    by_cases heq : j = i
    · rw [if_pos heq] at hj
      exact .inl ⟨heq, (Option.some.inj hj).symm⟩
    · rw [if_neg heq] at hj
      exact .inr ⟨heq, hj⟩
  refine ⟨size_eq, layout ▸ size_le, ?_, ?_, count, nodup_free, mem_free, suffix, ?_, ?_⟩
  · intro j slot hj
    rw [layout]
    rcases hslot hj with ⟨-, rfl⟩ | ⟨-, hj⟩
    · exact generation_lt
    · exact h.generation_lt j slot hj
  · intro j slot p hj hp
    rw [hpidOf]
    rcases hslot hj with ⟨rfl, rfl⟩ | ⟨-, hj⟩
    · exact named p hp
    · exact h.named j slot p hj hp
  · refine List.nodup_append.mpr ⟨?_, nodup, ?_⟩
    · cases slot'.occupant.place? with
      | none => exact List.nodup_nil
      | some place => exact List.nodup_singleton _
    · rintro ⟨q, pl⟩ hnew _ hold rfl
      obtain ⟨rfl, -⟩ := mem_slot.mp hnew
      -- A pid tells its slot, so that of the slot `i` is not among the others.
      obtain ⟨j, slot, hne, hj, hpid, -⟩ := (elsewhere _ pl).mp hold
      refine hne ?_
      rw [← h.index_pidOf hj, hpid]
      exact t.layout.index_pid hlt generation_lt
  · intro q pl
    rw [List.mem_append, mem_slot, elsewhere]
    constructor
    · rintro (⟨rfl, hplace⟩ | ⟨j, slot, hne, hj, rfl, hplace⟩)
      · refine ⟨i, slot', ?_, hpidOf _ _, hplace⟩
        rw [hslots, if_pos rfl]
      · refine ⟨j, slot, ?_, hpidOf _ _, hplace⟩
        rw [hslots, if_neg hne]
        exact hj
    · rintro ⟨j, slot, hj, rfl, hplace⟩
      rw [hpidOf]
      rcases hslot hj with ⟨rfl, rfl⟩ | ⟨hne, hj⟩
      · exact .inl ⟨rfl, hplace⟩
      · exact .inr ⟨j, slot, hne, hj, rfl, hplace⟩

/-! ## The operations of a table -/

/-- A process goes to another place. -/
theorem setOccupant {pid : Pid} {place : Place} (h : Tally ((pid, place) :: listed) log t)
    (o : Occupant) (place' : Place) (hplace : o.place? = some place')
    (named : ∀ p, o = .resident p → p.pid = pid) :
    Tally ((pid, place') :: listed) log (t.setOccupant pid o) := by
  obtain ⟨slot, hslot, hpid, -, hold⟩ := h.exists_slot List.mem_cons_self
  have hslots : ∀ j : Nat, (t.setOccupant pid o).slots[j]? =
      if j = t.layout.index pid then some { slot with occupant := o } else t.slots[j]? :=
    getElem?_modify hslot _
  have hsize : (t.setOccupant pid o).slots.size = t.slots.size := Array.size_modify
  have hmoved := h.update (t.setOccupant pid o) log (t.layout.index pid)
    { slot with occupant := o } (h.elsewhere_of_cons hslot hpid)
    (List.nodup_cons.mp h.nodup).2 rfl (Nat.lt_of_lt_of_le (lt_size hslot) h.size_le) hslots
    (h.generation_lt _ slot hslot) (fun p hp => (named p hp).trans hpid.symm)
    (hsize.trans h.size_eq) (hsize ▸ h.size_le) (hsize ▸ h.count) h.nodup_free ?_ h.suffix
  · have hpid' : t.pidOf (t.layout.index pid) { slot with occupant := o } = pid := hpid
    rw [hpid', hplace] at hmoved
    exact hmoved
  · -- Neither the old nor the new occupant leaves the slot vacant.
    intro j
    rw [hslots]
    show j ∈ t.free ↔ _
    rw [h.mem_free]
    by_cases heq : j = t.layout.index pid
    · rw [if_pos heq, heq, hslot]
      constructor
      · rintro ⟨_, ⟨⟩, hvacant⟩
        rw [hvacant] at hold
        cases hold
      · rintro ⟨_, ⟨⟩, hvacant⟩
        have hvacant : o = .vacant := hvacant
        rw [hvacant] at hplace
        cases hplace
    · rw [if_neg heq]

/-- A release vacates the slot for its next generation. -/
theorem release_eq {pid : Pid} {place : Place} (h : Tally ((pid, place) :: listed) log t) :
    t.release pid = { t with
      slots := t.slots.modify (t.layout.index pid) fun _ =>
        ⟨t.layout.nextGeneration (t.layout.generation pid), .vacant⟩
      free := t.free ++ [t.layout.index pid]
      live := t.live - 1 } := by
  obtain ⟨slot, -, -, hoccupant, hplace⟩ := h.exists_slot List.mem_cons_self
  unfold ProcessTable.release
  rw [hoccupant]
  cases hslot : slot.occupant with
  | vacant =>
    rw [hslot] at hplace
    cases hplace
  | away => rfl
  | resident p => rfl

/-- The slot of a process that has ended becomes free. -/
theorem release {pid : Pid} {place : Place} (h : Tally ((pid, place) :: listed) log t) :
    Tally listed (log ++ [t.layout.index pid]) (t.release pid) := by
  obtain ⟨slot, hslot, hpid, -, hold⟩ := h.exists_slot List.mem_cons_self
  have hlt := lt_size hslot
  have hnot : slot.occupant ≠ .vacant := by
    intro hvacant
    rw [hvacant] at hold
    cases hold
  rw [h.release_eq]
  have hslots := getElem?_modify hslot fun _ =>
    ⟨t.layout.nextGeneration (t.layout.generation pid), .vacant⟩
  have hfree : t.layout.index pid ∉ t.free := by
    rw [h.mem_free, hslot]
    rintro ⟨_, ⟨⟩, hvacant⟩
    exact hnot hvacant
  have hlive : 0 < t.live := by
    -- All free slots are among the others.
    have hsub : t.layout.index pid :: t.free ⊆ List.range t.slots.size := by
      intro j hj
      rcases List.mem_cons.mp hj with rfl | hj
      · exact List.mem_range.mpr hlt
      · obtain ⟨slot', hj, -⟩ := (h.mem_free j).mp hj
        exact List.mem_range.mpr (lt_size hj)
    have hle := (List.subperm_of_subset (List.nodup_cons.mpr ⟨hfree, h.nodup_free⟩) hsub).length_le
    have hcount := h.count
    rw [List.length_cons, List.length_range] at hle
    omega
  have hsize : (t.slots.modify (t.layout.index pid) fun _ =>
      (⟨t.layout.nextGeneration (t.layout.generation pid), .vacant⟩ : Slot)).size = t.slots.size :=
    Array.size_modify
  refine h.update _ _ (t.layout.index pid) ⟨_, .vacant⟩ (h.elsewhere_of_cons hslot hpid)
    (List.nodup_cons.mp h.nodup).2 rfl (Nat.lt_of_lt_of_le hlt h.size_le) hslots
    (t.layout.nextGeneration_lt _) nofun (hsize.trans h.size_eq) (hsize ▸ h.size_le) ?_ ?_ ?_ ?_
  · have hcount := h.count
    show t.live - 1 + (t.free ++ [_]).length = _
    rw [hsize, List.length_append, List.length_singleton]
    omega
  · refine List.nodup_append.mpr ⟨h.nodup_free, List.nodup_singleton _, ?_⟩
    rintro j hj _ hj' rfl
    rw [List.mem_singleton.mp hj'] at hj
    exact hfree hj
  · intro j
    rw [hslots]
    show j ∈ t.free ++ [_] ↔ _
    rw [List.mem_append, List.mem_singleton, h.mem_free]
    by_cases heq : j = t.layout.index pid
    · rw [if_pos heq]
      exact ⟨fun _ => ⟨_, rfl, rfl⟩, fun _ => .inr heq⟩
    · rw [if_neg heq]
      exact or_iff_left heq
  · obtain ⟨earlier, hlog⟩ := h.suffix
    exact ⟨earlier, by rw [← List.append_assoc, hlog]⟩

/-- There is no slot for another process exactly if all slots that pids can number hold one. -/
theorem takeSlot_eq_none_iff (h : Tally listed log t) :
    t.takeSlot = none ↔ t.live = t.layout.maxProcesses := by
  have hsize := h.size_le
  have hcount := h.count
  unfold takeSlot
  rw [← h.size_eq]
  by_cases hlt : t.slots.size < t.layout.maxProcesses
  · rw [if_pos hlt]
    exact ⟨nofun, fun hlive => by omega⟩
  · rw [if_neg hlt]
    cases hfree : t.free with
    | nil =>
      rw [hfree, List.length_nil] at hcount
      exact ⟨fun _ => by omega, fun _ => rfl⟩
    | cons i free =>
      rw [hfree, List.length_cons] at hcount
      exact ⟨nofun, fun hlive => by omega⟩

/-- The vacant slot `i` in generation `g` has been taken for a process; it may be a new one. -/
structure Taken (t : ProcessTable) (i g : Nat) (t₁ : ProcessTable) : Prop where
  layout : t₁.layout = t.layout
  config : t₁.config = t.config
  pending : t₁.pending = t.pending
  live : t₁.live = t.live
  lt_maxProcesses : i < t.layout.maxProcesses
  lt_generations : g < t.layout.generations
  slot : t₁.slots[i]? = some ⟨g, .vacant⟩
  vacant : ∀ slot, t.slots[i]? = some slot → slot.occupant = .vacant
  others : ∀ j : Nat, j ≠ i → t₁.slots[j]? = t.slots[j]?
  size_eq : t₁.slots.size = t₁.nextIndex
  size_le : t₁.slots.size ≤ t.layout.maxProcesses
  count : t₁.live + 1 + t₁.free.length = t₁.slots.size
  suffix : t₁.free <:+ t.free
  mem_free : ∀ j : Nat, j ∈ t₁.free ↔ j ≠ i ∧ j ∈ t.free

theorem taken_of_takeSlot {t₁ : ProcessTable} {i : Nat} (h : Tally listed log t)
    (htake : t.takeSlot = some (i, t₁)) : ∃ g, Taken t i g t₁ := by
  have hcount := h.count
  unfold takeSlot at htake
  rw [← h.size_eq] at htake
  by_cases hlt : t.slots.size < t.layout.maxProcesses
  · -- There is room for a new slot, at the end.
    rw [if_pos hlt] at htake
    cases htake
    refine ⟨0, rfl, rfl, rfl, rfl, hlt, t.layout.generations_pos, Array.getElem?_push_size, ?_, ?_,
      Array.size_push _, ?_, ?_, List.suffix_rfl, ?_⟩
    · intro slot hslot
      exact absurd (lt_size hslot) (Nat.lt_irrefl _)
    · intro j hne
      rw [Array.getElem?_push, if_neg hne]
    · rw [Array.size_push]
      exact hlt
    · rw [Array.size_push]
      show t.live + 1 + t.free.length = _
      omega
    · refine fun j => ⟨fun hj => ⟨?_, hj⟩, And.right⟩
      obtain ⟨slot, hslot, -⟩ := (h.mem_free j).mp hj
      exact Nat.ne_of_lt (lt_size hslot)
  · -- The slot that has been freed last is taken again.
    rw [if_neg hlt] at htake
    have hnodup := h.nodup_free
    have hmem := h.mem_free
    cases hfree : t.free with
    | nil =>
      rw [hfree] at htake
      cases htake
    | cons j free =>
      rw [hfree] at htake hcount hnodup hmem
      cases htake
      obtain ⟨⟨g, o⟩, hslot, rfl⟩ := (hmem i).mp List.mem_cons_self
      refine ⟨g, rfl, rfl, rfl, rfl, Nat.lt_of_lt_of_le (lt_size hslot) h.size_le,
        h.generation_lt _ _ hslot, hslot, ?_, fun _ _ => rfl, rfl, h.size_le, ?_, ?_, ?_⟩
      · intro slot hslot'
        rw [hslot] at hslot'
        cases hslot'
        rfl
      · rw [List.length_cons] at hcount
        show t.live + 1 + free.length = t.slots.size
        omega
      · rw [hfree]
        exact List.suffix_cons i free
      · intro k
        rw [hfree, List.mem_cons]
        constructor
        · intro hk
          refine ⟨?_, .inr hk⟩
          rintro rfl
          exact (List.nodup_cons.mp hnodup).1 hk
        · rintro ⟨hne, hk⟩
          exact hk.resolve_left hne

/-- The process `p` has been started in a slot that was vacant, or in a new one. -/
structure Started (t : ProcessTable) (p : Process) (t' : ProcessTable) : Prop where
  layout : t'.layout = t.layout
  config : t'.config = t.config
  pending : t'.pending = t.pending ++ [p.pid]
  live : t'.live = t.live + 1
  vacant : ∀ slot, t.slots[t.layout.index p.pid]? = some slot → slot.occupant = .vacant
  slots : ∀ j : Nat, t'.slots[j]? = if j = t.layout.index p.pid then
    some ⟨t.layout.generation p.pid, .resident p⟩ else t.slots[j]?

/-- A process is started in the slot that has been taken. -/
theorem started_of_taken {t₁ t' : ProcessTable} {i g : Nat} {p : Process} (h : Tally listed log t)
    (taken : Taken t i g t₁) (hpid : p.pid = t.layout.pid i g) (hstate : p.state = .pending)
    (ht' : t' = { t₁.setOccupant p.pid (.resident p) with
      live := t₁.live + 1
      pending := t₁.pending ++ [p.pid] }) :
    Started t p t' ∧ Tally ((p.pid, .pending) :: listed) log t' := by
  have hindex : t.layout.index p.pid = i :=
    hpid ▸ t.layout.index_pid taken.lt_maxProcesses taken.lt_generations
  have hgeneration : t.layout.generation p.pid = g :=
    hpid ▸ t.layout.generation_pid taken.lt_maxProcesses taken.lt_generations
  have hslots : ∀ j : Nat, t'.slots[j]? = if j = i then some ⟨g, .resident p⟩ else t.slots[j]? := by
    intro j
    rw [ht']
    show (t₁.slots.modify (t₁.layout.index p.pid) _)[j]? = _
    rw [taken.layout, hindex, Array.getElem?_modify]
    by_cases heq : i = j
    · rw [if_pos heq, if_pos heq.symm, ← heq, taken.slot]
      rfl
    · rw [if_neg heq, if_neg (Ne.symm heq)]
      exact taken.others j (Ne.symm heq)
  have hsize : t'.slots.size = t₁.slots.size := by
    rw [ht']
    exact Array.size_modify
  have hlayout : t'.layout = t.layout := ht' ▸ taken.layout
  have hfree : t'.free = t₁.free := ht' ▸ rfl
  have hnext : t'.nextIndex = t₁.nextIndex := ht' ▸ rfl
  have hlive : t'.live = t₁.live + 1 := ht' ▸ rfl
  refine ⟨⟨hlayout, ht' ▸ taken.config, ?_, ?_, ?_, ?_⟩, ?_⟩
  · rw [ht', ← taken.pending]
  · rw [hlive, taken.live]
  · rw [hindex]
    exact taken.vacant
  · rw [hindex, hgeneration]
    exact hslots
  · have hnew := h.update t' log i ⟨g, .resident p⟩ (h.elsewhere_of_vacant taken.vacant) h.nodup
      hlayout taken.lt_maxProcesses hslots
      taken.lt_generations ?_ (hsize.trans (taken.size_eq.trans hnext.symm))
        (hsize ▸ taken.size_le) ?_ ?_ ?_ ?_
    · have hpidOf : t.pidOf i ⟨g, .resident p⟩ = p.pid := hpid.symm
      have hplace : (Occupant.resident p).place? = some .pending := by
        rw [Occupant.place?, hstate]
        rfl
      rw [hpidOf, hplace] at hnew
      exact hnew
    · rintro _ ⟨⟩
      exact hpid
    · rw [hsize, hfree, hlive]
      exact taken.count
    · rw [hfree]
      exact h.nodup_free.sublist taken.suffix.sublist
    · intro j
      rw [hfree, hslots, taken.mem_free, h.mem_free]
      by_cases heq : j = i
      · rw [if_pos heq]
        constructor
        · exact fun hj => absurd heq hj.1
        · rintro ⟨_, ⟨⟩, hvacant⟩
          cases hvacant
      · rw [if_neg heq]
        exact and_iff_right heq
    · rw [hfree]
      exact taken.suffix.trans h.suffix

/-- Where a process is started, the entry has been prepared and there has been a slot. -/
theorem started_of_spawn {callee : Value} {args : List Value} {source : Option Heap} {pid : Pid}
    {t' : ProcessTable} (h : Tally listed log t)
    (run : ProcessTable.spawn callee args source t = .ok pid t') :
    ∃ actor, ActorM.prepareEntry callee args source (Actor.create t.config) = .ok () actor ∧
      Started t ⟨pid, actor, .pending, false⟩ t' ∧ Tally ((pid, .pending) :: listed) log t' := by
  obtain ⟨actor, i, t₁, prepared, htake, rfl, rfl⟩ := exists_of_spawn run
  obtain ⟨g, taken⟩ := h.taken_of_takeSlot htake
  have hg : (t₁.slots.getD i default).generation = g := by
    rw [Array.getD_eq_getD_getElem?, taken.slot]
    rfl
  refine ⟨actor, prepared, h.started_of_taken taken ?_ rfl rfl⟩
  rw [hg, taken.layout]

/-- Starting a process fails for want of a slot exactly if its entry can be prepared and every slot
that pids can number holds a process. -/
theorem spawn_processTableFull_iff (h : Tally listed log t) (callee : Value) (args : List Value)
    (source : Option Heap)
    (entry : ∀ e a, ActorM.prepareEntry callee args source (Actor.create t.config) = .error e a →
      e ≠ .processTableFull) :
    ProcessTable.spawn callee args source t = .error .processTableFull t ↔
      (∃ actor, ActorM.prepareEntry callee args source (Actor.create t.config) = .ok () actor) ∧
        t.live = t.layout.maxProcesses := by
  rw [← h.takeSlot_eq_none_iff]
  unfold ProcessTable.spawn
  cases hprepare : ActorM.prepareEntry callee args source (Actor.create t.config) with
  | error e a =>
    constructor
    · intro heq
      cases heq
      exact absurd rfl (entry _ a hprepare)
    · rintro ⟨⟨_, ⟨⟩⟩, -⟩
  | ok _ actor =>
    dsimp only
    cases htake : t.takeSlot with
    | none => exact ⟨fun _ => ⟨⟨actor, rfl⟩, rfl⟩, fun _ => rfl⟩
    | some found => exact ⟨nofun, fun h => nomatch h.2⟩

/-- Where a process is reached, it is at home under its own pid. -/
theorem exists_listed {address : Pid} {p : Process} (h : Tally listed log t)
    (hget : t.occupant address = .resident p) :
    (p.pid, p.state.place) ∈ listed ∧ t.layout.index address = t.layout.index p.pid := by
  unfold occupant at hget
  split at hget
  · cases hget
  · rename_i slot hslot
    split at hget
    · have hpid := h.named _ _ _ hslot hget
      refine ⟨(h.mem_listed _ _).mpr ⟨_, slot, hslot, hpid.symm, ?_⟩, ?_⟩
      · rw [hget]
        rfl
      · rw [hpid, h.index_pidOf hslot]
    · cases hget

/-- Reaching a process does not move it to another place. -/
theorem onProcess {address : Pid} {m : EStateM Fault Process α} (h : Tally listed log t)
    (hm : Keeps (fun p => (p.pid, p.state.place)) m) :
    Tally listed log (leaves (ProcessTable.onProcess address m) t) := by
  unfold leaves ProcessTable.onProcess
  cases hget : t.get? address with
  | none => exact h
  | some p =>
    have hresident : t.occupant address = .resident p := by
      unfold get? Occupant.process? at hget
      split at hget
      · split at hget
        · cases hget
        · cases hget
          assumption
      · cases hget
    obtain ⟨hmem, hindex⟩ := h.exists_listed hresident
    have hset : ∀ u : ProcessTable, u.layout = t.layout → ∀ o,
        u.setOccupant address o = u.setOccupant p.pid o := by
      intro u hu o
      rw [ProcessTable.setOccupant, ProcessTable.setOccupant, hu, hindex]
    have moved : ∀ q : Process, (q.pid, q.state.place) = (p.pid, p.state.place) →
        Tally listed log ((t.setOccupant address .away).setOccupant address (.resident q)) := by
      intro q hq
      have hperm := List.perm_cons_erase hmem
      rw [hset t rfl, hset (t.setOccupant p.pid .away) rfl]
      have haway := (h.perm hperm).setOccupant .away .away rfl nofun
      refine (haway.setOccupant (.resident q) p.state.place ?_ ?_).perm hperm.symm
      · exact congrArg some (Prod.mk.inj hq).2
      · rintro _ ⟨⟩
        exact (Prod.mk.inj hq).1
    have hkeep := hm p
    unfold leaves at hkeep
    dsimp only
    cases hrun : m p with
    | ok x q =>
      rw [hrun] at hkeep
      exact moved q hkeep
    | error e q =>
      rw [hrun] at hkeep
      exact moved q hkeep

end Tally

end ProcessTable

end ActorMachine
