import ActorMachine.Proofs.Containment

/-!
# Admitting and waking

At the beginning of a rotation the processes that have been started go to the end of the turns, in
the order in which they have been started (`Scheduler.admitPending_spec`), and at its end those that
are due go there from the waiting list, in the order in which they stand there
(`Scheduler.wakeReady_spec`). Nothing else changes in a process than that it is ready.
-/

namespace ActorMachine

open ProcessTable (Tally)

namespace Process

/-- The process as a rotation begins. -/
def admitted (p : Process) : Process :=
  if p.state.place = .pending then { p with state := .running } else p

/-- The process after a look at the time at those that wait. -/
def looked (now : Nat) (p : Process) : Process :=
  if p.state.place = .waiting ∧ Scheduler.isReady now p = true then
    { p with state := .running } else p

theorem pid_looked (now : Nat) (p : Process) : (p.looked now).pid = p.pid := by
  unfold looked
  split <;> rfl

end Process

theorem ProcessTable.Lives.pid_eq {t : ProcessTable} {pid : Pid} {q : Process} (h : t.Lives pid q) :
    q.pid = pid := by
  obtain ⟨-, -, -, -, hpid⟩ := h
  exact hpid

namespace ProcessTable.Tally

variable {t : ProcessTable} {listed : List (Pid × Place)} {log : List Nat} {pid : Pid}
    {place : Place}

theorem get?_of_lives {q : Process} (h : Tally listed log t) (hq : t.Lives pid q)
    (alive : q.state ≠ .dead) : t.get? pid = some q :=
  (h.accepts_of_lives hq alive).get?

/-- Whoever is listed and neither dead nor being run is at home. -/
theorem exists_lives (h : Tally listed log t) (pid : Pid) (place : Place)
    (hmem : (pid, place) ∈ listed)
    (home : place ≠ .away) : ∃ q, t.Lives pid q ∧ q.state.place = place :=
  (h.holds_iff pid place home).mp ((h.mem_listed pid place).mp hmem)

theorem place_of_lives {q : Process} (h : Tally listed log t) (hq : t.Lives pid q) :
    (pid, q.state.place) ∈ listed := by
  obtain ⟨i, slot, hslot, hresident, rfl⟩ := hq
  exact (h.mem_listed _ _).mpr
    ⟨i, slot, hslot, (h.named i slot q hslot hresident).symm, by rw [hresident]; rfl⟩

theorem lives_unique {p q : Process} (h : Tally listed log t) (hp : t.Lives pid p)
    (hq : t.Lives pid q) :
    p = q := by
  have hoccupant := (h.occupant_of_lives hp).symm.trans (h.occupant_of_lives hq)
  cases hoccupant
  rfl

/-- The process of a pid is replaced by another of the same pid, and all others stay. -/
theorem lives_replace {p q r : Process} (h : Tally listed log t) (hp : t.Lives p.pid p)
    (hr : r.pid = p.pid) (hq : t.Lives pid q) :
    (t.setOccupant p.pid (.resident r)).Lives pid (if pid = p.pid then r else q) := by
  by_cases heq : pid = p.pid
  · rw [if_pos heq, heq]
    obtain ⟨slot, hslot, -, -⟩ := h.slot_of_lives hp
    exact ⟨_, _, slots_setOccupant hslot _, rfl, hr⟩
  · rw [if_neg heq]
    obtain rfl := hq.pid_eq
    exact h.lives_setOccupant hq (h.index_ne hq (h.place_of_lives hp) heq) _

end ProcessTable.Tally

namespace Scheduler

variable {s : Scheduler} {log : List Nat}

/-- Whether the process of a pid is to go on when those that wait are looked at. -/
def due (s : Scheduler) (pid : Pid) : Bool :=
  (s.table.get? pid).any (isReady s.now)

theorem due_of_lives {pid : Pid} {q : Process} {listed : List (Pid × Place)}
    (tally : Tally listed log s.table) (hq : s.table.Lives pid q)
    (waits : q.state.place = .waiting) :
    s.due pid = isReady s.now q := by
  unfold due
  rw [tally.get?_of_lives hq (by rintro hdead; rw [hdead] at waits; cases waits)]
  rfl

theorem lives_makeReady {listed : List (Pid × Place)} (tally : Tally listed log s.table) {pid : Pid}
    {p q : Process} (hp : s.table.Lives p.pid p) (hq : s.table.Lives pid q) :
    (s.makeReady p.pid p).table.Lives pid
      (if pid = p.pid then { q with state := .running } else q) := by
  have h := tally.lives_replace (r := { p with state := .running }) hp rfl hq
  by_cases heq : pid = p.pid
  · rw [heq] at hq
    rw [if_pos heq] at h ⊢
    rw [tally.lives_unique hq hp]
    exact h
  · rw [if_neg heq] at h ⊢
    exact h

/-- Admitting some of those that have been started, one after the other. -/
theorem foldl_admitProcess_spec (pids : List Pid)
    (tally : Tally (pids.map (·, .pending) ++ s.queued) log s.table) :
    (pids.foldl admitProcess s).running.toList = s.running.toList ++ pids ∧
      (pids.foldl admitProcess s).waiting = s.waiting ∧
      (pids.foldl admitProcess s).table.pending = s.table.pending ∧
      ∀ pid q, s.table.Lives pid q → (pids.foldl admitProcess s).table.Lives pid
        (if pid ∈ pids then { q with state := .running } else q) := by
  induction pids generalizing s with
  | nil => exact ⟨(List.append_nil _).symm, rfl, rfl, fun pid q hq => by simpa using hq⟩
  | cons first pids ih =>
    obtain ⟨p, hp, hplace⟩ := tally.exists_lives _ .pending List.mem_cons_self nofun
    obtain rfl := hp.pid_eq
    have hadmit : s.admitProcess p.pid = s.makeReady p.pid p := by
      unfold admitProcess
      rw [tally.get?_of_lives hp (by rintro hdead; rw [hdead] at hplace; cases hplace)]
    have hnext : Tally (pids.map (·, .pending) ++ (s.makeReady p.pid p).queued) log
        (s.makeReady p.pid p).table := tally_makeReady .pending rfl tally
    obtain ⟨hrunning, hwaiting, hpending, hlives⟩ := ih hnext
    rw [List.foldl_cons, hadmit]
    refine ⟨?_, hwaiting, hpending, fun pid q hq => ?_⟩
    · rw [hrunning]
      show (s.running.push p.pid).toList ++ pids = _
      rw [Array.toList_push, List.append_assoc]
      rfl
    · have hready := hlives pid _ (lives_makeReady tally hp hq)
      by_cases heq : pid = p.pid
      · rw [if_pos heq] at hready
        rw [if_pos (List.mem_cons.mpr (.inl heq))]
        simpa using hready
      · rw [if_neg heq] at hready
        simpa [heq] using hready

/-- Who has been started is admitted in the order of the starts. -/
theorem admitPending_spec (tally : Tally s.queued log s.table) :
    s.admitPending.running.toList = s.running.toList ++ s.table.pending ∧
      s.admitPending.waiting = s.waiting ∧ s.admitPending.table.pending = [] ∧
      ∀ pid q, s.table.Lives pid q → s.admitPending.table.Lives pid q.admitted := by
  rw [admitPending_eq]
  obtain ⟨hrunning, hwaiting, hpending, hlives⟩ := foldl_admitProcess_spec s.table.pending
    (s := { s with table := { s.table with pending := [] } }) (tally_pending tally)
  refine ⟨hrunning, hwaiting, hpending, fun pid q hq => ?_⟩
  have hready := hlives pid q hq
  have hmem : pid ∈ s.table.pending ↔ q.state.place = .pending := by
    have hlisted := tally.place_of_lives hq
    constructor
    · intro hpid
      exact tally.place_unique hlisted (mem_queued_pending.mpr hpid)
    · intro hplace
      rw [hplace] at hlisted
      exact mem_queued_pending.mp hlisted
  unfold Process.admitted
  simpa only [hmem] using hready

/-- The look at one that waits: it goes on if it is due, and nothing else changes. -/
theorem wake_spec {listed : List (Pid × Place)} (tally : Tally listed log s.table) {p : Process}
    (hp : s.table.Lives p.pid p) (waits : p.state.place = .waiting) :
    s.wake p.pid = (if s.due p.pid then s.makeReady p.pid p
        else { s with waiting := s.waiting.push p.pid }) ∧
      ∀ pid q, s.table.Lives pid q →
        (s.wake p.pid).table.Lives pid (if pid = p.pid then q.looked s.now else q) := by
  have hwake : s.wake p.pid = if s.due p.pid then s.makeReady p.pid p
      else { s with waiting := s.waiting.push p.pid } := by
    unfold wake
    rw [tally.get?_of_lives hp (by rintro hdead; rw [hdead] at waits; cases waits),
      due_of_lives tally hp waits]
  refine ⟨hwake, fun pid q hq => ?_⟩
  rw [hwake, due_of_lives tally hp waits]
  split
  · rename_i hready
    have hmade := lives_makeReady tally hp hq
    by_cases heq : pid = p.pid
    · obtain rfl : q = p := tally.lives_unique hq (heq ▸ hp)
      rw [if_pos heq] at hmade ⊢
      rwa [Process.looked, if_pos ⟨waits, hready⟩]
    · rw [if_neg heq] at hmade ⊢
      exact hmade
  · rename_i hnot
    by_cases heq : pid = p.pid
    · obtain rfl : q = p := tally.lives_unique hq (heq ▸ hp)
      rw [if_pos heq, Process.looked, if_neg fun h => hnot h.2]
      exact hq
    · rw [if_neg heq]
      exact hq

/-- Looking at those that wait, one after the other: who is due goes on in the order in which they
wait, and the others go on waiting. -/
theorem foldl_wake_spec (pids : List Pid)
    (tally : Tally (pids.map (·, .waiting) ++ s.queued) log s.table) :
    (pids.foldl wake s).running.toList = s.running.toList ++ pids.filter s.due ∧
      (pids.foldl wake s).waiting.toList = s.waiting.toList ++ pids.filter (!s.due ·) ∧
      (pids.foldl wake s).table.pending = s.table.pending ∧
      ∀ pid q, s.table.Lives pid q →
        (pids.foldl wake s).table.Lives pid (if pid ∈ pids then q.looked s.now else q) := by
  induction pids generalizing s with
  | nil =>
    exact ⟨(List.append_nil _).symm, (List.append_nil _).symm, rfl, fun pid q hq => by
      simpa using hq⟩
  | cons first pids ih =>
    obtain ⟨p, hp, waits⟩ := tally.exists_lives _ .waiting List.mem_cons_self nofun
    obtain rfl := hp.pid_eq
    obtain ⟨hwake, hstep⟩ := wake_spec tally hp waits
    have hnow : (s.wake p.pid).now = s.now := by
      rw [hwake]
      split <;> rfl
    have hnext := tally_wake tally
    -- Nobody waits twice, so the look at the first one changes nothing for the others.
    have honce : p.pid ∉ pids := by
      have hnodup := tally.nodup_pids
      rw [List.map_append, List.map_map] at hnodup
      intro hmem
      exact (List.nodup_cons.mp (List.nodup_append.mp hnodup).1).1
        (List.mem_map_of_mem (f := Prod.fst ∘ (·, Place.waiting)) hmem)
    have hothers : ∀ pid ∈ pids, (s.wake p.pid).due pid = s.due pid := by
      intro pid hpid
      obtain ⟨q, hq, hwaits⟩ := tally.exists_lives _ .waiting
        (List.mem_append_left _ (List.mem_cons_of_mem _ (List.mem_map_of_mem hpid))) nofun
      have hq' := hstep pid q hq
      rw [if_neg (by rintro rfl; exact honce hpid)] at hq'
      rw [due_of_lives hnext hq' hwaits, due_of_lives tally hq hwaits, hnow]
    obtain ⟨hrunning, hwaiting, hpending, hlives⟩ := ih hnext
    rw [List.filter_congr hothers] at hrunning
    rw [List.filter_congr fun pid hpid => congrArg (!·) (hothers pid hpid)] at hwaiting
    rw [List.foldl_cons]
    refine ⟨?_, ?_, ?_, fun pid q hq => ?_⟩
    · rw [hrunning, hwake]
      by_cases hdue : s.due p.pid = true
      · rw [if_pos hdue, List.filter_cons_of_pos hdue]
        show (s.running.push p.pid).toList ++ _ = _
        rw [Array.toList_push, List.append_assoc]
        rfl
      · rw [if_neg hdue, List.filter_cons_of_neg hdue]
    · rw [hwaiting, hwake]
      by_cases hdue : s.due p.pid = true
      · rw [if_pos hdue, List.filter_cons_of_neg (by simp [hdue])]
        rfl
      · rw [if_neg hdue, List.filter_cons_of_pos (by simp [hdue])]
        show (s.waiting.push p.pid).toList ++ _ = _
        rw [Array.toList_push, List.append_assoc]
        rfl
    · rw [hpending, hwake]
      split <;> rfl
    · have hlooked := hlives pid _ (hstep pid q hq)
      rw [hnow] at hlooked
      by_cases heq : pid = p.pid
      · rw [if_neg (by rw [heq]; exact honce), if_pos heq] at hlooked
        rw [if_pos (List.mem_cons.mpr (.inl heq))]
        exact hlooked
      · rw [if_neg heq] at hlooked
        simpa [heq] using hlooked

/-- At the end of a rotation all that wait are looked at. -/
theorem wakeReady_spec (tally : Tally s.queued log s.table) :
    s.wakeReady.running.toList = s.running.toList ++ s.waiting.toList.filter s.tick.due ∧
      s.wakeReady.waiting.toList = s.waiting.toList.filter (!s.tick.due ·) ∧
      s.wakeReady.table.pending = s.table.pending ∧
      ∀ pid q, s.table.Lives pid q → s.wakeReady.table.Lives pid (q.looked s.tick.now) := by
  rw [wakeReady_eq]
  obtain ⟨hrunning, hwaiting, hpending, hlives⟩ :=
    foldl_wake_spec (s := { s.tick with waiting := #[] }) s.waiting.toList (tally_tick tally)
  refine ⟨hrunning, hwaiting.trans (List.nil_append _), hpending, fun pid q hq => ?_⟩
  have hlooked := hlives pid q hq
  have hmem : q.state.place = .waiting → pid ∈ s.waiting.toList := by
    intro waits
    have hlisted := tally.place_of_lives hq
    rw [waits] at hlisted
    exact Array.mem_toList_iff.mpr (mem_queued_waiting.mp hlisted)
  split at hlooked
  · exact hlooked
  · rename_i hout
    rwa [Process.looked, if_neg fun h => hout (hmem h.1)]

end Scheduler

end ActorMachine
