import Mathlib.Data.List.Dedup
import ActorMachine.Proofs.Waking
import ActorMachine.Proofs.Wakeups

/-!
# Rotations

In a rotation everybody who is ready has one turn, in the order of the queue, and nobody else has
one (`Moment.round_robin`). What a turn does to others never touches the queue of those that are
still to have theirs: whoever is started is pending until the next rotation, whoever gives up the
turn goes behind those that have done so before, and whoever waits is woken only when the rotation
is closed. So all queues are determined by how the turns have ended so far (`Moment.Round`).
-/

namespace ActorMachine

open ProcessTable (Tally)

/-- Where a process is put after a turn. -/
def Outcome.place : Outcome → Place
  | .ok .yield => .running
  | .ok (.block _) => .waiting
  | .ok .exit | .ok .done | .error _ => .dead

/-- The processes that some turns have put into a place, in the order of the turns. -/
def putInto (place : Place) (turns : List (Pid × Outcome)) : List Pid :=
  (turns.filter (·.2.place = place)).map Prod.fst

section putInto

variable {place : Place} {turns : List (Pid × Outcome)}

theorem putInto_append (turns turns' : List (Pid × Outcome)) :
    putInto place (turns ++ turns') = putInto place turns ++ putInto place turns' := by
  rw [putInto, List.filter_append, List.map_append]
  rfl

/-- After a turn a process is ready, waits or has ended. -/
theorem perm_putInto (turns : List (Pid × Outcome)) : (turns.map Prod.fst).Perm
    (putInto .running turns ++ putInto .waiting turns ++ putInto .dead turns) := by
  induction turns with
  | nil => exact .refl _
  | cons turn turns ih =>
    rw [List.perm_iff_count] at ih ⊢
    intro pid
    have ih := ih pid
    have hplace : turn.2.place = .running ∨ turn.2.place = .waiting ∨ turn.2.place = .dead := by
      rcases turn.2 with fault | (_ | timeout | _ | _) <;> simp [Outcome.place]
    rw [← List.singleton_append, putInto_append, putInto_append, putInto_append, List.map_append]
    simp only [List.count_append] at ih ⊢
    rcases hplace with hplace | hplace | hplace <;> simp [putInto, hplace] at ih ⊢ <;> omega

end putInto

/-- Who comes last among some, and not for the first time perhaps, is last among their last
occurrences. -/
theorem sublist_dedup_concat [DecidableEq α] {waiters log : List α} {a : α}
    (h : waiters.Sublist log.dedup) (new : a ∉ waiters) :
    (waiters ++ [a]).Sublist (log ++ [a]).dedup := by
  induction log generalizing waiters with
  | nil =>
    obtain rfl := List.sublist_nil.mp h
    exact .refl _
  | cons b log ih =>
    rw [List.cons_append]
    by_cases hmem : b ∈ log
    · rw [List.dedup_cons_of_mem hmem] at h
      rw [List.dedup_cons_of_mem (List.mem_append_left _ hmem)]
      exact ih h new
    · rw [List.dedup_cons_of_notMem hmem] at h
      by_cases heq : b = a
      · subst heq
        rw [List.dedup_cons_of_mem (List.mem_append_right _ List.mem_cons_self)]
        cases h with
        | cons _ h => exact ih h new
        | cons_cons => exact absurd List.mem_cons_self new
      · rw [List.dedup_cons_of_notMem (by simp [hmem, heq])]
        cases h with
        | cons _ h => exact .cons _ (ih h new)
        | cons_cons _ h => exact .cons_cons _ (ih h fun hmem => new (List.mem_cons_of_mem _ hmem))

namespace Dispatch

/-- What a running process asks for makes those pending that are started by it. -/
theorem pending_answer {listed : List (Pid × Place)} {log : List Nat} {d : Dispatch}
    (tally : Tally listed log d.table) (q : Option Ask) :
    (Session.answer q d).table.pending = d.table.pending ++ (q.bind (·.starts? d)).toList := by
  have reached : ∀ {m : EStateM Fault Process Unit} {address : Pid} {q : Ask},
      q.perform d = EStateM.map (fun _ => none) (onTable (ProcessTable.onProcess address m)) d →
      (leaves q.perform d).table.pending = d.table.pending ++ (q.starts? d).toList := by
    intro m address q hperform
    have hpending : (leaves (ProcessTable.onProcess address m) d.table).pending = d.table.pending :=
      congrArg (fun x => x.2.2.2.1) (ProcessTable.keeps_onProcess address m d.table)
    unfold Ask.starts? leaves at *
    rw [hperform]
    unfold EStateM.map onTable
    dsimp only
    cases hrun : ProcessTable.onProcess address m d.table <;> rw [hrun] at hpending <;>
      simpa using hpending
  cases q with
  | none => exact (List.append_nil _).symm
  | some q =>
    show (leaves q.perform d).table.pending = d.table.pending ++ (q.starts? d).toList
    cases q with
    | send target message source => exact reached rfl
    | kill target => exact reached rfl
    | spawn callee args source =>
      unfold Ask.starts? leaves
      rw [perform_spawn]
      cases hspawn : ProcessTable.spawn callee args (some source) d.table with
      | error e t => exact (List.append_nil _).symm
      | ok pid t =>
        obtain ⟨actor, -, hstarted, -⟩ := tally.started_of_spawn hspawn
        exact hstarted.pending

end Dispatch

namespace Scheduler

variable {s : Scheduler}

theorem place_endTurn (s : Scheduler) (pid : Pid) (outcome : Outcome) :
    (s.endTurn pid outcome).1.place = outcome.place := by
  rcases outcome with fault | (_ | ⟨_ | usecs⟩ | _ | _) <;> rfl

/-- A process goes to the end of the list of its new state. -/
theorem enlist_spec {state : ProcessState} {outcome : Outcome}
    (hplace : state.place = outcome.place) (pid : Pid) :
    (s.enlist pid state).dead = s.dead ++ putInto .dead [(pid, outcome)] ∧
      (s.enlist pid state).running.toList =
        s.running.toList ++ putInto .running [(pid, outcome)] ∧
      (s.enlist pid state).waiting.toList =
        s.waiting.toList ++ putInto .waiting [(pid, outcome)] ∧
      (s.enlist pid state).table = s.table := by
  have hput : ∀ place, putInto place [(pid, outcome)] =
      if state.place = place then [pid] else [] := by
    intro place
    rw [hplace, putInto, List.filter_singleton]
    by_cases h : outcome.place = place <;> simp [h]
  have hne : state ≠ .pending := by
    rintro rfl
    rcases outcome with fault | (_ | timeout | _ | _) <;> cases hplace
  simp only [hput]
  cases state with
  | pending => exact absurd rfl hne
  | _ => simp [enlist, ProcessState.place]

/-- What is asked for from outside concerns the processes, the chunks or the clock, and nothing
else. -/
theorem exists_ask (s : Scheduler) (r : Request) : ∃ loader table, s.ask r = { s with
    loader, table, clock := match r with
      | .advanceClock usecs => s.clock.advance usecs
      | _ => s.clock } := by
  cases r with
  | advanceClock usecs => exact ⟨_, _, rfl⟩
  | _ =>
    generalize hask : s.ask _ = s'
    have met := hask ▸ s.meets_ask _
    cases met with
    | advances advance => cases advance
    | _ => exact ⟨_, _, rfl⟩

end Scheduler

namespace Moment

open Scheduler

variable {m : Moment} {log : List Nat}

/-- The process to which an act gives a turn. -/
def begun : Moment → Act → List Pid
  | between (pid :: _) s, .go => if (s.table.checkout? pid).isSome then [pid] else []
  | _, _ => []

/-- The turn that an act ends: whose it is, and how it ends. -/
def ended : Moment → Act → List (Pid × Outcome)
  | turn _ s pid process session, .go =>
    if process.exitRequested then [(pid, .ok .exit)]
    else
      match session.next s.loader with
      | .inl (outcome, _) => [(pid, outcome)]
      | .inr _ => []
  | _, _ => []

/-- A step of a turn: the turn ends, or it goes on. Whoever is started in it is pending. -/
theorem go_turn {ready : List Pid} {s : Scheduler} {pid : Pid} {process : Process}
    {session : Session Dispatch} {m : Moment} (hm : m = turn ready s pid process session)
    (orderly : m.Orderly log) :
    ∃ session' : Session Dispatch,
      session'.kernel.table.pending = session.kernel.table.pending ++ m.started .go ∧
      (m.ended .go = [] ∧ m.go = turn ready s pid process session' ∨
        ∃ outcome, m.ended .go = [(pid, outcome)] ∧
          m.go = Moment.endTurn ready s pid process outcome session') := by
  subst hm
  rw [ended, started, go]
  by_cases hexit : process.exitRequested = true
  · rw [if_pos hexit, if_pos hexit, if_pos hexit]
    exact ⟨session, (List.append_nil _).symm, .inr ⟨_, rfl, rfl⟩⟩
  · rw [if_neg hexit, if_neg hexit, if_neg hexit]
    have hworld := Session.world_next (l := s.loader) (s := session)
    have hpending := Dispatch.pending_answer orderly.tally (session.ask? s.loader)
    rw [← hworld] at hpending
    cases hnext : session.next s.loader with
    | inl finished =>
      rw [hnext] at hpending
      exact ⟨finished.2, hpending, .inr ⟨_, rfl, rfl⟩⟩
    | inr next =>
      rw [hnext] at hpending
      exact ⟨next, hpending, .inl ⟨rfl, rfl⟩⟩

/-- Whose turn it is gets one. -/
theorem go_ready {ready : List Pid} {s : Scheduler} {pid : Pid}
    (tally : s.table.Tally (between (pid :: ready) s).listed log) :
    ∃ process, s.table.Lives pid process ∧
      (between (pid :: ready) s).begun .go = [pid] ∧
      (between (pid :: ready) s).go = turn ready { s with table := default } pid process
        ⟨process.actor, ⟨s.table.setOccupant pid .away, process.pid⟩⟩ := by
  obtain ⟨process, hlives, -⟩ := tally.exists_lives pid .running List.mem_cons_self nofun
  have hoccupant : s.table.occupant pid = .resident process := tally.occupant_of_lives hlives
  have hout : s.table.checkout? pid = some (process, s.table.setOccupant pid .away) := by
    rw [ProcessTable.checkout?, hoccupant]
  refine ⟨process, hlives, ?_, ?_⟩
  · rw [begun, hout]
    rfl
  · rw [go, hout]

/-- At the end of a turn the process goes to the end of the list of its new state. -/
theorem exists_endTurn (ready : List Pid) (s : Scheduler) (pid : Pid) (process : Process)
    (outcome : Outcome) (session : Session Dispatch) :
    ∃ now : Scheduler, Moment.endTurn ready s pid process outcome session =
        between ready now ∧
      now.dead = s.dead ++ putInto .dead [(pid, outcome)] ∧
      now.running.toList = s.running.toList ++ putInto .running [(pid, outcome)] ∧
      now.waiting.toList = s.waiting.toList ++ putInto .waiting [(pid, outcome)] ∧
      now.table = session.kernel.table.checkin
        { process with actor := session.actor, state := (s.endTurn pid outcome).1 } := by
  obtain ⟨-, -, hrunning, hwaiting, hdead⟩ := s.endTurn_spec pid outcome
  have hplace := s.place_endTurn pid outcome
  unfold Moment.endTurn
  generalize s.endTurn pid outcome = ended at hrunning hwaiting hdead hplace ⊢
  obtain ⟨state, s'⟩ := ended
  dsimp only at hrunning hwaiting hdead hplace ⊢
  obtain ⟨hdead', hrunning', hwaiting', htable⟩ := enlist_spec (s := { s' with
    table := session.kernel.table.checkin { process with actor := session.actor, state } }) hplace
      pid
  refine ⟨_, rfl, ?_, ?_, ?_, htable⟩
  · rw [hdead', hdead]
  · rw [hrunning', hrunning]
  · rw [hwaiting', hwaiting]

/-! ## The course of a rotation -/

/-- What has come of a rotation of `s` in which these processes have been given a turn, these turns
have ended, and these processes have been started: `ready` are still to have a turn, and `current`
has it. -/
structure Progress (s : Scheduler) (begun : List Pid) (turns : List (Pid × Outcome))
    (started : List Pid)
    (ready current : List Pid) (now : Scheduler) : Prop where
  order : begun ++ ready = s.running.toList ++ s.table.pending
  taken : turns.map Prod.fst ++ current = begun
  dead : now.dead = putInto .dead turns
  running : now.running.toList = putInto .running turns
  waiting : now.waiting.toList = s.waiting.toList ++ putInto .waiting turns
  pending : now.table.pending = started

/-- The moment belongs to a rotation of `s` that has come so far; from rest, it is about to
begin. -/
def Round (s : Scheduler) (begun : List Pid) (turns : List (Pid × Outcome)) (started : List Pid) :
    Moment → Prop
  | rest now => now = { s with clock := now.clock } ∧ begun = [] ∧ turns = [] ∧ started = []
  | between ready now => Progress s begun turns started ready [] now
  | turn ready now pid _ session =>
    Progress s begun turns started ready [pid] { now with table := session.kernel.table }

variable {s : Scheduler} {given : List Pid} {turns : List (Pid × Outcome)} {new : List Pid}

/-- A rotation begins with nobody's turn. -/
theorem Round.first {now : Scheduler} (orderly : (rest now).Orderly log)
    (h : (rest now).Round s given turns new) : (rest now).go.Round s given turns new := by
  obtain ⟨hnow, rfl, rfl, rfl⟩ := h
  obtain ⟨hrunning, hwaiting, hpending, -⟩ := admitPending_spec orderly.tally
  have hdead := now.dead_admitPending.trans orderly.dead_rest
  rw [hnow] at hrunning hwaiting hpending hdead ⊢
  refine ⟨hrunning, rfl, hdead, rfl, ?_, hpending⟩
  show (Array.toList _) = s.waiting.toList ++ []
  rw [hwaiting, List.append_nil]

/-- The end of a turn, by which a process goes to the end of some queue. -/
theorem Progress.endTurn {ready : List Pid} {now : Scheduler} {pid : Pid} {process : Process}
    {outcome : Outcome} {session : Session Dispatch}
    (h : Progress s given turns new ready [pid] { now with table := session.kernel.table }) :
    (Moment.endTurn ready now pid process outcome session).Round s given
      (turns ++ [(pid, outcome)]) new := by
  obtain ⟨now', hended, hdead, hrunning, hwaiting, htable⟩ :=
    exists_endTurn ready now pid process outcome session
  rw [hended]
  refine ⟨h.order, ?_, ?_, ?_, ?_, ?_⟩
  · rw [List.map_append, List.append_nil]
    exact h.taken
  · rw [hdead, putInto_append, ← h.dead]
  · rw [hrunning, putInto_append, ← h.running]
  · rw [hwaiting, putInto_append, ← List.append_assoc, ← h.waiting]
  · rw [htable]
    exact h.pending

/-- A step takes a rotation on. -/
theorem Round.go (orderly : m.Orderly log) (h : m.Round s given turns new)
    (unclosed : ∀ s, m ≠ between [] s) :
    m.go.Round s (given ++ m.begun .go) (turns ++ m.ended .go) (new ++ m.started .go) := by
  cases m with
  | rest now =>
    have hround := h.first orderly
    rw [← List.append_nil given, ← List.append_nil turns, ← List.append_nil new] at hround
    exact hround
  | between ready now =>
    cases ready with
    | nil => exact absurd rfl (unclosed now)
    | cons pid ready =>
      obtain ⟨process, -, hbegun, hgo⟩ := go_ready orderly.tally
      have h : Progress s given turns new (pid :: ready) [] now := h
      rw [hbegun, hgo]
      refine ⟨?_, ?_, ?_, ?_, ?_, ?_⟩
      · rw [List.append_assoc]
        exact h.order
      · show List.map _ (turns ++ []) ++ [pid] = _
        rw [List.append_nil, ← h.taken, List.append_nil]
      all_goals
        simp only [ended, started, List.append_nil]
      · exact h.dead
      · exact h.running
      · exact h.waiting
      · exact h.pending
  | turn ready now pid process session =>
    obtain ⟨session', hpending, hgoes⟩ := go_turn rfl orderly
    have h : Progress s given turns new ready [pid] { now with table := session.kernel.table } := h
    have hnext : Progress s (given ++ []) turns (new ++ (turn ready now pid process session).started
        .go) ready [pid] { now with table := session'.kernel.table } := by
      rw [List.append_nil]
      refine { h with pending := hpending.trans ?_ }
      rw [← h.pending]
    rcases hgoes with ⟨hended, hgo⟩ | ⟨outcome, hended, hgo⟩
    · rw [hended, hgo, List.append_nil]
      exact hnext
    · rw [hended, hgo]
      exact hnext.endTurn

/-- No turn begins or ends, and nobody is started, when the clock moves. -/
theorem unturned_elapse (m : Moment) (usecs : Nat) : m.begun (.elapse usecs) = [] ∧
    m.ended (.elapse usecs) = [] ∧ m.started (.elapse usecs) = [] := by
  cases m with
  | rest | turn => exact ⟨rfl, rfl, rfl⟩
  | between ready s => cases ready <;> exact ⟨rfl, rfl, rfl⟩

/-- Only the clock moves when time passes. -/
theorem Round.elapse (h : m.Round s given turns new) (usecs : Nat) :
    (m.elapse usecs).Round s given turns new := by
  cases m with
  | rest now =>
    obtain ⟨hnow, hempty⟩ := h
    refine ⟨?_, hempty⟩
    rw [hnow]
    rfl
  | between | turn => exact { h with }

/-- The books stay in order while no rotation is closed. -/
theorem Orderly.passes {m' : Moment} {acts : List Act} (orderly : m.Orderly log)
    (passes : m.Passes acts m') : ∃ log', m'.Orderly log' := by
  induction passes with
  | refl => exact ⟨log, orderly⟩
  | go _ _ ih =>
    obtain ⟨log', orderly'⟩ := ih
    exact ⟨_, orderly'.go⟩
  | elapse _ usecs ih =>
    obtain ⟨log', orderly'⟩ := ih
    exact ⟨_, orderly'.elapse usecs⟩

/-- All moments of a rotation belong to it. -/
theorem Round.of_passes (orderly : (rest s).Orderly log) {acts : List Act}
    (passes : (rest s).Passes acts m) :
    m.Round s ((rest s).trace begun acts) ((rest s).trace ended acts)
      ((rest s).trace started acts) := by
  induction passes with
  | refl => exact ⟨rfl, rfl, rfl, rfl⟩
  | go passes unclosed ih =>
    obtain ⟨log', orderly'⟩ := orderly.passes passes
    rw [trace_concat, trace_concat, trace_concat, passes.after]
    exact ih.go orderly' unclosed
  | @elapse acts m _ usecs ih =>
    obtain ⟨hbegun, hended, hstarted⟩ := ((rest s).after acts).unturned_elapse usecs
    rw [trace_concat, trace_concat, trace_concat, hbegun, hended, hstarted, List.append_nil,
      List.append_nil, List.append_nil]
    exact ih.elapse usecs

/-! ## The order in which processes have blocked -/

/-- The processes that wait. -/
def waiters : Moment → List Pid
  | rest s | between _ s | turn _ s .. => s.waiting.toList

/-- Nobody begins or ceases to wait by what is asked for from outside. -/
theorem waiting_ask (s : Scheduler) (r : Request) : (s.ask r).waiting = s.waiting := by
  obtain ⟨loader, table, hask⟩ := s.exists_ask r
  rw [hask]

/-- Those that wait after a step do so in the order in which they have blocked. -/
theorem waiters_go {blocked : List Pid} (orderly : m.Orderly log)
    (h : m.waiters.Sublist blocked.dedup) :
    m.go.waiters.Sublist (blocked ++ putInto .waiting (m.ended .go)).dedup := by
  cases m with
  | rest s =>
    obtain ⟨-, hwaiting, -⟩ := admitPending_spec orderly.tally
    show s.admitPending.waiting.toList.Sublist (blocked ++ []).dedup
    rw [hwaiting, List.append_nil]
    exact h
  | between ready s =>
    cases ready with
    | nil =>
      have tally : Tally s.queued log s.table := orderly.tally
      obtain ⟨-, hwaiting, -⟩ := wakeReady_spec tally
      show s.wakeReady.waiting.toList.Sublist (blocked ++ []).dedup
      rw [hwaiting, List.append_nil]
      exact List.filter_sublist.trans h
    | cons pid ready =>
      obtain ⟨process, -, -, hgo⟩ := go_ready orderly.tally
      rw [hgo]
      show s.waiting.toList.Sublist (blocked ++ []).dedup
      rw [List.append_nil]
      exact h
  | turn ready s pid process session =>
    obtain ⟨session', -, ⟨hended, hgo⟩ | ⟨outcome, hended, hgo⟩⟩ := go_turn rfl orderly
    · rw [hended, hgo]
      show s.waiting.toList.Sublist (blocked ++ []).dedup
      rw [List.append_nil]
      exact h
    · obtain ⟨now, hend, -, -, hwaiting, -⟩ :=
        exists_endTurn ready s pid process outcome session'
      rw [hended, hgo, hend]
      show now.waiting.toList.Sublist _
      rw [hwaiting]
      have hput : putInto .waiting [(pid, outcome)] =
          if outcome.place = .waiting then [pid] else [] := by
        rw [putInto, List.filter_singleton]
        by_cases hplace : outcome.place = .waiting <;> simp [hplace]
      rw [hput]
      split
      · -- Whoever runs does not wait.
        refine sublist_dedup_concat h fun hmem => ?_
        have hlisted : (pid, Place.waiting) ∈ (turn ready s pid process session).listed :=
          List.mem_cons_of_mem _ (List.mem_append_right _
            (mem_queued_waiting.mpr (Array.mem_toList_iff.mp hmem)))
        cases orderly.tally.place_unique hlisted List.mem_cons_self
      · rw [List.append_nil, List.append_nil]
        exact h

/-- Those that wait do so in the order in which they have blocked for the last time. -/
theorem waiters_sublist {s : Scheduler} (created : s.Created) (acts : List Act) :
    ((rest s).after acts).waiters.Sublist (putInto .waiting ((rest s).trace ended acts)).dedup := by
  refine (invariant ended (fun turns m => (∃ log, m.Orderly log) ∧
    m.waiters.Sublist (putInto .waiting turns).dedup) [] ⟨⟨_, .create created⟩, ?_⟩
    (fun turns m a ⟨⟨log, orderly⟩, h⟩ => ?_) acts).2
  · obtain ⟨config, loader, -, run⟩ := created
    obtain ⟨layout, -, hs⟩ := exists_of_bind_ok run
    cases hs
    exact .refl _
  · rw [putInto_append]
    cases a with
    | go => exact ⟨⟨_, orderly.go⟩, waiters_go orderly h⟩
    | elapse usecs =>
      refine ⟨⟨log, orderly.elapse usecs⟩, ?_⟩
      cases m with
      | rest | between | turn =>
        show List.Sublist _ (putInto .waiting turns ++ []).dedup
        rw [List.append_nil]
        exact h
    | ask r =>
      cases m with
      | rest s =>
        refine ⟨⟨log, orderly.ask r⟩, ?_⟩
        show (s.ask r).waiting.toList.Sublist (putInto .waiting turns ++ []).dedup
        rw [waiting_ask, List.append_nil]
        exact h
      | between | turn =>
        refine ⟨⟨log, orderly⟩, ?_⟩
        show List.Sublist _ (putInto .waiting turns ++ []).dedup
        rw [List.append_nil]
        exact h

/-- The system, if no rotation is under way. -/
def atRest? : Moment → Option Scheduler
  | rest s => some s
  | _ => none

end Moment

/-! ## Round robin -/

namespace Scheduler

open Moment

/-- A rotation has taken `s` to `s'`, after which `last` was closed. In it these processes have been
given a turn, these turns have ended, and these processes have been started; `blocked` are those
that have blocked so far, one time after the other. -/
structure Rotated (s last s' : Scheduler) (begun : List Pid) (turns : List (Pid × Outcome))
    (started blocked : List Pid) : Prop where
  /-- Everybody has had one turn who was ready or had been started, in this order. -/
  inOrder : begun = s.running.toList ++ s.table.pending
  ended : turns.map Prod.fst = begun
  /-- Nobody has had two turns, and nobody has had one who was waiting or has been started since. -/
  nodup : (begun ++ s.waiting.toList ++ started).Nodup
  pending : s'.table.pending = started
  /-- Whoever has given up the turn is before those that have been woken. -/
  running : s'.running.toList = putInto .running turns ++
    (s.waiting.toList ++ putInto .waiting turns).filter last.tick.due
  waiting : s'.waiting.toList = (s.waiting.toList ++ putInto .waiting turns).filter
    (!last.tick.due ·)
  /-- They are looked at, and woken, in the order in which they have blocked. -/
  blocked : (s.waiting.toList ++ putInto .waiting turns).Sublist blocked.dedup

/-- In a rotation everybody who is ready as it begins has one turn, in the order of the queue and
after them those that have been started, and nobody else has one; this much is true as well of a
rotation that does not come to an end. The clock may move in it, and if it does not, the rotation is
one step of the program. -/
theorem round_robin {s₀ s : Scheduler} (created : s₀.Created) {before : List Act}
    (reached : (rest s₀).after before = rest s) :
    (∀ acts m, (rest s).Passes acts m →
      (rest s).trace begun acts <+: s.running.toList ++ s.table.pending) ∧
    (∀ acts last, (rest s).Passes acts (between [] last) →
      s.Rotated last last.close ((rest s).trace begun acts) ((rest s).trace ended acts)
        ((rest s).trace started acts) (putInto .waiting ((rest s₀).trace ended (before ++ acts)))) ∧
    ∀ bound state s', s.runOnce bound = some (state, s') →
      ∃ count last, (rest s).Passes (.replicate count .go) (between [] last) ∧ s' = last.close := by
  have orderly := orderly_after created before
  rw [reached] at orderly
  refine ⟨fun acts m passes => ?_, fun acts last passes => ?_, fun bound state s' run => ?_⟩
  · have round := Round.of_passes orderly passes
    cases m with
    | rest =>
      rw [round.2.1]
      exact List.nil_prefix
    | between ready => exact ⟨ready, Progress.order round⟩
    | turn ready => exact ⟨ready, Progress.order round⟩
  · obtain ⟨log, orderly'⟩ := orderly.passes passes
    have round : Progress .. := Round.of_passes orderly passes
    have hwaiters := waiters_sublist created (before ++ acts)
    rw [after_append, reached, passes.after] at hwaiters
    have tally : Tally last.queued log last.table := orderly'.tally
    obtain ⟨hrunning, hwaiting, hpending, -⟩ := wakeReady_spec tally
    rw [round.running] at hrunning
    rw [round.waiting] at hrunning hwaiting
    have htaken := round.taken
    have horder := round.order
    rw [List.append_nil] at htaken horder
    refine ⟨horder, htaken, ?_, ?_, hrunning, hwaiting, round.waiting ▸ hwaiters⟩
    · -- Everybody is listed once at the end, whatever has become of him.
      have hnodup := tally.nodup_pids
      have hlisted : (last.queued.map Prod.fst).Perm
          ((rest s).trace begun acts ++ s.waiting.toList ++
            (rest s).trace started acts) := by
        have hturns := perm_putInto ((rest s).trace ended acts)
        rw [htaken, List.perm_iff_count] at hturns
        rw [queued, round.running, round.waiting, round.pending, round.dead, List.perm_iff_count]
        intro pid
        have hturns := hturns pid
        simp only [List.map_append, List.map_map, Function.comp_def, List.map_id',
          List.count_append] at hturns ⊢
        omega
      exact hlisted.nodup_iff.mp hnodup
    · have woken := (tally_wakeReady tally).perm List.perm_append_comm
      exact (tally_releases woken).2.2.trans (hpending.trans round.pending)
  · obtain ⟨-, count, last, passes, -, hlast⟩ := passes_of_runOnce run
    exact ⟨count, last, passes, hlast⟩

/-- A system for four processes, in which the native of id 0 gives up the turn. -/
def fourSlots : Scheduler :=
  { twoSlots with
    loader := .create ⟨#[⟨"std", "yield", .operation .giveTurn⟩]⟩ .refuse
    table := .create ⟨2, 1, Nat.two_pos, Nat.one_pos, by decide⟩ {} }

/-- A process has blocked and has been sent a message, and two more have been started: one that
gives up its turn, and one that blocks. -/
theorem round_robin_fourSlots : ∃ (s last s' : Scheduler) (p q r : Pid)
    (turns : List (Pid × Outcome)) (blocked : List Pid),
    (rest s).Reachable ∧ s.runOnce 4 = some (.busy, s') ∧ s.table.pending = [p, r] ∧
      s.waiting.toList = [q] ∧ s.Rotated last s' [p, r] turns [] blocked ∧
      s'.running.toList = [p, q] ∧
      s'.waiting.toList = [r] := by
  have created : fourSlots.Created :=
    ⟨{ indexBits := 2, generationBits := 1 }, _,
      .create ⟨#[⟨"std", "yield", .operation .giveTurn⟩]⟩ .refuse,
      rfl⟩
  let pid := fun i => fourSlots.table.layout.pid i 0
  let acts : List Act := [.ask (.load listener), .ask (.spawn (.function ⟨0, 0⟩) [])] ++
    .replicate 6 .go ++ [.ask (.send (pid 0) .nil), .ask (.spawn (.native 0) []),
      .ask (.spawn (.function ⟨0, 0⟩) [])]
  have runs : (((rest fourSlots).after acts).atRest?.bind fun s =>
      (s.runOnce 4).map fun result =>
        (result.1, [s.running.toList, s.table.pending, s.waiting.toList,
        result.2.running.toList, result.2.waiting.toList, result.2.table.pending])) =
    some (.busy, [[], [pid 1, pid 2], [pid 0], [pid 1, pid 0], [pid 2], []]) := by decide +kernel
  have reachable : ((rest fourSlots).after acts).Reachable := ⟨_, acts, created, rfl⟩
  obtain ⟨s, hs, runs⟩ := Option.bind_eq_some_iff.mp runs
  generalize hm : (rest fourSlots).after acts = m at hs reachable
  cases m with
  | rest s =>
    cases hs
    obtain ⟨⟨state, s'⟩, run, hended⟩ := Option.map_eq_some_iff.mp runs
    simp only [Prod.mk.injEq, List.cons.injEq, and_true] at hended
    obtain ⟨rfl, hrunning, hpending, hwaiting, hrunning', hwaiting', hpending'⟩ := hended
    obtain ⟨-, ordered, steps⟩ := round_robin created hm
    obtain ⟨count, last, passes, rfl⟩ := steps 4 .busy s' run
    have rotated := ordered _ last passes
    have hbegun := rotated.inOrder
    rw [hrunning, hpending] at hbegun
    rw [hbegun, rotated.pending.symm.trans hpending'] at rotated
    exact ⟨s, last, _, pid 1, pid 0, pid 2, _, _, reachable, run, hpending, hwaiting,
      rotated, hrunning', hwaiting'⟩
  | between | turn => cases hs

end Scheduler

end ActorMachine
