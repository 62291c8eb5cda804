import ActorMachine.Proofs.Courses
import ActorMachine.Proofs.Fates

/-!
# The time of a system

A system takes notice of the time when a process blocks until a deadline and when a rotation is
closed, and at no other moment (`Moment.now_act`); then its time is that of the clock. A process
blocks only in a receive, with the timeout that is on top of its stack (`Session.receive_of_block`),
and its deadline counts from the moment at which it blocks (`Moment.blocked`).
-/

namespace ActorMachine

open ProcessTable (Tally)

namespace Scheduler

variable {s : Scheduler}

/-- The time of the system is the one at which the clock has last been asked, which is not before
it. -/
structure Punctual (s : Scheduler) : Prop where
  now : s.now = s.clock.asked
  asked_le : s.clock.asked ≤ s.clock.now
  le_endOfTime : s.clock.now ≤ endOfTime

/-- Taking notice of the time. -/
theorem Punctual.tick (h : s.Punctual) :
    s.tick.now = s.clock.now ∧ s.tick.clock = ⟨s.clock.now, s.clock.now⟩ := by
  have hnow := h.now
  have hasked := h.asked_le
  have hend := h.le_endOfTime
  refine ⟨?_, rfl⟩
  show min (s.now + (s.clock.now - s.clock.asked)) endOfTime = s.clock.now
  omega

/-- The time and the clock of a system. -/
def hours (s : Scheduler) : Nat × Clock :=
  (s.now, s.clock)

theorem punctual_of_hours {s' : Scheduler} (h : s.Punctual) (heq : s'.hours = s.hours) :
    s'.Punctual := by
  obtain ⟨hnow, hclock⟩ := Prod.mk.inj heq
  exact ⟨by rw [hnow, hclock, h.now], by rw [hclock]; exact h.asked_le, by
    rw [hclock]; exact h.le_endOfTime⟩

theorem Punctual.of_tick {s' : Scheduler} (h : s.Punctual) (heq : s'.hours = s.tick.hours) :
    s'.Punctual := by
  obtain ⟨hnow, hclock⟩ := h.tick
  refine punctual_of_hours (s := s.tick) ⟨?_, ?_, ?_⟩ heq
  · rw [hnow, hclock]
  · rw [hclock]
  · rw [hclock]
    exact h.le_endOfTime

/-- Making a process ready takes no time. -/
theorem hours_admitPending : s.admitPending.hours = s.hours := by
  rw [admitPending_eq]
  refine foldl_keeps hours (fun s pid => ?_) _ _
  unfold admitProcess
  split <;> rfl

/-- A rotation is closed with a look at the clock. -/
theorem hours_close : s.close.hours = s.tick.hours := by
  show s.wakeReady.hours = _
  rw [wakeReady_eq]
  refine foldl_keeps hours (fun s pid => ?_) _ _
  unfold wake
  split
  · rfl
  · split <;> rfl

/-- Of what is asked for from outside, only moving the clock moves it. -/
theorem now_ask (r : Request) : (s.ask r).now = s.now ∧
    (s.ask r).clock = match r with
      | .advanceClock usecs => s.clock.advance usecs
      | _ => s.clock := by
  obtain ⟨loader, table, hask⟩ := s.exists_ask r
  rw [hask]
  exact ⟨rfl, rfl⟩

theorem Punctual.advanceClock (h : s.Punctual) (usecs : Nat) : (s.advanceClock usecs).Punctual := by
  refine ⟨h.now, ?_, Nat.min_le_right _ _⟩
  have hasked := h.asked_le
  have hend := h.le_endOfTime
  show s.clock.asked ≤ min (s.clock.now + usecs) endOfTime
  omega

theorem Punctual.ask (h : s.Punctual) (r : Request) : (s.ask r).Punctual := by
  obtain ⟨hnow, hclock⟩ := s.now_ask r
  cases r with
  | advanceClock usecs => exact h.advanceClock usecs
  | _ => exact punctual_of_hours h (Prod.ext hnow hclock)

theorem Punctual.create (created : s.Created) : s.Punctual := by
  obtain ⟨config, loader, -, run⟩ := created
  obtain ⟨layout, -, hs⟩ := exists_of_bind_ok run
  cases hs
  exact ⟨rfl, Nat.le_refl _, Nat.zero_le _⟩

end Scheduler

/-! ## Blocking -/

/-- How long a receive waits if this value is its timeout; without a number, it waits
without end. -/
inductive Value.Timeout : Value → Option Nat → Prop
  | nil : Timeout .nil none
  | negative {n : Int64} (h : n.toInt < 0) : Timeout (.integer n) none
  | positive {n : Int64} (h : 0 < n.toInt) : Timeout (.integer n) (some n.toInt.toNat)

/-- A receive blocks for as long as the value on top of the stack says. -/
theorem ActorM.ends_receive_block (codeLength : Nat) (displacement : Int) (a : Actor) :
    Ends (receive codeLength displacement) a
      (fun signal _ => ∀ timeout, signal = .pause (.block timeout) →
        ∃ v, a.stack.back? = some v ∧ v.Timeout timeout) fun _ _ => True := by
  refine .bind <| (ends_pop a).mono ?_ fun _ _ _ => trivial
  rintro v b ⟨-, hv, -⟩
  refine .bind <| .intro (fun message c _ => ?_) fun _ _ _ => trivial
  cases message with
  | some message => exact .bind <| .intro (fun _ _ _ => .pure nofun) fun _ _ _ => trivial
  | none =>
    have htime : Ends (timeoutOf v) c (fun time _ => (v = .nil ∧ time = -1) ∨
        ∃ n, v = .integer n ∧ time = n.toInt) fun _ _ => True := by
      cases v with
      | integer n => exact .pure (.inr ⟨n, rfl, rfl⟩)
      | nil => exact .pure (.inl ⟨rfl, rfl⟩)
      | _ => exact .throw trivial
    refine .bind <| htime.mono ?_ fun _ _ h => h
    intro time d htime
    refine .ite (fun _ => .bind <| .intro (fun _ _ _ => .pure nofun) fun _ _ _ => trivial)
      fun hzero => ?_
    refine .bind <| .modify <| .pure ?_
    rintro _ ⟨⟩
    refine ⟨v, hv, ?_⟩
    rcases htime with ⟨rfl, rfl⟩ | ⟨n, rfl, rfl⟩
    · exact .nil
    · split
      · exact .positive (by assumption)
      · exact .negative (by omega)

/-- Whoever blocks does so in a receive, with the timeout that is on top of the stack. -/
theorem Session.receive_of_block {κ : Type} [Kernel κ] {l : Loader} {s s' : Session κ}
    {timeout : Option Nat} (h : s.next l = .inl (.ok (.block timeout), s')) :
    s.actor.operation? l = some .rcv ∧ s.actor.pendingReceive = none ∧
      ∃ v, s.actor.stack.back? = some v ∧ v.Timeout timeout := by
  have hadvance := advance_of_next_inl h
  have never : ∀ {m : Exec κ Signal} {t : Session κ}, BlocksIn (fun _ => False) m →
      Exec.advance l s = m t → False := fun hm run =>
    (hm _).of_ok (run.symm.trans hadvance) timeout rfl
  cases Exec.course l s with
  | enters _ _ _ run => exact (never (Exec.blocksIn_invoke _) run).elim
  | resumes _ _ _ _ run => exact (never .proceed run).elim
  | executes frame p instruction op entry pending prototype operation run =>
    by_cases hrcv : op = .rcv
    · subst hrcv
      rw [hadvance] at run
      have hblock : ∀ t : Session κ, Ends
        (Exec.onActor (ActorM.receive p.code.size instruction.payload)) t
          (fun signal _ => ∀ timeout, signal = .pause (.block timeout) →
            ∃ v, t.actor.stack.back? = some v ∧ v.Timeout timeout) fun _ _ => True :=
        fun t => Exec.ends_onActor (ActorM.ends_receive_block _ _ t.actor)
      exact ⟨operation, pending, (hblock _).of_ok run.symm timeout rfl⟩
    · exact (never (Exec.blocksIn_execute _ _ _ fun h => absurd h hrcv) run).elim
  | returns _ _ _ run => exact (never (.of_never ActorM.blocksIn_returnFromCall) run).elim
  | stops _ _ _ run =>
    rw [hadvance] at run
    cases run
  | fails _ _ _ _ _ run =>
    rw [hadvance] at run
    cases run

/-- How long a turn has ended to wait, if it has ended to wait until a deadline. -/
def Outcome.timeout? : Outcome → Option Nat
  | .ok (.block timeout) => timeout
  | _ => none

namespace Moment

open Scheduler

variable {m : Moment} {ready : List Pid} {s : Scheduler} {pid : Pid} {process : Process}
  {session : Session Dispatch} {outcome : Outcome}

/-- The system in the midst of which the moment is. -/
def system : Moment → Scheduler
  | rest s | between _ s | turn _ s .. => s

/-- Whether notice is taken of the time in an act. -/
def ticks (m : Moment) (a : Act) : Bool :=
  match m, a with
  | between [] _, .go => true
  | m, a => (m.ended a).any fun turn => turn.2.timeout?.isSome

theorem hours_endTurn : (Moment.endTurn ready s pid process outcome session).system.hours =
    if outcome.timeout?.isSome then s.tick.hours else s.hours := by
  unfold Moment.endTurn
  rcases outcome with fault | (_ | ⟨_ | usecs⟩ | _ | _) <;> rfl

/-- A step of a rotation takes notice of the time or leaves it as it is. -/
theorem hours_go (reachable : m.Reachable) :
    m.go.system.hours = if m.ticks .go then m.system.tick.hours else m.system.hours := by
  obtain ⟨log, tally⟩ := reachable.exists_tally
  cases m with
  | rest s =>
    show s.admitPending.hours = _
    exact hours_admitPending
  | between ready s =>
    cases ready with
    | nil => exact hours_close
    | cons pid ready =>
      obtain ⟨process, -, -, hgo⟩ := go_ready tally
      rw [hgo]
      rfl
  | turn ready s pid process session =>
    obtain ⟨-, hnamed, -⟩ := reachable.session_orderly
    have hticks : (turn ready s pid process session).ticks .go =
        ((turn ready s pid process session).ended .go).any fun turn => turn.2.timeout?.isSome := rfl
    obtain ⟨session', -, ⟨hended, hgo⟩ | ⟨outcome, hended, hgo⟩⟩ :=
      go_turn rfl ⟨tally, hnamed, trivial⟩
    · rw [hgo, hticks, hended]
      rfl
    · rw [hgo, hticks, hended, hours_endTurn, List.any_cons, List.any_nil, Bool.or_false]
      rfl

theorem punctual_of_reachable (reachable : m.Reachable) : m.system.Punctual := by
  refine (Reachable.induction (P := fun m => m.Reachable ∧ m.system.Punctual)
    (fun s created => ⟨⟨s, [], created, rfl⟩, .create created⟩)
    (fun s r ⟨reachable, punctual⟩ => ⟨reachable.act (.ask r), punctual.ask r⟩)
    (fun m ⟨reachable, punctual⟩ => ⟨reachable.act .go, ?_⟩)
    (fun m usecs ⟨reachable, punctual⟩ => ⟨reachable.act (.elapse usecs), ?_⟩) reachable).2
  · have hgo := hours_go reachable
    split at hgo
    · exact punctual.of_tick hgo
    · exact punctual_of_hours punctual hgo
  · cases m <;> exact punctual.advanceClock usecs

/-- The time goes on to that of the clock whenever notice is taken of it, and stands still
otherwise. -/
theorem now_act (reachable : m.Reachable) (a : Act) :
    m.system.now ≤ m.system.clock.now ∧
      (m.act a).system.now = if m.ticks a then m.system.clock.now else m.system.now := by
  have punctual := punctual_of_reachable reachable
  refine ⟨by rw [punctual.now]; exact punctual.asked_le, ?_⟩
  cases a with
  | go =>
    have hgo := congrArg Prod.fst (hours_go reachable)
    show m.go.system.now = _
    split at hgo
    · rename_i htick
      rw [if_pos htick]
      exact hgo.trans punctual.tick.1
    · rename_i htick
      rw [if_neg htick]
      exact hgo
  | elapse =>
    cases m with
    | rest | turn => rfl
    | between ready s => cases ready <;> rfl
  | ask r =>
    cases m with
    | rest s => exact (s.now_ask r).1
    | between ready s => cases ready <;> rfl
    | turn => rfl

/-- The time of a system never goes back. -/
theorem now_le_after (reachable : m.Reachable) (acts : List Act) :
    m.system.now ≤ (m.after acts).system.now := by
  induction acts generalizing m with
  | nil => exact Nat.le_refl _
  | cons a acts ih =>
    obtain ⟨hle, hnow⟩ := now_act reachable a
    refine Nat.le_trans ?_ (ih (reachable.act a))
    rw [hnow]
    split
    · exact hle
    · exact Nat.le_refl _

/-- Whoever blocks is executing a receive, and waits for as long as its timeout says from now on, or
until the end of time. -/
theorem blocked (reachable : m.Reachable) {timeout : Option Nat}
    (h : (pid, .ok (.block timeout)) ∈ m.ended .go) :
    (∃ session v, m.session? = some session ∧ session.actor.operation? m.loader = some .rcv ∧
      session.actor.stack.back? = some v ∧ v.Timeout timeout) ∧
    ∃ q, (m.act .go).table.Lives pid q ∧ q.exitRequested = false ∧
      q.state = .waiting (timeout.map fun usecs =>
        min (m.system.clock.now + usecs) (2 ^ 64 - 1)) false := by
  have punctual := punctual_of_reachable reachable
  cases m with
  | rest | between => cases h
  | turn ready s pid' process session =>
    obtain ⟨-, rfl, -⟩ := reachable.session_orderly
    rcases go_turn_cases reachable with ⟨hexit, -⟩ | ⟨hstays, session', log, -, tally, hgo⟩
    · rw [ended, if_pos hexit] at h
      cases List.mem_singleton.mp h
    · rw [ended, if_neg (by rw [hstays]; exact Bool.false_ne_true)] at h
      rcases hgo with ⟨hnext, -⟩ | ⟨outcome, hnext, hgo⟩
      · rw [hnext] at h
        cases h
      · rw [hnext] at h
        cases List.mem_singleton.mp h
        obtain ⟨operation, -, v, hv, htimeout⟩ := Session.receive_of_block hnext
        have home : (Moment.endTurn ready s process.pid process (.ok (.block timeout))
          session').table.Lives process.pid _ := (lives_endTurn tally List.mem_cons_self).1
        rw [← hgo] at home
        refine ⟨⟨session, v, rfl, operation, hv, htimeout⟩, _, home, hstays, ?_⟩
        have htick : s.tick.now = s.clock.now := punctual.tick.1
        cases timeout with
        | none => rfl
        | some usecs =>
          show ProcessState.waiting (some (laterBy s.tick.now usecs)) false = _
          rw [htick]
          rfl

end Moment

end ActorMachine
