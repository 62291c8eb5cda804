import Mathlib.Data.List.Induction
import ActorMachine.Proofs.Clocks

/-!
# Timed receives

A process that has blocked sleeps until the first look at those that wait at which it is to go on:
because a message has been sent to it, because it has been asked to end, or because its deadline has
come. Then it is made ready, and not before (`Moment.sleeps_or_woken`). If a rotation answers that
all wait and how far away the first deadline is, it is just so far away: before, rotations change
nothing, and then somebody is made ready (`Scheduler.Idles`).
-/

namespace ActorMachine

open ProcessTable (Tally)
open Ask (letters)

/-- Whether a process that waits until a deadline is to go on, by what has been asked for since it
waits. -/
def Ask.rouse (l : PidLayout) (pid : Pid) (deadline : Option Nat) (asks : List Ask)
    (time : Nat) : Prop :=
  letters l pid asks ≠ [] ∨ asks.any (kills l pid) = true ∨ ∃ due, deadline = some due ∧ due ≤ time

/-- Whoever has been touched while waiting is looked at as what has touched him says. -/
theorem Process.Touched.isReady_iff {l : PidLayout} {asks : List Ask} {q q' : Process}
    (h : q.Touched l asks q') {deadline : Option Nat} (hstate : q.state = .waiting deadline false)
    (stays : q.exitRequested = false) (time : Nat) :
    Scheduler.isReady time q' = true ↔ Ask.rouse l q.pid deadline asks time := by
  have hready : Scheduler.isReady time q' =
    (!(letters l q.pid asks).isEmpty || asks.any (Ask.kills l q.pid) ||
      deadline.any fun due => decide (due ≤ time)) := by
    unfold Scheduler.isReady
    rw [h.state, h.exitRequested, stays, hstate]
    cases (letters l q.pid asks).isEmpty <;> cases deadline <;> rfl
  rw [hready, Bool.or_eq_true, Bool.or_eq_true, or_assoc]
  refine or_congr (by simp) (or_congr Iff.rfl ?_)
  cases deadline with
  | none => exact ⟨nofun, by rintro ⟨_, ⟨⟩, -⟩⟩
  | some due => simp

theorem Process.Touched.waits {l : PidLayout} {asks : List Ask} {q q' : Process}
    (h : q.Touched l asks q') {deadline : Option Nat} {wake : Bool}
    (hstate : q.state = .waiting deadline wake) :
    ∃ wake', q'.state = .waiting deadline wake' := by
  rw [h.state, hstate]
  split
  · exact ⟨wake, rfl⟩
  · exact ⟨true, rfl⟩

namespace Moment

variable {m : Moment} {q : Process} {deadline : Option Nat}

/-- The time at which an act looks at those that wait, if it does. -/
def looks : Moment → Act → Option Nat
  | between [] s, .go => some s.clock.now
  | _, _ => none

/-- An act that closes no rotation looks at nobody and releases nothing. -/
theorem looks_of_unclosed {a : Act} (unclosed : ∀ s, m = between [] s → a ≠ .go) :
    m.looks a = none ∧ m.released a = [] := by
  cases m with
  | rest | turn => exact ⟨rfl, rfl⟩
  | between ready s =>
    cases ready with
    | cons => exact ⟨rfl, rfl⟩
    | nil =>
      cases a with
      | ask | elapse => exact ⟨rfl, rfl⟩
      | go => exact absurd rfl (unclosed s rfl)

/-- Through some acts the process stays at home and waiting, and has not been to go on whenever
those that wait have been looked at. -/
structure Sleeps (m : Moment) (q : Process) (deadline : Option Nat) (acts : List Act) : Prop where
  home : ∃ q', (m.after acts).table.Lives q.pid q' ∧
    q.Touched m.table.layout (m.trace granted acts) q' ∧ ∃ wake, q'.state = .waiting deadline wake
  unroused : ∀ (before : List Act) (time : Nat), before ++ [.go] <+: acts →
    (m.after before).looks .go = some time →
    ¬Ask.rouse m.table.layout q.pid deadline (m.trace granted before) time

/-- With the last of some acts the process is made ready, at a look at those that wait, and nothing
else changes in it. -/
structure Awakes (m : Moment) (q : Process) (deadline : Option Nat) (before : List Act)
    (time : Nat) :
    Prop where
  slept : m.Sleeps q deadline before
  look : (m.after before).looks .go = some time
  roused : Ask.rouse m.table.layout q.pid deadline (m.trace granted before) time
  ready : ∃ q', (m.after (before ++ [.go])).table.Lives q.pid { q' with state := .running } ∧
    q.Touched m.table.layout (m.trace granted before) q'

section

variable (hstate : q.state = .waiting deadline false)

include hstate

/-- Whoever is still at home sleeps on, unless it is looked at and has to go on. -/
theorem Sleeps.concat {acts : List Act} {a : Act} {q' : Process} (h : m.Sleeps q deadline acts)
    (lives : (m.after (acts ++ [a])).table.Lives q.pid q')
    (touched : q.Touched m.table.layout (m.trace granted (acts ++ [a])) q')
    (unroused : ∀ time, a = .go → (m.after acts).looks .go = some time →
      ¬Ask.rouse m.table.layout q.pid deadline (m.trace granted acts) time) :
    m.Sleeps q deadline (acts ++ [a]) where
  home := ⟨q', lives, touched, touched.waits hstate⟩
  unroused before time hprefix look := by
    rcases List.prefix_concat_iff.mp hprefix with heq | hprefix
    · obtain ⟨rfl, hlast⟩ := List.append_inj' heq rfl
      exact unroused time (List.cons.inj hlast).1.symm look
    · exact h.unroused before time hprefix look

/-- One more act: the process sleeps on, or it is made ready by a look at those that wait. -/
theorem Sleeps.step (reachable : m.Reachable) (stays : q.exitRequested = false) {acts : List Act}
    (h : m.Sleeps q deadline acts) (a : Act) :
    m.Sleeps q deadline (acts ++ [a]) ∨ a = .go ∧ ∃ time, m.Awakes q deadline acts time := by
  obtain ⟨q', hlives, htouched, wake, hwaits⟩ := h.home
  have now := reachable.after acts
  obtain ⟨log, tally⟩ := now.exists_tally
  rw [← htouched.pid] at hlives
  have unconcerned : (m.after acts).granted a = [] →
      q.Touched m.table.layout (m.trace granted (acts ++ [a])) q' := by
    intro hnone
    rw [trace_concat, hnone, List.append_nil]
    exact htouched
  cases fate now hlives a with
  | @touched q'' unclosed lives touched =>
    rw [htouched.pid, ← after_concat] at lives
    rw [reachable.layout_after] at touched
    refine .inl (h.concat hstate lives (trace_concat m acts a ▸ htouched.trans touched) ?_)
    rintro time rfl look
    rw [(looks_of_unclosed unclosed).1] at look
    cases look
  | @admitted s hm ha lives =>
    have hsame : q'.admitted = q' := by
      rw [Process.admitted, hwaits]
      rfl
    rw [hsame, htouched.pid, ← after_concat] at lives
    refine .inl (h.concat hstate lives (unconcerned (by rw [hm, ha]; rfl)) ?_)
    rintro time - look
    rw [hm] at look
    cases look
  | @called ready s hm ha hgo =>
    -- Whoever waits is not to have a turn.
    have hplace := tally.place_of_lives hlives
    rw [hwaits] at hplace
    have hready : (q'.pid, Place.running) ∈ (m.after acts).listed := by
      rw [hm]
      exact List.mem_cons_self
    cases tally.place_unique hplace hready
  | @looked s hm ha alive lives =>
    -- The look finds what has touched the process since it fell asleep.
    have htime : s.tick.now = s.clock.now := by
      have punctual := punctual_of_reachable now
      rw [hm] at punctual
      exact punctual.tick.1
    have hlooks : (m.after acts).looks .go = some s.clock.now := by rw [hm]; rfl
    have hready := htouched.isReady_iff hstate stays s.clock.now
    rw [htime, htouched.pid, ← after_concat] at lives
    subst ha
    by_cases hroused : Ask.rouse m.table.layout q.pid deadline (m.trace granted acts) s.clock.now
    · rw [Process.looked, if_pos ⟨by rw [hwaits]; rfl, hready.mpr hroused⟩] at lives
      exact .inr ⟨rfl, _, h, hlooks, hroused, q', lives, htouched⟩
    · rw [Process.looked, if_neg fun h => hroused (hready.mp h.2)] at lives
      refine .inl (h.concat hstate lives (unconcerned (by rw [hm]; rfl)) ?_)
      rintro time - look
      rw [hlooks] at look
      cases look
      exact hroused
  | @released s hm ha hdead hmem =>
    rw [hwaits] at hdead
    cases hdead

/-- A process that has blocked sleeps until the first look at those that wait at which it is to go
on, and no longer. -/
theorem sleeps_or_awakes (reachable : m.Reachable) (hq : m.table.Lives q.pid q)
    (stays : q.exitRequested = false) (acts : List Act) :
    m.Sleeps q deadline acts ∨
      ∃ before time, before ++ [.go] <+: acts ∧ m.Awakes q deadline before time := by
  induction acts using List.reverseRecOn with
  | nil =>
    refine .inl ⟨⟨q, hq, .refl (reachable.sound_of_lives hq) rfl rfl, false, hstate⟩, ?_⟩
    intro before time hprefix
    exact absurd (List.prefix_nil.mp hprefix) (by simp)
  | append_singleton acts a ih =>
    rcases ih with sleeps | ⟨before, time, hprefix, awakes⟩
    · refine (sleeps.step hstate reachable stays a).imp_right ?_
      rintro ⟨rfl, time, awakes⟩
      exact ⟨acts, time, List.prefix_refl _, awakes⟩
    · exact .inr ⟨before, time, hprefix.trans (List.prefix_append acts [a]), awakes⟩

end

end Moment

/-! ## Where all wait -/

namespace Process

/-- A process does not wait beyond the end of time. -/
def Timely (p : Process) : Prop :=
  ∀ deadline wake, p.state = .waiting (some deadline) wake → deadline ≤ endOfTime

theorem timely_delivered (m : ActorM Unit) {p : Process} (hp : p.Timely) :
    Timely (leaves (do onActor m; modify notify) p) := by
  refine Ends.leaves <| .bind <| ends_onActor <| .intro (fun _ a _ => .modify ?_) fun _ _ _ => hp
  rw [notify_eq]
  intro deadline wake hstate
  cases hp' : p.state with
  | waiting deadline' wake' =>
    have hstate : p.state.notified = .waiting (some deadline) wake := hstate
    rw [hp'] at hstate
    cases hstate
    exact hp deadline wake' hp'
  | _ =>
    have hstate : p.state.notified = .waiting (some deadline) wake := hstate
    rw [hp'] at hstate
    cases hstate

/-- Nobody but the process itself sets its deadline. -/
theorem lasting_timely : Lasting Timely where
  started _ _ := nofun
  deliver address source message hp := by
    cases source with
    | some source => exact timely_delivered _ hp
    | none =>
      unfold deliver
      by_cases hinline : message.isCollectable
      · simp only [hinline, if_true]
        exact hp
      · simp only [hinline]
        exact timely_delivered _ hp
  deliverBytes _ _ hp := timely_delivered _ hp
  requestExit hp := hp
  makeReady _ := nofun

end Process

theorem Moment.timely_of_reachable {m : Moment} (h : m.Reachable) :
    m.table.Each Process.Timely := by
  refine each_of_reachable Process.lasting_timely ?_ h
  intro l s pid p session session' outcome _ deadline wake hstate
  have hstate : (s.endTurn pid outcome).1 = .waiting (some deadline) wake := hstate
  rcases outcome with fault | (_ | ⟨_ | usecs⟩ | _ | _) <;> cases hstate
  exact Nat.min_le_right _ _

namespace Scheduler

variable {s s' : Scheduler} {log : List Nat} {usecs : Nat}

/-- Nothing changes in the processes but that those whose time has come are made ready, and there
are some. -/
structure Resumes (s s' : Scheduler) : Prop where
  looked : ∀ pid q, s.table.Lives pid q → s'.table.Lives pid (q.looked s'.now)
  awake : ∃ pid q deadline, s.table.Lives pid q ∧ q.state = .waiting (some deadline) false ∧
    deadline ≤ s'.now ∧ s'.table.Lives pid { q with state := .running }

/-- The first deadline is so many microseconds away: before, rotations change nothing, and then one
of them makes somebody ready. -/
structure Idles (s : Scheduler) (usecs : Nat) : Prop where
  pos : 0 < usecs
  early : ∀ moves : List Nat, moves.sum < usecs →
    ∀ bound, ∃ s', (moves.foldl advanceClock s).runOnce bound =
    some (.idle (some (usecs - moves.sum)), s') ∧ s'.table = s.table
  due : ∀ moves : List Nat, usecs ≤ moves.sum →
    ∀ bound, ∃ s', (moves.foldl advanceClock s).runOnce bound =
    some (.busy, s') ∧ s.Resumes s'

theorem foldl_advanceClock (h : s.clock.now ≤ endOfTime) (moves : List Nat) :
    moves.foldl advanceClock s =
    { s with clock := ⟨min (s.clock.now + moves.sum) endOfTime, s.clock.asked⟩ } := by
  induction moves generalizing s with
  | nil =>
    rw [List.sum_nil, Nat.add_zero, Nat.min_eq_left h]
    rfl
  | cons usecs moves ih =>
    rw [List.foldl_cons, ih (Nat.min_le_right _ _), List.sum_cons]
    have hnow : min (min (s.clock.now + usecs) endOfTime + moves.sum) endOfTime =
        min (s.clock.now + (usecs + moves.sum)) endOfTime := by omega
    show { s with clock := ⟨min (min (s.clock.now + usecs) endOfTime + moves.sum) endOfTime, _⟩ } =
      _
    rw [hnow]
    rfl

/-- The answer is about the first deadline where nobody is to have a turn and somebody waits for a
time. -/
theorem runState_eq_idle_iff : s.runState = .idle (some usecs) ↔
    s.table.live ≠ 0 ∧ s.running = #[] ∧ s.table.pending = [] ∧
      ∃ first, (s.waiting.toList.filterMap s.deadline?).min? = some first ∧
        first - s.now = usecs := by
  unfold runState
  by_cases hlive : s.table.live = 0
  · rw [if_pos hlive]
    exact ⟨nofun, fun h => absurd hlive h.1⟩
  · rw [if_neg hlive]
    by_cases hstill : s.running = #[] ∧ s.table.pending = []
    · rw [if_neg (by simp [hstill.1, hstill.2]), RunState.idle.injEq, Option.map_eq_some_iff]
      exact ⟨fun h => ⟨hlive, hstill.1, hstill.2, h⟩, fun h => h.2.2.2⟩
    · rw [if_pos (by simpa using not_and_or.mp hstill)]
      exact ⟨nofun, fun h => absurd ⟨h.2.1, h.2.2.1⟩ hstill⟩

/-- The deadline that the answer is about is the first of those of the processes that wait. -/
theorem exists_first (orderly : (Moment.rest s).Orderly log) (timely : s.table.Each Process.Timely)
    (h : s.runState = .idle (some usecs)) :
    ∃ first, first - s.now = usecs ∧ first ≤ endOfTime ∧
      (∃ pid p wake, s.table.Lives pid p ∧ p.state = .waiting (some first) wake) ∧
      ∀ pid p deadline wake, s.table.Lives pid p → p.state = .waiting (some deadline) wake →
        first ≤ deadline := by
  obtain ⟨-, -, -, first, hmin, hfirst⟩ := runState_eq_idle_iff.mp h
  obtain ⟨hmem, hleast⟩ := List.min?_eq_some_iff.mp hmin
  obtain ⟨pid, p, wake, hp, hstate⟩ := (mem_deadlines_iff orderly first).mp hmem
  refine ⟨first, hfirst, ?_, ⟨pid, p, wake, hp, hstate⟩, fun pid' p' deadline wake' hp' hstate' =>
    hleast deadline ((mem_deadlines_iff orderly deadline).mpr ⟨pid', p', wake', hp', hstate'⟩)⟩
  obtain ⟨i, slot, hi, hslot, -⟩ := hp
  exact timely i slot p hi hslot first wake hstate

section

variable (orderly : (Moment.rest s).Orderly log) (waits : s.table.Each (Waits s.now))
  (timely : s.table.Each Process.Timely) (h : s.runState = .idle (some usecs))

include orderly waits timely h

/-- Before the first deadline all go on waiting. -/
theorem idle_of_lt {t : Scheduler} (htable : t.table = s.table) (hrunning : t.running = s.running)
    (hwaiting : t.waiting = s.waiting) (hdead : t.dead = s.dead) {time : Nat}
    (htick : t.tick.now = time) (hle : s.now ≤ time) (hlt : time < s.now + usecs) (bound : Nat) :
    ∃ s', t.runOnce bound = some (.idle (some (usecs - (time - s.now))), s') ∧
      s'.table = s.table := by
  obtain ⟨first, hfirst, -, -, hleast⟩ := exists_first orderly timely h
  obtain ⟨hlive, hstill, hpending, first', hmin, hfirst'⟩ := runState_eq_idle_iff.mp h
  have hwake : t.wakeReady = t.tick := by
    refine wakeReady_of_unready fun pid hpid => ?_
    rw [hwaiting] at hpid
    obtain ⟨p, deadline, wake, hp, hstate⟩ :=
      ((partitioned_of_orderly orderly).waiting pid).mp (Array.mem_toList_iff.mp hpid)
    refine ⟨p, htable ▸ get?_of_lives orderly hp, ?_⟩
    have hdeadline := hleast pid p
    obtain ⟨i, slot, hi, hslot, hpid⟩ := hp
    have hready := waits i slot p hi hslot (by rw [hstate]; rfl)
    simp only [isReady, hstate, Bool.or_eq_false_iff] at hready ⊢
    refine ⟨hready.1, ?_⟩
    cases deadline with
    | none => rfl
    | some deadline =>
      have := hdeadline deadline wake ⟨i, slot, hi, hslot, hpid⟩ hstate
      exact decide_eq_false (by omega)
  have hdeadlines : t.tick.waiting.toList.filterMap t.tick.deadline? =
      s.waiting.toList.filterMap s.deadline? := by
    have htable : t.tick.table = s.table := htable
    have hwaiting : t.tick.waiting = s.waiting := hwaiting
    rw [hwaiting]
    unfold deadline?
    rw [htable]
  refine ⟨t.tick, ?_, htable⟩
  rw [runOnce_of_still (hrunning.trans hstill) (htable ▸ hpending)
    (hdead.trans orderly.dead_rest), hwake]
  refine congrArg some (Prod.ext (runState_eq_idle_iff.mpr ⟨?_, ?_, ?_, first', ?_, ?_⟩) rfl)
  · exact htable ▸ hlive
  · exact hrunning.trans hstill
  · exact htable ▸ hpending
  · rw [hdeadlines]
    exact hmin
  · rw [htick]
    omega

/-- At the first deadline somebody is made ready. -/
theorem busy_of_le {t : Scheduler} (htable : t.table = s.table) (hrunning : t.running = s.running)
    (hwaiting : t.waiting = s.waiting) (hdead : t.dead = s.dead) {time : Nat}
    (htick : t.tick.now = time) (hle : s.now + usecs ≤ time) (bound : Nat) :
    ∃ s', t.runOnce bound = some (.busy, s') ∧ s.Resumes s' := by
  obtain ⟨first, hfirst, -, ⟨pid, p, wake, hp, hstate⟩, -⟩ := exists_first orderly timely h
  obtain ⟨-, hstill, hpending, -⟩ := runState_eq_idle_iff.mp h
  have hqueued : t.queued = s.queued := by
    unfold queued
    rw [htable, hrunning, hwaiting, hdead]
  have cleared : t.dead = [] := hdead.trans orderly.dead_rest
  have tally : t.table.Tally t.queued log := by
    rw [hqueued, htable]
    exact orderly.tally_rest
  have hnow : t.wakeReady.now = time := (congrArg Prod.fst (hours_close (s := t))).trans htick
  have hlooked : ∀ pid q, s.table.Lives pid q → t.wakeReady.table.Lives pid (q.looked time) := by
    intro pid q hq
    have hlives := (wakeReady_spec tally).2.2.2 pid q (htable ▸ hq)
    rwa [htick] at hlives
  have hunwoken : wake = false := by
    obtain ⟨i, slot, hi, hslot, -⟩ := hp
    have hready := waits i slot p hi hslot (by rw [hstate]; rfl)
    simp only [isReady, hstate, Bool.or_eq_false_iff] at hready
    exact hready.1.1
  subst hunwoken
  have hawake : p.looked time = { p with state := .running } := by
    refine if_pos ⟨by rw [hstate]; rfl, ?_⟩
    simp only [isReady, hstate, Bool.or_eq_true, decide_eq_true_eq]
    exact .inr (by omega)
  have hready := hawake ▸ hlooked pid p hp
  refine ⟨t.wakeReady, ?_, by rw [hnow]; exact hlooked, pid, p, first, hp, hstate, by omega, hready⟩
  have woken : (Moment.rest t.wakeReady).Orderly log :=
    ⟨tally_wakeReady tally, trivial, t.keeps_wakeReady.2.trans cleared⟩
  rw [runOnce_of_still (hrunning.trans hstill) (htable ▸ hpending) cleared]
  refine congrArg some (Prod.ext ?_ rfl)
  exact (runState_eq_iff woken (waits_wakeReady tally) .busy).mpr ⟨pid, _, hready, .inr rfl⟩

/-- What a rotation says about the first deadline is right. -/
theorem idles_of_runState (punctual : s.Punctual) (current : s.clock.now = s.now) :
    s.Idles usecs := by
  obtain ⟨first, hfirst, hend, -⟩ := exists_first orderly timely h
  have hpos : 0 < usecs := by
    have verdict := verdict_runState orderly waits
    rw [h] at verdict
    exact verdict.2.1
  have htick : ∀ moves : List Nat, (moves.foldl advanceClock s).tick.now =
      min (s.now + moves.sum) endOfTime := by
    intro moves
    rw [foldl_advanceClock punctual.le_endOfTime, current]
    have hmoved : Punctual
        { s with clock := ⟨min (s.now + moves.sum) endOfTime, s.clock.asked⟩ } := by
      refine ⟨punctual.now, ?_, Nat.min_le_right _ _⟩
      have hnow := punctual.now
      have hle := punctual.le_endOfTime
      show s.clock.asked ≤ min (s.now + moves.sum) endOfTime
      omega
    exact hmoved.tick.1
  have hsame := fun moves => foldl_advanceClock punctual.le_endOfTime moves
  refine ⟨hpos, fun moves hlt bound => ?_, fun moves hle bound => ?_⟩
  · have hearly := idle_of_lt orderly waits timely h (t := moves.foldl advanceClock s)
      (by rw [hsame]) (by rw [hsame]) (by rw [hsame]) (by rw [hsame]) (htick moves) (by omega)
        (by omega) bound
    rwa [show min (s.now + moves.sum) endOfTime - s.now = moves.sum by omega] at hearly
  · exact busy_of_le orderly waits timely h (t := moves.foldl advanceClock s)
      (by rw [hsame]) (by rw [hsame]) (by rw [hsame]) (by rw [hsame]) (htick moves) (by omega) bound

end

/-- After a rotation notice has been taken of the time of the clock. -/
theorem current_close (punctual : s.Punctual) :
    s.close.clock.now = s.close.now := by
  obtain ⟨hnow, hclock⟩ := Prod.mk.inj (hours_close (s := s))
  rw [hnow, hclock, punctual.tick.1, punctual.tick.2]

/-- The time of a system never goes back, and is the time of the clock whenever notice is taken of
it. Whoever blocks is executing a receive, waits for as long as its timeout says from then on, or
until the end of time, and sleeps until the first look at those that wait at which a message has
been sent to him, he has been asked to end, or his deadline has come. If a rotation answers how far
away the first deadline is, it is just so far away, and whoever rotates on and moves the clock to it
makes somebody ready. -/
theorem timed_receives :
    (∀ m : Moment, m.Reachable →
      m.system.now ≤ m.system.clock.now ∧ (∀ acts, m.system.now ≤ (m.after acts).system.now) ∧
      (∀ a, (m.act a).system.now = if m.ticks a then m.system.clock.now else m.system.now) ∧
      ∀ pid timeout, (pid, .ok (.block timeout)) ∈ m.ended .go →
        (∃ session v, m.session? = some session ∧ session.actor.operation? m.loader = some .rcv ∧
          session.actor.stack.back? = some v ∧ v.Timeout timeout) ∧
        ∃ q deadline, (m.act .go).table.Lives pid q ∧ q.state = .waiting deadline false ∧
          deadline = timeout.map (fun usecs => min (m.system.clock.now + usecs) (2 ^ 64 - 1)) ∧
          ∀ acts, (m.act .go).Sleeps q deadline acts ∨
            ∃ before time, before ++ [.go] <+: acts ∧ (m.act .go).Awakes q deadline before time) ∧
    ∀ (s s' : Scheduler) (log : List Nat) (bound usecs : Nat),
      History log s → s.runOnce bound = some (.idle (some usecs), s') →
      s'.Idles usecs ∧ ∀ rotations, ∃ s'', s.run bound (rotations + 2) = s''.run bound rotations ∧
        s'.Resumes s'' := by
  refine ⟨fun m reachable => ⟨?_, Moment.now_le_after reachable, ?_, ?_⟩, ?_⟩
  · exact (Moment.now_act reachable .go).1
  · exact fun a => (Moment.now_act reachable a).2
  · intro pid timeout hended
    obtain ⟨hreceive, q, hlives, stays, hstate⟩ := Moment.blocked reachable hended
    refine ⟨hreceive, q, _, hlives, hstate, rfl, fun acts => ?_⟩
    obtain rfl := hlives.pid_eq
    exact Moment.sleeps_or_awakes hstate (reachable.act .go) hlives stays acts
  · intro s s' log bound usecs history run
    obtain ⟨hstate, log', s₁, reachable, orderly, rfl⟩ :=
      (rotates_of_runOnce run).exists_close history
    have closed := reachable.act .go
    have idles : s₁.close.Idles usecs :=
      idles_of_runState orderly.go (waits_close orderly.tally)
        (Moment.timely_of_reachable closed) hstate.symm (Moment.punctual_of_reachable closed)
        (current_close (Moment.punctual_of_reachable reachable))
    refine ⟨idles, fun rotations => ?_⟩
    obtain ⟨s'', hbusy, resumes⟩ := idles.due [usecs] (by simp) bound
    refine ⟨s'', ?_, resumes⟩
    have hbusy : (s₁.close.advanceClock usecs).runOnce bound = some (.busy, s'') := hbusy
    rw [Scheduler.run, run]
    show ((s₁.close.advanceClock usecs).run bound (rotations + 1)) = _
    rw [Scheduler.run, hbusy]
    rfl

/-- A program that waits for a message, but not for longer than five microseconds. -/
def drowsy : Chunk :=
  .ofModule { Prototype.named "m" with code := [.pack .lsi 5, .pack .rcv 0] }

/-- A process blocks for five microseconds, and nobody sends it a message. -/
theorem timed_receives_drowsy : ∃ (s s' : Scheduler) (pid : Pid) (q : Process),
    History [] s ∧ s.runOnce 3 = some (.idle (some 5), s') ∧
      ((Moment.rest s).after [.go, .go, .go, .go]).ended .go = [(pid, .ok (.block (some 5)))] ∧
      q.state = .waiting (some 5) false ∧
      (∀ acts, ((Moment.rest s).after [.go, .go, .go, .go, .go]).Sleeps q (some 5) acts ∨
        ∃ before time, before ++ [.go] <+: acts ∧
          ((Moment.rest s).after [.go, .go, .go, .go, .go]).Awakes q (some 5) before time) ∧
      ∃ s'', s.run 3 3 = s''.run 3 1 ∧ s'.Resumes s'' := by
  have created : twoSlots.Created :=
    ⟨{ indexBits := 1, generationBits := 1 }, _, .create ⟨#[]⟩ .refuse, rfl⟩
  obtain ⟨s, hs⟩ : ∃ s, s = (twoSlots.ask (.load drowsy)).ask (.spawn (.function ⟨0, 0⟩) []) :=
    ⟨_, rfl⟩
  have history : History [] s := hs ▸ .ask (.ask (.create created) _) _
  have runs : (s.runOnce 3).map Prod.fst = some (.idle (some 5)) := by
    rw [hs]
    decide +kernel
  obtain ⟨⟨state, s'⟩, hrun, rfl⟩ := Option.map_eq_some_iff.mp runs
  have hended : ((Moment.rest s).after [.go, .go, .go, .go]).ended .go =
      [(⟨0⟩, .ok (.block (some 5)))] := by
    rw [hs]
    decide +kernel
  have hclock : ((Moment.rest s).after [.go, .go, .go, .go]).system.clock.now = 0 := by
    rw [hs]
    decide +kernel
  obtain ⟨htimes, hidles⟩ := timed_receives
  have reachable : ((Moment.rest s).after [.go, .go, .go, .go]).Reachable :=
    history.reachable.after _
  obtain ⟨-, -, -, hblocks⟩ := htimes _ reachable
  obtain ⟨-, q, deadline, -, hstate, hdeadline, hsleeps⟩ :=
    hblocks ⟨0⟩ (some 5) (by rw [hended]; exact List.mem_singleton_self _)
  rw [hclock] at hdeadline
  subst hdeadline
  obtain ⟨s'', hresumed⟩ := (hidles s s' [] 3 5 history hrun).2 1
  exact ⟨s, s', ⟨0⟩, q, history, hrun, hended, hstate, hsleeps, s'', hresumed⟩

end Scheduler

end ActorMachine
