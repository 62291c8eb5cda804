import Mathlib.Order.Bounds.Basic
import ActorMachine.Proofs.Partition
import ActorMachine.Proofs.Residents
import ActorMachine.Proofs.Steps

/-!
# Wake-ups

No process waits for a message that has come: an actor blocks only after it has looked at all
messages, and whatever brings one while the process waits notes it (`Process.Noticed`). A rotation
ends with a look at all that wait, so afterwards none of them can go on (`Scheduler.waits_close`),
and what the rotation answers is exactly what is left to do (`Scheduler.runState_eq_iff`). Where
nobody can go on and nobody waits for a time, nothing happens any more until the system is asked for
something (`Scheduler.Quiescent.of_later`).
-/

namespace ActorMachine

/-! ## Nobody blocks on a message -/

/-- If the computation blocks, it does so in a state of `P`. -/
def BlocksIn (P : σ → Prop) (m : EStateM Fault σ Signal) : Prop :=
  ∀ s, Ends m s (fun signal s' => ∀ timeout, signal = .pause (.block timeout) → P s')
    fun _ _ => True

namespace BlocksIn

variable {P : σ → Prop}

/-- Only the end of a computation decides. -/
theorem bind {m : EStateM Fault σ α} {f : α → EStateM Fault σ Signal}
    (rest : ∀ x, BlocksIn P (f x)) : BlocksIn P (m >>= f) :=
  fun _ => .bind <| .intro (fun x s' _ => rest x s') fun _ _ _ => trivial

theorem pure {signal : Signal} (h : ∀ timeout, signal ≠ .pause (.block timeout)) :
    BlocksIn P (pure signal) :=
  fun _ => .pure fun timeout heq => absurd heq (h timeout)

theorem throw (e : Fault) : BlocksIn P (throw e) := fun _ => .throw trivial

theorem ite {p : Prop} [Decidable p] {m n : EStateM Fault σ Signal} (pos : BlocksIn P m)
    (neg : BlocksIn P n) : BlocksIn P (if p then m else n) :=
  fun s => .ite (fun _ => pos s) fun _ => neg s

theorem proceed {m : EStateM Fault σ α} : BlocksIn P (do let _ ← m; return .proceed) :=
  .bind fun _ => .pure nofun

theorem onActor {κ : Type} {P : Actor → Prop} {m : ActorM Signal} (h : BlocksIn P m) :
    BlocksIn (fun s : Session κ => P s.actor) (Exec.onActor m) :=
  fun s => Exec.ends_onActor (h s.actor)

/-- What never blocks does so in no state. -/
theorem of_never {κ : Type} {P : Session κ → Prop} {m : ActorM Signal}
    (h : BlocksIn (fun _ => False) m) :
    BlocksIn P (Exec.onActor m) :=
  fun s => Exec.ends_onActor <|
    (h s.actor).mono (fun _ _ h timeout heq => (h timeout heq).elim) fun _ _ h => h

end BlocksIn

/-- All messages have been peeked. -/
def Actor.Heedful (a : Actor) : Prop :=
  a.outline.messages ≤ a.outline.cursor

namespace ActorM

variable {P : Actor → Prop}

theorem blocksIn_afterReturn : BlocksIn P afterReturn := by
  refine .bind fun a => .pure fun timeout => ?_
  split <;> exact nofun

theorem blocksIn_returnFromCall : BlocksIn P returnFromCall := by
  refine .bind fun a => ?_
  split
  · exact .throw _
  · exact .bind fun _ => .bind fun _ => .bind fun _ => blocksIn_afterReturn

/-- A receive blocks only after it has found no message. -/
theorem heedful_receive (codeLength : Nat) (displacement : Int) :
    BlocksIn Actor.Heedful (receive codeLength displacement) := by
  refine .bind fun timeout a => ?_
  have hpeek : Ends peekMessage a (fun message b => message = none → b.Heedful)
      fun _ _ => True := by
    refine .bind <| .get ?_
    split
    · rename_i hnone
      refine .pure fun _ => ?_
      exact Array.getElem?_eq_none_iff.mp (Option.map_eq_none_iff.mp hnone)
    · exact .bind <| .modify <| .pure nofun
  refine .bind <| hpeek.mono ?_ fun _ _ h => h
  rintro (_ | message) b hb
  · refine .bind <| ((keeps_timeoutOf timeout).ends b).mono ?_ fun _ _ _ => trivial
    intro time c hc
    refine .ite (fun _ => BlocksIn.proceed c) fun _ => .bind <| .modify <| .pure fun _ _ => ?_
    have hc' : c.Heedful := by
      rw [Actor.Heedful, hc]
      exact hb rfl
    exact hc'
  · exact BlocksIn.proceed b

end ActorM

namespace Exec

variable {κ : Type} [Kernel κ] {l : Loader} {P : Session κ → Prop}

omit [Kernel κ] in
theorem blocksIn_finishNative (height : Nat) (answer : Answer) :
    BlocksIn P (finishNative height answer) := by
  refine .bind fun _ => ?_
  cases answer with
  | giveTurn => exact .pure nofun
  | exit => exact .pure nofun
  | value v => exact .of_never ActorM.blocksIn_afterReturn

theorem blocksIn_call {argCount : Nat} {protect : Nat → Exec κ Signal}
    (hprotect : ∀ height, BlocksIn P (protect height)) : BlocksIn P (call l argCount protect) := by
  refine .bind fun callee => .bind fun a => .ite (.bind fun _ => ?_) ?_
  all_goals
    cases callee with
    | function f => exact .bind fun _ => .proceed
    | native id =>
      dsimp only
      cases l.natives.get? id.toNat with
      | none => exact .throw _
      | some entry =>
        dsimp only
        cases entry.builtin with
        | operation op =>
          show BlocksIn _ (op.run _ >>= fun answer => finishNative _ answer)
          exact .bind fun answer => blocksIn_finishNative _ answer
        | protectedCall =>
          show BlocksIn _ (protect _)
          exact hprotect _
    | _ => exact .throw _

theorem blocksIn_invoke (argCount : Nat) : BlocksIn P (invoke l argCount) := by
  induction argCount with
  | zero => exact blocksIn_call fun _ => .throw _
  | succ argCount ih => exact blocksIn_call fun _ => .bind fun _ => ih

/-- Of the operations, only a receive blocks. -/
theorem blocksIn_execute (f : FuncRef) (p : LinkedPrototype) {op : Opcode} (payload : Int)
    (h : op = .rcv → BlocksIn P (onActor (ActorM.receive p.code.size payload))) :
    BlocksIn P (execute l f p op payload) := by
  cases op with
  | nop => exact .pure nofun
  | pop => exact .bind fun _ => .proceed
  | ldk => exact .bind fun _ => .bind fun _ => .proceed
  | nil | ldb | lsi | jmp | snd | rmv | rwd => exact .proceed
  | llv | slv | imp | cls => exact .bind fun _ => .proceed
  | jin => exact .bind fun _ => .ite .proceed (.pure nofun)
  | ivk => exact .bind fun _ => blocksIn_invoke _
  | ret => exact .of_never ActorM.blocksIn_returnFromCall
  | rcv => exact h rfl

/-- What an actor does next blocks only after it has looked at all messages. -/
theorem heedful_advance : BlocksIn (fun s : Session κ => s.actor.Heedful) (advance l) := by
  refine .bind fun entry => ?_
  cases entry with
  | some argCount => exact blocksIn_invoke argCount
  | none =>
    refine .bind fun pending => ?_
    cases pending with
    | some displacement => exact .proceed
    | none =>
      refine .bind fun a => ?_
      split
      · exact .pure nofun
      · refine .bind fun p => ?_
        split
        · exact .of_never ActorM.blocksIn_returnFromCall
        · refine .bind fun _ => ?_
          split
          · exact .throw _
          · exact blocksIn_execute _ _ _ fun _ => .onActor (ActorM.heedful_receive _ _)

end Exec

theorem Session.heedful_next {κ : Type} [Kernel κ] {l : Loader} {s s' : Session κ}
    {timeout : Option Nat} (h : s.next l = .inl (.ok (.block timeout), s')) :
    s'.actor.mailbox.hasUnpeeked = false := by
  have hheedful := (Exec.heedful_advance (l := l) s).of_ok (advance_of_next_inl h)
  exact decide_eq_false (Nat.not_lt.mpr (hheedful timeout rfl))

/-! ## Every message is noticed -/

namespace Process

/-- If the process waits, and a message has come that it has not looked at, this has been noted. -/
def Noticed (p : Process) : Prop :=
  ∀ deadline wake, p.state = .waiting deadline wake →
    p.actor.mailbox.hasUnpeeked = true → wake = true

/-- A delivery notes its message, or leaves none. -/
theorem noticed_delivered {m : ActorM Unit} (hm : ActorM.Delivers m) {p : Process}
    (hp : p.Noticed) :
    Noticed (leaves (do onActor m; modify notify) p) := by
  refine Ends.leaves <| .bind <| .intro (fun _ q run => .modify ?_) fun e q run => ?_
  · unfold notify
    split
    · rintro _ _ ⟨⟩ -
      rfl
    · rename_i hstate
      exact fun deadline wake heq => absurd heq (hstate deadline wake)
  · -- The actor may have collected, but its mailbox is as long as before, and so is what it has
    -- peeked.
    unfold onActor at run
    dsimp only at run
    cases hrun : m p.actor with
    | ok x a => rw [hrun] at run; cases run
    | error e a =>
      rw [hrun] at run
      cases run
      have hsame : a.mailbox.hasUnpeeked = p.actor.mailbox.hasUnpeeked := by
        show decide (a.outline.cursor < a.outline.messages) = _
        rw [(hm p.actor).of_error hrun]
        rfl
      exact fun deadline wake hstate hunread => hp deadline wake hstate (hsame ▸ hunread)

/-- Nobody can make a process overlook a message. -/
theorem lasting_noticed : Lasting Noticed where
  started _ _ := nofun
  deliver address source message hp := by
    cases source with
    | some source => exact noticed_delivered (ActorM.delivers_deliver _ _ _) hp
    | none =>
      unfold deliver
      by_cases hinline : message.isCollectable
      · simp only [hinline, if_true]
        exact hp
      · simp only [hinline]
        exact noticed_delivered (ActorM.delivers_deliverLocal _ _) hp
  deliverBytes _ _ hp := noticed_delivered (ActorM.delivers_deliverBytes _ _) hp
  requestExit hp := hp
  makeReady _ := nofun

end Process

/-- A process waits after its turn only if it has blocked. -/
theorem Scheduler.endTurn_waiting {s : Scheduler} {pid : Pid} {outcome : Outcome}
    {deadline : Option Nat} {wake : Bool} (h : (s.endTurn pid outcome).1 = .waiting deadline wake) :
    ∃ timeout, outcome = .ok (.block timeout) := by
  rcases outcome with fault | (_ | ⟨_ | usecs⟩ | _ | _)
  · cases h
  · cases h
  · exact ⟨none, rfl⟩
  · exact ⟨some usecs, rfl⟩
  · cases h
  · cases h

/-- At every moment, whoever waits and has a message that he has not looked at is to be woken. -/
theorem Moment.noticed_of_reachable {m : Moment} (h : m.Reachable) :
    m.table.Each Process.Noticed := by
  refine each_of_reachable Process.lasting_noticed ?_ h
  intro l s pid p session session' outcome hended deadline wake hstate hunread
  obtain ⟨timeout, rfl⟩ := Scheduler.endTurn_waiting hstate
  rcases hended with ⟨-, heq, -⟩ | hnext
  · cases heq
  · have hunread : session'.actor.mailbox.hasUnpeeked = true := hunread
    rw [Session.heedful_next hnext] at hunread
    cases hunread

/-! ## Whoever can go on is woken -/

namespace Scheduler

/-- If a process waits, it cannot go on yet. -/
def Waits (now : Nat) (p : Process) : Prop :=
  p.state.place = .waiting → isReady now p = false

variable {s : Scheduler} {log : List Nat} {listed : List (Pid × Place)}

/-- Looking at one waiting process: it is woken, or it cannot go on. -/
theorem each_wake {pid : Pid} {pids : List Pid} (tally : s.table.Tally listed log)
    (hmem : (pid, .waiting) ∈ listed)
    (h : s.table.Each fun p => p.pid ∉ pid :: pids → Waits s.now p) :
    (s.wake pid).table.Each (fun p => p.pid ∉ pids → Waits s.now p) ∧ (s.wake pid).now = s.now := by
  obtain ⟨process, hget, -⟩ := tally.exists_get? pid .waiting hmem nofun nofun
  unfold wake
  rw [hget]
  dsimp only
  split
  · refine ⟨ProcessTable.Each.setOccupant_of_others ?_ (by rintro _ ⟨⟩ - ⟨⟩), rfl⟩
    intro i slot p hi hp hne hnot
    refine h i slot p hi hp (List.not_mem_cons_of_ne_of_not_mem ?_ hnot)
    rintro rfl
    rw [tally.named i slot p hi hp, tally.index_pidOf hi] at hne
    exact hne rfl
  · rename_i hwaits
    refine ⟨fun i slot p hi hp hnot => ?_, rfl⟩
    by_cases heq : p.pid = pid
    · -- The process in this slot is the one that has been looked at.
      have hoccupant := tally.occupant_pidOf hi
      rw [← tally.named i slot p hi hp, heq, (ProcessTable.get?_eq_some hget).1, hp] at hoccupant
      cases hoccupant
      exact fun _ => Bool.eq_false_iff.mpr hwaits
    · exact h i slot p hi hp (List.not_mem_cons_of_ne_of_not_mem heq hnot)

/-- When some waiting processes have been looked at, the others are all that may be able to go
on. -/
theorem waits_foldl_wake (pids : List Pid)
    (tally : s.table.Tally (pids.map (·, .waiting) ++ s.queued) log)
    (h : s.table.Each fun p => p.pid ∉ pids → Waits s.now p) :
    (pids.foldl wake s).table.Each (Waits (pids.foldl wake s).now) := by
  induction pids generalizing s with
  | nil => exact fun i slot p hi hp => h i slot p hi hp List.not_mem_nil
  | cons pid pids ih =>
    obtain ⟨hwoken, hnow⟩ := each_wake tally List.mem_cons_self h
    rw [← hnow] at hwoken
    exact ih (tally_wake tally) hwoken

/-- After all waiting processes have been looked at, none of them can go on. -/
theorem waits_wakeReady (tally : s.table.Tally s.queued log) :
    s.wakeReady.table.Each (Waits s.wakeReady.now) := by
  have hlisted : s.tick.table.Each fun p => p.pid ∉ s.waiting.toList → Waits s.tick.now p := by
    intro i slot p hi hp hnot hplace
    have hmem := (tally.mem_listed p.pid .waiting).mpr
      ⟨i, slot, hi, (tally.named i slot p hi hp).symm, by rw [hp, ← hplace]; rfl⟩
    exact absurd (Array.mem_toList_iff.mpr (mem_queued_waiting.mp hmem)) hnot
  rw [wakeReady_eq]
  exact waits_foldl_wake (s := { s.tick with waiting := #[] }) _ (tally_tick tally) hlisted

/-- After a rotation no process that waits can go on. -/
theorem waits_close (tally : s.table.Tally s.queued log) :
    s.close.table.Each (Waits s.close.now) :=
  (waits_wakeReady tally).releases _

/-! ## What is left to do -/

/-- What there is to do in a system, and for how long there is nothing to do. -/
def Verdict (s : Scheduler) : RunState → Prop
  | .done => ∀ pid p, ¬ s.table.Lives pid p
  | .busy => ∃ pid p, s.table.Lives pid p ∧ (p.state = .pending ∨ p.state = .running)
  | .idle none => (∃ pid p, s.table.Lives pid p) ∧
    ∀ pid p, s.table.Lives pid p → ∃ wake, p.state = .waiting none wake
  | .idle (some usecs) => (∀ pid p, s.table.Lives pid p → ∃ deadline wake,
      p.state = .waiting deadline wake) ∧
    0 < usecs ∧ IsLeast {d : Nat | ∃ pid p time wake, s.table.Lives pid p ∧
      p.state = .waiting (some time) wake ∧ d = time - s.now} usecs

/-- There is only one verdict. -/
theorem Verdict.unique {r r' : RunState} (h : s.Verdict r) (h' : s.Verdict r') : r = r' := by
  -- Of two different verdicts, one tells of a process that the other leaves no room for.
  have waiting : ∀ {next}, s.Verdict (.idle next) →
      (∃ pid p, s.table.Lives pid p) ∧
        ∀ pid p, s.table.Lives pid p → ∃ deadline wake, p.state = .waiting deadline wake := by
    rintro (_ | usecs) h
    · refine ⟨h.1, fun pid p hp => ?_⟩
      obtain ⟨wake, hstate⟩ := h.2 pid p hp
      exact ⟨none, wake, hstate⟩
    · obtain ⟨hwaiting, -, ⟨pid, p, _, _, hp, -⟩, -⟩ := h
      exact ⟨⟨pid, p, hp⟩, hwaiting⟩
  have done_ne_busy : s.Verdict .done → ¬ s.Verdict .busy := by
    rintro hdone ⟨pid, p, hp, -⟩
    exact hdone pid p hp
  have done_ne_idle : ∀ {next}, s.Verdict .done → ¬ s.Verdict (.idle next) := by
    intro next hdone hidle
    obtain ⟨⟨pid, p, hp⟩, -⟩ := waiting hidle
    exact hdone pid p hp
  have busy_ne_idle : ∀ {next}, s.Verdict .busy → ¬ s.Verdict (.idle next) := by
    rintro next ⟨pid, p, hp, hstate⟩ hidle
    obtain ⟨deadline, wake, hwaits⟩ := (waiting hidle).2 pid p hp
    rw [hwaits] at hstate
    rcases hstate with hstate | hstate <;> cases hstate
  have none_ne_some : ∀ {usecs}, s.Verdict (.idle none) → ¬ s.Verdict (.idle (some usecs)) := by
    rintro usecs ⟨-, hnone⟩ ⟨-, -, ⟨pid, p, time, wake, hp, hstate, -⟩, -⟩
    obtain ⟨wake', hstate'⟩ := hnone pid p hp
    rw [hstate] at hstate'
    cases hstate'
  cases r with
  | done =>
    cases r' with
    | done => rfl
    | busy => exact absurd h' (done_ne_busy h)
    | idle next => exact absurd h' (done_ne_idle h)
  | busy =>
    cases r' with
    | done => exact absurd h (done_ne_busy h')
    | busy => rfl
    | idle next => exact absurd h' (busy_ne_idle h)
  | idle next =>
    cases r' with
    | done => exact absurd h (done_ne_idle h')
    | busy => exact absurd h (busy_ne_idle h')
    | idle next' =>
      cases next with
      | none =>
        cases next' with
        | none => rfl
        | some usecs' => exact absurd h' (none_ne_some h)
      | some usecs =>
        cases next' with
        | none => exact absurd h (none_ne_some h')
        | some usecs' => rw [h.2.2.unique h'.2.2]

section

variable (orderly : (Moment.rest s).Orderly log) {pid : Pid} {p : Process}

include orderly

/-- A process that lives is in the queue of its state. -/
theorem queued_of_lives (h : s.table.Lives pid p) : (pid, p.state.place) ∈ s.queued := by
  obtain ⟨i, slot, hi, hp, rfl⟩ := h
  exact (orderly.tally_rest.mem_listed _ _).mpr
    ⟨i, slot, hi, (orderly.tally_rest.named i slot p hi hp).symm, by rw [hp]; rfl⟩

theorem get?_of_lives (h : s.table.Lives pid p) : s.table.get? pid = some p := by
  have hqueued := queued_of_lives orderly h
  obtain ⟨i, slot, hi, hp, rfl⟩ := h
  rw [ProcessTable.get?, orderly.tally_rest.named i slot p hi hp,
    orderly.tally_rest.occupant_pidOf hi, hp]
  refine if_neg fun hdead => ?_
  rw [hdead] at hqueued
  have hmem := mem_queued_dead.mp hqueued
  rw [orderly.dead_rest] at hmem
  cases hmem

/-- The system has no processes exactly if it counts none. -/
theorem live_eq_zero_iff : s.table.live = 0 ↔ ∀ pid p, ¬ s.table.Lives pid p := by
  rw [orderly.tally_rest.live_eq, Array.countP_eq_zero]
  constructor
  · rintro hvacant pid p ⟨i, slot, hi, hp, -⟩
    refine hvacant slot (Array.mem_of_getElem? hi) ?_
    rw [hp]
    rfl
  · intro hnone slot hslot hoccupied
    obtain ⟨i, hi⟩ := Array.mem_iff_getElem?.mp hslot
    obtain ⟨p, hp, -⟩ := (partitioned_of_orderly orderly).resident i slot hi (by
      intro hvacant
      rw [hvacant] at hoccupied
      cases hoccupied)
    exact hnone p.pid p ⟨i, slot, hi, hp, rfl⟩

/-- The deadlines that are looked at are those of the processes that wait. -/
theorem mem_deadlines_iff (time : Nat) : time ∈ s.waiting.toList.filterMap s.deadline? ↔
    ∃ pid p wake, s.table.Lives pid p ∧ p.state = .waiting (some time) wake := by
  rw [List.mem_filterMap]
  constructor
  · rintro ⟨pid, hmem, htime⟩
    obtain ⟨p, deadline, wake, hp, hstate⟩ :=
      ((partitioned_of_orderly orderly).waiting pid).mp (Array.mem_toList_iff.mp hmem)
    refine ⟨pid, p, wake, hp, ?_⟩
    rw [hstate]
    unfold deadline? at htime
    rw [get?_of_lives orderly hp] at htime
    obtain ⟨pid', actor, state, exits⟩ := p
    obtain rfl : state = _ := hstate
    rw [show deadline = some time from htime]
  · rintro ⟨pid, ⟨pid', actor, state, exits⟩, wake, hp, rfl⟩
    refine ⟨pid, Array.mem_toList_iff.mpr (((partitioned_of_orderly orderly).waiting pid).mpr
      ⟨_, _, _, hp, rfl⟩), ?_⟩
    unfold deadline?
    rw [get?_of_lives orderly hp]

/-- Whoever lives while no turn is to be given waits. -/
theorem waiting_of_idle (running : s.running = #[]) (pending : s.table.pending = [])
    (hp : s.table.Lives pid p) : ∃ deadline wake, p.state = .waiting deadline wake := by
  refine ProcessState.place_eq_waiting_iff.mp ?_
  have hqueued := queued_of_lives orderly hp
  generalize p.state.place = place at hqueued ⊢
  cases place <;> simp [running, pending, orderly.dead_rest] at hqueued ⊢

theorem verdict_busy (busy : ¬(s.running = #[] ∧ s.table.pending = [])) : s.Verdict .busy := by
  have hpartitioned := partitioned_of_orderly orderly
  by_cases hrunning : s.running = #[]
  · obtain ⟨pid, hmem⟩ := List.exists_mem_of_ne_nil _ fun hpending => busy ⟨hrunning, hpending⟩
    obtain ⟨p, hp, hstate⟩ := (hpartitioned.pending pid).mp hmem
    exact ⟨pid, p, hp, .inl hstate⟩
  · obtain ⟨pid, hmem⟩ := Array.exists_mem_of_ne_empty _ hrunning
    obtain ⟨p, hp, hstate⟩ := (hpartitioned.running pid).mp hmem
    exact ⟨pid, p, hp, .inr hstate⟩

/-- Where all wait, there is nothing to do until the first deadline, if there is one. -/
theorem verdict_idle (waits : s.table.Each (Waits s.now)) (live : s.table.live ≠ 0)
    (hwaiting : ∀ pid p, s.table.Lives pid p → ∃ deadline wake, p.state = .waiting deadline wake) :
    s.Verdict (.idle ((s.waiting.toList.filterMap s.deadline?).min?.map (· - s.now))) := by
  cases hmin : (s.waiting.toList.filterMap s.deadline?).min? with
  | none =>
    have hexists : ∃ pid p, s.table.Lives pid p := by
      by_contra hnone
      exact live ((live_eq_zero_iff orderly).mpr fun pid p hp => hnone ⟨pid, p, hp⟩)
    refine ⟨hexists, fun pid p hp => ?_⟩
    obtain ⟨deadline, wake, hstate⟩ := hwaiting pid p hp
    cases deadline with
    | none => exact ⟨wake, hstate⟩
    | some time =>
      have hmem := (mem_deadlines_iff orderly time).mpr ⟨pid, p, wake, hp, hstate⟩
      rw [List.min?_eq_none_iff.mp hmin] at hmem
      cases hmem
  | some first =>
    obtain ⟨hfirst, hleast⟩ := List.min?_eq_some_iff.mp hmin
    obtain ⟨pid, p, wake, hp, hstate⟩ := (mem_deadlines_iff orderly first).mp hfirst
    refine ⟨hwaiting, ?_, ⟨pid, p, first, wake, hp, hstate, rfl⟩, ?_⟩
    · -- Whose time is up would not wait any more.
      obtain ⟨i, slot, hi, hslot, -⟩ := hp
      have hready := waits i slot p hi hslot (by rw [hstate]; rfl)
      simp only [isReady, hstate, Bool.or_eq_false_iff, decide_eq_false_iff_not] at hready
      show 0 < first - s.now
      omega
    · rintro _ ⟨pid', p', time, wake', hp', hstate', rfl⟩
      have := hleast time ((mem_deadlines_iff orderly time).mpr ⟨pid', p', wake', hp', hstate'⟩)
      show first - s.now ≤ time - s.now
      omega

/-- The verdict of a rotation is right. -/
theorem verdict_runState (waits : s.table.Each (Waits s.now)) : s.Verdict s.runState := by
  unfold runState
  by_cases hlive : s.table.live = 0
  · rw [if_pos hlive]
    exact (live_eq_zero_iff orderly).mp hlive
  rw [if_neg hlive]
  by_cases hqueues : s.running = #[] ∧ s.table.pending = []
  · obtain ⟨hrunning, hpending⟩ := hqueues
    rw [if_neg (by simp [hrunning, hpending])]
    exact verdict_idle orderly waits hlive fun _ _ => waiting_of_idle orderly hrunning hpending
  · rw [if_pos (by
      rw [Bool.or_eq_true, Bool.not_eq_true', Bool.not_eq_true', Array.isEmpty_eq_false_iff,
        List.isEmpty_eq_false_iff]
      by_contra hnot
      rw [not_or, not_not, not_not] at hnot
      exact hqueues hnot)]
    exact verdict_busy orderly hqueues

/-- What a rotation answers is exactly what is left to do. -/
theorem runState_eq_iff (waits : s.table.Each (Waits s.now)) (r : RunState) :
    s.runState = r ↔ s.Verdict r := by
  constructor
  · rintro rfl
    exact verdict_runState orderly waits
  · exact (verdict_runState orderly waits).unique

end

/-! ## Nothing happens by itself -/

/-- There are processes, all of them wait, and nothing has come for any of them. -/
structure Quiescent (s : Scheduler) : Prop where
  pending : s.table.pending = []
  running : s.running = #[]
  dead : s.dead = []
  live : s.table.live ≠ 0
  waiting : ∀ pid ∈ s.waiting.toList, ∃ p, s.table.get? pid = some p ∧
    p.state = .waiting none false ∧ p.exitRequested = false

/-- What may happen to a system that is not asked to do anything for a process: the clock moves, in
a rotation as well, code is loaded, natives are registered, and it goes on. -/
inductive Undisturbed (s : Scheduler) : Scheduler → Prop
  | refl : Undisturbed s s
  | advanceClock {s' : Scheduler} (h : Undisturbed s s') (usecs : Nat) :
    Undisturbed s (s'.ask (.advanceClock usecs))
  | load {s' : Scheduler} (h : Undisturbed s s') (c : Chunk) : Undisturbed s (s'.ask (.load c))
  | register {s' : Scheduler} (h : Undisturbed s s') (module name : String) (builtin : Builtin) :
    Undisturbed s (s'.ask (.register module name builtin))
  | report {s' : Scheduler} (h : Undisturbed s s') : Undisturbed s (s'.ask .report)
  | rotate {s' s'' : Scheduler} {state : RunState} (h : Undisturbed s s')
    (run : s'.Rotates state s'') :
    Undisturbed s s''

/-- Where nobody has ended, there is nobody to release. -/
theorem releaseDead_of_cleared (cleared : s.dead = []) : s.releaseDead = s := by
  unfold releaseDead
  rw [cleared]
  exact congrArg (fun dead => { s with dead }) cleared.symm

/-- Where nobody is to have a turn, nobody is made ready for one. -/
theorem admitPending_of_still (running : s.running = #[]) (pending : s.table.pending = []) :
    s.admitPending = s ∧ { s with running := #[] } = s := by
  have htable : { s.table with pending := [] } = s.table := by rw [← pending]
  rw [admitPending_eq, pending, htable, ← running]
  exact ⟨rfl, rfl⟩

/-- Where nobody has ended, a rotation is closed with a look at those that wait. -/
theorem close_of_cleared (cleared : s.dead = []) : s.close = s.wakeReady :=
  releaseDead_of_cleared (s.keeps_wakeReady.2.trans cleared)

/-- Where nobody is to have a turn, a rotation is a look at those that wait. -/
theorem runOnce_of_still (running : s.running = #[]) (pending : s.table.pending = [])
    (cleared : s.dead = []) (bound : Nat) :
    s.runOnce bound = some (s.wakeReady.runState, s.wakeReady) := by
  obtain ⟨hadmitted, hempty⟩ := admitPending_of_still running pending
  unfold Scheduler.runOnce
  rw [hadmitted]
  dsimp only
  rw [hempty, running]
  show some (s.close.runState, s.close) = _
  rw [close_of_cleared cleared]

theorem foldl_wake_of_unready (pids : List Pid) (h : ∀ pid ∈ pids, ∃ p, s.table.get? pid = some p ∧
    isReady s.now p = false) : pids.foldl wake s =
    { s with waiting := s.waiting ++ pids.toArray } := by
  induction pids generalizing s with
  | nil => simp
  | cons pid pids ih =>
    obtain ⟨p, hget, hready⟩ := h pid List.mem_cons_self
    have hwake : s.wake pid = { s with waiting := s.waiting.push pid } := by
      simp [wake, hget, hready]
    rw [List.foldl_cons, hwake, ih]
    · simp
    · exact fun q hq => h q (List.mem_cons_of_mem _ hq)

/-- Where nobody that waits can go on, the look at them only takes notice of the time. -/
theorem wakeReady_of_unready (h : ∀ pid ∈ s.waiting.toList, ∃ p, s.table.get? pid = some p ∧
    isReady s.tick.now p = false) : s.wakeReady = s.tick := by
  rw [wakeReady_eq, foldl_wake_of_unready (s := { s.tick with waiting := #[] }) _ h]
  simp [tick]

namespace Quiescent

/-- Nobody can go on, so the look at those that wait only takes notice of the time. -/
theorem wakeReady (h : s.Quiescent) : s.wakeReady = s.tick :=
  wakeReady_of_unready fun pid hpid => by
    obtain ⟨p, hget, hstate, hstays⟩ := h.waiting pid hpid
    exact ⟨p, hget, by simp [isReady, hstate, hstays]⟩

/-- All wait, and nobody for a time. -/
theorem runState_tick (h : s.Quiescent) : s.tick.runState = .idle none := by
  have hnone : s.waiting.toList.filterMap s.tick.deadline? = [] := by
    refine List.filterMap_eq_nil_iff.mpr fun pid hpid => ?_
    obtain ⟨⟨pid', actor, state, exits⟩, hget, rfl, -⟩ := h.waiting pid hpid
    have hget : s.tick.table.get? pid = _ := hget
    unfold deadline?
    rw [hget]
  have hlive : s.tick.table.live ≠ 0 := h.live
  have hrunning : s.tick.running = #[] := h.running
  have hpending : s.tick.table.pending = [] := h.pending
  unfold runState
  rw [if_neg hlive, if_neg (by simp [hrunning, hpending])]
  show RunState.idle (((s.waiting.toList.filterMap s.tick.deadline?).min?).map _) = _
  rw [hnone]
  rfl

/-- A rotation only takes notice of the time. -/
theorem runOnce (h : s.Quiescent) (bound : Nat) : s.runOnce bound = some (.idle none, s.tick) := by
  rw [runOnce_of_still h.running h.pending h.dead, h.wakeReady, h.runState_tick]

/-- Nobody has a turn in a rotation. -/
theorem passes {acts : List Moment.Act} {m : Moment} (h : s.Quiescent)
    (passes : (Moment.rest s).Passes acts m) :
    ∃ now : Scheduler, (m = .rest now ∨ m = .between [] now) ∧ now.Quiescent ∧
      now.table = s.table := by
  induction passes with
  | refl => exact ⟨s, .inl rfl, h, rfl⟩
  | elapse _ usecs ih =>
    obtain ⟨now, hm, quiescent, htable⟩ := ih
    refine ⟨now.advanceClock usecs, ?_, { quiescent with }, htable⟩
    rcases hm with rfl | rfl
    · exact .inl rfl
    · exact .inr rfl
  | go _ unclosed ih =>
    obtain ⟨now, rfl | rfl, quiescent, htable⟩ := ih
    · obtain ⟨hadmitted, hempty⟩ := admitPending_of_still quiescent.running quiescent.pending
      refine ⟨now, .inr ?_, quiescent, htable⟩
      rw [Moment.go, hadmitted, hempty, quiescent.running]
    · exact absurd rfl (unclosed now)

/-- A rotation changes nothing but the time, whatever time passes in it. -/
theorem of_rotates {s' : Scheduler} {state : RunState} (h : s.Quiescent)
    (run : s.Rotates state s') :
    state = .idle none ∧ s'.Quiescent ∧ s'.table = s.table := by
  obtain ⟨acts, last, passes, rfl, rfl⟩ := run
  obtain ⟨now, hm, quiescent, htable⟩ := h.passes passes
  obtain rfl : last = now := by
    rcases hm with hm | hm
    · cases hm
    · exact (Moment.between.inj hm).2
  rw [close_of_cleared quiescent.dead, quiescent.wakeReady]
  exact ⟨quiescent.runState_tick, { quiescent with }, htable⟩

theorem of_undisturbed {s' : Scheduler} (h : s.Quiescent) (later : Undisturbed s s') :
    s'.Quiescent ∧ s'.table = s.table := by
  induction later with
  | refl => exact ⟨h, rfl⟩
  | advanceClock _ usecs ih => exact ⟨{ ih.1 with }, ih.2⟩
  | load _ c ih =>
    simp only [ask]
    split
    · exact ⟨{ ih.1 with }, ih.2⟩
    · exact ih
  | register _ _ _ _ ih | report _ ih => exact ⟨{ ih.1 with }, ih.2⟩
  | rotate _ run ih =>
    obtain ⟨-, quiescent, htable⟩ := ih.1.of_rotates run
    exact ⟨quiescent, htable.trans ih.2⟩

end Quiescent

/-- Where all processes wait, nobody is to have a turn. -/
theorem still_of_waiting (orderly : (Moment.rest s).Orderly log)
    (h : ∀ pid p, s.table.Lives pid p → ∃ deadline wake, p.state = .waiting deadline wake) :
    s.running = #[] ∧ s.table.pending = [] := by
  have hpartitioned := partitioned_of_orderly orderly
  constructor
  · refine Array.eq_empty_iff_forall_not_mem.mpr fun q hq => ?_
    obtain ⟨p, hp, hstate⟩ := (hpartitioned.running q).mp hq
    obtain ⟨deadline, wake, hstate'⟩ := h q p hp
    rw [hstate] at hstate'
    cases hstate'
  · refine List.eq_nil_iff_forall_not_mem.mpr fun q hq => ?_
    obtain ⟨p, hp, hstate⟩ := (hpartitioned.pending q).mp hq
    obtain ⟨deadline, wake, hstate'⟩ := h q p hp
    rw [hstate] at hstate'
    cases hstate'

/-- Where all processes wait without a deadline, and none of them can go on, nothing has come for
any. -/
theorem quiescent_of_verdict (orderly : (Moment.rest s).Orderly log)
    (waits : s.table.Each (Waits s.now)) (h : s.Verdict (.idle none)) : s.Quiescent := by
  obtain ⟨⟨pid, p, hp⟩, hall⟩ := h
  obtain ⟨running, pending⟩ := still_of_waiting orderly fun pid p hp => by
    obtain ⟨wake, hstate⟩ := hall pid p hp
    exact ⟨none, wake, hstate⟩
  refine ⟨pending, running, orderly.dead_rest,
    fun hzero => (live_eq_zero_iff orderly).mp hzero pid p hp, ?_⟩
  intro q hq
  obtain ⟨p, _, _, hp, -⟩ := ((partitioned_of_orderly orderly).waiting q).mp
    (Array.mem_toList_iff.mp hq)
  obtain ⟨wake, hstate⟩ := hall q p hp
  refine ⟨p, get?_of_lives orderly hp, ?_⟩
  obtain ⟨i, slot, hi, hslot, -⟩ := hp
  have hready := waits i slot p hi hslot (by rw [hstate]; rfl)
  simp only [isReady, hstate, Bool.or_eq_false_iff] at hready
  rw [hstate, hready.1.1]
  exact ⟨rfl, hready.1.2⟩

/-- A rotation ends at a moment that is reached by acts. -/
theorem Rotates.exists_close {s' : Scheduler} {state : RunState} (h : s.Rotates state s')
    (history : History log s) : state = s'.runState ∧ ∃ log' s₁, (Moment.between [] s₁).Reachable ∧
      (Moment.between [] s₁).Orderly log' ∧ s' = s₁.close := by
  obtain ⟨s₀, acts, created, hafter, -⟩ := history.exists_acts
  obtain ⟨passed, s₁, passes, rfl, rfl⟩ := h
  have hend : (Moment.rest s₀).after (acts ++ passed) = .between [] s₁ := by
    rw [Moment.after_append, hafter, passes.after]
  have orderly := Moment.orderly_after created (acts ++ passed)
  rw [hend] at orderly
  exact ⟨rfl, _, s₁, ⟨s₀, _, created, hend.symm⟩, orderly, rfl⟩

/-- At every moment, whoever waits and has a message that he has not looked at is to be woken. After
a rotation, whether the clock moves in it or not, nobody waits who could go on; what the rotation
answers is exactly what is left to do; and if it answers that all wait without a deadline, all that
happens of itself leaves the processes as they are and the answer the same. -/
theorem heeds_all :
    (∀ m : Moment, m.Reachable → m.table.Each Process.Noticed) ∧
    (∀ (s s' : Scheduler) (bound : Nat) (state : RunState),
      s.runOnce bound = some (state, s') → s.Rotates state s') ∧
    ∀ (s s' : Scheduler) (log : List Nat) (state : RunState), History log s → s.Rotates state s' →
      (∀ pid p deadline wake, s'.table.Lives pid p → p.state = .waiting deadline wake →
        p.actor.mailbox.hasUnpeeked = false ∧ p.exitRequested = false ∧
          ∀ time, deadline = some time → s'.now < time) ∧
      (∀ r, state = r ↔ s'.Verdict r) ∧
      (state = .idle none → ∀ s'', Undisturbed s' s'' → s''.table = s'.table ∧
        (∀ bound, ∃ s₃, s''.runOnce bound = some (.idle none, s₃) ∧ s₃.table = s'.table) ∧
        ∀ state' s₃, s''.Rotates state' s₃ → state' = .idle none ∧ s₃.table = s'.table) := by
  refine ⟨fun m => Moment.noticed_of_reachable, fun s s' bound state => rotates_of_runOnce,
    fun s s' log state history run => ?_⟩
  obtain ⟨rfl, log', s₁, reachable, orderly, rfl⟩ := run.exists_close history
  have closed : (Moment.rest s₁.close).Orderly _ := orderly.go
  have waits : s₁.close.table.Each (Waits s₁.close.now) := waits_close orderly.tally
  have noticed : s₁.close.table.Each Process.Noticed :=
    Moment.noticed_of_reachable (reachable.act .go)
  have verdict := runState_eq_iff closed waits
  refine ⟨?_, verdict, ?_⟩
  · rintro pid p deadline wake ⟨i, slot, hi, hp, -⟩ hstate
    have hready := waits i slot p hi hp (by rw [hstate]; rfl)
    simp only [isReady, hstate, Bool.or_eq_false_iff] at hready
    obtain ⟨⟨hwake, hexit⟩, hdeadline⟩ := hready
    refine ⟨?_, hexit, ?_⟩
    · refine Bool.eq_false_iff.mpr fun hunread => ?_
      rw [noticed i slot p hi hp deadline wake hstate hunread] at hwake
      cases hwake
    · rintro time rfl
      exact Nat.lt_of_not_le (of_decide_eq_false hdeadline)
  · intro hidle s'' later
    have quiescent := quiescent_of_verdict closed waits ((verdict _).mp hidle)
    obtain ⟨quiescent', htable⟩ := quiescent.of_undisturbed later
    refine ⟨htable, fun bound => ⟨_, quiescent'.runOnce bound, htable⟩, fun state' s₃ run => ?_⟩
    obtain ⟨hanswer, -, hkept⟩ := quiescent'.of_rotates run
    exact ⟨hanswer, hkept.trans htable⟩

/-- A program that waits for a message without end. -/
def listener : Chunk :=
  .ofModule { Prototype.named "m" with code := [.pack .nil 0, .pack .rcv 0] }

/-- A process waits, and goes on waiting until a message is sent to it. -/
theorem heeds_all_listener : ∃ s s' : Scheduler, ∃ pid : Pid,
    History [] s ∧ s.runOnce 3 = some (.idle none, s') ∧ s'.Verdict (.idle none) ∧
      (∀ s'', Undisturbed s' s'' → s''.table = s'.table) ∧
      (s'.ask (.send pid .nil)).table.Each Process.Noticed ∧
      ((s'.ask (.send pid .nil)).table.get? pid).map (·.state) = some (.waiting none true) := by
  have created : twoSlots.Created :=
    ⟨{ indexBits := 1, generationBits := 1 }, _, .create ⟨#[]⟩ .refuse, rfl⟩
  let s := (twoSlots.ask (.load listener)).ask (.spawn (.function ⟨0, 0⟩) [])
  have history : History [] s := .ask (.ask (.create created) _) _
  have runs : (s.runOnce 3).map (fun result =>
        (result.1, ((result.2.ask (.send ⟨0⟩ .nil)).table.get? ⟨0⟩).map (·.state))) =
      some (.idle none, some (.waiting none true)) := by decide +kernel
  obtain ⟨⟨state, s'⟩, hrun, hstate⟩ := Option.map_eq_some_iff.mp runs
  obtain ⟨rfl, hsent⟩ := Prod.mk.inj hstate
  have rotates := heeds_all.2.1 s s' 3 _ hrun
  obtain ⟨-, hverdict, hstays⟩ := heeds_all.2.2 s s' [] _ history rotates
  obtain ⟨-, log, s₁, reachable, -, rfl⟩ := rotates.exists_close history
  have hnoticed := heeds_all.1 _ ((reachable.act .go).act (.ask (.send ⟨0⟩ .nil)))
  exact ⟨s, _, ⟨0⟩, history, hrun, (hverdict _).mp rfl, fun s'' later => (hstays rfl s'' later).1,
    hnoticed, hsent⟩

end Scheduler

end ActorMachine
