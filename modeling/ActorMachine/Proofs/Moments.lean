import ActorMachine.Proofs.Loaders
import ActorMachine.Proofs.Outcome
import ActorMachine.Scheduler

/-!
# The moments of a system

A rotation is a sequence of small things: a process is given its turn, it makes one step after
another, its turn ends, and in the end the rotation is closed. `Moment.go` does the next of them.
Time can pass at every moment (`Moment.elapse`), as it does under a clock that moves by itself, and
between two rotations the system can be asked for something from outside (`Moment.act`). Rotations
come to what these small things come to (`Scheduler.go_of_runOnce`), so what holds at every moment
holds between rotations as well.
-/

namespace ActorMachine

/-- What a system is asked for from outside. -/
inductive Request where
  | spawn (callee : Value) (args : List HostArg)
  | spawnExport (module name : String) (args : List HostArg)
  | send (target : Pid) (v : Value)
  | sendText (target : Pid) (text : String)
  | kill (target : Pid)
  | advanceClock (usecs : Nat)
  | load (c : Chunk)
  | register (module name : String) (builtin : Builtin)
  | report

namespace Scheduler

/-- A system that has just been created, with a loader that has been made by loading chunks. -/
def Created (s : Scheduler) : Prop :=
  ∃ config loader, loader.Built ∧ create config loader = .ok s

/-- The system after it has been asked for something, whether or not this was refused. -/
def ask (s : Scheduler) : Request → Scheduler
  | .spawn callee args => leaves (spawn callee args) s
  | .spawnExport module name args => leaves (spawnExport module name args) s
  | .send target v => leaves (send target v) s
  | .sendText target text => leaves (sendText target text) s
  | .kill target => leaves (kill target) s
  | .advanceClock usecs => s.advanceClock usecs
  | .load c =>
    match s.loader.loadChunk c with
    | .ok loaded => { s with loader := loaded.loader }
    | .error _ => s
  | .register module name builtin => { s with loader := s.loader.register module name builtin }
  | .report => { s with loader := s.loader.reportUnresolved }

/-- Puts a process that has had its turn into the list of its new state. -/
def enlist (pid : Pid) (s : Scheduler) : ProcessState → Scheduler
  | .running => { s with running := s.running.push pid }
  | .waiting .. => { s with waiting := s.waiting.push pid }
  | .dead => { s with dead := s.dead ++ [pid] }
  | .pending => s

/-- Closes a rotation. -/
def close (s : Scheduler) : Scheduler :=
  s.wakeReady.releaseDead

end Scheduler

/-- Where a system is in a rotation. -/
inductive Moment where
  /-- No rotation is under way. -/
  | rest (s : Scheduler)
  /-- No turn is under way; `ready` are to have one in this rotation. -/
  | between (ready : List Pid) (s : Scheduler)
  /-- The process that was `process` when its turn began runs among the others, in `session`. -/
  | turn (ready : List Pid) (s : Scheduler) (pid : Pid) (process : Process)
    (session : Session Dispatch)

namespace Moment

/-- The end of a turn. -/
def endTurn (ready : List Pid) (s : Scheduler) (pid : Pid) (process : Process)
    (outcome : Outcome) (session : Session Dispatch) : Moment :=
  let (state, s) := s.endTurn pid outcome
  let process := { process with actor := session.actor, state }
  between ready ({ s with table := session.kernel.table.checkin process }.enlist pid state)

/-- The next moment of a rotation; from rest, the first one of the next rotation. -/
def go : Moment → Moment
  | rest s =>
    let s := s.admitPending
    between s.running.toList { s with running := #[] }
  | between [] s => rest s.close
  | between (pid :: ready) s =>
    match s.table.checkout? pid with
    | none => between ready s
    | some (process, table) =>
      turn ready { s with table := default } pid process
        { actor := process.actor, kernel := { table, current := process.pid } }
  | turn ready s pid process session =>
    if process.exitRequested then
      endTurn ready s pid process (.ok .exit) session
    else
      match session.next s.loader with
      | .inl (outcome, session) => endTurn ready s pid process outcome session
      | .inr session => turn ready s pid process session

/-- The clock moves. -/
def elapse (usecs : Nat) : Moment → Moment
  | rest s => rest (s.advanceClock usecs)
  | between ready s => between ready (s.advanceClock usecs)
  | turn ready s pid process session => turn ready (s.advanceClock usecs) pid process session

/-- What may happen to a system. -/
inductive Act where
  | ask (r : Request)
  | go
  | elapse (usecs : Nat)

/-- The moment after an act. In the midst of a rotation nothing can be asked for. -/
def act (m : Moment) : Act → Moment
  | .go => m.go
  | .elapse usecs => m.elapse usecs
  | .ask r =>
    match m with
    | rest s => rest (s.ask r)
    | m => m

/-- The moment after some acts. -/
def after (m : Moment) (acts : List Act) : Moment :=
  acts.foldl act m

/-- What is seen of some acts, one after the other. -/
def trace (seen : Moment → Act → List α) : Moment → List Act → List α
  | _, [] => []
  | m, a :: acts => seen m a ++ (m.act a).trace seen acts

/-- A moment in the life of a system. -/
def Reachable (m : Moment) : Prop :=
  ∃ s acts, Scheduler.Created s ∧ m = (rest s).after acts

variable {m : Moment} {seen : Moment → Act → List α}

theorem after_append (m : Moment) (acts acts' : List Act) :
    m.after (acts ++ acts') = (m.after acts).after acts' :=
  List.foldl_append

theorem trace_append (m : Moment) (acts acts' : List Act) :
    m.trace seen (acts ++ acts') = m.trace seen acts ++ (m.after acts).trace seen acts' := by
  induction acts generalizing m with
  | nil => rfl
  | cons a acts ih =>
    rw [List.cons_append, trace, trace, ih, List.append_assoc]
    rfl

theorem after_concat (m : Moment) (acts : List Act) (a : Act) :
    m.after (acts ++ [a]) = (m.after acts).act a :=
  after_append m acts [a]

theorem trace_concat (m : Moment) (acts : List Act) (a : Act) :
    m.trace seen (acts ++ [a]) = m.trace seen acts ++ seen (m.after acts) a := by
  rw [trace_append]
  exact congrArg _ (List.append_nil _)

/-- What is kept by every act, together with what has been seen, is kept by any number of them. -/
theorem invariant (seen : Moment → Act → List α) (P : List α → Moment → Prop)
    (log : List α) (first : P log m)
    (step : ∀ log m a, P log m → P (log ++ seen m a) (m.act a)) (acts : List Act) :
    P (log ++ m.trace seen acts) (m.after acts) := by
  induction acts generalizing m log with
  | nil =>
    rw [trace, List.append_nil]
    exact first
  | cons a acts ih =>
    rw [trace, ← List.append_assoc]
    exact ih _ (step log m a first)

/-- What holds of every system as it is created, and is kept by every act, holds at every moment. -/
theorem Reachable.induction {P : Moment → Prop} (first : ∀ s, s.Created → P (rest s))
    (ask : ∀ s r, P (rest s) → P (rest (s.ask r))) (go : ∀ m, P m → P m.go)
    (elapse : ∀ m usecs, P m → P (m.elapse usecs)) (h : m.Reachable) : P m := by
  obtain ⟨s, acts, hs, rfl⟩ := h
  let nothing : Moment → Act → List Unit := fun _ _ => []
  refine invariant nothing (fun _ => P) [] (first s hs) (fun _ m a hm => ?_) acts
  cases a with
  | go => exact go m hm
  | elapse usecs => exact elapse m usecs hm
  | ask r =>
    cases m with
    | rest s => exact ask s r hm
    | _ => exact hm

theorem Reachable.act (h : m.Reachable) (a : Act) : (m.act a).Reachable := by
  obtain ⟨s, acts, hs, rfl⟩ := h
  exact ⟨s, acts ++ [a], hs, (after_append _ acts [a]).symm⟩

/-! ## Parts of a rotation -/

/-- From `m` a rotation comes to a moment by these acts, and is not closed on the way: it goes on,
and the clock may move meanwhile. -/
inductive Passes (m : Moment) : List Act → Moment → Prop
  | refl : Passes m [] m
  | go {acts : List Act} {m' : Moment} (before : Passes m acts m')
    (unclosed : ∀ s, m' ≠ between [] s) : Passes m (acts ++ [.go]) m'.go
  | elapse {acts : List Act} {m' : Moment} (before : Passes m acts m') (usecs : Nat) :
    Passes m (acts ++ [.elapse usecs]) (m'.elapse usecs)

namespace Passes

variable {m' m'' : Moment} {acts : List Act} {count count' : Nat}

theorem single (unclosed : ∀ s, m ≠ between [] s) : m.Passes (.replicate 1 .go) m.go :=
  .go .refl unclosed

/-- Parts of a rotation in which the clock stands still. -/
theorem trans (h : m.Passes (.replicate count .go) m')
    (h' : m'.Passes (.replicate count' .go) m'') :
    m.Passes (.replicate (count + count') .go) m'' := by
  rw [← List.replicate_append_replicate]
  generalize List.replicate count' Act.go = acts at h'
  induction h' with
  | refl =>
    rw [List.append_nil]
    exact h
  | go _ unclosed ih =>
    rw [← List.append_assoc]
    exact .go ih unclosed
  | elapse _ usecs ih =>
    rw [← List.append_assoc]
    exact .elapse ih usecs

theorem after (h : m.Passes acts m') : m.after acts = m' := by
  induction h with
  | refl => rfl
  | go _ _ ih | elapse _ _ ih =>
    rw [after_concat, ih]
    rfl

end Passes

end Moment

/-! ## Rotations -/

/-- The slots that an act releases. -/
def Moment.released : Moment → Act → List Nat
  | .between [] s, .go => s.dead.map s.table.layout.index
  | _, _ => []

theorem Moment.released_of_ne_go (m : Moment) {a : Act} (ha : a ≠ .go) : m.released a = [] := by
  cases a with
  | go => exact absurd rfl ha
  | ask | elapse =>
    cases m with
    | rest | turn => rfl
    | between ready s => cases ready <;> rfl

namespace Scheduler

open Moment

/-- The slots that a rotation releases, in order; `none` if a turn takes more than `bound` steps. -/
def released (s : Scheduler) (bound : Nat) : Option (List Nat) :=
  let s := s.admitPending
  (giveTurns bound s.running.toList { s with running := #[] }).map fun s =>
    s.dead.map s.table.layout.index

/-- A rotation, in which the clock may move, takes a system to another one and gives this answer. -/
def Rotates (s : Scheduler) (state : RunState) (s' : Scheduler) : Prop :=
  ∃ acts last, (rest s).Passes acts (between [] last) ∧ s' = last.close ∧ state = s'.runState

/-- A system has gone through a sequence of requests and rotations, which have released slots in
this order. In a rotation the clock stands still, or it moves. -/
inductive History : List Nat → Scheduler → Prop
  | create {s : Scheduler} (created : s.Created) : History [] s
  | ask {s : Scheduler} {log : List Nat} (h : History log s) (r : Request) : History log (s.ask r)
  | rotate {s s' : Scheduler} {log slots : List Nat} {bound : Nat} {state : RunState}
    (h : History log s) (run : s.runOnce bound = some (state, s'))
    (hslots : s.released bound = some slots) : History (log ++ slots) s'
  | elapse {s last : Scheduler} {log : List Nat} {acts : List Act} (h : History log s)
    (passes : (rest s).Passes acts (between [] last)) :
    History (log ++ last.dead.map last.table.layout.index) last.close

end Scheduler

/-- Slots are released only when a rotation is closed. -/
theorem Moment.Passes.released {m m' : Moment} {acts : List Act} (h : m.Passes acts m') :
    m.trace Moment.released acts = [] := by
  induction h with
  | refl => rfl
  | elapse before usecs ih =>
    rw [trace_concat, ih, released_of_ne_go (a := .elapse usecs) _ nofun]
    rfl
  | @go acts m' before unclosed ih =>
    rw [trace_concat, ih, before.after]
    cases m' with
    | rest | turn => rfl
    | between ready s =>
      cases ready with
      | nil => exact absurd rfl (unclosed s)
      | cons => rfl

namespace Scheduler

open Moment

variable {s s' : Scheduler} {ready : List Pid} {bound : Nat}

/-- The steps of a turn are a sequence of moments. -/
theorem passes_of_run {pid : Pid} {process : Process} {session session' : Session Dispatch}
    {outcome : Outcome} (stays : process.exitRequested = false)
    (run : session.run s.loader bound = some (outcome, session')) :
    ∃ count, (turn ready s pid process session).Passes (.replicate count .go)
      (Moment.endTurn ready s pid process outcome session') := by
  induction bound generalizing session with
  | zero => cases run
  | succ bound ih =>
    rw [Session.run] at run
    have first : (turn ready s pid process session).Passes (.replicate 1 .go) _ :=
      .single (by rintro _ ⟨⟩)
    rw [go, stays, if_neg Bool.false_ne_true] at first
    cases hnext : session.next s.loader with
    | inl finished =>
      rw [hnext] at run first
      cases run
      exact ⟨1, first⟩
    | inr next =>
      rw [hnext] at run first
      obtain ⟨count, rest⟩ := ih run
      exact ⟨1 + count, first.trans rest⟩

theorem passes_of_runTurn (ready : List Pid) (pid : Pid) {process : Process}
    {table table' : ProcessTable} {outcome : Outcome} {actor : Actor}
    (run : runTurn s.loader table process bound = some (outcome, actor, table')) :
    ∃ current count, (turn ready s pid process ⟨process.actor, ⟨table, process.pid⟩⟩).Passes
      (.replicate count .go) (Moment.endTurn ready s pid process outcome
        ⟨actor, ⟨table', current⟩⟩) := by
  unfold runTurn at run
  cases hstays : process.exitRequested with
  | true =>
    rw [hstays] at run
    cases run
    have first : (turn ready s pid process ⟨process.actor, ⟨table, process.pid⟩⟩).Passes
      (.replicate 1 .go) _ := .single nofun
    rw [go, if_pos hstays] at first
    exact ⟨process.pid, 1, first⟩
  | false =>
    rw [hstays] at run
    obtain ⟨⟨outcome', session⟩, hrun, hresult⟩ := Option.map_eq_some_iff.mp run
    cases hresult
    exact ⟨session.kernel.current, passes_of_run hstays hrun⟩

/-- What remains of a rotation after a turn. -/
theorem giveTurns_cons {pid : Pid} :
    giveTurns bound (pid :: ready) s = (s.resume pid bound).bind fun (state, s) =>
      match state with
      | none => giveTurns bound ready s
      | some state => giveTurns bound ready (s.enlist pid state) := by
  rw [giveTurns]
  show Option.bind _ _ = _
  congr 1
  funext ⟨state, s⟩
  cases state with
  | none => rfl
  | some state => cases state <;> rfl

/-- A turn is a sequence of moments. -/
theorem passes_of_resume (ready : List Pid) {pid : Pid} {state : Option ProcessState}
    (run : s.resume pid bound = some (state, s')) :
    ∃ count, (between (pid :: ready) s).Passes (.replicate count .go) (match state with
      | none => .between ready s'
      | some state => .between ready (s'.enlist pid state)) := by
  unfold resume at run
  have first : (between (pid :: ready) s).Passes (.replicate 1 .go) _ := .single nofun
  rw [go] at first
  cases hout : s.table.checkout? pid with
  | none =>
    rw [hout] at run first
    cases run
    exact ⟨1, first⟩
  | some found =>
    obtain ⟨process, table⟩ := found
    rw [hout] at run first
    obtain ⟨⟨outcome, actor, table'⟩, hturn, hresult⟩ := Option.map_eq_some_iff.mp run
    obtain ⟨current, count, rest⟩ := passes_of_runTurn ready pid
      (s := { s with table := default }) hturn
    refine ⟨1 + count, ?_⟩
    have whole := first.trans rest
    unfold Moment.endTurn at whole
    dsimp only at hresult
    generalize Scheduler.endTurn _ pid outcome = x at hresult whole
    obtain ⟨state', s''⟩ := x
    cases hresult
    exact whole

/-- Turns are a sequence of moments. -/
theorem passes_of_giveTurns (run : giveTurns bound ready s = some s') :
    ∃ count, (between ready s).Passes (.replicate count .go) (.between [] s') := by
  induction ready generalizing s with
  | nil =>
    cases run
    exact ⟨0, .refl⟩
  | cons pid ready ih =>
    rw [giveTurns_cons] at run
    obtain ⟨⟨state, s₁⟩, hresume, hrest⟩ := Option.bind_eq_some_iff.mp run
    obtain ⟨count, first⟩ := passes_of_resume ready hresume
    cases state with
    | none =>
      obtain ⟨count', rest⟩ := ih hrest
      exact ⟨count + count', first.trans rest⟩
    | some state =>
      obtain ⟨count', rest⟩ := ih hrest
      exact ⟨count + count', first.trans rest⟩

/-- A rotation is a sequence of moments that is closed in the end. -/
theorem passes_of_runOnce {state : RunState} (run : s.runOnce bound = some (state, s')) :
    state = s'.runState ∧ ∃ count last, (rest s).Passes (.replicate count .go) (.between [] last) ∧
      giveTurns bound s.admitPending.running.toList { s.admitPending with running := #[] } =
        some last ∧ s' = last.close := by
  obtain ⟨last, turns, hresult⟩ := Option.bind_eq_some_iff.mp run
  cases hresult
  obtain ⟨count, h⟩ := passes_of_giveTurns turns
  have first : (rest s).Passes (.replicate 1 .go) (.between s.admitPending.running.toList
    { s.admitPending with running := #[] }) := .single nofun
  exact ⟨rfl, 1 + count, last, first.trans h, turns, rfl⟩

theorem rotates_of_runOnce {state : RunState} (run : s.runOnce bound = some (state, s')) :
    s.Rotates state s' := by
  obtain ⟨hstate, count, last, passes, -, hlast⟩ := passes_of_runOnce run
  exact ⟨_, last, passes, hlast, hstate⟩

/-- A rotation is a sequence of moments that releases the same slots. -/
theorem go_of_runOnce {state : RunState} {slots : List Nat}
    (run : s.runOnce bound = some (state, s')) (hslots : s.released bound = some slots) :
    state = s'.runState ∧ ∃ count, (Moment.rest s).after (.replicate count .go) = .rest s' ∧
      (Moment.rest s).trace Moment.released (.replicate count .go) = slots := by
  obtain ⟨rfl, count, last, passes, turns, rfl⟩ := passes_of_runOnce run
  obtain ⟨_, turns', rfl⟩ := Option.map_eq_some_iff.mp hslots
  rw [turns] at turns'
  cases turns'
  refine ⟨rfl, count + 1, ?_, ?_⟩
  · rw [List.replicate_succ', after_append, passes.after]
    rfl
  · rw [List.replicate_succ', trace_append, passes.after, passes.released]
    exact List.append_nil _

/-- What has happened to a system is a sequence of acts. -/
theorem History.exists_acts {log : List Nat} (h : History log s) :
    ∃ s₀ acts, Created s₀ ∧ (Moment.rest s₀).after acts = .rest s ∧
      (Moment.rest s₀).trace Moment.released acts = log := by
  induction h with
  | create h => exact ⟨_, [], h, rfl, rfl⟩
  | ask _ r ih =>
    obtain ⟨s₀, acts, created, hafter, htrace⟩ := ih
    refine ⟨s₀, acts ++ [.ask r], created, ?_, ?_⟩
    · rw [after_append, hafter]
      rfl
    · rw [trace_append, hafter, htrace]
      exact List.append_nil _
  | rotate _ run hslots ih =>
    obtain ⟨s₀, acts, created, hafter, htrace⟩ := ih
    obtain ⟨-, count, hgo, hreleased⟩ := go_of_runOnce run hslots
    refine ⟨s₀, acts ++ .replicate count .go, created, ?_, ?_⟩
    · rw [after_append, hafter, hgo]
    · rw [trace_append, hafter, htrace, hreleased]
  | @elapse _ last _ passed _ passes ih =>
    obtain ⟨s₀, acts, created, hafter, htrace⟩ := ih
    refine ⟨s₀, acts ++ (passed ++ [.go]), created, ?_, ?_⟩
    · rw [after_append, hafter, after_concat, passes.after]
      rfl
    · rw [trace_append, hafter, htrace, trace_concat, passes.after, passes.released]
      rfl

theorem History.reachable {log : List Nat} (h : History log s) : (Moment.rest s).Reachable := by
  obtain ⟨s₀, acts, created, hafter, -⟩ := h.exists_acts
  exact ⟨s₀, acts, created, hafter.symm⟩

end Scheduler

end ActorMachine
