import ActorMachine.Clock
import ActorMachine.Machine.Run
import ActorMachine.Process.Table

/-!
# The scheduler

Processes take turns. A turn lasts until the process gives it up, blocks in a receive, ends or
panics. One rotation admits the processes started before it, gives a turn to each process that is
ready, wakes the processes whose message has come or whose time is up, and releases those that
have ended. A program need not ever give up its turn, so rotations are given a bound on the number
of steps of one turn.
-/

namespace ActorMachine

/-- A system of processes. -/
structure Scheduler where
  loader : Loader
  table : ProcessTable
  /-- The processes that are ready, in the order of their turns. -/
  running : Array Pid
  /-- The processes that wait for a message, in the order in which they began to. -/
  waiting : Array Pid
  /-- The processes that have ended in the rotation under way, in order. -/
  dead : List Pid
  clock : Clock
  /-- The time that the scheduler has taken notice of. -/
  now : Nat
  /-- The processes that have panicked, with the faults, in order. -/
  panics : Array (Pid × Fault)
deriving Inhabited

/-- What is left to do after a rotation. -/
inductive RunState where
  /-- Some process is ready. -/
  | busy
  /-- All processes wait. The first deadline is so many microseconds away, if there is one. -/
  | idle (next : Option Nat)
  /-- There are no processes. -/
  | done
deriving Repr, DecidableEq, Inhabited

/-- An argument given from outside. -/
inductive HostArg where
  | value (v : Value)
  | text (s : String)
deriving Repr, DecidableEq, Inhabited

/-- The bytes that an argument from outside takes up; a value must be inline. -/
def HostArg.measure : HostArg → Except Fault Nat
  | .text s => .ok (allocSize (Heap.stringSize s.utf8ByteSize))
  | .value v => if v.isCollectable then .error (.mismatch .inlineValue v) else .ok 0

/-- The value of an argument from outside, in a heap where there is room for it. -/
def HostArg.stage : HostArg → HeapM Value
  | .value v => return v
  | .text s => do
    let r ← HeapM.tryAlloc (.object .string) (Heap.stringSize s.utf8ByteSize)
    HeapM.initString r s.toUTF8
    return .object .string r

namespace Scheduler

/-- A system without processes. -/
def create (config : Config) (loader : Loader) : Except ConfigError Scheduler := do
  let layout ← config.validate
  return {
    loader
    table := ProcessTable.create layout config.actor
    running := #[]
    waiting := #[]
    dead := []
    clock := Clock.start
    now := 0
    panics := #[] }

variable (s : Scheduler)

/-- The number of processes that have not been released. -/
def processCount : Nat :=
  s.table.live

/-- A computation on the process table. -/
def onTable (m : EStateM Fault ProcessTable α) : EStateM Fault Scheduler α := fun s =>
  let table := s.table
  let s := { s with table := default }
  match m table with
  | .ok x table => .ok x { s with table }
  | .error e table => .error e { s with table }

/-- The arguments of a process that is started from outside, and the heap in which they live. -/
def stageArgs (args : List HostArg) : Except Fault (List Value × Option Heap) := do
  let need := (← args.mapM HostArg.measure).foldl (· + ·) 0
  match (args.mapM HostArg.stage).run (Heap.create need need) with
  | .ok values staging => pure (values, if need = 0 then none else some staging)
  | .error e _ => throw (.heap e)

/-- Starts a process from outside. -/
def spawn (callee : Value) (args : List HostArg) : EStateM Fault Scheduler Pid :=
  match stageArgs args with
  | .error e => throw e
  | .ok (values, source) => onTable (ProcessTable.spawn callee values source)

/-- Starts a process that runs the function that a module exports under a name. -/
def spawnExport (module name : String) (args : List HostArg) : EStateM Fault Scheduler Pid := do
  match (← get).loader.find? module name with
  | some f => spawn (.function f) args
  | none => throw (.unknownExport module name)

/-- Sends an inline value from outside. -/
def send (target : Pid) (v : Value) : EStateM Fault Scheduler Unit :=
  onTable (ProcessTable.deliver target none v)

/-- Sends a string from outside. -/
def sendText (target : Pid) (text : String) : EStateM Fault Scheduler Unit :=
  onTable (ProcessTable.deliverBytes target text.toUTF8)

/-- Asks a process to end. -/
def kill (target : Pid) : EStateM Fault Scheduler Unit :=
  onTable (ProcessTable.kill target)

/-- Moves the clock. -/
def advanceClock (usecs : Nat) : Scheduler :=
  { s with clock := s.clock.advance usecs }

/-- Takes notice of the time of the clock. -/
def tick : Scheduler :=
  let (usecs, clock) := s.clock.elapsed
  { s with clock, now := laterBy s.now usecs }

/-- Admits the processes that have been started to the turns. -/
def admitPending : Scheduler :=
  let table := { s.table with pending := [] }
  s.table.pending.foldl
    (fun s pid =>
      match s.table.get? pid with
      | none => s
      | some process =>
        { s with
          table := s.table.setOccupant pid (.resident { process with state := .running })
          running := s.running.push pid })
    { s with table }

/-- The system after a turn of a process, and the process's new state. -/
def endTurn (pid : Pid) : Outcome → ProcessState × Scheduler
  | .ok .yield => (.running, s)
  | .ok (.block none) => (.waiting none false, s)
  | .ok (.block (some usecs)) =>
    let s := s.tick
    (.waiting (some (laterBy s.now usecs)) false, s)
  | .ok .exit | .ok .done => (.dead, s)
  | .error fault => (.dead, { s with panics := s.panics.push (pid, fault) })

/-- Runs a process for one turn, unless it has been asked to end. -/
def runTurn (loader : Loader) (table : ProcessTable) (process : Process) (bound : Nat) :
    Option (Outcome × Actor × ProcessTable) :=
  if process.exitRequested then
    some (.ok .exit, process.actor, table)
  else
    let session : Session Dispatch :=
      { actor := process.actor, kernel := { table, current := process.pid } }
    (session.run loader bound).map fun (outcome, session) =>
      (outcome, session.actor, session.kernel.table)

/-- Gives a process a turn, and tells its new state. -/
def resume (pid : Pid) (bound : Nat) : Option (Option ProcessState × Scheduler) :=
  match s.table.checkout? pid with
  | none => some (none, s)
  | some (process, table) =>
    let s := { s with table := default }
    (runTurn s.loader table process bound).map fun (outcome, actor, table) =>
      let (state, s) := s.endTurn pid outcome
      (some state, { s with table := table.checkin { process with actor, state } })

/-- Gives some processes a turn each, and puts each into the list of its new state. -/
def giveTurns (bound : Nat) : (ready : List Pid) → Scheduler → Option Scheduler
  | [], s => some s
  | pid :: ready, s => do
    let (state, s) ← s.resume pid bound
    match state with
    | some .running => giveTurns bound ready { s with running := s.running.push pid }
    | some (.waiting ..) => giveTurns bound ready { s with waiting := s.waiting.push pid }
    | some .dead => giveTurns bound ready { s with dead := s.dead ++ [pid] }
    | some .pending | none => giveTurns bound ready s

/-- Whether a waiting process is to go on at a given time. -/
def isReady (now : Nat) (p : Process) : Bool :=
  match p.state with
  | .waiting deadline wake =>
    wake || p.exitRequested || (match deadline with | some time => time ≤ now | none => false)
  | _ => p.exitRequested

/-- Wakes the waiting processes that are to go on. -/
def wakeReady : Scheduler :=
  let s := s.tick
  s.waiting.foldl
    (fun s pid =>
      match s.table.get? pid with
      | none => s
      | some process =>
        if isReady s.now process then
          { s with
            table := s.table.setOccupant pid (.resident { process with state := .running })
            running := s.running.push pid }
        else
          { s with waiting := s.waiting.push pid })
    { s with waiting := #[] }

/-- Releases the processes that have ended. -/
def releaseDead : Scheduler :=
  { s with
    table := s.dead.foldl ProcessTable.release s.table
    dead := [] }

/-- The deadline of the process of a pid. -/
def deadline? (pid : Pid) : Option Nat :=
  match s.table.get? pid with
  | some { state := .waiting deadline _, .. } => deadline
  | _ => none

/-- What is left to do. -/
def runState : RunState :=
  if s.table.live = 0 then
    .done
  else if !s.running.isEmpty || !s.table.pending.isEmpty then
    .busy
  else
    .idle ((s.waiting.toList.filterMap s.deadline?).min?.map (· - s.now))

/-- One rotation; `none` if a turn takes more than `bound` steps. -/
def runOnce (bound : Nat) : Option (RunState × Scheduler) := do
  let s := s.admitPending
  let s ← giveTurns bound s.running.toList { s with running := #[] }
  let s := s.wakeReady.releaseDead
  return (s.runState, s)

/-- Rotates until no process can go on, moving the clock to the next deadline whenever all wait;
`none` if a turn takes more than `bound` steps, or if it takes more than `rotations` rotations. -/
def run (bound : Nat) : (rotations : Nat) → Scheduler → Option (RunState × Scheduler)
  | 0, _ => none
  | rotations + 1, s => do
    let (state, s) ← s.runOnce bound
    match state with
    | .busy => run bound rotations s
    | .idle (some usecs) => run bound rotations (s.advanceClock usecs)
    | state => return (state, s)

end Scheduler

end ActorMachine
