import ActorMachine.Actor.Delivery
import ActorMachine.Machine.Kernel

/-!
# The process table

A slot of the table holds one process after another, each under its own generation. New slots are
opened as long as pids can number them; after that, slots that have become free are used again,
the one that has been free for longest first. A process that is being run is away from its slot,
and can neither be reached nor replaced.
-/

namespace ActorMachine

/-- The state of a process between its turns. -/
inductive ProcessState where
  /-- Started, and not run yet. -/
  | pending
  /-- Ready to run. -/
  | running
  /-- Waiting for a message until a deadline; `wake` says that one has arrived. -/
  | waiting (deadline : Option Nat) (wake : Bool)
  /-- Finished, and not released yet. -/
  | dead
deriving Repr, DecidableEq, Inhabited

/-- A process. -/
structure Process where
  pid : Pid
  actor : Actor
  state : ProcessState
  exitRequested : Bool
deriving Inhabited

/-- What a slot holds. -/
inductive Occupant where
  | vacant
  /-- A process that is being run. -/
  | away
  | resident (p : Process)
deriving Inhabited

/-- A place for processes. -/
structure Slot where
  generation : Nat
  occupant : Occupant
deriving Inhabited

/-- The processes of a system. -/
structure ProcessTable where
  layout : PidLayout
  config : ActorConfig
  /-- The slots opened so far. -/
  slots : Array Slot
  /-- The index of the next slot to open. -/
  nextIndex : Nat
  /-- The indices of the vacant slots, in the order in which they became free. -/
  free : List Nat
  /-- The processes that have been started and not run yet, in order. -/
  pending : List Pid
  /-- The number of processes. -/
  live : Nat
deriving Inhabited

namespace Process

/-- Notes that a message has arrived. -/
def notify (p : Process) : Process :=
  match p.state with
  | .waiting deadline _ => { p with state := .waiting deadline true }
  | _ => p

/-- What the actor of a process does. -/
def onActor (m : ActorM α) : EStateM Fault Process α := fun p =>
  let actor := p.actor
  let p := { p with actor := default }
  match m actor with
  | .ok x actor => .ok x { p with actor }
  | .error e actor => .error e { p with actor }

/-- Delivers a copy of a message that lives in `source`. Without a source heap the message must be
inline. A full mailbox is reported under `address`, the pid that the sender has used. -/
def deliver (address : Pid) (source : Option Heap) (message : Value) :
    EStateM Fault Process Unit := do
  match source with
  | some source => onActor (ActorM.deliver address source message)
  | none =>
    if message.isCollectable then
      throw (.mismatch .inlineValue message)
    onActor (ActorM.deliverLocal address message)
  modify notify

/-- Delivers a new string. A full mailbox is reported under `address`. -/
def deliverBytes (address : Pid) (bytes : ByteArray) : EStateM Fault Process Unit := do
  onActor (ActorM.deliverBytes address bytes)
  modify notify

/-- Asks a process to end. -/
def requestExit : EStateM Fault Process Unit :=
  modify fun p => { p with exitRequested := true }

end Process

/-- The process at home in a slot, unless it is dead. -/
def Occupant.process? : Occupant → Option Process
  | .resident p => if p.state = .dead then none else some p
  | _ => none

namespace ProcessTable

/-- A table without processes. -/
def create (layout : PidLayout) (config : ActorConfig) : ProcessTable where
  layout := layout
  config := config
  slots := #[]
  nextIndex := 0
  free := []
  pending := []
  live := 0

variable (t : ProcessTable)

/-- What the slot of a pid holds, if the slot is still in the pid's generation. -/
def occupant (p : Pid) : Occupant :=
  match t.slots[t.layout.index p]? with
  | none => .vacant
  | some slot => if slot.generation = t.layout.generation p then slot.occupant else .vacant

/-- Puts an occupant into the slot of a pid. -/
def setOccupant (p : Pid) (o : Occupant) : ProcessTable :=
  { t with slots := t.slots.modify (t.layout.index p) fun slot => { slot with occupant := o } }

/-- The process of a pid, unless it is dead or being run. -/
def get? (p : Pid) : Option Process :=
  (t.occupant p).process?

/-- Whether a pid belongs to a process that is not dead. -/
def isAlive (p : Pid) : Bool :=
  match t.occupant p with
  | .vacant => false
  | .away => true
  | .resident p => p.state != .dead

/-- The index of the slot for the next process, and the table without it among the free ones. -/
def takeSlot : Option (Nat × ProcessTable) :=
  if t.nextIndex < t.layout.maxProcesses then
    some (t.nextIndex, { t with
      slots := t.slots.push ⟨0, .vacant⟩
      nextIndex := t.nextIndex + 1 })
  else
    match t.free with
    | [] => none
    | index :: free => some (index, { t with free })

/-- Starts a process that will call `callee`. Arguments that live in `source` are copied. -/
def spawn (callee : Value) (args : List Value) (source : Option Heap) :
    EStateM Fault ProcessTable Pid := fun t =>
  match ActorM.prepareEntry callee args source (Actor.create t.config) with
  | .error e _ => .error e t
  | .ok _ actor =>
    match t.takeSlot with
    | none => .error .processTableFull t
    | some (index, t) =>
      let generation := (t.slots.getD index default).generation
      let pid := t.layout.pid index generation
      let process : Process := { pid, actor, state := .pending, exitRequested := false }
      .ok pid { t.setOccupant pid (.resident process) with
        live := t.live + 1
        pending := t.pending ++ [pid] }

/-- Takes the process of a pid away to be run. -/
def checkout? (p : Pid) : Option (Process × ProcessTable) :=
  match t.occupant p with
  | .resident process => some (process, t.setOccupant p .away)
  | _ => none

/-- Brings a process back. -/
def checkin (p : Process) : ProcessTable :=
  t.setOccupant p.pid (.resident p)

/-- Frees the slot of a process; the slot moves on to its next generation. -/
def release (p : Pid) : ProcessTable :=
  match t.occupant p with
  | .vacant => t
  | _ =>
    let generation := t.layout.nextGeneration (t.layout.generation p)
    { t with
      slots := t.slots.modify (t.layout.index p) fun _ => ⟨generation, .vacant⟩
      free := t.free ++ [t.layout.index p]
      live := t.live - 1 }

/-- What a process does that is alive and at home. -/
def onProcess (p : Pid) (m : EStateM Fault Process α) : EStateM Fault ProcessTable α := fun t =>
  match t.get? p with
  | none => .error (.invalidPid p) t
  | some process =>
    let t := t.setOccupant p .away
    match m process with
    | .ok x process => .ok x (t.setOccupant p (.resident process))
    | .error e process => .error e (t.setOccupant p (.resident process))

/-- Delivers a copy of a message to a process. Without a source heap the message must be inline. -/
def deliver (target : Pid) (source : Option Heap) (message : Value) :
    EStateM Fault ProcessTable Unit :=
  onProcess target (Process.deliver target source message)

/-- Delivers a new string to a process. -/
def deliverBytes (target : Pid) (bytes : ByteArray) : EStateM Fault ProcessTable Unit :=
  onProcess target (Process.deliverBytes target bytes)

/-- Asks a process to end. -/
def kill (target : Pid) : EStateM Fault ProcessTable Unit :=
  onProcess target Process.requestExit

end ProcessTable

/-- The world of a process that is being run: all others. -/
structure Dispatch where
  table : ProcessTable
  /-- The process that is being run. -/
  current : Pid

namespace Dispatch

/-- A computation on the table. -/
def onTable (m : EStateM Fault ProcessTable α) : EStateM Fault Dispatch α := fun d =>
  let current := d.current
  match m d.table with
  | .ok x table => .ok x { table, current }
  | .error e table => .error e { table, current }

instance : Kernel Dispatch where
  self d := d.current
  send target message source := onTable (ProcessTable.deliver target (some source) message)
  spawn callee args source := onTable (ProcessTable.spawn callee args (some source))
  kill target := onTable (ProcessTable.kill target)

end Dispatch

end ActorMachine
