import ActorMachine.Scheduler
import ActorMachine.Text.Quoted

/-!
# Running chunks

The `run` command loads some chunk files in order and starts one function that a module exports. It
fails if an option or a file is bad, if processes are left that wait for ever, or if any process
panicked. `Invocation.prepare` is all that comes before the first rotation and `conclude` all that
comes after the last.
-/

namespace ActorMachine

/-- Why a file cannot be read. -/
inductive ReadError where
  | notFound
  | other (text : String)
deriving Repr, DecidableEq

/-- The text of a read error. -/
def ReadError.message : ReadError → String
  | notFound => "No such file or directory (os error 2)"
  | other text => text

/-- Why a command fails. -/
inductive CommandError where
  | badEntry (entry : String)
  | unreadable (path : String) (error : ReadError)
  | unloadable (path : String) (error : LoadError)
  | badChunk (error : ChunkError)
  | badConfig (error : ConfigError)
  | cannotStart (module name : String) (fault : Fault)
  | blocked (count : Nat)
  | panicked (count : Nat)
deriving Repr, DecidableEq

/-- The text of a command's failure. -/
def CommandError.message : CommandError → String
  | badEntry entry => s!"invalid entry {Text.quote entry}: expected <module>:<name>"
  | unreadable path error => s!"reading {path}: {error.message}"
  | unloadable path error => s!"loading {path}: {error.message}"
  | badChunk error => error.message
  | badConfig error => error.message
  | cannotStart module name fault => s!"cannot start {module}:{name}: {fault.message}"
  | blocked count => s!"{count} process(es) blocked with nothing left to wake them"
  | panicked count => s!"{count} process(es) panicked"

/-- Splits an entry point at its first colon into a module and a name, neither of them empty. -/
def parseEntry (entry : String) : Except CommandError (String × String) :=
  let chars := entry.toList
  let module := chars.takeWhile (· ≠ ':')
  match chars.dropWhile (· ≠ ':') with
  | ':' :: name =>
    if module = [] ∨ name = [] then
      .error (.badEntry entry)
    else
      .ok (String.ofList module, String.ofList name)
  | _ => .error (.badEntry entry)

/-- The options of the `run` command. -/
structure Invocation where
  /-- The paths of the chunk files. -/
  chunks : List String
  entry : String
  indexBits : Nat := ({} : Config).indexBits
  generationBits : Nat := ({} : Config).generationBits
  maxHeap : Nat := ({} : ActorConfig).maxHeap
  /-- The arguments of the entry point. -/
  args : List String := []
deriving Repr, Inhabited

/-- What reading a file gives. -/
abbrev FileReader := String → Except ReadError (List UInt8)

/-- Loads some chunk files in order. -/
def Loader.loadFiles (read : FileReader) (l : Loader) : List String → Except CommandError Loader
  | [] => .ok l
  | path :: paths =>
    match read path with
    | .error e => .error (.unreadable path e)
    | .ok bytes =>
      match l.load bytes with
      | .error e => .error (.unloadable path e)
      | .ok loaded => loaded.loader.loadFiles read paths

namespace Invocation

/-- The settings of the scheduler: the first heap is no greater than the greatest one. -/
def config (i : Invocation) : Config where
  indexBits := i.indexBits
  generationBits := i.generationBits
  actor := { initialHeap := min ({} : ActorConfig).initialHeap i.maxHeap, maxHeap := i.maxHeap }

/-- Loads the files and starts the entry point. -/
def prepare (i : Invocation) (read : FileReader) : Except CommandError Scheduler := do
  let (module, name) ← parseEntry i.entry
  let loader ← (Loader.create Registry.builtins .refuse).loadFiles read i.chunks
  match Scheduler.create i.config loader with
  | .error e => throw (.badConfig e)
  | .ok s =>
    match Scheduler.spawnExport module name (i.args.map .text) s with
    | .error fault _ => throw (.cannotStart module name fault)
    | .ok _ s => return s

/-- The result of a system that cannot go on. -/
def conclude (state : RunState) (s : Scheduler) : Except CommandError Unit :=
  match state with
  | .idle _ => .error (.blocked s.processCount)
  | _ => if s.panics.isEmpty then .ok () else .error (.panicked s.panics.size)

/-- The whole command, with a clock that moves to the next deadline at once; `none` if it takes more
steps or rotations than `bound`. -/
def run (i : Invocation) (read : FileReader) (bound : Nat) : Option (Except CommandError Unit) :=
  match i.prepare read with
  | .error e => some (.error e)
  | .ok s => (s.run bound bound).map fun (state, s) => conclude state s

end Invocation

end ActorMachine
