import ActorMachine.Chunk.Listing
import ActorMachine.Chunk.Reader
import ActorMachine.Command.Options

/-!
# The command line

The outer layer: it reads files and the clock, prints, and sets the exit code. A command that fails
prints its reason and gives the exit code 1, a command line that is not understood gives 2.
-/

namespace ActorMachine

/-- Says why a file cannot be read. -/
def ReadError.ofIO : IO.Error → ReadError
  | .noFileOrDirectory .. => .notFound
  | .permissionDenied _ code details | .inappropriateType _ code details =>
    .other s!"{details} (os error {code})"
  | e => .other (toString e)

/-- The bytes of a file. -/
def readChunkFile (path : String) : BaseIO (Except ReadError (List UInt8)) := do
  match ← (IO.FS.readBinFile path).toBaseIO with
  | .ok bytes => return .ok bytes.toList
  | .error e => return .error (.ofIO e)

/-- Prints the processes that have panicked since a state with `seen` panics. -/
def reportPanics (seen : Nat) (s : Scheduler) : IO Unit := do
  for (pid, fault) in s.panics.toList.drop seen do
    IO.eprintln s!"process {pid.text} panicked: {fault.message} ({fault.code})"

/-- Rotates until no process can go on, by the time of the machine's clock. -/
partial def drive (started : Nat) (s : Scheduler) : IO (RunState × Scheduler) := do
  let now := ((← IO.monoNanosNow) - started) / 1000
  match (s.advanceClock (now - s.clock.now)).runOnce endOfTime with
  | none => throw (IO.userError "a turn does not end")
  | some (state, next) =>
    reportPanics s.panics.size next
    match state with
    | .busy => drive started next
    | .idle (some usecs) =>
      IO.sleep (UInt32.ofNat (min (usecs / 1000 + 1) 1000000))
      drive started next
    | state => return (state, next)

/-- The `run` command. -/
def runCommand (i : Invocation) : IO (Except CommandError Unit) := do
  let files ← i.chunks.mapM fun path => do return (path, ← readChunkFile path)
  match i.prepare fun path => (files.lookup path).getD (.error .notFound) with
  | .error e => return .error e
  | .ok s =>
    let (state, s) ← drive (← IO.monoNanosNow) s
    return Invocation.conclude state s

/-- The `inspect` command. -/
def inspectCommand (path : String) : IO (Except CommandError Unit) := do
  match ← readChunkFile path with
  | .error e => return .error (.unreadable path e)
  | .ok bytes =>
    match Header.decode bytes with
    | .error e => return .error (.badChunk e)
    | .ok header =>
      IO.print header.listing
      match Chunk.decode bytes with
      | .error e => return .error (.badChunk e)
      | .ok chunk =>
        IO.print chunk.listing
        return .ok ()

end ActorMachine

open ActorMachine in
/-- Runs a command line and gives its exit code. -/
def main (arguments : List String) : IO UInt32 := do
  let result ← match Command.ofList arguments with
    | .error e =>
      IO.eprint s!"error: {e.message}\n\n{Command.usage}"
      return 2
    | .ok (.run i) => runCommand i
    | .ok (.inspect path) => inspectCommand path
  match result with
  | .ok () => return 0
  | .error e =>
    IO.eprintln s!"error: {e.message}"
    return 1
