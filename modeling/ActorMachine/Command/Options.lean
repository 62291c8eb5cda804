import ActorMachine.Command.Run

/-!
# Command lines

There are two commands: `run` starts a function of some chunk files, `inspect` lists one chunk
file. An option is written `--name value` or `--name=value`, before or after the files. What
follows a lone `--` goes to the function that is started.
-/

namespace ActorMachine

/-- What a command line asks for. -/
inductive Command where
  | run (invocation : Invocation)
  | inspect (path : String)
deriving Repr, Inhabited

/-- Why a command line is not understood. -/
inductive UsageError where
  | noCommand
  | unknownCommand (name : String)
  | unknownOption (name : String)
  | missingValue (option : String)
  | badNumber (option value : String)
  | missingChunk
  | missingEntry
  | surplus (argument : String)
deriving Repr, DecidableEq

/-- The text of a usage error. -/
def UsageError.message : UsageError → String
  | noCommand => "a command is required"
  | unknownCommand name => s!"unrecognized command {Text.quote name}"
  | unknownOption name => s!"unexpected option {Text.quote name}"
  | missingValue option => s!"a value is required for {option}"
  | badNumber option value => s!"invalid value {Text.quote value} for {option}"
  | missingChunk => "a chunk file is required"
  | missingEntry => "--entry is required"
  | surplus argument => s!"unexpected argument {Text.quote argument}"

/-- How to use the commands. -/
def Command.usage : String :=
  "usage: run <chunk>... --entry <module>:<name> [--idx-bits <n>] [--gen-bits <n>]\n" ++
  "           [--max-heap <bytes>] [-- <args>...]\n" ++
  "       inspect <chunk>\n"

/-- The arguments of a command, sorted into kinds. -/
structure CommandLine where
  /-- The options with their values. -/
  options : List (String × String) := []
  files : List String := []
  /-- What follows a lone `--`. -/
  rest : List String := []
deriving Repr, DecidableEq, Inhabited

namespace CommandLine

/-- An option's name and, if it holds one, the value after its first equals sign. -/
def splitOption (argument : String) : String × Option String :=
  let chars := argument.toList
  let name := String.ofList (chars.takeWhile (· ≠ '='))
  match chars.dropWhile (· ≠ '=') with
  | _ :: value => (name, some (String.ofList value))
  | [] => (name, none)

/-- Sorts arguments into kinds, each kind in the order given. -/
def ofList : List String → Except UsageError CommandLine
  | [] => .ok {}
  | "--" :: rest => .ok { rest }
  | argument :: more =>
    if argument.startsWith "-" then
      match splitOption argument, more with
      | (option, some value), more => (ofList more).map (addOption option value)
      | (option, none), value :: more => (ofList more).map (addOption option value)
      | (option, none), [] => .error (.missingValue option)
    else
      (ofList more).map fun a => { a with files := argument :: a.files }
where
  addOption (option value : String) (a : CommandLine) : CommandLine :=
    { a with options := (option, value) :: a.options }

end CommandLine

namespace Invocation

/-- The number that an option is given, which must be below a limit. -/
def number (option value : String) (limit : Nat) : Except UsageError Nat :=
  match value.toNat? with
  | some n => if n < limit then .ok n else .error (.badNumber option value)
  | none => .error (.badNumber option value)

/-- Sets an option. -/
def setOption (i : Invocation) : String × String → Except UsageError Invocation
  | ("--entry", value) => .ok { i with entry := value }
  | ("--idx-bits", value) => do
    return { i with indexBits := ← number "--idx-bits" value UInt8.size }
  | ("--gen-bits", value) => do
    return { i with generationBits := ← number "--gen-bits" value UInt8.size }
  | ("--max-heap", value) => do
    return { i with maxHeap := ← number "--max-heap" value UInt64.size }
  | (option, _) => .error (.unknownOption option)

/-- The invocation that some arguments ask for. -/
def ofArguments (a : CommandLine) : Except UsageError Invocation := do
  let i ← a.options.foldlM setOption { chunks := a.files, entry := "", args := a.rest }
  if a.files.isEmpty then throw .missingChunk
  if (a.options.lookup "--entry").isNone then throw .missingEntry
  return i

end Invocation

/-- The command of a command line. -/
def Command.ofList : List String → Except UsageError Command
  | [] => .error .noCommand
  | "run" :: arguments => do return .run (← Invocation.ofArguments (← CommandLine.ofList arguments))
  | ["inspect"] => .error .missingChunk
  | ["inspect", path] => .ok (.inspect path)
  | "inspect" :: _ :: argument :: _ => .error (.surplus argument)
  | name :: _ => .error (.unknownCommand name)

end ActorMachine
