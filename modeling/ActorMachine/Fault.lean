import ActorMachine.Heap.Basic

/-!
# Faults

A fault is a failure of a running process. A protected call turns it into a pair of its code, which
is negative, and its message.
-/

namespace ActorMachine

/-- The lists that an instruction or a native indexes. -/
inductive IndexKind where
  | count | stackSlot | constant | linkage | nested
deriving Repr, DecidableEq

/-- The name of an index in messages. -/
def IndexKind.name : IndexKind → String
  | count => "count"
  | stackSlot => "local"
  | constant => "constant"
  | linkage => "import"
  | nested => "nested prototype"

/-- What an operation asks of an operand. -/
inductive Expectation where
  | inlineValue | pid | integer | timeout
  | object (shape : Shape)
deriving Repr, DecidableEq

/-- The wording of an expectation in messages. -/
def Expectation.name : Expectation → String
  | inlineValue => "inline value"
  | pid => "pid"
  | integer => "integer"
  | timeout => "integer timeout"
  | object .string => "string"
  | object .tuple => "tuple"
  | object .array => "array"
  | object .table => "table"

/-- A failure of a running process. -/
inductive Fault where
  /-- Raised by the program itself. -/
  | raised (text : String)
  | heap (error : HeapError)
  | stackOverflow
  | stackUnderflow
  | invalidOpcode (byte : UInt8)
  | invalidJump (target : Int) (length : Nat)
  | invalidIndex (kind : IndexKind) (index : Int)
  | invalidFunction (f : FuncRef)
  | notCallable (kind : Kind)
  | typeMismatch (expected : Expectation) (found : Kind)
  | invalidPid (p : Pid)
  | processTableFull
  | mailboxFull (p : Pid)
  | nothingPeeked
  | arity (expected got : Nat)
  | unknownNative (id : UInt32)
  | unknownExport (module name : String)
deriving Repr, DecidableEq

namespace Fault

/-- The text of a fault. -/
def message : Fault → String
  | raised text => text
  | heap error => error.message
  | stackOverflow => "stack overflow"
  | stackUnderflow => "stack underflow"
  | invalidOpcode byte => s!"invalid opcode {Text.hexPadded 2 byte.toNat}"
  | invalidJump target length => s!"jump target {target} outside code of length {length}"
  | invalidIndex kind index => s!"{kind.name} index {index} out of range"
  | invalidFunction f => s!"invalid function reference {f.chunk.toNat}:{f.proto.toNat}"
  | notCallable kind => s!"value of kind {kind.name} is not callable"
  | typeMismatch expected found => s!"expected {expected.name}, found {found.name}"
  | invalidPid p => s!"invalid pid {p.text}"
  | processTableFull => "process table full"
  | mailboxFull p => s!"mailbox of {p.text} is full"
  | nothingPeeked => "no message has been peeked"
  | arity expected got => s!"expected {expected} arguments, got {got}"
  | unknownNative id => s!"unknown native function #{id.toNat}"
  | unknownExport module name => s!"no export {module}:{name}"

/-- The status code of a fault. -/
def code : Fault → Int64
  | raised _ => -1
  | heap (.outOfMemory ..) => -2
  | heap _ => -3
  | stackOverflow => -4
  | stackUnderflow => -5
  | invalidOpcode _ => -6
  | invalidJump .. => -7
  | invalidIndex .. => -8
  | invalidFunction _ => -9
  | notCallable _ => -10
  | typeMismatch .. => -11
  | invalidPid _ => -12
  | processTableFull => -13
  | mailboxFull _ => -14
  | nothingPeeked => -15
  | arity .. => -16
  | unknownNative _ => -17
  | unknownExport .. => -18

/-- An operand of the wrong kind. -/
def mismatch (expected : Expectation) (found : Value) : Fault :=
  typeMismatch expected found.kind

end Fault

end ActorMachine
