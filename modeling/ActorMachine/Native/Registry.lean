/-!
# Native functions

The functions that the machine itself provides. A registry gives them names: each pair of a module
and a name stands for one native, and the position at which it was first registered is the native's
id. Registering a name again replaces the function and keeps the id. A host gives these functions
names of its choice; functions of its own, which could do anything to the actor that calls them, are
left out.
-/

namespace ActorMachine

/-- The natives that answer by themselves. -/
inductive Operation where
  | selfPid | spawn | giveTurn | exit | raise | kill
  | stringLength | stringConcat | stringEqual
  | tupleNew | tupleGet | tupleSet | tupleLength
  | arrayNew | arrayPush | arrayGet | arraySet | arrayLength
  | tableNew | tableGet | tableSet | tableLength
deriving Repr, DecidableEq, Inhabited

/-- The natives. -/
inductive Builtin where
  | operation (op : Operation)
  /-- Calls its first argument with the others and reports how that call ended. -/
  | protectedCall
deriving Repr, DecidableEq, Inhabited

/-- A registered native. -/
structure NativeEntry where
  module : String
  name : String
  builtin : Builtin
deriving Repr, DecidableEq, Inhabited

/-- The registered natives in the order of their ids. -/
structure Registry where
  entries : Array NativeEntry
deriving Inhabited

namespace Registry

/-- A registry without natives. -/
def empty : Registry :=
  ⟨#[]⟩

variable (r : Registry)

/-- The number of natives. -/
def size : Nat :=
  r.entries.size

/-- The id of a name. -/
def lookup (module name : String) : Option Nat :=
  r.entries.findIdx? fun e => e.module == module && e.name == name

/-- The native with an id. -/
def get? (id : Nat) : Option NativeEntry :=
  r.entries[id]?

/-- Binds a name to a native and gives its id. -/
def register (module name : String) (builtin : Builtin) : Nat × Registry :=
  let entry : NativeEntry := { module, name, builtin }
  match r.lookup module name with
  | some id => (id, ⟨r.entries.setIfInBounds id entry⟩)
  | none => (r.size, ⟨r.entries.push entry⟩)

/-- Registers natives in turn. -/
def registerAll (natives : List NativeEntry) : Registry :=
  natives.foldl (fun r e => (r.register e.module e.name e.builtin).2) r

end Registry

/-- The builtin library in the order of its ids. -/
def Builtin.library : List NativeEntry :=
  [⟨"std", "self", .operation .selfPid⟩,
   ⟨"std", "spawn", .operation .spawn⟩,
   ⟨"std", "yield", .operation .giveTurn⟩,
   ⟨"std", "exit", .operation .exit⟩,
   ⟨"std", "error", .operation .raise⟩,
   ⟨"std", "try", .protectedCall⟩,
   ⟨"std", "kill", .operation .kill⟩,
   ⟨"string", "len", .operation .stringLength⟩,
   ⟨"string", "concat", .operation .stringConcat⟩,
   ⟨"string", "eq", .operation .stringEqual⟩,
   ⟨"tuple", "new", .operation .tupleNew⟩,
   ⟨"tuple", "get", .operation .tupleGet⟩,
   ⟨"tuple", "set", .operation .tupleSet⟩,
   ⟨"tuple", "len", .operation .tupleLength⟩,
   ⟨"array", "new", .operation .arrayNew⟩,
   ⟨"array", "push", .operation .arrayPush⟩,
   ⟨"array", "get", .operation .arrayGet⟩,
   ⟨"array", "set", .operation .arraySet⟩,
   ⟨"array", "len", .operation .arrayLength⟩,
   ⟨"table", "new", .operation .tableNew⟩,
   ⟨"table", "get", .operation .tableGet⟩,
   ⟨"table", "set", .operation .tableSet⟩,
   ⟨"table", "len", .operation .tableLength⟩]

/-- The native that the library has under a name. -/
def Builtin.find? (module name : String) : Option Builtin :=
  (Builtin.library.find? fun e => e.module == module && e.name == name).map (·.builtin)

/-- The registry of the builtin library. -/
def Registry.builtins : Registry :=
  Registry.empty.registerAll Builtin.library

end ActorMachine
