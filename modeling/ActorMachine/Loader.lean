import ActorMachine.Chunk.Reader
import ActorMachine.Fault
import ActorMachine.Native.Registry

/-!
# Loading and linking

Loading a chunk lays its tree of prototypes out in a list, the module first and each prototype
before those nested in it, and resolves every import to a value. A name is looked for among the
natives, then among the exports of the chunk itself if it names its own module, else among those
of the module of that name. A module exports the named prototypes nested directly in it.

Exports and modules are looked for in directories, which are filled as chunks are loaded.
-/

namespace ActorMachine

/-- Positions under names. -/
structure Directory where
  /-- The names with their positions, those entered last first. -/
  entries : List (String × Nat)
deriving Repr, DecidableEq, Inhabited

namespace Directory

/-- A directory without names. -/
def empty : Directory :=
  ⟨[]⟩

variable (d : Directory)

/-- Enters a position under a name, in place of the one that has been there. -/
def enter (name : String) (position : Nat) : Directory :=
  ⟨(name, position) :: d.entries⟩

/-- The position under a name. -/
def find? (name : String) : Option Nat :=
  (d.entries.find? (·.1 == name)).map (·.2)

theorem find?_empty (name : String) : empty.find? name = none := rfl

theorem find?_enter (name other : String) (position : Nat) :
    (d.enter name position).find? other = if name = other then some position else
      d.find? other := by
  unfold find? enter
  rw [List.find?_cons]
  by_cases h : name = other
  · rw [if_pos h, beq_iff_eq.mpr h]
    rfl
  · rw [if_neg h, beq_eq_false_iff_ne.mpr h]

end Directory

/-- A prototype that is ready to run. -/
structure LinkedPrototype where
  source : String
  symbol : String
  code : Array Instruction
  constants : Array Constant
  /-- The values of the imports. -/
  imports : Array Value
  /-- The positions of the nested prototypes in the chunk's list. -/
  nested : Array Nat
deriving Inhabited

/-- A loaded chunk. -/
structure LinkedChunk where
  name : String
  prototypes : Array LinkedPrototype
  /-- The positions of the prototypes that the module exports. -/
  exports : Directory
deriving Inhabited

/-- A prototype in the list of its chunk, not linked yet. -/
structure FlatPrototype where
  prototype : Prototype
  /-- The positions of the nested prototypes in the list. -/
  nested : List Nat

namespace Prototype

/-- The positions of the roots of trees that are laid out one after the other from `start` on. -/
def rootPositions (start : Nat) : List Prototype → List Nat
  | [] => []
  | p :: ps => start :: rootPositions (start + p.treeSize) ps

mutual

/-- The prototypes of a tree in depth-first order. The root is at position `start`. -/
def flatten (start : Nat) : Prototype → List FlatPrototype
  | p@⟨_, _, _, _, _, nested⟩ =>
    ⟨p, rootPositions (start + 1) nested⟩ :: flattenForest (start + 1) nested

/-- The prototypes of some trees, laid out one after the other from position `start` on. -/
def flattenForest (start : Nat) : List Prototype → List FlatPrototype
  | [] => []
  | p :: ps => flatten start p ++ flattenForest (start + p.treeSize) ps

end

/-- Enters prototypes at their positions, under their names. One without a name is left out. -/
def enterAll (d : Directory) (items : List (Prototype × Nat)) : Directory :=
  items.foldl
    (fun d (p, position) => if p.symbol = "" then d else d.enter p.symbol position) d

/-- The exports of a module: the prototypes nested directly in it, each at its position. Of those
with one name the last one counts. -/
def exports (m : Prototype) : Directory :=
  enterAll .empty (m.nested.zip (rootPositions 1 m.nested))

end Prototype

/-- A reason not to load a chunk. -/
inductive LoadError where
  | chunk (error : ChunkError)
  | unresolved (name : Import)
  | duplicateModule (name : String)
deriving Repr, DecidableEq

/-- The text of a load error. -/
def LoadError.message : LoadError → String
  | chunk error => error.message
  | unresolved i => s!"unresolved import {i.module}:{i.name}"
  | duplicateModule name => s!"module {name} is already loaded"

/-- What becomes of an import that nothing provides. -/
inductive UnresolvedPolicy where
  /-- The chunk is not loaded. -/
  | refuse
  /-- The import is nil, and is reported. -/
  | report
deriving Repr, DecidableEq, Inhabited

/-- The natives and the loaded chunks. -/
structure Loader where
  natives : Registry
  chunks : Array LinkedChunk
  /-- The numbers of the chunks. -/
  modules : Directory
  policy : UnresolvedPolicy
deriving Inhabited

/-- The outcome of a load. -/
structure Loaded where
  loader : Loader
  /-- The number of the new chunk. -/
  index : Nat
  /-- The imports that became nil, in order. -/
  unresolved : List Import

namespace Loader

/-- A loader without chunks. -/
def create (natives : Registry) (policy : UnresolvedPolicy) : Loader :=
  ⟨natives, #[], .empty, policy⟩

variable (l : Loader)

/-- Registers a native. -/
def register (module name : String) (builtin : Builtin) : Loader :=
  { l with natives := (l.natives.register module name builtin).2 }

/-- Lets imports that nothing provides be nil from now on. -/
def reportUnresolved : Loader :=
  { l with policy := .report }

/-- Adds a chunk. Its number is kept in 32 bits. -/
def add (chunk : LinkedChunk) : Loader :=
  { l with
    chunks := l.chunks.push chunk
    modules := l.modules.enter chunk.name (l.chunks.size % UInt32.size) }

/-- The reference to a prototype of a chunk. -/
def funcRef (chunk position : Nat) : FuncRef :=
  ⟨UInt32.ofNat chunk, UInt32.ofNat position⟩

/-- The function that a loaded module exports under a name. -/
def find? (module name : String) : Option FuncRef := do
  let index ← l.modules.find? module
  let chunk ← l.chunks[index]?
  return funcRef index (← chunk.exports.find? name)

/-- The prototype behind a function reference. -/
def prototype (f : FuncRef) : Except Fault LinkedPrototype :=
  match l.chunks[f.chunk.toNat]? with
  | none => .error (.invalidFunction f)
  | some chunk =>
    match chunk.prototypes[f.proto.toNat]? with
    | none => .error (.invalidFunction f)
    | some p => .ok p

/-- The value that an import of the module `own` stands for. -/
def resolve? (own : Prototype) (i : Import) : Option Value :=
  match l.natives.lookup i.module i.name with
  | some id => some (.native (UInt32.ofNat id))
  | none =>
    if i.module = own.symbol then
      (own.exports.find? i.name).map fun position => .function (funcRef l.chunks.size position)
    else
      (l.find? i.module i.name).map .function

/-- The values of some imports of the module `own`. -/
def linkImports (own : Prototype) : List Import → Except LoadError (List Value)
  | [] => .ok []
  | i :: imports => do
    let v ← match l.resolve? own i, l.policy with
      | some v, _ => pure v
      | none, .report => pure .nil
      | none, .refuse => throw (.unresolved i)
    return v :: (← linkImports own imports)

/-- Links one prototype of the module `own`. -/
def link (own : Prototype) (flat : FlatPrototype) : Except LoadError LinkedPrototype := do
  let p := flat.prototype
  let imports ← l.linkImports own p.imports
  return {
    source := p.source
    symbol := p.symbol
    code := p.code.toArray
    constants := p.constants.toArray
    imports := imports.toArray
    nested := flat.nested.toArray }

/-- Links and adds a chunk. -/
def loadChunk (c : Chunk) : Except LoadError Loaded := do
  let own := c.module
  if (l.modules.find? own.symbol).isSome then
    throw (.duplicateModule own.symbol)
  let flat := own.flatten 0
  let prototypes ← flat.mapM (l.link own)
  return {
    loader := l.add { name := own.symbol, prototypes := prototypes.toArray, exports := own.exports }
    index := l.chunks.size
    unresolved := flat.flatMap fun f =>
      f.prototype.imports.filter fun i => (l.resolve? own i).isNone }

/-- Reads, links and adds a chunk. -/
def load (bytes : List UInt8) : Except LoadError Loaded :=
  match Chunk.decode bytes with
  | .ok chunk => l.loadChunk chunk
  | .error e => .error (.chunk e)

end Loader

end ActorMachine
