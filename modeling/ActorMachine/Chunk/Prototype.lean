import ActorMachine.Chunk.Header
import ActorMachine.Instruction
import ActorMachine.Number.Binary64

/-!
# Prototypes and chunks

A prototype is a compiled function: its names, its code, its constants, the functions it imports,
and the prototypes nested in it. A chunk is a header and one prototype, the module.
-/

namespace ActorMachine

/-- An entry of a constant pool. -/
inductive Constant where
  | integer (n : Int64)
  | text (s : String)
  | real (x : Binary64)
deriving Repr, DecidableEq, Inhabited

/-- Same constant, with reals compared as numbers. -/
def Constant.agrees : Constant → Constant → Bool
  | integer m, integer n => m == n
  | text s, text t => s == t
  | real x, real y => x.agrees y
  | _, _ => false

/-- The name of a function that another module exports. -/
structure Import where
  module : String
  name : String
deriving Repr, DecidableEq, Inhabited

/-- A compiled function with the functions nested in it. -/
structure Prototype where
  source : String
  symbol : String
  code : List Instruction
  constants : List Constant
  imports : List Import
  nested : List Prototype
deriving Repr, Inhabited

namespace Prototype

/-- A prototype that has only a name. -/
def named (symbol : String) : Prototype :=
  ⟨"", symbol, [], [], [], []⟩

/-- Appends an instruction and gives its index. -/
def emit (p : Prototype) (i : Instruction) : Nat × Prototype :=
  (p.code.length, { p with code := p.code ++ [i] })

/-- Appends a constant and gives its index. -/
def addConstant (p : Prototype) (c : Constant) : Nat × Prototype :=
  (p.constants.length, { p with constants := p.constants ++ [c] })

/-- Gives the index of an import, which is appended unless it is there already. -/
def addImport (p : Prototype) (i : Import) : Nat × Prototype :=
  match p.imports.idxOf? i with
  | some index => (index, p)
  | none => (p.imports.length, { p with imports := p.imports ++ [i] })

/-- Appends a nested prototype and gives its index. -/
def addNested (p child : Prototype) : Nat × Prototype :=
  (p.nested.length, { p with nested := p.nested ++ [child] })

mutual

/-- The number of prototypes in the tree, the root included. -/
def treeSize : Prototype → Nat
  | ⟨_, _, _, _, _, nested⟩ => 1 + forestSize nested

/-- The number of prototypes in a list of trees. -/
def forestSize : List Prototype → Nat
  | [] => 0
  | p :: ps => treeSize p + forestSize ps

end

mutual

/-- Same tree, with real constants compared as numbers. -/
def agrees : Prototype → Prototype → Bool
  | ⟨source, symbol, code, constants, imports, nested⟩, q =>
    source == q.source && symbol == q.symbol && code == q.code &&
      (constants.length == q.constants.length &&
        (constants.zip q.constants).all fun (c, d) => c.agrees d) &&
      imports == q.imports && forestAgrees nested q.nested

/-- Same trees one by one. -/
def forestAgrees : List Prototype → List Prototype → Bool
  | [], [] => true
  | p :: ps, q :: qs => agrees p q && forestAgrees ps qs
  | _, _ => false

end

end Prototype

/-- A unit of loading. -/
structure Chunk where
  header : Header
  module : Prototype
deriving Repr, Inhabited

namespace Chunk

/-- A chunk for this machine. -/
def ofModule (p : Prototype) : Chunk :=
  ⟨.host, p⟩

/-- The module's name. -/
def name (c : Chunk) : String :=
  c.module.symbol

/-- Same chunk, with real constants compared as numbers. -/
def agrees (c d : Chunk) : Bool :=
  c.header == d.header && c.module.agrees d.module

end Chunk

end ActorMachine
