import ActorMachine.Chunk.Prototype
import ActorMachine.Chunk.StringTable
import ActorMachine.Word.LittleEndian

/-!
# Chunks as bytes

After the header comes one record for the module, which ends with the records of the prototypes
nested in it. A record holds seven numbers of eight bytes (references to source and symbol, the
sizes of the string table, the code, the nested list, the constants and the imports), then the
table, the code, the constants of thirty-two bytes each, and the imports as pairs of references.
-/

namespace ActorMachine

namespace Word

/-- A number of eight bytes. -/
def ofNat64 (n : Nat) : List UInt8 :=
  littleEndian 8 n

/-- A signed number of eight bytes. -/
def ofInt64 (n : Int64) : List UInt8 :=
  littleEndian 8 n.toUInt64.toNat

/-- A number of four bytes. -/
def ofUInt32 (n : UInt32) : List UInt8 :=
  littleEndian 4 n.toNat

/-- A floating point number of eight bytes. -/
def ofReal (x : Binary64) : List UInt8 :=
  littleEndian 8 x.bits.toNat

end Word

namespace Constant

/-- The number that marks the kind of a constant in a record. -/
def tag : Constant → UInt32
  | integer _ => 0
  | text _ => 1
  | real _ => 2

/-- The strings in a constant. -/
def strings : Constant → List String
  | text s => [s]
  | _ => []

/-- The thirty-two bytes of a constant: tag, padding, and a place for each kind. -/
def encode (t : StringTable) (c : Constant) : List UInt8 :=
  Word.ofUInt32 c.tag ++ (Word.ofUInt32 0 ++
    match c with
    | integer n => Word.ofInt64 n ++ (Word.ofNat64 0 ++ Word.ofNat64 0)
    | text s => Word.ofNat64 0 ++ (Word.ofNat64 (t.ref s) ++ Word.ofNat64 0)
    | real x => Word.ofNat64 0 ++ (Word.ofNat64 0 ++ Word.ofReal x))

end Constant

/-- The two references of an import. -/
def Import.encode (t : StringTable) (i : Import) : List UInt8 :=
  Word.ofNat64 (t.ref i.module) ++ Word.ofNat64 (t.ref i.name)

namespace Prototype

/-- The strings of a record in the order of their first use. -/
def strings (p : Prototype) : List String :=
  p.source :: p.symbol ::
    (p.constants.flatMap Constant.strings ++ p.imports.flatMap fun i => [i.module, i.name])

/-- The string table of a record. -/
def table (p : Prototype) : StringTable :=
  .ofStrings p.strings

/-- A record up to the nested records. -/
def encodeOwn (p : Prototype) : List UInt8 :=
  let t := p.table
  Word.ofNat64 (t.ref p.source) ++ (Word.ofNat64 (t.ref p.symbol) ++
    (Word.ofNat64 t.bytes.length ++ (Word.ofNat64 p.code.length ++
    (Word.ofNat64 p.nested.length ++ (Word.ofNat64 p.constants.length ++
    (Word.ofNat64 p.imports.length ++ (t.bytes ++
    (p.code.flatMap (fun i => Word.ofUInt32 i.word) ++
    (p.constants.flatMap (·.encode t) ++ p.imports.flatMap (·.encode t))))))))))

mutual

/-- The record of a prototype. -/
def encode : Prototype → List UInt8
  | p@⟨_, _, _, _, _, nested⟩ => p.encodeOwn ++ encodeForest nested

/-- The records of a list of prototypes. -/
def encodeForest : List Prototype → List UInt8
  | [] => []
  | p :: ps => encode p ++ encodeForest ps

end

end Prototype

/-- The bytes of a chunk. -/
def Chunk.encode (c : Chunk) : List UInt8 :=
  c.header.encode ++ c.module.encode

end ActorMachine
