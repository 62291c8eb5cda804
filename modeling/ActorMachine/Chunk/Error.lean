/-!
# Why a chunk is refused

One constructor for each cause, and `ChunkError.message`, the text that reports it.
-/

namespace ActorMachine

/-- The number formats whose widths a chunk header records. -/
inductive WidthField where
  | integer | float | instruction
deriving Repr, DecidableEq

/-- The name of a width field in error texts. -/
def WidthField.name : WidthField → String
  | integer => "integer"
  | float => "float"
  | instruction => "instruction"

/-- The counts that a prototype record holds. -/
inductive CountField where
  | stringTable | instruction | nested | constant | linkage
deriving Repr, DecidableEq

/-- The name of a count in error texts. -/
def CountField.name : CountField → String
  | stringTable => "string table"
  | instruction => "instruction"
  | nested => "nested prototype"
  | constant => "constant"
  | linkage => "import"

/-- A reason to refuse a chunk. -/
inductive ChunkError where
  /-- The input of `size` bytes ends inside a field. -/
  | unexpectedEnd (size : Nat)
  | badSignature
  | versionMismatch (major minor hostMajor hostMinor : UInt8)
  | byteOrderMismatch
  | widthMismatch (field : WidthField) (found host : UInt8)
  /-- A reference that does not lead to a terminated string in the table. -/
  | badStringRef (ref : Int)
  | badText
  | unknownConstantTag (tag : Nat)
  /-- A negative count, or more elements than the remaining input can hold. -/
  | badCount (field : CountField) (count : Int)
  /-- Bytes after the module's record. -/
  | trailingBytes (count : Nat)
deriving Repr, DecidableEq

/-- The text of a chunk error. -/
def ChunkError.message : ChunkError → String
  | unexpectedEnd size => s!"unexpected end of chunk at byte {size}"
  | badSignature => "bad chunk signature"
  | versionMismatch major minor hostMajor hostMinor =>
    s!"chunk version {major}.{minor} is not {hostMajor}.{hostMinor}"
  | byteOrderMismatch => "chunk byte order does not match the host"
  | widthMismatch field found host =>
    s!"chunk {field.name} width is {found} bytes, host uses {host}"
  | badStringRef ref => s!"string reference {ref} is outside the string table"
  | badText => "string table is not valid utf-8"
  | unknownConstantTag tag => s!"unknown constant tag {tag}"
  | badCount field count => s!"invalid {field.name} count {count}"
  | trailingBytes count => s!"{count} trailing bytes after the module prototype"

end ActorMachine
