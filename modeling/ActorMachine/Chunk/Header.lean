import ActorMachine.Chunk.Error

/-!
# The header of a chunk

Twelve bytes: a signature of four, one byte with the version's two halves, a byte order flag, three
number widths and three unused bytes. `Header.decode` reads the fields of any header with the right
signature; whether this machine can use such a chunk is the question of `Header.checkHost`.
-/

namespace ActorMachine

/-- The fields of a chunk header. -/
structure Header where
  major : UInt8
  minor : UInt8
  bigEndian : Bool
  integerWidth : UInt8
  floatWidth : UInt8
  instructionWidth : UInt8
deriving Repr, DecidableEq

namespace Header

/-- The four bytes every chunk starts with. -/
def signature : List UInt8 := [0x41, 0x6E, 0x79, 0x00]

/-- The number of bytes of a header. -/
def width : Nat := 12

/-- The header of chunks that this machine runs. -/
def host : Header where
  major := 0
  minor := 1
  bigEndian := false
  integerWidth := 8
  floatWidth := 8
  instructionWidth := 4

instance : Inhabited Header := ⟨host⟩

/-- The twelve bytes of a header. Of the version's numbers only the low four bits are kept. -/
def encode (h : Header) : List UInt8 :=
  signature ++
    [h.major * 16 + h.minor % 16, if h.bigEndian then 1 else 0,
      h.integerWidth, h.floatWidth, h.instructionWidth, 0, 0, 0]

/-- The fields of the header at the start of a chunk. -/
def decode (bytes : List UInt8) : Except ChunkError Header :=
  match bytes with
  | s₀ :: s₁ :: s₂ :: s₃ :: version :: order ::
      integer :: float :: instruction :: _ :: _ :: _ :: _ =>
    if [s₀, s₁, s₂, s₃] = signature then
      .ok {
        major := version / 16
        minor := version % 16
        bigEndian := order != 0
        integerWidth := integer
        floatWidth := float
        instructionWidth := instruction }
    else
      .error .badSignature
  | _ => .error (.unexpectedEnd bytes.length)

/-- Refuses a number width that differs from the host's. -/
def checkWidth (field : WidthField) (found expected : UInt8) : Except ChunkError Unit :=
  if found = expected then .ok () else .error (.widthMismatch field found expected)

/-- Refuses a header that differs from the host's: first by version, then by byte order, then by the
widths of integers, floats and instructions. -/
def checkHost (h : Header) : Except ChunkError Unit := do
  unless h.major = host.major ∧ h.minor = host.minor do
    throw (.versionMismatch h.major h.minor host.major host.minor)
  unless h.bigEndian = host.bigEndian do
    throw .byteOrderMismatch
  checkWidth .integer h.integerWidth host.integerWidth
  checkWidth .float h.floatWidth host.floatWidth
  checkWidth .instruction h.instructionWidth host.instructionWidth

/-- A header as `inspect` prints it. -/
def listing (h : Header) : String :=
  let order := if h.bigEndian then "big" else "little"
  s!"version     {h.major}.{h.minor}\n" ++
  s!"endianness  {order}\n" ++
  s!"widths      int={h.integerWidth} float={h.floatWidth} inst={h.instructionWidth}\n"

theorem decode_encode_host (rest : List UInt8) : decode (host.encode ++ rest) = .ok host := rfl

end Header

end ActorMachine
