import ActorMachine.Text.Hex

/-!
# Instruction words

An instruction is one 32-bit word: the opcode in the low eight bits, a signed 24-bit payload above
it. Every word is an instruction; a word whose low byte is no opcode stops the machine when it is
executed. `Instruction.make?` packs an opcode and a payload and refuses payloads that do not fit.
-/

namespace ActorMachine

/-- The operations of the machine. Their numbers are part of the chunk format. -/
inductive Opcode where
  | nop | pop
  | ldk | nil | ldb | lsi | llv | slv | imp | cls
  | jmp | jin
  | ivk | ret
  | snd | rcv | rmv | rwd
deriving Repr, DecidableEq, Inhabited

namespace Opcode

/-- All opcodes, in the order of their numbers. -/
def all : List Opcode :=
  [nop, pop, ldk, nil, ldb, lsi, llv, slv, imp, cls, jmp, jin, ivk, ret, snd, rcv, rmv, rwd]

/-- The number of an opcode in the low byte of an instruction word. -/
def code : Opcode → UInt8
  | nop => 0 | pop => 1
  | ldk => 10 | nil => 11 | ldb => 12 | lsi => 13 | llv => 14 | slv => 15 | imp => 16 | cls => 17
  | jmp => 30 | jin => 31
  | ivk => 40 | ret => 41
  | snd => 50 | rcv => 51 | rmv => 52 | rwd => 53

/-- The opcode with a given number, if there is one. -/
def ofCode? : UInt8 → Option Opcode
  | 0 => some nop | 1 => some pop
  | 10 => some ldk | 11 => some nil | 12 => some ldb | 13 => some lsi
  | 14 => some llv | 15 => some slv | 16 => some imp | 17 => some cls
  | 30 => some jmp | 31 => some jin
  | 40 => some ivk | 41 => some ret
  | 50 => some snd | 51 => some rcv | 52 => some rmv | 53 => some rwd
  | _ => none

theorem ofCode?_code (op : Opcode) : ofCode? op.code = some op := by
  cases op <;> rfl

/-- The mnemonic that listings print. -/
def mnemonic : Opcode → String
  | nop => "NOP" | pop => "POP"
  | ldk => "LDK" | nil => "NIL" | ldb => "LDB" | lsi => "LSI"
  | llv => "LLV" | slv => "SLV" | imp => "IMP" | cls => "CLS"
  | jmp => "JMP" | jin => "JIN"
  | ivk => "IVK" | ret => "RET"
  | snd => "SND" | rcv => "RCV" | rmv => "RMV" | rwd => "RWD"

/-- The name of an opcode in error texts. -/
def name : Opcode → String
  | nop => "Nop" | pop => "Pop"
  | ldk => "Ldk" | nil => "Nil" | ldb => "Ldb" | lsi => "Lsi"
  | llv => "Llv" | slv => "Slv" | imp => "Imp" | cls => "Cls"
  | jmp => "Jmp" | jin => "Jin"
  | ivk => "Ivk" | ret => "Ret"
  | snd => "Snd" | rcv => "Rcv" | rmv => "Rmv" | rwd => "Rwd"

/-- The opcode that a mnemonic names. -/
def ofMnemonic? (text : String) : Option Opcode :=
  all.find? (·.mnemonic == text)

/-- Whether the payload is an operand of this operation. -/
def hasPayload : Opcode → Bool
  | nop | nil | ret | snd | rmv | rwd => false
  | _ => true

end Opcode

/-- A 32-bit instruction word. -/
structure Instruction where
  word : UInt32
deriving Repr, DecidableEq, Inhabited

/-- A payload that the 24-bit operand of an instruction cannot hold. -/
structure PayloadOutOfRange where
  opcode : Opcode
  payload : Int
deriving Repr, DecidableEq

/-- The text of a refused payload. -/
def PayloadOutOfRange.message (e : PayloadOutOfRange) : String :=
  s!"payload {e.payload} does not fit the 24-bit operand of {e.opcode.name}"

namespace Instruction

/-- The least payload. -/
def minPayload : Int := -8388608

/-- The greatest payload. -/
def maxPayload : Int := 8388607

/-- The low byte, which holds the opcode's number. -/
def opcodeByte (i : Instruction) : UInt8 :=
  i.word.toUInt8

/-- The operation of a word, if its low byte is the number of one. -/
def opcode? (i : Instruction) : Option Opcode :=
  Opcode.ofCode? i.opcodeByte

/-- The upper 24 bits as a two's complement number. -/
def payload (i : Instruction) : Int :=
  let upper := i.word.toNat / 256
  if upper < 8388608 then upper else (upper : Int) - 16777216

/-- The word of an opcode and the low 24 bits of a payload. -/
def pack (op : Opcode) (payload : Int) : Instruction :=
  ⟨UInt32.ofNat ((payload % 16777216).toNat * 256 + op.code.toNat)⟩

/-- Packs an opcode with a payload that fits. -/
def make? (op : Opcode) (payload : Int) : Except PayloadOutOfRange Instruction :=
  if minPayload ≤ payload ∧ payload ≤ maxPayload then
    .ok (pack op payload)
  else
    .error ⟨op, payload⟩

/-- An instruction as listings print it: the mnemonic, and the payload where it is an operand. -/
def text (i : Instruction) : String :=
  match i.opcode? with
  | some op => if op.hasPayload then s!"{op.mnemonic} {i.payload}" else op.mnemonic
  | none => s!"??({Text.hexPadded 2 i.opcodeByte.toNat}) {i.payload}"

theorem opcode?_pack (op : Opcode) (p : Int) : (pack op p).opcode? = some op := by
  have h : (pack op p).opcodeByte = op.code := by
    apply UInt8.toNat_inj.mp
    have := op.code.toNat_lt
    simp only [opcodeByte, pack, UInt32.toNat_toUInt8, UInt32.toNat_ofNat']
    omega
  rw [opcode?, h, Opcode.ofCode?_code]

theorem payload_pack {op : Opcode} {p : Int} (h : minPayload ≤ p ∧ p ≤ maxPayload) :
    (pack op p).payload = p := by
  have := op.code.toNat_lt
  simp only [minPayload, maxPayload] at h
  simp only [payload, pack, UInt32.toNat_ofNat']
  split <;> omega

end Instruction

end ActorMachine
