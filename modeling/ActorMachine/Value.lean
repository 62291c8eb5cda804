import ActorMachine.Number.Text
import ActorMachine.Pid

/-!
# Values

A value is what stacks, mailboxes and the slots of heap objects hold. Strings, tuples, arrays and
tables live in a heap; a value refers to one by its shape and the offset of its header. All other
values are inline. In a slot a value is one byte for its kind, seven zeros, and a payload of eight
bytes (`Value.payload`, `Value.ofSlot`).
-/

namespace ActorMachine

/-- The shapes of heap objects. -/
inductive Shape where
  | string | tuple | array | table
deriving Repr, DecidableEq, Inhabited

/-- The kinds of values. -/
inductive Kind where
  | nil | pid | boolean | pointer | integer | real | native | function
  | object (shape : Shape)
deriving Repr, DecidableEq, Inhabited

namespace Kind

/-- The number of a kind in slots and object headers. -/
def code : Kind → UInt8
  | nil => 0 | pid => 1 | boolean => 2 | pointer => 3 | integer => 4 | real => 5
  | native => 6 | function => 7
  | object .string => 10 | object .tuple => 11 | object .array => 12 | object .table => 13

/-- The kind with a given number, if there is one. -/
def ofCode? : UInt8 → Option Kind
  | 0 => some nil | 1 => some pid | 2 => some boolean | 3 => some pointer
  | 4 => some integer | 5 => some real | 6 => some native | 7 => some function
  | 10 => some (object .string) | 11 => some (object .tuple)
  | 12 => some (object .array) | 13 => some (object .table)
  | _ => none

@[simp]
theorem ofCode?_code (k : Kind) : ofCode? k.code = some k := by
  match k with
  | nil | pid | boolean | pointer | integer | real | native | function => rfl
  | object .string | object .tuple | object .array | object .table => rfl

/-- The name of a kind in messages. -/
def name : Kind → String
  | nil => "Nil" | pid => "Pid" | boolean => "Boolean" | pointer => "Pointer"
  | integer => "Integer" | real => "Real" | native => "NativeFunc" | function => "ByteCodeFunc"
  | object .string => "String" | object .tuple => "Tuple"
  | object .array => "Array" | object .table => "Table"

/-- The shape of the objects of a kind; inline kinds have none. -/
def shape? : Kind → Option Shape
  | object s => some s
  | _ => none

/-- Whether values of this kind live in a heap. -/
def isCollectable (k : Kind) : Bool :=
  k.shape?.isSome

end Kind

/-- The offset of an object's header in its heap. -/
structure Ref where
  offset : UInt64
deriving Repr, DecidableEq, Inhabited

/-- The offset as a number. -/
def Ref.start (r : Ref) : Nat :=
  r.offset.toNat

/-- The reference to an offset. -/
def Ref.ofNat (n : Nat) : Ref :=
  ⟨UInt64.ofNat n⟩

/-- A prototype of a loaded chunk. -/
structure FuncRef where
  chunk : UInt32
  proto : UInt32
deriving Repr, DecidableEq, Inhabited

/-- The values of the machine. -/
inductive Value where
  | nil
  | pid (p : Pid)
  | boolean (b : Bool)
  /-- An address of the host, never followed. -/
  | pointer (address : UInt64)
  | integer (n : Int64)
  | real (x : Binary64)
  | native (id : UInt32)
  | function (f : FuncRef)
  | object (shape : Shape) (r : Ref)
deriving Repr, DecidableEq, Inhabited

namespace Value

/-- The kind of a value. -/
def kind : Value → Kind
  | nil => .nil
  | pid _ => .pid
  | boolean _ => .boolean
  | pointer _ => .pointer
  | integer _ => .integer
  | real _ => .real
  | native _ => .native
  | function _ => .function
  | object s _ => .object s

/-- The heap reference of a value; inline values have none. -/
def ref? : Value → Option Ref
  | object _ r => some r
  | _ => none

/-- Whether a value lives in a heap. -/
def isCollectable (v : Value) : Bool :=
  v.ref?.isSome

/-- Only nil and false are falsy. -/
def isFalsy : Value → Bool
  | nil | boolean false => true
  | _ => false

/-- Whether a value can be called. -/
def isCallable : Value → Bool
  | native _ | function _ => true
  | _ => false

/-- The number in an integer. -/
def integer? : Value → Option Int64
  | integer n => some n
  | _ => none

/-- The pid in a value. -/
def pid? : Value → Option Pid
  | pid p => some p
  | _ => none

/-- The value of a kind that refers to an object; inline kinds have none. -/
def collectable? (k : Kind) (r : Ref) : Option Value :=
  k.shape?.map (object · r)

/-- The same value at another place of the heap. Inline values stay as they are. -/
def withRef : Value → Ref → Value
  | object s _, r => object s r
  | v, _ => v

/-- Same value for the purpose of comparison: references by place, reals as numbers. -/
def agrees : Value → Value → Bool
  | real x, real y => x.agrees y
  | v, w => v == w

/-- The eight bytes of payload in the slot of a value. -/
def payload : Value → UInt64
  | nil => 0
  | pid p => p.word.toUInt64
  | boolean b => if b then 1 else 0
  | pointer address => address
  | integer n => n.toUInt64
  | real x => x.bits
  | native id => id.toUInt64
  | function f => UInt64.ofNat (f.chunk.toNat * UInt32.size + f.proto.toNat)
  | object _ r => r.offset

/-- The value of a kind whose slot has a given payload. -/
def ofPayload (k : Kind) (payload : UInt64) : Value :=
  match k with
  | .nil => nil
  | .pid => pid ⟨payload.toUInt32⟩
  | .boolean => boolean (payload != 0)
  | .pointer => pointer payload
  | .integer => integer payload.toInt64
  | .real => real ⟨payload⟩
  | .native => native payload.toUInt32
  | .function => function ⟨UInt32.ofNat (payload.toNat / UInt32.size), payload.toUInt32⟩
  | .object s => object s ⟨payload⟩

/-- The value in a slot with a given first byte and payload; an unknown kind reads as nil. -/
def ofSlot (code : UInt8) (payload : UInt64) : Value :=
  match Kind.ofCode? code with
  | some k => ofPayload k payload
  | none => nil

theorem ofSlot_payload (v : Value) : ofSlot v.kind.code v.payload = v := by
  rw [ofSlot, Kind.ofCode?_code]
  cases v with
  | function f =>
    have hc := f.chunk.toNat_lt
    have hp := f.proto.toNat_lt
    obtain ⟨c, p⟩ := f
    simp only [ofPayload, kind, payload, function.injEq, FuncRef.mk.injEq]
    refine ⟨?_, ?_⟩ <;> apply UInt32.toNat_inj.mp
    · simp only [UInt32.toNat_ofNat', UInt64.toNat_ofNat', UInt32.size] at *
      omega
    · simp only [UInt64.toNat_toUInt32, UInt64.toNat_ofNat', UInt32.size] at *
      omega
  | boolean b => cases b <;> rfl
  | pid p => simp [ofPayload, kind, payload]
  | native id => simp [ofPayload, kind, payload]
  | integer n => simp [ofPayload, kind, payload]
  | _ => rfl

/-- A value as messages show it. -/
def text : Value → String
  | nil => "Nil"
  | pid p => s!"Pid(Pid({p.word.toNat}))"
  | boolean b => if b then "Boolean(true)" else "Boolean(false)"
  | pointer address => s!"Pointer({address.toNat})"
  | integer n => s!"Integer({n.toInt})"
  | real x => s!"Real({x.text})"
  | native id => s!"NativeFunc(NativeId({id.toNat}))"
  | function f =>
    s!"ByteCodeFunc(FuncRef \x7b chunk: {f.chunk.toNat}, proto: {f.proto.toNat} \x7d)"
  | object s r => s!"{(Kind.object s).name}(GcRef({r.start}))"

end Value

end ActorMachine
