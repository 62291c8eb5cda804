import ActorMachine.Value

/-!
# Byte memory

The bytes of a heap, read and written as little-endian words, as value slots and as object
headers. A header is sixteen bytes: the kind, three zeros, the size of the payload in four bytes,
and in eight bytes the place the object has moved to, all ones while it has not.
-/

namespace ActorMachine

/-- The bytes of a heap. -/
abbrev Memory := ByteArray

/-- The number of bytes of an object header. -/
def headerWidth : Nat := 16

/-- The number of bytes of a value slot. -/
def slotWidth : Nat := 16

/-- An object header. -/
structure ObjectHeader where
  kind : Kind
  /-- The number of payload bytes, padding not included. -/
  size : Nat
  /-- The place that the object has moved to. -/
  forward : Option Ref
deriving Repr, DecidableEq

namespace Memory

/-- The byte at an offset; zero beyond the end. -/
def byte (m : Memory) (i : Nat) : UInt8 :=
  if h : i < m.size then m[i] else 0

/-- The number in `width` bytes from an offset on. -/
def word (m : Memory) (i : Nat) : (width : Nat) → Nat
  | 0 => 0
  | width + 1 => (m.byte i).toNat + 256 * word m (i + 1) width

/-- Overwrites `width` bytes from an offset on with the low bytes of a number. -/
def store (m : Memory) (i : Nat) : (width n : Nat) → Memory
  | 0, _ => m
  | width + 1, n => store (m.set! i (UInt8.ofNat n)) (i + 1) width (n / 256)

/-- Overwrites bytes from an offset on. -/
def storeBytes (m : Memory) (i : Nat) (bytes : ByteArray) : Memory :=
  bytes.copySlice 0 m i bytes.size

/-- Appends zeros. -/
def grow (m : Memory) : Nat → Memory
  | 0 => m
  | n + 1 => grow (m.push 0) n

/-- The value in the slot at an offset. -/
def value (m : Memory) (i : Nat) : Value :=
  Value.ofSlot (m.byte i) (UInt64.ofNat (m.word (i + 8) 8))

/-- Overwrites the slot at an offset. -/
def storeValue (m : Memory) (i : Nat) (v : Value) : Memory :=
  (m.store i 8 v.kind.code.toNat).store (i + 8) 8 v.payload.toNat

/-- The mark of an object that has not moved. -/
def notForwarded : Nat := UInt64.size - 1

/-- The header at an offset, if sixteen bytes are there and the first is the number of a kind. -/
def header? (m : Memory) (i : Nat) : Option ObjectHeader :=
  if i + headerWidth ≤ m.size then
    (Kind.ofCode? (m.byte i)).map fun kind =>
      let forward := m.word (i + 8) 8
      { kind
        size := m.word (i + 4) 4
        forward := if forward = notForwarded then none else some (Ref.ofNat forward) }
  else
    none

theorem add_headerWidth_le_size_of_header? {m : Memory} {i : Nat} {h : ObjectHeader}
    (ok : m.header? i = some h) : i + headerWidth ≤ m.size := by
  unfold header? at ok
  split at ok
  · assumption
  · cases ok

/-- Overwrites the header at an offset. -/
def storeHeader (m : Memory) (i : Nat) (h : ObjectHeader) : Memory :=
  let forward := match h.forward with
    | some r => r.start
    | none => notForwarded
  ((m.store i 4 h.kind.code.toNat).store (i + 4) 4 h.size).store (i + 8) 8 forward

/-- The number of value slots of the object at an offset. They start eight bytes into its payload: a
tuple has as many as its length says and its payload holds, an array or a table has one. -/
def slotCount (m : Memory) (i : Nat) (h : ObjectHeader) : Nat :=
  let room := (h.size - 8) / slotWidth
  match h.kind with
  | .object .tuple => min (m.word (i + headerWidth) 8) room
  | .object .array | .object .table => min room 1
  | _ => 0

/-- The offset of a slot of the object at an offset. -/
def slotOffset (i slot : Nat) : Nat :=
  i + headerWidth + 8 + slot * slotWidth

end Memory

end ActorMachine
