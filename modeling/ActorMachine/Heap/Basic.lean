import ActorMachine.Heap.Memory

/-!
# Heaps

A heap is a byte memory that objects are allocated in one after the other, together with the
capacity that it may fill before it has to be collected and the greatest capacity it may grow to.
Objects are headers followed by payloads padded to eight bytes.
-/

namespace ActorMachine

/-- A failure of a heap operation. -/
inductive HeapError where
  | outOfMemory (requested limit : Nat)
  | invalidRef (r : Ref)
  | kindMismatch (expected found : Kind)
  | indexOutOfBounds (index : Int) (length : Nat)
deriving Repr, DecidableEq

/-- The text of a heap error. -/
def HeapError.message : HeapError → String
  | outOfMemory requested limit =>
    s!"out of memory: {requested} bytes requested, heap limit is {limit} bytes"
  | invalidRef r => s!"invalid heap reference {Text.hex r.start}"
  | kindMismatch expected found => s!"expected {expected.name}, found {found.name}"
  | indexOutOfBounds index length => s!"index {index} out of bounds for length {length}"

/-- A heap. -/
structure Heap where
  memory : Memory
  /-- The number of bytes that may be in use before a collection. -/
  capacity : Nat
  /-- The bound on the capacity. -/
  maxCapacity : Nat
  /-- The number of collections so far. -/
  collections : Nat

/-- A number of bytes rounded up to a multiple of eight. -/
def align8 (n : Nat) : Nat :=
  (n + 7) / 8 * 8

/-- The number of bytes of an object with `size` payload bytes. -/
def allocSize (size : Nat) : Nat :=
  headerWidth + align8 size

namespace Heap

/-- The greatest size of a payload, and the greatest capacity of a heap. -/
def sizeLimit : Nat := UInt32.size - 1

/-- An empty heap. -/
def create (initial max : Nat) : Heap :=
  let maxCapacity := min max sizeLimit
  { memory := ByteArray.empty
    capacity := min initial maxCapacity
    maxCapacity
    collections := 0 }

instance : Inhabited Heap := ⟨create 0 0⟩

/-- The number of bytes in use. -/
def used (h : Heap) : Nat :=
  h.memory.size

/-- The number of bytes that can be allocated before a collection. -/
def free (h : Heap) : Nat :=
  h.capacity - h.used

/-- A heap as messages show it. -/
def text (h : Heap) : String :=
  "Heap \x7b stats: HeapStats \x7b " ++
  s!"used: {h.used}, capacity: {h.capacity}, max_capacity: {h.maxCapacity}, " ++
  s!"collections: {h.collections} \x7d \x7d"

/-- The header of an object, all of which must lie in the heap. -/
def header (h : Heap) (r : Ref) : Except HeapError ObjectHeader :=
  match h.memory.header? r.start with
  | some header =>
    if r.start + allocSize header.size ≤ h.used then .ok header else .error (.invalidRef r)
  | none => .error (.invalidRef r)

/-- The header of an object of a given kind. -/
def expect (h : Heap) (r : Ref) (kind : Kind) : Except HeapError ObjectHeader := do
  let header ← h.header r
  if header.kind = kind then
    return header
  else
    throw (.kindMismatch kind header.kind)

/-- The offset of an object's payload. -/
def payloadOffset (r : Ref) : Nat :=
  r.start + headerWidth

/-- The payload of an object. -/
def payload (h : Heap) (r : Ref) : Except HeapError ByteArray := do
  let header ← h.header r
  return h.memory.extract (payloadOffset r) (payloadOffset r + header.size)

end Heap

/-- A computation that changes a heap. Its changes stand even when it fails. -/
abbrev HeapM := EStateM HeapError Heap

namespace HeapM

/-- A result that depends on the heap and leaves it as it is. -/
def read (f : Heap → Except HeapError α) : HeapM α := fun h =>
  match f h with
  | .ok a => .ok a h
  | .error e => .error e h

/-- A change of the bytes of the heap. -/
def write (f : Memory → Memory) : HeapM Unit :=
  modify fun h => { h with memory := f h.memory }

/-- Allocates an object with a payload of zeros at the end of the heap, without collecting. A slot
of zeros is nil. -/
def tryAlloc (kind : Kind) (size : Nat) : HeapM Ref := fun h =>
  let need := allocSize size
  if Heap.sizeLimit < size ∨ h.free < need then
    .error (.outOfMemory need h.maxCapacity) h
  else
    let start := h.used
    .ok (Ref.ofNat start)
      { h with memory := (h.memory.grow need).storeHeader start ⟨kind, size, none⟩ }

end HeapM

end ActorMachine
