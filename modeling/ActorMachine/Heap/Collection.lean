import ActorMachine.Heap.Basic

/-!
# Collection

A collection moves the objects that the roots reach to a fresh memory, in the order in which a
breadth-first search finds them, and updates the roots and the slots of the moved objects. An object
that has moved leaves its new place in its old header, so it moves only once. All else is dropped.
Afterwards the capacity is doubled over what is live and asked for, within the heap's bound.
-/

namespace ActorMachine

/-- A collection under way: the memory that objects leave and the memory that they move to. -/
structure Evacuation where
  source : Memory
  target : Memory

namespace Evacuation

/-- Moves the object of a value, unless it has moved, and gives the value at its new place. Inline
values stay, and so does a value whose header cannot be read. -/
def move (e : Evacuation) (v : Value) : Value × Evacuation :=
  match v with
  | .object shape r =>
    match e.source.header? r.start with
    | none => (v, e)
    | some header =>
      match header.forward with
      | some moved => (.object shape moved, e)
      | none =>
        let place := Ref.ofNat e.target.size
        let object := e.source.extract r.start (r.start + allocSize header.size)
        (.object shape place,
          { source := e.source.storeHeader r.start { header with forward := some place }
            target := e.target ++ object })
  | v => (v, e)

/-- Moves the objects of some values in turn. -/
def moveAll (e : Evacuation) (values : Array Value) : Array Value × Evacuation :=
  values.foldl
    (fun (moved, e) v =>
      let (v, e) := e.move v
      (moved.push v, e))
    (Array.emptyWithCapacity values.size, e)

theorem moveAll_eq (e : Evacuation) (values : Array Value) :
    e.moveAll values = values.toList.foldl
      (fun acc v => (acc.1.push (acc.2.move v).1, (acc.2.move v).2))
      (Array.emptyWithCapacity values.size, e) := by
  rw [Array.foldl_toList]
  rfl

/-- Moves the objects in `count` slots of the target memory, from an offset on. -/
def moveSlots (e : Evacuation) (offset : Nat) : (count : Nat) → Evacuation
  | 0 => e
  | count + 1 =>
    let v := e.target.value offset
    if v.isCollectable then
      let (v, e) := e.move v
      moveSlots { e with target := e.target.storeValue offset v } (offset + slotWidth) count
    else
      moveSlots e (offset + slotWidth) count

/-- Moves what the objects of the target refer to, from the object at `offset` to the last one. At
most `bound` objects are visited: each of them came from a place of its own in the source. -/
def scan (e : Evacuation) (offset : Nat) : (bound : Nat) → Evacuation
  | 0 => e
  | bound + 1 =>
    if offset < e.target.size then
      match e.target.header? offset with
      | none => e
      | some header =>
        let count := e.target.slotCount offset header
        scan (e.moveSlots (Memory.slotOffset offset 0) count)
          (offset + allocSize header.size) bound
    else
      e

end Evacuation

/-- A heap and the values that its owner holds. -/
structure Rooted where
  heap : Heap
  roots : Array Value

/-- A computation that may collect. Its changes stand even when it fails. -/
abbrev RootedM := EStateM HeapError Rooted

namespace Rooted

/-- The heap with only what the roots reach, and the roots at their new places. -/
def compact (s : Rooted) : Rooted :=
  let e : Evacuation := { source := s.heap.memory, target := ByteArray.empty }
  let (roots, e) := e.moveAll s.roots
  let e := e.scan 0 s.heap.used
  { heap := { s.heap with memory := e.target, collections := s.heap.collections + 1 }, roots }

end Rooted

/-- The capacity that suits `live` bytes in use and `request` bytes to come: twice their sum, no
less than before and no more than the bound. -/
def Heap.grownCapacity (h : Heap) (live request : Nat) : Nat :=
  min (max h.capacity ((live + request) * 2)) h.maxCapacity

namespace RootedM

/-- Collects the heap and makes room for `request` bytes. It fails after the collection if there is
no such room. -/
def collect (request : Nat) : RootedM Unit := fun s =>
  let s := s.compact
  let live := s.heap.used
  let capacity := s.heap.grownCapacity live request
  let s := { s with heap := { s.heap with capacity } }
  if capacity < live + request then
    .error (.outOfMemory request s.heap.maxCapacity) s
  else
    .ok () s

/-- Makes sure that `bytes` more bytes can be allocated, and collects only if they could not. -/
def reserve (bytes : Nat) : RootedM Unit := fun s =>
  if bytes ≤ s.heap.free then .ok () s else collect bytes s

/-- A computation on the heap alone. -/
def onHeap (m : HeapM α) : RootedM α := fun s =>
  let roots := s.roots
  match m s.heap with
  | .ok a heap => .ok a { heap, roots }
  | .error e heap => .error e { heap, roots }

/-- Allocates an object, after a collection if it does not fit. -/
def alloc (kind : Kind) (size : Nat) : RootedM Ref := do
  reserve (allocSize size)
  onHeap (HeapM.tryAlloc kind size)

end RootedM

end ActorMachine
