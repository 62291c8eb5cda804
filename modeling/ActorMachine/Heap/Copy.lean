import ActorMachine.Heap.Basic
import Std.Data.TreeMap

/-!
# Deep copies

`HeapM.copy source v` copies everything behind a value of one heap into another. Each object is
first copied byte by byte, then the references in the copy are redirected, and objects that they
lead to are copied when they are met for the first time. So shared objects stay shared and cycles
stay cycles.
-/

namespace ActorMachine

/-- A copy under way. -/
structure Copying where
  /-- The heap that receives the copies. -/
  target : Heap
  /-- The copy of each copied object, by the object's offset. -/
  moved : Std.TreeMap Nat Ref
  /-- Copied objects whose references are still to be redirected, with their copies. -/
  work : List (Ref × Ref)

/-- A step of a copy. -/
abbrev CopyM := EStateM HeapError Copying

namespace CopyM

/-- A computation on the receiving heap. -/
def onTarget (m : HeapM α) : CopyM α := fun c =>
  let moved := c.moved
  let work := c.work
  match m c.target with
  | .ok a target => .ok a { target, moved, work }
  | .error e target => .error e { target, moved, work }

/-- A result that depends on the source heap. -/
def ofSource (result : Except HeapError α) : CopyM α := fun c =>
  match result with
  | .ok a => .ok a c
  | .error e => .error e c

/-- Copies the bytes of one object. -/
def shallow (source : Heap) (r : Ref) : CopyM Ref := do
  let header ← ofSource (source.header r)
  let copy ← onTarget (HeapM.tryAlloc header.kind header.size)
  let payload ← ofSource (source.payload r)
  onTarget (HeapM.write (·.storeBytes (Heap.payloadOffset copy) payload))
  modify fun c => { c with
    moved := c.moved.insert r.start copy
    work := (r, copy) :: c.work }
  return copy

/-- The copy of an object, which is made if there is none yet. -/
def copyOf (source : Heap) (r : Ref) : CopyM Ref := do
  match (← get).moved[r.start]? with
  | some copy => return copy
  | none => shallow source r

/-- Redirects the references in `count` slots of a copied object, from the slot number `slot` on. -/
def redirect (source : Heap) (object copy : Ref) (slot : Nat) : (count : Nat) → CopyM Unit
  | 0 => return
  | count + 1 => do
    match source.memory.value (Memory.slotOffset object.start slot) with
    | .object shape child =>
      let moved ← copyOf source child
      onTarget (HeapM.write
        (·.storeValue (Memory.slotOffset copy.start slot) (.object shape moved)))
    | _ => pure ()
    redirect source object copy (slot + 1) count

/-- Redirects the references of all copied objects, those copied on the way included. At most
`bound` objects are finished: each is copied once and has a place of its own in the source. -/
def finish (source : Heap) : (bound : Nat) → CopyM Unit
  | 0 => return
  | bound + 1 => do
    match (← get).work with
    | [] => return
    | (object, copy) :: work =>
      modify fun c => { c with work }
      let header ← ofSource (source.header object)
      redirect source object copy 0 (source.memory.slotCount object.start header)
      finish source bound

end CopyM

/-- Copies everything behind a value of `source` without collecting the receiving heap. -/
def HeapM.copy (source : Heap) (v : Value) : HeapM Value := fun target =>
  match v with
  | .object shape r =>
    let run : CopyM Ref := do
      let root ← CopyM.shallow source r
      CopyM.finish source (source.used + 1)
      return root
    match run { target, moved := ∅, work := [] } with
    | .ok root c => .ok (.object shape root) c.target
    | .error e c => .error e c.target
  | v => .ok v target

end ActorMachine
