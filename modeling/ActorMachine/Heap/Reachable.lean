import ActorMachine.Heap.Basic
import Std.Data.TreeSet

/-!
# What a value reaches

`Heap.visit` searches the objects behind some references, depth first, and lists each once.
`Heap.measure` is the number of bytes that they take up together.
-/

namespace ActorMachine

namespace Heap

/-- The values in the slots of an object. -/
def slots (h : Heap) (r : Ref) : Except HeapError (List Value) := do
  let header ← h.header r
  let count := h.memory.slotCount r.start header
  return (List.range count).map fun i => h.memory.value (Memory.slotOffset r.start i)

/-- The references in the slots of an object. -/
def children (h : Heap) (r : Ref) : Except HeapError (List Ref) :=
  return (← h.slots r).filterMap Value.ref?

/-- The number of offsets of the heap that are not among those seen. -/
def unseen (h : Heap) (seen : Std.TreeSet Nat) : Nat :=
  (List.range h.used).countP fun offset => !seen.contains offset

theorem start_lt_used_of_children {h : Heap} {r : Ref} {refs : List Ref}
    (ok : h.children r = .ok refs) : r.start < h.used := by
  cases found : h.memory.header? r.start with
  | none =>
    have failed : h.header r = .error (.invalidRef r) := by rw [header, found]
    rw [children, slots, failed] at ok
    cases ok
  | some header =>
    have bound := Memory.add_headerWidth_le_size_of_header? found
    rw [headerWidth] at bound
    show r.start < h.memory.size
    omega

theorem unseen_insert_lt {h : Heap} {seen : Std.TreeSet Nat} {offset : Nat}
    (fresh : ¬ offset ∈ seen) (lt : offset < h.used) :
    h.unseen (seen.insert offset) < h.unseen seen := by
  unfold unseen
  generalize h.used = n at lt
  induction n with
  | zero => omega
  | succ n ih =>
    have mono : (List.range n).countP (fun i => !(seen.insert offset).contains i) ≤
        (List.range n).countP (fun i => !seen.contains i) := by
      refine List.countP_mono_left fun i _ hi => ?_
      simp only [Std.TreeSet.contains_insert, Bool.not_eq_true', Bool.or_eq_false_iff] at hi
      simpa using hi.2
    simp only [List.range_succ, List.countP_append, List.countP_singleton]
    by_cases heq : offset = n
    · subst heq
      have hin : (seen.insert offset).contains offset = true := by simp
      have hout : seen.contains offset = false :=
        Bool.eq_false_iff.mpr fun held => fresh (Std.TreeSet.mem_iff_contains.mpr held)
      simp only [hin, hout, Bool.not_true, Bool.not_false, if_true, Bool.false_eq_true, if_false]
      omega
    · have hsame : (seen.insert offset).contains n = seen.contains n := by
        simp [Std.TreeSet.contains_insert, heq]
      have := ih (by omega)
      rw [hsame]
      omega

/-- Adds to `found` the objects behind the references in `work` that are not among those seen, each
once and in the order of the search: the last reference met is followed first. -/
def visit (h : Heap) (seen : Std.TreeSet Nat) (found : Array Ref) (work : List Ref) :
    Except HeapError (Array Ref) :=
  match work with
  | [] => .ok found
  | r :: work =>
    if _seen : r.start ∈ seen then
      h.visit seen found work
    else
      match _ok : h.children r with
      | .error e => .error e
      | .ok refs => h.visit (seen.insert r.start) (found.push r) (refs.reverse ++ work)
  termination_by (h.unseen seen, work.length)
  decreasing_by
    · exact Prod.Lex.right _ (Nat.lt_succ_self _)
    · exact Prod.Lex.left _ _ (unseen_insert_lt _seen (start_lt_used_of_children _ok))

/-- The objects that some references reach. -/
def reachable (h : Heap) (refs : List Ref) : Except HeapError (Array Ref) :=
  h.visit ∅ #[] refs

/-- The number of bytes of an object. -/
def extent (h : Heap) (r : Ref) : Nat :=
  match h.header r with
  | .ok header => allocSize header.size
  | .error _ => 0

/-- The number of bytes that a copy of everything behind a value takes up. -/
def measure (h : Heap) (v : Value) : Except HeapError Nat :=
  match v.ref? with
  | none => .ok 0
  | some r => return (← h.reachable [r]).foldl (fun bytes r => bytes + h.extent r) 0

end Heap

end ActorMachine
