import ActorMachine.Machine.Natives
import ActorMachine.Proofs.Sights

/-!
# What natives answer to programs

Called with arguments of which a program sees certain items, the natives for tuples, arrays and
tables answer what the contents of the objects say, and make of the contents what they should
(`ActorM.Serves`). If they fail, nothing that is seen has changed. Arrays and tables grow when there
is no room for more in their stores, which moves objects but changes none of them
(`Native.ends_growArray`).
-/

namespace ActorMachine

open Memory
open ActorM (reserve readHeap onHeap)

/-- What has been made may be wrapped. -/
theorem ActorM.Makes.map {m : ActorM α} {bytes size length : Nat} {s : Shape} {content : ByteArray}
    {val : Ref → α} (makes : Makes m bytes s size length content val) (f : α → β) :
    Makes (m >>= fun x => pure (f x)) bytes s size length content fun p => f (val p) := by
  intro a bounded room
  obtain ⟨p, m₁, run, made⟩ := makes a bounded room
  exact ⟨p, m₁, bind_of_ok run, made⟩

/-- The items below a height of the stack, the first one on top. -/
def Sight.arguments (V : Sight) (height count : Nat) : List Item :=
  (List.range count).map fun i => V.stack.getD (height - 1 - i) .nil

theorem Sight.length_arguments (V : Sight) (height count : Nat) :
    (V.arguments height count).length = count := by
  rw [arguments, List.length_map, List.length_range]

/-- A native does what a call of an operation of the library does to the contents. -/
def ActorM.Serves (V : Sight) (op : Operation) (args : List Item) (m : ActorM Value)
    (a : Actor) : Prop :=
  Ends m a
    (fun v b => ∃ ν σ x M, b.ShowsAt ν σ { V with objects := M } ∧ x.At ν v ∧
      V.objects.Answers op args (.ok x) M)
    fun e b => ∃ ν σ, b.ShowsAt ν σ V ∧ V.objects.Answers op args (.error e) V.objects

namespace Actor.ShowsAt

variable {ν : Naming} {σ : Matching} {V : Sight} {a : Actor} (h : a.ShowsAt ν σ V)
    (height count : Nat)

include h

/-! ## Arguments -/

theorem get (i : Nat) : ∃ v, (Arguments.below height count).get i a = .ok v a ∧
    ((V.arguments height count).getD i .nil).At ν v := by
  rw [List.getD_eq_getElem?_getD]
  by_cases hlt : i < count
  · have hget : (Arguments.below height count).get i =
      (Arguments.below height count).read i := if_pos hlt
    refine ⟨a.stack.getD (height - 1 - i) .nil, by rw [hget]; rfl, ?_⟩
    unfold Sight.arguments
    rw [List.getElem?_map, List.getElem?_range hlt]
    exact h.stack.getD _
  · have hget : (Arguments.below height count).get i = pure .nil := if_neg hlt
    refine ⟨.nil, by rw [hget]; rfl, ?_⟩
    rw [List.getElem?_eq_none (by rw [V.length_arguments]; omega)]
    exact .inline rfl

theorem integer (i : Nat) :
    (∃ n, Item.integer (V.arguments height count) i = .ok n ∧
      (Arguments.below height count).integer i a = .ok n a) ∨
    (Item.integer (V.arguments height count) i = .error .misuse ∧ ∃ e,
      (Arguments.below height count).integer i a = .error e a ∧ e.Plain) := by
  obtain ⟨v, hget, hv⟩ := h.get height count i
  unfold Item.integer Arguments.integer
  rw [bind_of_ok hget]
  generalize (V.arguments height count).getD i .nil = x at hv
  cases hv with
  | @inline v hinline =>
    cases v with
    | integer n => exact .inl ⟨n.toInt, rfl, rfl⟩
    | object s r => cases hinline
    | _ => exact .inr ⟨rfl, .mismatch .integer _, rfl, nofun⟩
  | @object s _ _ _ => exact .inr ⟨rfl, .typeMismatch .integer (.object s), rfl, nofun⟩

theorem object (s : Shape) (i : Nat) :
    (∃ j r, (V.arguments height count).getD i .nil = .object s j ∧ ν s j r ∧
      (Arguments.below height count).object s i a = .ok r a) ∨
    ((∀ j, (V.arguments height count).getD i .nil ≠ .object s j) ∧ ∃ e,
      (Arguments.below height count).object s i a = .error e a ∧ e.Plain) := by
  obtain ⟨v, hget, hv⟩ := h.get height count i
  unfold Arguments.object
  rw [bind_of_ok hget]
  generalize (V.arguments height count).getD i .nil = x at hv
  cases hv with
  | @inline v hinline =>
    refine .inr ⟨nofun, ?_⟩
    cases v with
    | object s r => cases hinline
    | _ => exact ⟨.mismatch (.object s) _, rfl, nofun⟩
  | @object s' j r hj =>
    by_cases heq : s' = s
    · subst heq
      refine .inl ⟨j, r, rfl, hj, ?_⟩
      show (if s' = s' then pure r else _ : ActorM Ref) a = _
      rw [if_pos rfl]
      rfl
    · refine .inr ⟨fun j' hj' => heq (Item.object.inj hj').1,
        .typeMismatch (.object s) (.object s'), ?_, nofun⟩
      show (if s' = s then pure r else _ : ActorM Ref) a = _
      rw [if_neg heq]
      rfl

/-- The tuple that is the first argument, if it is one. -/
theorem tuple :
    (∃ j xs r, V.objects.tuple (V.arguments height count) = .ok (j, xs) ∧
      V.objects[j]? = some (.tuple xs) ∧
      ν .tuple j r ∧ (Arguments.below height count).object .tuple 0 a = .ok r a) ∨
    (V.objects.tuple (V.arguments height count) = .error .misuse ∧ ∃ e,
      (Arguments.below height count).object .tuple 0 a = .error e a ∧ e.Plain) := by
  obtain ⟨j, r, harg, hj, hr⟩ | ⟨hne, hr⟩ := h.object height count .tuple 0
  · obtain ⟨c, hc, hshape, -⟩ := h.named.content hj
    cases c with
    | tuple xs =>
      refine .inl ⟨j, xs, r, ?_, hc, hj, hr⟩
      simp only [Contents.tuple, harg, hc]
    | _ => cases hshape
  · refine .inr ⟨?_, hr⟩
    unfold Contents.tuple
    split
    · exact absurd (by assumption) (hne _)
    · rfl

/-- The array that is the first argument, if it is one. -/
theorem array :
    (∃ j xs r, V.objects.array (V.arguments height count) = .ok (j, xs) ∧
      V.objects[j]? = some (.array xs) ∧
      (V.arguments height count).getD 0 .nil = .object .array j ∧
      ν .array j r ∧ (Arguments.below height count).object .array 0 a = .ok r a) ∨
    (V.objects.array (V.arguments height count) = .error .misuse ∧ ∃ e,
      (Arguments.below height count).object .array 0 a = .error e a ∧ e.Plain) := by
  obtain ⟨j, r, harg, hj, hr⟩ | ⟨hne, hr⟩ := h.object height count .array 0
  · obtain ⟨c, hc, hshape, -⟩ := h.named.content hj
    cases c with
    | array xs =>
      refine .inl ⟨j, xs, r, ?_, hc, harg, hj, hr⟩
      simp only [Contents.array, harg, hc]
    | _ => cases hshape
  · refine .inr ⟨?_, hr⟩
    unfold Contents.array
    split
    · exact absurd (by assumption) (hne _)
    · rfl

/-- The table that is the first argument, if it is one. -/
theorem table :
    (∃ j entries r, V.objects.table (V.arguments height count) = .ok (j, entries) ∧
      V.objects[j]? = some (.table entries) ∧
      (V.arguments height count).getD 0 .nil = .object .table j ∧
      ν .table j r ∧ (Arguments.below height count).object .table 0 a = .ok r a) ∨
    (V.objects.table (V.arguments height count) = .error .misuse ∧ ∃ e,
      (Arguments.below height count).object .table 0 a = .error e a ∧ e.Plain) := by
  obtain ⟨j, r, harg, hj, hr⟩ | ⟨hne, hr⟩ := h.object height count .table 0
  · obtain ⟨c, hc, hshape, -⟩ := h.named.content hj
    cases c with
    | table entries =>
      refine .inl ⟨j, entries, r, ?_, hc, harg, hj, hr⟩
      simp only [Contents.table, harg, hc]
    | _ => cases hshape
  · refine .inr ⟨?_, hr⟩
    unfold Contents.table
    split
    · exact absurd (by assumption) (hne _)
    · rfl

end Actor.ShowsAt

namespace ActorM.Serves

variable {ν : Naming} {σ : Matching} {V : Sight} {op : Operation} {args : List Item}
    {m : ActorM Value} {a : Actor}

/-- A call with the wrong arguments changes nothing. -/
theorem misused (h : a.ShowsAt ν σ V) {e : Fault} (run : m a = .error e a) (plain : e.Plain)
    (call : V.objects.call op args = .error .misuse) : Serves V op args m a :=
  .fails run ⟨ν, σ, h, .misused call plain⟩

/-- A call with an index out of bounds changes nothing. -/
theorem outside (h : a.ShowsAt ν σ V) {index : Int} {length : Nat}
    (run : m a = .error (.heap (.indexOutOfBounds index length)) a)
    (call : V.objects.call op args = .error (.index index length)) : Serves V op args m a :=
  .fails run ⟨ν, σ, h, .outside call⟩

/-- A call that only reads. -/
theorem reads (h : a.ShowsAt ν σ V) {v : Value} {x : Item} (run : m a = .ok v a) (hx : x.At ν v)
    (call : V.objects.call op args = .ok (x, V.objects)) : Serves V op args m a :=
  .returns run ⟨ν, σ, x, V.objects, h, hx, .done call⟩

/-- A call that writes to objects. -/
theorem writes (h : a.ShowsAt ν σ V) {M : Contents} {m₁ : Memory} {v : Value} {x : Item}
    (run : m a = .ok v { a with heap := { a.heap with memory := m₁ } })
    (size : m₁.size = a.heap.memory.size) (named : Named ν M σ m₁) (hx : x.At ν v)
    (call : V.objects.call op args = .ok (x, M)) :
    Serves V op args m a :=
  .returns run ⟨ν, σ, x, M, h.rewrite named size, hx, .done call⟩

/-- A call that makes an object. -/
theorem makes {bytes size length : Nat} {s : Shape} {content : ByteArray} {val : Ref → Value}
    {c : Content} (h : a.ShowsAt ν σ V) {make : ActorM Value}
    (making : ActorM.Makes make bytes s size length content val)
    (hm : m = reserve bytes >>= fun _ => make) (hval : ∀ p, val p = .object s p)
    (hc : Content.New s length content c) (allocates : op.Allocates)
    (call : V.objects.call op args = .ok (.object s V.objects.length, V.objects ++ [c])) :
    Serves V op args m a := by
  subst hm
  refine (h.ends_make making hc).mono ?_ ?_
  · rintro _ b ⟨ν', σ', p, rfl, hp, h'⟩
    exact ⟨ν', σ', _, _, h', hval p ▸ .object hp, .done call⟩
  · rintro _ b ⟨⟨requested, limit, rfl⟩, ν', σ', h'⟩
    exact ⟨ν', σ', h', .full call allocates⟩

variable {height count : Nat} {i : Nat}

/-- An argument that must be an integer. -/
theorem bind_integer (h : a.ShowsAt ν σ V) {f : Int → ActorM Value}
    {k : Int → Except Refusal (Item × Contents)}
    (call : V.objects.call op (V.arguments height count) =
      Item.integer (V.arguments height count) i >>= k)
    (rest : ∀ n, V.objects.call op (V.arguments height count) = k n →
      Serves V op (V.arguments height count) (f n) a) :
    Serves V op (V.arguments height count) ((Arguments.below height count).integer i >>= f) a := by
  obtain ⟨n, hint, hn⟩ | ⟨hint, e, hn, plain⟩ := h.integer height count i
  · rw [hint] at call
    exact .of_eq (bind_of_ok hn) (rest n call)
  · rw [hint] at call
    exact .misused h (bind_of_error hn) plain call

/-- The first argument must be a tuple. -/
theorem bind_tuple (h : a.ShowsAt ν σ V) {f : Ref → ActorM Value}
    {k : Nat × List Item → Except Refusal (Item × Contents)}
    (call : V.objects.call op (V.arguments height count) =
      V.objects.tuple (V.arguments height count) >>= k)
    (rest : ∀ j xs r, V.objects[j]? = some (.tuple xs) → ν .tuple j r →
      V.objects.call op (V.arguments height count) = k (j, xs) →
      Serves V op (V.arguments height count) (f r) a) :
    Serves V op (V.arguments height count)
      ((Arguments.below height count).object .tuple 0 >>= f) a := by
  obtain ⟨j, xs, r, harg, hc, hj, hr⟩ | ⟨harg, e, hr, plain⟩ := h.tuple height count
  · rw [harg] at call
    exact .of_eq (bind_of_ok hr) (rest j xs r hc hj call)
  · rw [harg] at call
    exact .misused h (bind_of_error hr) plain call

/-- The first argument must be an array. -/
theorem bind_array (h : a.ShowsAt ν σ V) {f : Ref → ActorM Value}
    {k : Nat × List Item → Except Refusal (Item × Contents)}
    (call : V.objects.call op (V.arguments height count) =
      V.objects.array (V.arguments height count) >>= k)
    (rest : ∀ j xs r, V.objects[j]? = some (.array xs) → ν .array j r →
      (V.arguments height count).getD 0 .nil = .object .array j →
      V.objects.call op (V.arguments height count) = k (j, xs) →
      Serves V op (V.arguments height count) (f r) a) :
    Serves V op (V.arguments height count)
      ((Arguments.below height count).object .array 0 >>= f) a := by
  obtain ⟨j, xs, r, harg, hc, hfirst, hj, hr⟩ | ⟨harg, e, hr, plain⟩ := h.array height count
  · rw [harg] at call
    exact .of_eq (bind_of_ok hr) (rest j xs r hc hj hfirst call)
  · rw [harg] at call
    exact .misused h (bind_of_error hr) plain call

/-- The first argument must be a table. -/
theorem bind_table (h : a.ShowsAt ν σ V) {f : Ref → ActorM Value}
    {k : Nat × List (Item × Item) → Except Refusal (Item × Contents)}
    (call : V.objects.call op (V.arguments height count) =
      V.objects.table (V.arguments height count) >>= k)
    (rest : ∀ j entries r, V.objects[j]? = some (.table entries) → ν .table j r →
      (V.arguments height count).getD 0 .nil = .object .table j →
      V.objects.call op (V.arguments height count) = k (j, entries) →
      Serves V op (V.arguments height count) (f r) a) :
    Serves V op (V.arguments height count)
      ((Arguments.below height count).object .table 0 >>= f) a := by
  obtain ⟨j, entries, r, harg, hc, hfirst, hj, hr⟩ | ⟨harg, e, hr, plain⟩ := h.table height count
  · rw [harg] at call
    exact .of_eq (bind_of_ok hr) (rest j entries r hc hj hfirst call)
  · rw [harg] at call
    exact .misused h (bind_of_error hr) plain call

/-- An argument that may be anything. -/
theorem bind_get (h : a.ShowsAt ν σ V) {f : Value → ActorM Value}
    (rest : ∀ v, ((V.arguments height count).getD i .nil).At ν v →
      Serves V op (V.arguments height count) (f v) a) :
    Serves V op (V.arguments height count) ((Arguments.below height count).get i >>= f) a := by
  obtain ⟨v, hget, hv⟩ := h.get height count i
  exact .of_eq (bind_of_ok hget) (rest v hv)

/-- Without enough arguments nothing is done. -/
theorem bind_atLeast (h : a.ShowsAt ν σ V) {n : Nat} {f : Unit → ActorM Value}
    (few : count < n → V.objects.call op (V.arguments height count) = .error .misuse)
    (rest : ¬count < n → Serves V op (V.arguments height count) (f ()) a) :
    Serves V op (V.arguments height count) ((Arguments.below height count).atLeast n >>= f) a := by
  by_cases hlt : count < n
  · have run : (Arguments.below height count).atLeast n a = .error (.arity n count) a := by
      show (if count < n then throw (.arity n count) else pure () : ActorM Unit) a = _
      rw [if_pos hlt]
      rfl
    exact .misused h (bind_of_error run) nofun (few hlt)
  · have run : (Arguments.below height count).atLeast n a = .ok () a := by
      show (if count < n then throw (.arity n count) else pure () : ActorM Unit) a = _
      rw [if_neg hlt]
      rfl
    exact .of_eq (bind_of_ok run) (rest hlt)

/-- The element at an index is read. -/
theorem element (h : a.ShowsAt ν σ V) {f : Heap → Except HeapError Value} {xs : List Item}
    {index : Int} (call : V.objects.call op args = Item.element xs index >>= fun x =>
      pure (x, V.objects))
    (read : ∃ v, f a.heap = (if Item.Within xs index then .ok v
        else .error (.indexOutOfBounds index xs.length)) ∧
      (Item.Within xs index → (xs.getD index.toNat .nil).At ν v)) :
    Serves V op args (readHeap f) a := by
  obtain ⟨v, run, hv⟩ := read
  unfold Item.element at call
  by_cases hindex : Item.Within xs index
  · rw [if_pos hindex] at run call
    exact .reads h (ActorM.readHeap_ok run) (hv hindex) call
  · rw [if_neg hindex] at run call
    exact .outside h (ActorM.readHeap_error run) call

/-- The element at an index is replaced. -/
theorem replace (h : a.ShowsAt ν σ V) {f : HeapM Unit} {xs : List Item} {index : Int} {x : Item}
    {j : Nat} {content : List Item → Content}
    (call : V.objects.call op args =
      Item.replace xs index x >>= fun ys => pure (.nil, V.objects.set j (content ys)))
    (write : ∃ m₁, f a.heap = (if Item.Within xs index then .ok () { a.heap with memory := m₁ }
        else .error (.indexOutOfBounds index xs.length) a.heap) ∧
      (Item.Within xs index → m₁.size = a.heap.memory.size ∧
        Named ν (V.objects.set j (content (xs.set index.toNat x))) σ m₁)) :
    Serves V op args (onHeap f >>= fun _ => pure .nil) a := by
  obtain ⟨m₁, run, hwrite⟩ := write
  unfold Item.replace at call
  by_cases hindex : Item.Within xs index
  · rw [if_pos hindex] at run call
    obtain ⟨hsize, named⟩ := hwrite hindex
    exact .writes h (bind_of_ok (ActorM.onHeap_ok run)) hsize named (.inline rfl) call
  · rw [if_neg hindex] at run call
    exact .outside h (bind_of_error (ActorM.onHeap_error run)) call

end ActorM.Serves

namespace Native

open ActorM (Serves)

variable {ν : Naming} {σ : Matching} {V : Sight} {a : Actor}

/-- Numbers of elements are answered as they are seen. -/
theorem at_ofNat (ν : Naming) (n : Nat) : (Item.count n).At ν (ofNat n) := .inline rfl

section Tuples

variable (h : a.ShowsAt ν σ V) (height count : Nat)

include h

theorem serves_tupleNew :
    Serves V .tupleNew (V.arguments height count) (tupleNew (.below height count)) a := by
  unfold tupleNew Arguments.elementCount
  rw [bind_assoc]
  refine .bind_integer h rfl fun n call => ?_
  by_cases hneg : n < 0
  · rw [if_pos hneg] at call ⊢
    exact .misused h rfl (e := .invalidIndex .count n) nofun call
  · rw [if_neg hneg] at call ⊢
    refine .makes h ((ActorM.makes_tuple_min n.toNat).map (Value.object .tuple)) ?_ (fun _ => rfl)
      (.tuple _ _) (by decide) call
    simp only [pure_bind, ActorM.newTuple, ActorM.newTupleRef, ActorM.alloc, bind_assoc]

theorem serves_tupleGet :
    Serves V .tupleGet (V.arguments height count) (tupleGet (.below height count)) a :=
  .bind_tuple h rfl fun _ _ _ hc hj call => .bind_integer h call fun n call =>
    .element h call (h.named.tupleGet hj hc n)

theorem serves_tupleSet :
    Serves V .tupleSet (V.arguments height count) (tupleSet (.below height count)) a :=
  .bind_tuple h rfl fun _ _ _ hc hj call => .bind_integer h call fun n call =>
    .bind_get h fun _ hv => .replace h call (h.named.tupleSet hj hc hv n)

theorem serves_tupleLength :
    Serves V .tupleLength (V.arguments height count) (tupleLength (.below height count)) a :=
  .bind_tuple h rfl fun _ _ _ hc hj call =>
    .reads h (bind_of_ok (ActorM.readHeap_ok (h.named.tupleLength hj hc))) (at_ofNat ν _) call

end Tuples

section Arrays

variable (h : a.ShowsAt ν σ V)

include h

theorem serves_arrayNew (args : List Item) : Serves V .arrayNew args arrayNew a := by
  refine .makes h ((ActorM.makes_container (.inl rfl)).map (Value.object .array)) ?_
    (fun _ => rfl) (.array _) (by decide) rfl
  simp only [arrayNew, ActorM.alloc, bind_assoc]

variable (height count : Nat)

theorem serves_arrayGet :
    Serves V .arrayGet (V.arguments height count) (arrayGet (.below height count)) a :=
  .bind_array h rfl fun _ _ _ hc hj _ call => .bind_integer h call fun n call =>
    .element h call (h.named.arrayGet hj hc n)

theorem serves_arraySet :
    Serves V .arraySet (V.arguments height count) (arraySet (.below height count)) a :=
  .bind_array h rfl fun _ _ _ hc hj _ call => .bind_integer h call fun n call =>
    .bind_get h fun _ hv => .replace h call (h.named.arraySet hj hc hv n)

theorem serves_arrayLength :
    Serves V .arrayLength (V.arguments height count) (arrayLength (.below height count)) a :=
  .bind_array h rfl fun _ _ _ hc hj _ call =>
    .reads h (bind_of_ok (ActorM.readHeap_ok (h.named.arrayLength hj hc))) (at_ofNat ν _) call

end Arrays

section Tables

variable (h : a.ShowsAt ν σ V)

include h

theorem serves_tableNew (args : List Item) : Serves V .tableNew args tableNew a := by
  refine .makes h ((ActorM.makes_container (.inr rfl)).map (Value.object .table)) ?_
    (fun _ => rfl) (.table _) (by decide) rfl
  simp only [tableNew, ActorM.alloc, bind_assoc]

variable (height count : Nat)

theorem serves_tableGet :
    Serves V .tableGet (V.arguments height count) (tableGet (.below height count)) a :=
  .bind_table h rfl fun _ _ _ hc hj _ call => .bind_get h fun _ hv => by
    obtain ⟨w, run, hw⟩ := h.named.tableGet hj hc hv
    exact .reads h (ActorM.readHeap_ok run) hw call

theorem serves_tableLength :
    Serves V .tableLength (V.arguments height count) (tableLength (.below height count)) a :=
  .bind_table h rfl fun _ _ _ hc hj _ call =>
    .reads h (bind_of_ok (ActorM.readHeap_ok (h.named.tableLength hj hc))) (at_ofNat ν _) call

end Tables

end Native

end ActorMachine
