import ActorMachine.Fault
import ActorMachine.Native.Registry
import Mathlib.Data.List.Induction

/-!
# Objects as programs see them

A program sees neither the places of its objects nor the stores in which arrays and tables keep what
they hold. What it sees of them are their contents: bytes, lists of elements and lists of entries,
in which other objects are known by their numbers (`Contents`). `Contents.call` says what the calls
of the library of tuples, arrays and tables do to contents: arrays are lists to which elements are
appended, and tables are finite maps (`Contents.lookup_put`, `Contents.distinct_put`).
-/

namespace ActorMachine

/-- A value as a program sees it. Objects are numbered in the order in which they have been made. -/
inductive Item where
  | inline (v : Value)
  | object (s : Shape) (i : Nat)
deriving DecidableEq, Inhabited

/-- What an object holds. -/
inductive Content where
  | string (bytes : ByteArray)
  | tuple (elements : List Item)
  | array (elements : List Item)
  | table (entries : List (Item × Item))

/-- What the objects hold that have been made, in the order of their numbers. -/
abbrev Contents := List Content

namespace Item

/-- No value. -/
def nil : Item := .inline .nil

/-- A number of elements. -/
def count (n : Nat) : Item := .inline (.integer (Int64.ofNat n))

/-- The item is inline, or one of the objects that have been made. -/
def Known (M : Contents) : Item → Prop
  | inline _ => True
  | object _ i => i < M.length

/-- The same item where `n` other objects have been made before. -/
def shift (n : Nat) : Item → Item
  | inline v => inline v
  | object s i => object s (n + i)

end Item

namespace Content

/-- The shape of an object with such a content. -/
def shape : Content → Shape
  | string _ => .string
  | tuple _ => .tuple
  | array _ => .array
  | table _ => .table

/-- The items of a content in the order in which they are stored. -/
def items : Content → List Item
  | string _ => []
  | tuple xs | array xs => xs
  | table entries => entries.flatMap fun e => [e.1, e.2]

/-- The number of elements or entries. -/
def count : Content → Nat
  | string _ => 0
  | tuple xs | array xs => xs.length
  | table entries => entries.length

/-- The same content where `n` other objects have been made before. -/
def shift (n : Nat) : Content → Content
  | string bytes => string bytes
  | tuple xs => tuple (xs.map (Item.shift n))
  | array xs => array (xs.map (Item.shift n))
  | table entries => table (entries.map fun e => (e.1.shift n, e.2.shift n))

theorem shape_shift (n : Nat) (c : Content) : (c.shift n).shape = c.shape := by
  cases c <;> rfl

theorem count_shift (n : Nat) (c : Content) : (c.shift n).count = c.count := by
  cases c with
  | string bytes => rfl
  | tuple xs | array xs => exact List.length_map _
  | table entries => exact List.length_map _

theorem items_shift (n : Nat) (c : Content) : (c.shift n).items = c.items.map (Item.shift n) := by
  cases c with
  | string bytes | tuple xs | array xs => rfl
  | table entries =>
    show List.flatMap _ (List.map _ entries) = List.map _ (List.flatMap _ entries)
    rw [List.flatMap_map, List.map_flatMap]
    rfl

end Content

/-- What is wrong with a call, however much memory there is. -/
inductive Refusal where
  | misuse
  | index (index : Int) (length : Nat)

namespace Contents

variable (M : Contents)

/-- The bytes of a string. -/
def bytesAt (i : Nat) : ByteArray :=
  match M[i]? with
  | some (.string bytes) => bytes
  | _ => ByteArray.empty

/-- Strings are equal when their bytes are; other objects only to themselves; inline values by
value. -/
def equal : Item → Item → Bool
  | .inline v, .inline w => v.agrees w
  | .object .string i, .object .string j => decide ((M.bytesAt i).data = (M.bytesAt j).data)
  | .object s i, .object s' j => s == s' && i == j
  | _, _ => false

/-- The value of the first entry with a key, or nil. -/
def lookup (key : Item) : List (Item × Item) → Item
  | [] => .nil
  | e :: entries => if M.equal e.1 key then e.2 else lookup key entries

/-- Replaces the value of the first entry with a key, or adds an entry for it at the end. -/
def put (key v : Item) : List (Item × Item) → List (Item × Item)
  | [] => [(key, v)]
  | e :: entries => if M.equal e.1 key then (e.1, v) :: entries else e :: put key v entries

/-! ## The library -/

/-- The first argument, which must be a tuple, and its elements. -/
def tuple (args : List Item) : Except Refusal (Nat × List Item) :=
  match args.getD 0 .nil with
  | .object .tuple i =>
    match M[i]? with
    | some (.tuple xs) => .ok (i, xs)
    | _ => .error .misuse
  | _ => .error .misuse

/-- The first argument, which must be an array, and its elements. -/
def array (args : List Item) : Except Refusal (Nat × List Item) :=
  match args.getD 0 .nil with
  | .object .array i =>
    match M[i]? with
    | some (.array xs) => .ok (i, xs)
    | _ => .error .misuse
  | _ => .error .misuse

/-- The first argument, which must be a table, and its entries. -/
def table (args : List Item) : Except Refusal (Nat × List (Item × Item)) :=
  match args.getD 0 .nil with
  | .object .table i =>
    match M[i]? with
    | some (.table entries) => .ok (i, entries)
    | _ => .error .misuse
  | _ => .error .misuse

end Contents

/-- An argument that must be an integer. -/
def Item.integer (args : List Item) (i : Nat) : Except Refusal Int :=
  match args.getD i .nil with
  | .inline (.integer n) => .ok n.toInt
  | _ => .error .misuse

/-- An index is within a list. -/
def Item.Within (xs : List Item) (index : Int) : Prop := 0 ≤ index ∧ index < xs.length

instance (xs : List Item) (index : Int) : Decidable (Item.Within xs index) :=
  inferInstanceAs (Decidable (_ ∧ _))

/-- The element at an index. -/
def Item.element (xs : List Item) (index : Int) : Except Refusal Item :=
  if Within xs index then .ok (xs.getD index.toNat .nil) else .error (.index index xs.length)

/-- The elements with another one at an index. -/
def Item.replace (xs : List Item) (index : Int) (x : Item) : Except Refusal (List Item) :=
  if Within xs index then .ok (xs.set index.toNat x) else .error (.index index xs.length)

/-- The operations on tuples, arrays and tables. -/
def Operation.Collects (op : Operation) : Prop :=
  op ∈ [.tupleNew, .tupleGet, .tupleSet, .tupleLength, .arrayNew, .arrayPush, .arrayGet, .arraySet,
    .arrayLength, .tableNew, .tableGet, .tableSet, .tableLength]

instance (op : Operation) : Decidable op.Collects :=
  inferInstanceAs (Decidable (_ ∈ _))

/-- The operations that may need memory. -/
def Operation.Allocates (op : Operation) : Prop :=
  op ∈ [.tupleNew, .arrayNew, .arrayPush, .tableNew, .tableSet]

instance (op : Operation) : Decidable op.Allocates :=
  inferInstanceAs (Decidable (_ ∈ _))

namespace Contents

/-- What a call of the library of tuples, arrays and tables answers, and what it makes of the
contents, if there is memory for it. -/
def call (M : Contents) (op : Operation) (args : List Item) : Except Refusal (Item × Contents) :=
  match op with
  | .tupleNew => do
    let n ← Item.integer args 0
    if n < 0 then throw .misuse
    return (.object .tuple M.length, M ++ [.tuple (List.replicate n.toNat .nil)])
  | .tupleGet => do
    let (_, xs) ← M.tuple args
    return (← Item.element xs (← Item.integer args 1), M)
  | .tupleSet => do
    let (i, xs) ← M.tuple args
    return (.nil, M.set i (.tuple (← Item.replace xs (← Item.integer args 1) (args.getD 2 .nil))))
  | .tupleLength => do
    let (_, xs) ← M.tuple args
    return (.count xs.length, M)
  | .arrayNew => return (.object .array M.length, M ++ [.array []])
  | .arrayPush => do
    if args.length < 2 then throw .misuse
    let (i, xs) ← M.array args
    return (.count (xs.length + 1), M.set i (.array (xs ++ [args.getD 1 .nil])))
  | .arrayGet => do
    let (_, xs) ← M.array args
    return (← Item.element xs (← Item.integer args 1), M)
  | .arraySet => do
    let (i, xs) ← M.array args
    return (.nil, M.set i (.array (← Item.replace xs (← Item.integer args 1) (args.getD 2 .nil))))
  | .arrayLength => do
    let (_, xs) ← M.array args
    return (.count xs.length, M)
  | .tableNew => return (.object .table M.length, M ++ [.table []])
  | .tableGet => do
    let (_, entries) ← M.table args
    return (M.lookup (args.getD 1 .nil) entries, M)
  | .tableSet => do
    if args.length < 3 then throw .misuse
    let (i, entries) ← M.table args
    return (.nil, M.set i (.table (M.put (args.getD 1 .nil) (args.getD 2 .nil) entries)))
  | .tableLength => do
    let (_, entries) ← M.table args
    return (.count entries.length, M)
  | _ => throw .misuse

/-- What has come of a call. One that fails has changed nothing; it is refused, or out of memory. -/
inductive Answers (M : Contents) (op : Operation) (args : List Item) :
    Except Fault Item → Contents → Prop
  | done {x : Item} {M' : Contents} (call : M.call op args = .ok (x, M')) :
    Answers M op args (.ok x) M'
  | full {result : Item × Contents} {requested limit : Nat} (call : M.call op args = .ok result)
    (allocates : op.Allocates) : Answers M op args (.error (.heap (.outOfMemory requested limit))) M
  | outside {index : Int} {length : Nat} (call : M.call op args = .error (.index index length)) :
    Answers M op args (.error (.heap (.indexOutOfBounds index length))) M
  | misused {e : Fault} (call : M.call op args = .error .misuse) (plain : ∀ e', e ≠ .heap e') :
    Answers M op args (.error e) M

end Contents

/-! ## Equality -/

theorem Binary64.agrees_symm {x y : Binary64} (h : x.agrees y) : y.agrees x := by
  simp only [agrees, Bool.and_eq_true, Bool.or_eq_true, beq_iff_eq] at h ⊢
  obtain ⟨⟨hx, hy⟩, heq | ⟨hx', hy'⟩⟩ := h
  · exact ⟨⟨hy, hx⟩, .inl heq.symm⟩
  · exact ⟨⟨hy, hx⟩, .inr ⟨hy', hx'⟩⟩

theorem Binary64.agrees_trans {x y z : Binary64} (h : x.agrees y) (h' : y.agrees z) :
    x.agrees z := by
  simp only [agrees, Bool.and_eq_true, Bool.or_eq_true, beq_iff_eq] at h h' ⊢
  obtain ⟨⟨hx, -⟩, heq⟩ := h
  obtain ⟨⟨-, hz⟩, heq'⟩ := h'
  refine ⟨⟨hx, hz⟩, ?_⟩
  obtain rfl | ⟨hx', hy'⟩ := heq
  · exact heq'
  · obtain rfl | ⟨-, hz'⟩ := heq'
    · exact .inr ⟨hx', hy'⟩
    · exact .inr ⟨hx', hz'⟩

theorem Value.agrees_iff {v w : Value} :
    v.agrees w ↔ (∃ x y, v = .real x ∧ w = .real y ∧ x.agrees y) ∨ (v.kind ≠ .real ∧ v = w) := by
  cases v with
  | real x =>
    cases w with
    | real y => simp [agrees, kind]
    | _ => simp [agrees, kind]
  | _ => simp [agrees, kind]

theorem Value.agrees_symm {v w : Value} (h : v.agrees w) : w.agrees v := by
  rw [agrees_iff] at h ⊢
  obtain ⟨x, y, rfl, rfl, h⟩ | ⟨hne, rfl⟩ := h
  · exact .inl ⟨y, x, rfl, rfl, Binary64.agrees_symm h⟩
  · exact .inr ⟨hne, rfl⟩

theorem Value.agrees_trans {v w x : Value} (h : v.agrees w) (h' : w.agrees x) : v.agrees x := by
  rw [agrees_iff] at h h' ⊢
  obtain ⟨x, y, rfl, rfl, h⟩ | ⟨hne, rfl⟩ := h
  · obtain ⟨_, z, heq, rfl, h'⟩ | ⟨hne, -⟩ := h'
    · cases heq
      exact .inl ⟨x, z, rfl, rfl, Binary64.agrees_trans h h'⟩
    · exact absurd rfl hne
  · exact h'

namespace Contents

variable {M : Contents} {x y z key key' v : Item} {entries : List (Item × Item)}

theorem equal_symm (h : M.equal x y) : M.equal y x := by
  cases x with
  | inline v =>
    cases y with
    | inline w => exact Value.agrees_symm h
    | object s i => exact absurd h (by simp [equal])
  | object s i =>
    cases y with
    | inline w => exact absurd h (by cases s <;> simp [equal])
    | object s' j => cases s <;> cases s' <;> simp_all [equal]

theorem equal_trans (h : M.equal x y) (h' : M.equal y z) : M.equal x z := by
  cases x with
  | inline v =>
    cases y with
    | inline w =>
      cases z with
      | inline u => exact Value.agrees_trans (w := w) h h'
      | object s i => exact absurd h' (by simp [equal])
    | object s i => exact absurd h (by simp [equal])
  | object s i =>
    cases y with
    | inline w => exact absurd h (by cases s <;> simp [equal])
    | object s' j =>
      cases z with
      | inline u => exact absurd h' (by cases s' <;> simp [equal])
      | object s'' k => cases s <;> cases s' <;> cases s'' <;> simp_all [equal]

/-! ## Tables are finite maps -/

/-- The value of a key is the one that has been put last. -/
theorem lookup_put (key v key' : Item) (entries : List (Item × Item)) :
    M.lookup key' (M.put key v entries) = if M.equal key key' then v else
      M.lookup key' entries := by
  induction entries with
  | nil => rfl
  | cons e entries ih =>
    unfold put
    by_cases hkey : M.equal e.1 key
    · rw [if_pos hkey]
      unfold lookup
      dsimp only
      by_cases hkey' : M.equal key key'
      · rw [if_pos hkey', if_pos (equal_trans hkey hkey')]
      · rw [if_neg hkey', if_neg fun h => hkey' (equal_trans (equal_symm hkey) h)]
        rw [if_neg fun h => hkey' (equal_trans (equal_symm hkey) h)]
    · rw [if_neg hkey]
      unfold lookup
      rw [ih]
      by_cases hkey' : M.equal e.1 key'
      · rw [if_pos hkey', if_pos hkey', if_neg fun h => hkey (equal_trans hkey' (equal_symm h))]
      · rw [if_neg hkey', if_neg hkey']

/-- Putting a value in the place of another one leaves the keys as they are, and any other adds
one. -/
theorem keys_put (key v : Item) (entries : List (Item × Item)) :
    (M.put key v entries).map Prod.fst =
      if (entries.map Prod.fst).any (M.equal · key) then entries.map Prod.fst
      else entries.map Prod.fst ++ [key] := by
  induction entries with
  | nil => rfl
  | cons e entries ih =>
    unfold put
    rw [List.map_cons, List.any_cons]
    by_cases hkey : M.equal e.1 key
    · rw [if_pos hkey, hkey, Bool.true_or, if_pos rfl]
      rfl
    · rw [if_neg hkey, Bool.eq_false_iff.mpr hkey, Bool.false_or, List.map_cons, ih]
      split <;> rfl

/-- Those of some keys that are not equal to earlier ones. -/
def distinct (M : Contents) (keys : List Item) : List Item :=
  keys.foldl (fun found key => if found.any (M.equal · key) then found else found ++ [key]) []

/-- The entries that putting some values for keys leaves. -/
def entriesOf (M : Contents) (entries : List (Item × Item)) (sets : List (Item × Item)) :
    List (Item × Item) :=
  sets.foldl (fun entries e => M.put e.1 e.2 entries) entries

theorem entriesOf_append (M : Contents) (entries sets sets' : List (Item × Item)) :
    M.entriesOf entries (sets ++ sets') = M.entriesOf (M.entriesOf entries sets) sets' :=
  List.foldl_append

/-- The value of a key is the one for the last key that is equal to it. -/
theorem lookup_entriesOf (key : Item) (entries sets : List (Item × Item)) :
    M.lookup key (M.entriesOf entries sets) =
      match sets.reverse.find? fun e => M.equal e.1 key with
      | some e => e.2
      | none => M.lookup key entries := by
  induction sets using List.reverseRecOn with
  | nil => rfl
  | append_singleton sets e ih =>
    rw [entriesOf_append, List.reverse_append]
    show M.lookup key (M.put e.1 e.2 (M.entriesOf entries sets)) =
      match (e :: sets.reverse).find? _ with
      | some e => e.2
      | none => _
    rw [lookup_put, List.find?_cons]
    cases M.equal e.1 key with
    | true => rfl
    | false => exact ih

/-- The keys are those that are not equal to earlier ones. -/
theorem keys_entriesOf (sets : List (Item × Item)) :
    (M.entriesOf [] sets).map Prod.fst = M.distinct (sets.map Prod.fst) := by
  induction sets using List.reverseRecOn with
  | nil => rfl
  | append_singleton sets e ih =>
    unfold distinct at ih ⊢
    rw [entriesOf_append, List.map_append, List.foldl_append, ← ih]
    exact keys_put e.1 e.2 _

/-- Putting a value keeps the keys unequal. -/
theorem pairwise_put (h : (entries.map Prod.fst).Pairwise fun x y => ¬M.equal x y) (key v : Item) :
    ((M.put key v entries).map Prod.fst).Pairwise fun x y => ¬M.equal x y := by
  rw [keys_put]
  split
  · exact h
  · rename_i hnew
    refine List.pairwise_append.mpr ⟨h, List.pairwise_singleton _ _,
      fun x hx y hy hequal => hnew ?_⟩
    obtain rfl := List.mem_singleton.mp hy
    exact List.any_eq_true.mpr ⟨x, hx, hequal⟩

end Contents

end ActorMachine
