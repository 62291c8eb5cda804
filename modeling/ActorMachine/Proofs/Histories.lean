import ActorMachine.Proofs.Contents
import ActorMachine.Proofs.Outcome

/-!
# Histories of objects

What happens to the objects of a program is a list of events: operations of the library are called,
and other objects come to be (`Contents.Becomes`). Whatever happens, all items are of objects that
have been made, and no table has two equal keys (`Contents.Becomes.sound`). Strings never change, so
keys that are equal stay so (`Contents.Grows.equal`), and a call changes nothing but the object that
is its first argument (`Contents.Answers.others`).
-/

namespace ActorMachine

/-- The shape of the objects that an operation changes, if it changes any. -/
def Operation.alters? : Operation → Option Shape
  | .tupleSet => some .tuple
  | .arrayPush | .arraySet => some .array
  | .tableSet => some .table
  | _ => none

/-- What happens to the objects of a program: an operation is called, or objects come to be, as
messages and reports of faults bring them. -/
inductive Event where
  | called (op : Operation) (args : List Item) (outcome : Except Fault Item)
  | made (objects : Contents)

namespace Contents

variable {M M' N N' : Contents} {op : Operation} {args : List Item} {outcome : Except Fault Item}
    {x y : Item}

/-- What comes of a call of an operation. Those that do not concern tuples, arrays and tables answer
what refers to nothing, or a new string. -/
inductive Responds (M : Contents) (op : Operation) (args : List Item) :
    Except Fault Item → Contents → Prop
  | library {outcome : Except Fault Item} {M' : Contents} (collects : op.Collects)
    (answers : M.Answers op args outcome M') : Responds M op args outcome M'
  | inline {v : Value} (other : ¬op.Collects) (inline : v.ref? = none) :
    Responds M op args (.ok (.inline v)) M
  | string (bytes : ByteArray) (other : ¬op.Collects) :
    Responds M op args (.ok (.object .string M.length)) (M ++ [.string bytes])
  | failed (e : Fault) (other : ¬op.Collects) : Responds M op args (.error e) M

/-- All items are of objects that have been made, and no table has two equal keys. -/
structure Sound (M : Contents) : Prop where
  known : ∀ c ∈ M, ∀ x ∈ c.items, x.Known M
  unequal : ∀ entries, .table entries ∈ M → (entries.map Prod.fst).Pairwise fun x y => ¬M.equal x y

/-- What an event makes of objects. -/
inductive Meets (M : Contents) : Event → Contents → Prop
  | called {op : Operation} {args : List Item} {outcome : Except Fault Item} {N : Contents}
    (known : ∀ x ∈ args, x.Known M) (responds : M.Responds op args outcome N) :
    Meets M (.called op args outcome) N
  | made {objects : Contents} (sound : Sound (M ++ objects)) :
    Meets M (.made objects) (M ++ objects)

/-- What some events make of objects. -/
inductive Becomes (M : Contents) : List Event → Contents → Prop
  | refl : Becomes M [] M
  | snoc {events : List Event} {e : Event} {N N' : Contents} (before : Becomes M events N)
    (last : N.Meets e N') : Becomes M (events ++ [e]) N'

/-! ## What objects stay -/

/-- Objects keep their shapes, and strings what they hold. -/
def Grows (M N : Contents) : Prop :=
  ∀ (i : Nat) (c : Content), M[i]? = some c →
    ∃ c', N[i]? = some c' ∧ c'.shape = c.shape ∧ (c.shape = .string → c' = c)

namespace Grows

theorem refl (M : Contents) : Grows M M := fun _ c hc => ⟨c, hc, rfl, fun _ => rfl⟩

theorem trans {L : Contents} (h : Grows L M) (h' : Grows M N) : Grows L N := by
  intro i c hc
  obtain ⟨c', hc', hshape, hstring⟩ := h i c hc
  obtain ⟨c'', hc'', hshape', hstring'⟩ := h' i c' hc'
  exact ⟨c'', hc'', hshape'.trans hshape, fun hs =>
    (hstring' (hshape.trans hs)).trans (hstring hs)⟩

theorem append (M N : Contents) : Grows M (M ++ N) := fun _ c hc =>
  ⟨c, by rw [List.getElem?_append_left (List.getElem?_eq_some_iff.mp hc).1, hc], rfl, fun _ => rfl⟩

theorem set {i : Nat} {c c' : Content} (hc : M[i]? = some c) (shape : c'.shape = c.shape)
    (other : c.shape ≠ .string) : Grows M (M.set i c') := by
  intro j d hd
  by_cases heq : i = j
  · subst heq
    rw [hc] at hd
    cases hd
    exact ⟨c', List.getElem?_set_self (List.getElem?_eq_some_iff.mp hc).1, shape,
      fun hs => absurd hs other⟩
  · exact ⟨d, by rw [List.getElem?_set_ne heq, hd], rfl, fun _ => rfl⟩

theorem length_le (h : Grows M N) : M.length ≤ N.length := by
  refine Nat.le_of_not_lt fun hlt => ?_
  obtain ⟨c, hc, -⟩ := h N.length _ (List.getElem?_eq_getElem hlt)
  rw [List.getElem?_eq_none (Nat.le_refl _)] at hc
  cases hc

theorem known (h : Grows M N) (hx : x.Known M) : x.Known N := by
  cases x with
  | inline v => trivial
  | object s i => exact Nat.lt_of_lt_of_le hx h.length_le

theorem bytesAt (h : Grows M N) {i : Nat} (hi : i < M.length) : N.bytesAt i = M.bytesAt i := by
  obtain ⟨c, hc, hshape, hstring⟩ := h i _ (List.getElem?_eq_getElem hi)
  unfold Contents.bytesAt
  rw [hc, List.getElem?_eq_getElem hi]
  generalize M[i] = d at hshape hstring
  cases d with
  | string bytes => rw [hstring rfl]
  | _ =>
    cases c <;> cases hshape
    rfl

/-- Items that are equal stay equal, and others unequal. -/
theorem equal (h : Grows M N) (hx : x.Known M) (hy : y.Known M) : N.equal x y = M.equal x y := by
  unfold Contents.equal
  split
  · rfl
  · rw [h.bytesAt hx, h.bytesAt hy]
  · rfl
  · rfl

end Grows

/-! ## What a call does -/

theorem tuple_eq_ok {i : Nat} {xs : List Item} (h : M.tuple args = .ok (i, xs)) :
    args.getD 0 .nil = .object .tuple i ∧ M[i]? = some (.tuple xs) := by
  unfold tuple at h
  split at h
  · split at h
    · cases h
      exact ⟨by assumption, by assumption⟩
    · cases h
  · cases h

theorem array_eq_ok {i : Nat} {xs : List Item} :
    M.array args = .ok (i, xs) ↔ args.getD 0 .nil = .object .array i ∧
    M[i]? = some (.array xs) := by
  refine ⟨fun h => ?_, fun ⟨hfirst, hc⟩ => by simp only [array, hfirst, hc]⟩
  unfold array at h
  split at h
  · split at h
    · cases h
      exact ⟨by assumption, by assumption⟩
    · cases h
  · cases h

theorem table_eq_ok {i : Nat} {entries : List (Item × Item)} :
    M.table args = .ok (i, entries) ↔ args.getD 0 .nil = .object .table i ∧
    M[i]? = some (.table entries) := by
  refine ⟨fun h => ?_, fun ⟨hfirst, hc⟩ => by simp only [table, hfirst, hc]⟩
  unfold table at h
  split at h
  · split at h
    · cases h
      exact ⟨by assumption, by assumption⟩
    · cases h
  · cases h

/-- A value that is looked up is one that has been set, or nil. -/
theorem lookup_mem (key : Item) (entries : List (Item × Item)) :
    M.lookup key entries = .nil ∨ ∃ e ∈ entries, M.lookup key entries = e.2 := by
  induction entries with
  | nil => exact .inl rfl
  | cons e entries ih =>
    unfold lookup
    split
    · exact .inr ⟨e, List.mem_cons_self, rfl⟩
    · refine ih.imp id ?_
      rintro ⟨e', he', heq⟩
      exact ⟨e', List.mem_cons_of_mem _ he', heq⟩

/-- What is in a table is what has been there before, the key, or the value. -/
theorem mem_put {key v : Item} {entries : List (Item × Item)} {e : Item × Item}
    (h : e ∈ M.put key v entries) : (e.1 = key ∨ ∃ e' ∈ entries, e.1 = e'.1) ∧
      (e.2 = v ∨ ∃ e' ∈ entries, e.2 = e'.2) := by
  induction entries with
  | nil =>
    obtain rfl := List.mem_singleton.mp h
    exact ⟨.inl rfl, .inl rfl⟩
  | cons e' entries ih =>
    unfold put at h
    split at h
    · obtain rfl | h := List.mem_cons.mp h
      · exact ⟨.inr ⟨e', List.mem_cons_self, rfl⟩, .inl rfl⟩
      · exact ⟨.inr ⟨e, List.mem_cons_of_mem _ h, rfl⟩, .inr ⟨e, List.mem_cons_of_mem _ h, rfl⟩⟩
    · obtain rfl | h := List.mem_cons.mp h
      · exact ⟨.inr ⟨e, List.mem_cons_self, rfl⟩, .inr ⟨e, List.mem_cons_self, rfl⟩⟩
      · obtain ⟨hkey, hv⟩ := ih h
        exact ⟨hkey.imp_right fun h => h.imp fun _ h => h.imp_left (List.mem_cons_of_mem _),
          hv.imp_right fun h => h.imp fun _ h => h.imp_left (List.mem_cons_of_mem _)⟩

theorem mem_items_table {entries : List (Item × Item)} {x : Item} :
    x ∈ (Content.table entries).items ↔ ∃ e ∈ entries, x = e.1 ∨ x = e.2 := by
  show x ∈ entries.flatMap (fun e => [e.1, e.2]) ↔ _
  simp only [List.mem_flatMap, List.mem_cons, List.not_mem_nil, or_false]

/-- What a table holds after a key has been set has been there before, or is the key or the
value. -/
theorem mem_items_put {key v x : Item} {entries : List (Item × Item)}
    (h : x ∈ (Content.table (M.put key v entries)).items) :
    x ∈ (Content.table entries).items ∨ x = key ∨ x = v := by
  obtain ⟨e, he, hx⟩ := mem_items_table.mp h
  obtain ⟨hkey, hv⟩ := mem_put he
  obtain rfl | rfl := hx
  · obtain heq | ⟨e', he', heq⟩ := hkey
    · exact .inr (.inl heq)
    · exact .inl (mem_items_table.mpr ⟨e', he', .inl heq⟩)
  · obtain heq | ⟨e', he', heq⟩ := hv
    · exact .inr (.inr heq)
    · exact .inl (mem_items_table.mpr ⟨e', he', .inr heq⟩)

/-- What a call does to the objects: it only reads, makes an object that holds nothing, or changes
the one that is its first argument. -/
inductive Changes (M : Contents) (op : Operation) (args : List Item) : Item → Contents → Prop
  | reads {x : Item} (answer : (∃ v, x = .inline v) ∨ ∃ c ∈ M, x ∈ c.items) : Changes M op args x M
  | makes {c : Content} (empty : ∀ x ∈ c.items, x = .nil)
    (plain : ∀ entries, c = .table entries → entries = []) :
    Changes M op args (.object c.shape M.length) (M ++ [c])
  | writes {i : Nat} {c c' : Content} {v : Value} (alters : op.alters? = some c.shape)
    (first : args.getD 0 .nil = .object c.shape i)
    (content : M[i]? = some c) (shape : c'.shape = c.shape) (other : c.shape ≠ .string)
    (items : ∀ x ∈ c'.items, x ∈ c.items ∨ x ∈ args ∨ x = .nil)
    (table : ∀ entries, c' = .table entries →
      ∃ entries' key v, c = .table entries' ∧ entries = M.put key v entries') :
    Changes M op args (.inline v) (M.set i c')

theorem mem_or_nil_of_getD (args : List Item) (i : Nat) :
    args.getD i .nil ∈ args ∨ args.getD i .nil = .nil := by
  rw [List.getD_eq_getElem?_getD]
  cases h : args[i]? with
  | none => exact .inr rfl
  | some x => exact .inl (List.mem_of_getElem? h)

theorem known_getD (known : ∀ x ∈ args, x.Known M) (i : Nat) : (args.getD i .nil).Known M := by
  obtain hx | hx := mem_or_nil_of_getD args i
  · exact known _ hx
  · rw [hx]
    trivial

theorem element_eq_ok {xs : List Item} {index : Int} {x : Item}
    (h : Item.element xs index = .ok x) :
    x ∈ xs ∨ x = .nil := by
  unfold Item.element at h
  split at h
  · cases h
    exact mem_or_nil_of_getD xs _
  · cases h

theorem replace_eq_ok {xs ys : List Item} {index : Int} {x : Item}
    (h : Item.replace xs index x = .ok ys) :
    ∀ y ∈ ys, y ∈ xs ∨ y = x := by
  unfold Item.replace at h
  split at h
  · cases h
    exact fun y hy => List.mem_or_eq_of_mem_set hy
  · cases h

namespace Changes

/-- An item is read out of an object. -/
theorem of_read {i : Nat} {c : Content} (content : M[i]? = some c) (hx : x ∈ c.items ∨ x = .nil) :
    M.Changes op args x M := by
  obtain hx | rfl := hx
  · exact .reads (.inr ⟨c, List.mem_of_getElem? content, hx⟩)
  · exact .reads (.inl ⟨_, rfl⟩)

/-- An item of a tuple or an array is replaced by the third argument. -/
theorem of_replace {i : Nat} {c d : Content} {index : Int} {v : Value}
    (alters : op.alters? = some c.shape) (first : args.getD 0 .nil = .object c.shape i)
    (content : M[i]? = some c) (shape : d.shape = c.shape)
    (row : c.shape = .tuple ∨ c.shape = .array)
    (replaced : Item.replace c.items index (args.getD 2 .nil) = .ok d.items) :
    M.Changes op args (.inline v) (M.set i d) := by
  refine .writes alters first content shape ?_ (fun x hx => ?_) ?_
  · rcases row with h | h <;> rw [h] <;> exact nofun
  · obtain hx | rfl := replace_eq_ok replaced x hx
    · exact .inl hx
    · exact .inr (mem_or_nil_of_getD args 2)
  · rintro entries rfl
    rcases row with h | h <;> rw [h] at shape <;> cases shape

theorem of_call (h : M.call op args = .ok (x, M')) : M.Changes op args x M' := by
  cases op with
  | tupleNew =>
    obtain ⟨n, -, h⟩ := exists_of_bind_ok h
    split at h
    · cases h
    · cases h
      exact .makes (c := .tuple _) (fun x hx => (List.mem_replicate.mp hx).2) nofun
  | tupleGet =>
    obtain ⟨⟨i, xs⟩, hfirst, h⟩ := exists_of_bind_ok h
    obtain ⟨n, -, h⟩ := exists_of_bind_ok h
    obtain ⟨y, hy, h⟩ := exists_of_bind_ok h
    cases h
    exact of_read (tuple_eq_ok hfirst).2 (element_eq_ok hy)
  | tupleSet =>
    obtain ⟨⟨i, xs⟩, hfirst, h⟩ := exists_of_bind_ok h
    obtain ⟨n, -, h⟩ := exists_of_bind_ok h
    obtain ⟨ys, hys, h⟩ := exists_of_bind_ok h
    cases h
    obtain ⟨hfirst, hc⟩ := tuple_eq_ok hfirst
    exact of_replace (c := .tuple xs) (d := .tuple ys) rfl hfirst hc rfl (.inl rfl) hys
  | tupleLength =>
    obtain ⟨⟨i, xs⟩, -, h⟩ := exists_of_bind_ok h
    cases h
    exact .reads (.inl ⟨_, rfl⟩)
  | arrayNew =>
    cases h
    exact .makes (c := .array _) nofun nofun
  | arrayPush =>
    unfold call at h
    dsimp only at h
    split at h
    · cases h
    obtain ⟨⟨i, xs⟩, hfirst, h⟩ := exists_of_bind_ok h
    cases h
    obtain ⟨hfirst, hc⟩ := array_eq_ok.mp hfirst
    refine .writes (c := .array xs) rfl hfirst hc rfl nofun (fun x hx => ?_) nofun
    obtain hx | hx := List.mem_append.mp hx
    · exact .inl hx
    · obtain rfl := List.mem_singleton.mp hx
      exact .inr (mem_or_nil_of_getD args 1)
  | arrayGet =>
    obtain ⟨⟨i, xs⟩, hfirst, h⟩ := exists_of_bind_ok h
    obtain ⟨n, -, h⟩ := exists_of_bind_ok h
    obtain ⟨y, hy, h⟩ := exists_of_bind_ok h
    cases h
    exact of_read (array_eq_ok.mp hfirst).2 (element_eq_ok hy)
  | arraySet =>
    obtain ⟨⟨i, xs⟩, hfirst, h⟩ := exists_of_bind_ok h
    obtain ⟨n, -, h⟩ := exists_of_bind_ok h
    obtain ⟨ys, hys, h⟩ := exists_of_bind_ok h
    cases h
    obtain ⟨hfirst, hc⟩ := array_eq_ok.mp hfirst
    exact of_replace (c := .array xs) (d := .array ys) rfl hfirst hc rfl (.inr rfl) hys
  | arrayLength =>
    obtain ⟨⟨i, xs⟩, -, h⟩ := exists_of_bind_ok h
    cases h
    exact .reads (.inl ⟨_, rfl⟩)
  | tableNew =>
    cases h
    refine .makes (c := .table _) nofun fun entries heq => ?_
    cases heq
    rfl
  | tableGet =>
    obtain ⟨⟨i, entries⟩, hfirst, h⟩ := exists_of_bind_ok h
    cases h
    refine of_read (table_eq_ok.mp hfirst).2 ?_
    obtain hnil | ⟨e, he, heq⟩ := M.lookup_mem (args.getD 1 .nil) entries
    · exact .inr hnil
    · exact .inl (mem_items_table.mpr ⟨e, he, .inr heq⟩)
  | tableSet =>
    unfold call at h
    dsimp only at h
    split at h
    · cases h
    obtain ⟨⟨i, entries⟩, hfirst, h⟩ := exists_of_bind_ok h
    cases h
    obtain ⟨hfirst, hc⟩ := table_eq_ok.mp hfirst
    refine .writes (c := .table entries) rfl hfirst hc rfl nofun (fun x hx => ?_) ?_
    · obtain hx | rfl | rfl := mem_items_put hx
      · exact .inl hx
      · exact .inr (mem_or_nil_of_getD args 1)
      · exact .inr (mem_or_nil_of_getD args 2)
    · intro entries' heq
      cases heq
      exact ⟨entries, _, _, rfl, rfl⟩
  | tableLength =>
    obtain ⟨⟨i, entries⟩, -, h⟩ := exists_of_bind_ok h
    cases h
    exact .reads (.inl ⟨_, rfl⟩)
  | selfPid | spawn | giveTurn | exit | raise | kill | stringLength | stringConcat
  | stringEqual => cases h

end Changes

/-! ## What a call answers -/

namespace Answers

variable (h : M.Answers op args outcome N)

include h

/-- A call that is right is answered, unless there is no memory for it. -/
theorem of_ok (call : M.call op args = .ok (x, M')) :
    (outcome = .ok x ∧ N = M') ∨ (op.Allocates ∧ N = M ∧
      ∃ requested limit, outcome = .error (.heap (.outOfMemory requested limit))) := by
  cases h with
  | done call' =>
    rw [call] at call'
    cases call'
    exact .inl ⟨rfl, rfl⟩
  | full _ allocates => exact .inr ⟨allocates, rfl, _, _, rfl⟩
  | outside call' | misused call' =>
    rw [call] at call'
    cases call'

/-- An index that is out of bounds is refused. -/
theorem of_index {index : Int} {length : Nat}
    (call : M.call op args = .error (.index index length)) :
    outcome = .error (.heap (.indexOutOfBounds index length)) ∧ N = M := by
  cases h with
  | outside call' =>
    rw [call] at call'
    cases call'
    exact ⟨rfl, rfl⟩
  | done call' | full call' | misused call' =>
    rw [call] at call'
    cases call'

/-- Arguments of the wrong kinds are refused, and not for want of memory. -/
theorem of_misuse (call : M.call op args = .error .misuse) :
    ∃ e, outcome = .error e ∧ (∀ e', e ≠ .heap e') ∧ N = M := by
  cases h with
  | misused _ plain => exact ⟨_, rfl, plain, rfl⟩
  | done call' | full call' | outside call' =>
    rw [call] at call'
    cases call'

end Answers

theorem Responds.answers (h : M.Responds op args outcome N) (collects : op.Collects) :
    M.Answers op args outcome N := by
  cases h with
  | library _ answers => exact answers
  | inline other | string _ other | failed _ other => exact absurd collects other

/-! ## What all events keep -/

theorem known_append {N : Contents} (h : x.Known M) : x.Known (M ++ N) :=
  (Grows.append M N).known h

/-- Objects may be added whose items are known then. -/
theorem Sound.append (h : M.Sound) {N : Contents} (known : ∀ c ∈ N, ∀ x ∈ c.items, x.Known (M ++ N))
    (unequal : ∀ entries, .table entries ∈ N →
      (entries.map Prod.fst).Pairwise fun x y => ¬(M ++ N).equal x y) : Sound (M ++ N) where
  known c hc x hx := by
    obtain hc | hc := List.mem_append.mp hc
    · exact known_append (h.known c hc x hx)
    · exact known c hc x hx
  unequal entries he := by
    obtain he | he := List.mem_append.mp he
    · have hknown : ∀ x ∈ entries.map Prod.fst, x.Known M := by
        intro x hx
        obtain ⟨e, hmem, rfl⟩ := List.mem_map.mp hx
        exact h.known _ he _ (mem_items_table.mpr ⟨e, hmem, .inl rfl⟩)
      refine (h.unequal entries he).imp_of_mem fun {x y} hx hy hne => ?_
      rwa [(Grows.append M N).equal (hknown x hx) (hknown y hy)]
    · exact unequal entries he

/-- An object without items may be added, and one that is not a table. -/
theorem Sound.snoc (h : M.Sound) {c : Content} (known : ∀ x ∈ c.items, x.Known (M ++ [c]))
    (plain : ∀ entries, c = .table entries → entries = []) : Sound (M ++ [c]) := by
  refine h.append (fun d hd => ?_) fun entries he => ?_
  · obtain rfl := List.mem_singleton.mp hd
    exact known
  · rw [plain entries (List.mem_singleton.mp he).symm]
    exact .nil

/-- A new string refers to nothing. -/
theorem Sound.addString (h : M.Sound) (bytes : ByteArray) :
    Sound (M ++ [.string bytes]) := h.snoc nofun nofun

theorem known_shift {N : Contents} (h : x.Known N) :
    (x.shift M.length).Known (M ++ N.map (Content.shift M.length)) := by
  cases x with
  | inline v => trivial
  | object s i =>
    show M.length + i < _
    rw [List.length_append, List.length_map]
    exact Nat.add_lt_add_left h M.length

/-- What is equal elsewhere is equal here. -/
theorem equal_shift {N : Contents} (x y : Item) :
    (M ++ N.map (Content.shift M.length)).equal (x.shift M.length) (y.shift M.length) =
    N.equal x y := by
  have hbytes : ∀ i, (M ++ N.map (Content.shift M.length)).bytesAt (M.length + i) =
      N.bytesAt i := by
    intro i
    unfold bytesAt
    rw [List.getElem?_append_right (Nat.le_add_right _ _), Nat.add_sub_cancel_left,
      List.getElem?_map]
    cases N[i]? with
    | none => rfl
    | some c => cases c <;> rfl
  cases x with
  | inline v => cases y <;> rfl
  | object s i =>
    cases y with
    | inline w => cases s <;> rfl
    | object s' j =>
      have hindex : (M.length + i == M.length + j) = (i == j) := by
        rw [Bool.eq_iff_iff, beq_iff_eq, beq_iff_eq, Nat.add_left_cancel_iff]
      cases s <;> cases s' <;> simp only [equal, Item.shift, hbytes, hindex]

/-- The objects of another program may be added. -/
theorem Sound.join {N : Contents} (h : M.Sound) (h' : N.Sound) :
    Sound (M ++ N.map (Content.shift M.length)) := by
  refine h.append (fun c hc x hx => ?_) fun entries he => ?_
  · obtain ⟨d, hd, rfl⟩ := List.mem_map.mp hc
    rw [Content.items_shift] at hx
    obtain ⟨y, hy, rfl⟩ := List.mem_map.mp hx
    exact known_shift (h'.known d hd y hy)
  · obtain ⟨d, hd, heq⟩ := List.mem_map.mp he
    cases d with
    | table entries' =>
      cases heq
      have := h'.unequal entries' hd
      rw [List.map_map]
      rw [List.pairwise_map] at this ⊢
      exact this.imp fun {x y} hne => by
        show ¬(_ : Contents).equal (x.1.shift M.length) (y.1.shift M.length)
        rwa [equal_shift]
    | _ => cases heq

namespace Changes

variable (h : M.Changes op args x N)

include h

theorem grows : Grows M N := by
  cases h with
  | reads => exact .refl M
  | makes => exact .append M _
  | writes _ _ content shape other => exact .set content shape other

/-- Only the first argument changes, and only by an operation that changes objects of its shape. -/
theorem others {i : Nat} {c : Content} (hc : M[i]? = some c)
    (other : ¬(op.alters? = some c.shape ∧ args.getD 0 .nil = .object c.shape i)) :
    N[i]? = some c := by
  cases h with
  | reads => exact hc
  | makes =>
    rw [List.getElem?_append_left (List.getElem?_eq_some_iff.mp hc).1]
    exact hc
  | @writes j d d' v alters first content =>
    refine (List.getElem?_set_ne fun heq => ?_).trans hc
    subst heq
    rw [content] at hc
    cases hc
    exact other ⟨alters, first⟩

theorem sound (before : M.Sound) (known : ∀ x ∈ args, x.Known M) : N.Sound ∧ x.Known N := by
  have grows := h.grows
  cases h with
  | reads answer =>
    refine ⟨before, ?_⟩
    obtain ⟨v, rfl⟩ | ⟨c, hc, hx⟩ := answer
    · trivial
    · exact before.known c hc x hx
  | makes empty plain =>
    refine ⟨before.snoc (fun x hx => empty x hx ▸ trivial) plain, ?_⟩
    show M.length < _
    rw [List.length_append]
    exact Nat.lt_succ_self _
  | @writes i c c' v _ _ content shape other items table =>
    have hc := List.mem_of_getElem? content
    refine ⟨⟨fun d hd x hx => grows.known ?_, fun entries he => ?_⟩, trivial⟩
    · obtain hd | rfl := List.mem_or_eq_of_mem_set hd
      · exact before.known d hd x hx
      · obtain hx | hx | rfl := items x hx
        · exact before.known c hc x hx
        · exact known x hx
        · trivial
    · have hstays : ∀ {keys : List Item}, (∀ x ∈ keys, x.Known M) →
        keys.Pairwise (fun x y => ¬M.equal x y) →
          keys.Pairwise fun x y => ¬Contents.equal (M.set i c') x y := fun hknown hne =>
        hne.imp_of_mem fun hx hy hne => by rwa [grows.equal (hknown _ hx) (hknown _ hy)]
      obtain he | rfl := List.mem_or_eq_of_mem_set he
      · refine hstays (fun x hx => ?_) (before.unequal entries he)
        obtain ⟨e, hmem, rfl⟩ := List.mem_map.mp hx
        exact before.known _ he _ (mem_items_table.mpr ⟨e, hmem, .inl rfl⟩)
      · obtain ⟨entries', key, w, rfl, rfl⟩ := table entries rfl
        refine hstays (fun x hx => ?_) (pairwise_put (before.unequal entries' hc) key w)
        obtain ⟨e, hmem, rfl⟩ := List.mem_map.mp hx
        obtain hx | hx | hx := items e.1 (mem_items_table.mpr ⟨e, hmem, .inl rfl⟩)
        · exact before.known _ hc _ hx
        · exact known _ hx
        · exact hx ▸ trivial

end Changes

namespace Responds

variable (h : M.Responds op args outcome N)

include h

/-- What has failed has changed nothing, and what has not has only done what a call may do. -/
theorem changes : (∃ e, outcome = .error e ∧ N = M) ∨ ∃ x, outcome = .ok x ∧
    M.Changes op args x N := by
  cases h with
  | library collects answers =>
    cases answers with
    | done call => exact .inr ⟨_, rfl, .of_call call⟩
    | full | outside | misused => exact .inl ⟨_, rfl, rfl⟩
  | inline => exact .inr ⟨_, rfl, .reads (.inl ⟨_, rfl⟩)⟩
  | string => exact .inr ⟨_, rfl, .makes (c := .string _) nofun nofun⟩
  | failed => exact .inl ⟨_, rfl, rfl⟩

theorem grows : Grows M N := by
  obtain ⟨e, -, rfl⟩ | ⟨x, -, changes⟩ := h.changes
  · exact .refl _
  · exact changes.grows

theorem others {i : Nat} {c : Content} (hc : M[i]? = some c)
    (other : ¬(op.alters? = some c.shape ∧ args.getD 0 .nil = .object c.shape i)) :
    N[i]? = some c := by
  obtain ⟨e, -, rfl⟩ | ⟨x, -, changes⟩ := h.changes
  · exact hc
  · exact changes.others hc other

theorem sound (before : M.Sound) (known : ∀ x ∈ args, x.Known M) :
    N.Sound ∧ ∀ x, outcome = .ok x → x.Known N := by
  obtain ⟨e, rfl, rfl⟩ | ⟨x, rfl, changes⟩ := h.changes
  · exact ⟨before, nofun⟩
  · obtain ⟨after, hx⟩ := changes.sound before known
    refine ⟨after, fun y hy => ?_⟩
    cases hy
    exact hx

end Responds

namespace Meets

variable {e : Event} (h : M.Meets e N)

include h

theorem grows : Grows M N := by
  cases h with
  | called _ responds => exact responds.grows
  | made => exact .append M _

theorem sound (before : M.Sound) : N.Sound := by
  cases h with
  | called known responds => exact (responds.sound before known).1
  | made sound => exact sound

end Meets

namespace Becomes

variable {events events' : List Event} {e : Event}

theorem grows (h : Becomes M events N) : Grows M N := by
  induction h with
  | refl => exact .refl M
  | snoc _ last ih => exact ih.trans last.grows

theorem sound (h : Becomes M events N) (before : M.Sound) : N.Sound := by
  induction h with
  | refl => exact before
  | snoc _ last ih => exact last.sound ih

theorem trans (h : Becomes M events N) (h' : Becomes N events' N') :
    Becomes M (events ++ events') N' := by
  induction h' with
  | refl => rwa [List.append_nil]
  | snoc _ last ih =>
    rw [← List.append_assoc]
    exact .snoc ih last

/-- What the last event has found. -/
theorem last (h : Becomes M (events ++ [e]) N') : ∃ N, Becomes M events N ∧ N.Meets e N' := by
  generalize hall : events ++ [e] = all at h
  cases h with
  | refl => exact absurd hall (List.append_ne_nil_of_right_ne_nil _ nofun)
  | snoc before last =>
    obtain ⟨rfl, hlast⟩ := List.append_inj' hall rfl
    cases hlast
    exact ⟨_, before, last⟩

/-- What objects are at any time. -/
theorem split (h : Becomes M (events ++ events') N') :
    ∃ N, Becomes M events N ∧ Becomes N events' N' := by
  induction events' using List.reverseRecOn generalizing N' with
  | nil => exact ⟨N', by rwa [List.append_nil] at h, .refl⟩
  | append_singleton rest e ih =>
    rw [← List.append_assoc] at h
    obtain ⟨N₀, before, last⟩ := h.last
    obtain ⟨N, first, second⟩ := ih before
    exact ⟨N, first, .snoc second last⟩

/-- What a call has found, and what it has left. -/
theorem split_called (h : Becomes M (events ++ .called op args outcome :: events') N') :
    ∃ N N₁, Becomes M events N ∧ (∀ x ∈ args, x.Known N) ∧ N.Responds op args outcome N₁ ∧
      Becomes N₁ events' N' := by
  rw [List.append_cons] at h
  obtain ⟨N₁, first, second⟩ := h.split
  obtain ⟨N, before, last⟩ := first.last
  cases last with
  | called known responds => exact ⟨N, N₁, before, known, responds, second⟩

/-- What objects come to be besides those that have been there. -/
theorem split_made {objects : Contents} (h : Becomes M (events ++ .made objects :: events') N') :
    ∃ N, Becomes M events N ∧ Sound (N ++ objects) ∧ Becomes (N ++ objects) events' N' := by
  rw [List.append_cons] at h
  obtain ⟨N₁, first, second⟩ := h.split
  obtain ⟨N, before, last⟩ := first.last
  cases last with
  | made sound => exact ⟨N, before, sound, second⟩

end Becomes

/-- A call changes no object but the one that is its first argument, and none at all if it fails. -/
def Undisturbed (M : Contents) (events : List Event) (N : Contents) : Prop :=
  ∀ (before : List Event) (op : Operation) (args : List Item) (outcome : Except Fault Item)
    (after : List Event),
    events = before ++ .called op args outcome :: after → ∃ L L', M.Becomes before L ∧
      L'.Becomes after N ∧
      (∀ (i : Nat) (c : Content), L[i]? = some c → args.getD 0 .nil ≠ .object c.shape i →
        L'[i]? = some c) ∧
      ∀ e, outcome = .error e → L' = L

theorem Becomes.undisturbed {events : List Event} (h : M.Becomes events N) :
    M.Undisturbed events N := by
  rintro before op args outcome after rfl
  obtain ⟨L, L', past, -, responds, future⟩ := h.split_called
  refine ⟨L, L', past, future, fun i c hc other => responds.others hc fun h => other h.2, ?_⟩
  rintro e rfl
  obtain ⟨_, -, rfl⟩ | ⟨_, heq, -⟩ := responds.changes
  · rfl
  · cases heq

end Contents

end ActorMachine
