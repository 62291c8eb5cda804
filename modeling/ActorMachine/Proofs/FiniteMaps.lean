import ActorMachine.Proofs.Deeds

/-!
# Tables are finite maps

In every life of an actor, whatever else happens to it, a table is a map: of each key it has the
value that has been set last, and as many entries as there are keys that are not equal to one
another (`Contents.MapAt`). Its calls answer what the map says. No program gets hold of the store
behind it (`Actor.Lives.tables_are_maps`).
-/

namespace ActorMachine

/-- The operations on tables that there are. -/
def Operation.OnTables (op : Operation) : Prop :=
  op = .tableSet ∨ op = .tableGet ∨ op = .tableLength

/-- The key and the value that an event sets in a table, if it does and succeeds. -/
def Event.sets (i : Nat) : Event → List (Item × Item)
  | .called .tableSet args (.ok _) =>
    if args.getD 0 .nil = .object .table i then [(args.getD 1 .nil, args.getD 2 .nil)] else []
  | _ => []

/-- The value that has been set last for a key, or nil. -/
def Contents.latest (M : Contents) (key : Item) (sets : List (Item × Item)) : Item :=
  match sets.reverse.find? fun e => M.equal e.1 key with
  | some e => e.2
  | none => .nil

/-- The number of keys that are not equal to one another. -/
def Contents.size (M : Contents) (sets : List (Item × Item)) : Nat :=
  (M.distinct (sets.map Prod.fst)).length

/-- What calls answer whose first argument is a table in which some values have been set. -/
inductive Item.TableAnswers (M : Contents) (sets : List (Item × Item)) (args : List Item) :
    Operation → Except Fault Item → Prop
  | get : TableAnswers M sets args .tableGet (.ok (M.latest (args.getD 1 .nil) sets))
  | set (given : 3 ≤ args.length) : TableAnswers M sets args .tableSet (.ok .nil)
  | setFull (given : 3 ≤ args.length) (requested limit : Nat) :
    TableAnswers M sets args .tableSet (.error (.heap (.outOfMemory requested limit)))
  | setNothing {e : Fault} (missing : args.length < 3) (plain : e.Plain) :
    TableAnswers M sets args .tableSet (.error e)
  | length : TableAnswers M sets args .tableLength (.ok (.count (M.size sets)))

namespace Contents

variable {M N N' : Contents} {op : Operation} {args : List Item}
    {outcome : Except Fault Item} {i : Nat}
  {entries sets : List (Item × Item)} {events : List Event}

/-! ## Sets -/

/-- Entries whose keys are not equal to one another may have been set one after the other. -/
theorem entriesOf_self (unequal : (entries.map Prod.fst).Pairwise fun x y => ¬M.equal x y) :
    M.entriesOf [] entries = entries := by
  induction entries using List.reverseRecOn with
  | nil => rfl
  | append_singleton entries e ih =>
    rw [List.map_append, List.pairwise_append] at unequal
    rw [entriesOf_append, ih unequal.1]
    refine (put_of_find_none (List.findIdx?_eq_none_iff.mpr fun d hd => ?_)).1
    exact Bool.eq_false_iff.mpr
      (unequal.2.2 d.1 (List.mem_map_of_mem hd) e.1 (List.mem_map_of_mem List.mem_cons_self))

/-- Values that are set one after the other leave keys that are not equal to one another. -/
theorem unequal_entriesOf (sets : List (Item × Item)) :
    ((M.entriesOf [] sets).map Prod.fst).Pairwise fun x y => ¬M.equal x y := by
  induction sets using List.reverseRecOn with
  | nil => exact .nil
  | append_singleton sets e ih =>
    rw [entriesOf_append]
    exact pairwise_put ih e.1 e.2

/-- The value of a key is the one that has been set last. -/
theorem lookup_eq_latest (key : Item) (sets : List (Item × Item)) :
    M.lookup key (M.entriesOf [] sets) = M.latest key sets :=
  lookup_entriesOf key [] sets

/-- There is one entry for each key. -/
theorem length_entriesOf (sets : List (Item × Item)) :
    (M.entriesOf [] sets).length = M.size sets := by
  rw [size, ← keys_entriesOf, List.length_map]

theorem distinct_append (keys : List Item) (key : Item) : M.distinct (keys ++ [key]) =
    if (M.distinct keys).any (M.equal · key) then M.distinct keys else M.distinct keys ++ [key] :=
  List.foldl_append

/-- Of keys that are equal one is left. -/
theorem any_distinct (keys : List Item) (key : Item) :
    (M.distinct keys).any (M.equal · key) = keys.any (M.equal · key) := by
  induction keys using List.reverseRecOn with
  | nil => rfl
  | append_singleton keys k ih =>
    rw [distinct_append, List.any_append, List.any_cons, List.any_nil, Bool.or_false]
    split
    · rename_i again
      rw [ih]
      by_cases hkey : M.equal k key
      · obtain ⟨d, hd, hequal⟩ := List.any_eq_true.mp again
        rw [hkey, Bool.or_true, ← ih]
        exact List.any_eq_true.mpr ⟨d, hd, equal_trans hequal hkey⟩
      · rw [Bool.eq_false_iff.mpr hkey, Bool.or_false]
    · rw [List.any_append, ih, List.any_cons, List.any_nil, Bool.or_false]

/-- A key that has been set before makes a table no greater. -/
theorem size_append {e : Item × Item} (again : ∃ d ∈ sets, M.equal d.1 e.1) :
    M.size (sets ++ [e]) = M.size sets := by
  obtain ⟨d, hd, hequal⟩ := again
  unfold size
  rw [List.map_append, List.map_singleton, distinct_append, if_pos]
  rw [any_distinct]
  exact List.any_eq_true.mpr ⟨d.1, List.mem_map_of_mem hd, hequal⟩

/-! ## Keys stay what they are -/

/-- All keys are known. -/
def KeysKnown (M : Contents) (entries : List (Item × Item)) : Prop :=
  ∀ e ∈ entries, e.1.Known M

namespace Grows

variable (h : Grows M N) {key v : Item}

include h

theorem keysKnown (known : KeysKnown M entries) : KeysKnown N entries :=
  fun e he => h.known (known e he)

theorem put (known : KeysKnown M entries) (hkey : key.Known M) :
    N.put key v entries = M.put key v entries := by
  induction entries with
  | nil => rfl
  | cons e entries ih =>
    unfold Contents.put
    rw [h.equal (known e List.mem_cons_self) hkey, ih fun d hd =>
      known d (List.mem_cons_of_mem _ hd)]

theorem lookup (known : KeysKnown M entries) (hkey : key.Known M) :
    N.lookup key entries = M.lookup key entries := by
  induction entries with
  | nil => rfl
  | cons e entries ih =>
    unfold Contents.lookup
    rw [h.equal (known e List.mem_cons_self) hkey, ih fun d hd =>
      known d (List.mem_cons_of_mem _ hd)]

theorem entriesOf (known : KeysKnown M sets) : N.entriesOf [] sets = M.entriesOf [] sets ∧
    KeysKnown M (M.entriesOf [] sets) := by
  induction sets using List.reverseRecOn with
  | nil => exact ⟨rfl, nofun⟩
  | append_singleton sets e ih =>
    have hkey : e.1.Known M := known e (List.mem_append_right _ List.mem_cons_self)
    obtain ⟨heq, hentries⟩ := ih fun d hd => known d (List.mem_append_left _ hd)
    rw [entriesOf_append, entriesOf_append, heq]
    refine ⟨h.put hentries hkey, fun d hd => ?_⟩
    obtain ⟨heq | ⟨d', hd', heq⟩, -⟩ := mem_put hd
    · exact heq ▸ hkey
    · exact heq ▸ hentries d' hd'

theorem latest (known : KeysKnown M sets) (hkey : key.Known M) :
    N.latest key sets = M.latest key sets := by
  obtain ⟨heq, hentries⟩ := h.entriesOf known
  rw [← lookup_eq_latest, ← lookup_eq_latest, heq, h.lookup hentries hkey]

theorem size (known : KeysKnown M sets) : N.size sets = M.size sets := by
  rw [← length_entriesOf, ← length_entriesOf, (h.entriesOf known).1]

end Grows

/-! ## What becomes of a table -/

/-- What a call does to the table that is its first argument. -/
theorem Answers.table (h : N.Answers op args outcome N') (on : op.OnTables)
    (first : args.getD 0 .nil = .object .table i)
    (hc : N[i]? = some (.table (N.entriesOf [] sets))) :
    Item.TableAnswers N sets args op outcome ∧
      N'[i]? = some (.table (N.entriesOf [] (sets ++ Event.sets i (.called op args outcome)))) := by
  have htable : N.table args = .ok (i, N.entriesOf [] sets) := table_eq_ok.mpr ⟨first, hc⟩
  have hstill : N[i]? = some (.table (N.entriesOf [] (sets ++ []))) := by rwa [List.append_nil]
  obtain rfl | rfl | rfl := on
  · by_cases few : args.length < 3
    · have call : N.call .tableSet args = .error .misuse := by
        simp only [call, if_pos few]
        rfl
      obtain ⟨e, rfl, plain, rfl⟩ := h.of_misuse call
      exact ⟨.setNothing few plain, hstill⟩
    · have call : N.call .tableSet args = .ok (.nil,
          N.set i (.table (N.put (args.getD 1 .nil) (args.getD 2 .nil)
            (N.entriesOf [] sets)))) := by
        simp only [call, if_neg few, htable]
        rfl
      obtain ⟨rfl, rfl⟩ | ⟨-, rfl, requested, limit, rfl⟩ := h.of_ok call
      · refine ⟨.set (Nat.le_of_not_lt few), ?_⟩
        rw [List.getElem?_set_self (List.getElem?_eq_some_iff.mp hc).1, Event.sets, if_pos first,
          entriesOf_append]
        rfl
      · exact ⟨.setFull (Nat.le_of_not_lt few) requested limit, hstill⟩
  · have call : N.call .tableGet args = .ok (N.latest (args.getD 1 .nil) sets, N) := by
      simp only [call, htable, ← lookup_eq_latest]
      rfl
    obtain ⟨rfl, rfl⟩ | ⟨allocates, -⟩ := h.of_ok call
    · exact ⟨.get, hstill⟩
    · exact absurd allocates (by decide)
  · have call : N.call .tableLength args = .ok (.count (N.size sets), N) := by
      simp only [call, htable, ← length_entriesOf]
      rfl
    obtain ⟨rfl, rfl⟩ | ⟨allocates, -⟩ := h.of_ok call
    · exact ⟨.length, hstill⟩
    · exact absurd allocates (by decide)

/-- What any event makes of a table. -/
theorem Meets.table {e : Event} (h : N.Meets e N') (known : KeysKnown N sets)
    (hc : N[i]? = some (.table (N.entriesOf [] sets))) :
    KeysKnown N' (sets ++ e.sets i) ∧
    N'[i]? = some (.table (N'.entriesOf [] (sets ++ e.sets i))) := by
  have grows := h.grows
  suffices after : KeysKnown N (sets ++ e.sets i) ∧
    N'[i]? = some (.table (N.entriesOf [] (sets ++ e.sets i))) by
    exact ⟨grows.keysKnown after.1, by rw [(grows.entriesOf after.1).1, after.2]⟩
  cases h with
  | @called op args outcome _ hargs responds =>
    by_cases altered : op.alters? = some .table ∧ args.getD 0 .nil = .object .table i
    · obtain ⟨alters, first⟩ := altered
      obtain rfl : op = .tableSet := by
        cases op <;> cases alters
        rfl
      refine ⟨fun d hd => ?_, ((responds.answers (by decide)).table (.inl rfl) first hc).2⟩
      obtain hold | hnew := List.mem_append.mp hd
      · exact known d hold
      · unfold Event.sets at hnew
        split at hnew
        · rename_i heq
          cases heq
          rw [if_pos first] at hnew
          obtain rfl := List.mem_singleton.mp hnew
          exact known_getD hargs 1
        · cases hnew
    · have hsets : Event.sets i (.called op args outcome) = [] := by
        unfold Event.sets
        split
        · rename_i heq
          cases heq
          exact if_neg fun first => altered ⟨rfl, first⟩
        · rfl
      rw [hsets, List.append_nil]
      exact ⟨known, responds.others hc altered⟩
  | made =>
    show KeysKnown N (sets ++ []) ∧ _ = some (Content.table (N.entriesOf [] (sets ++ [])))
    rw [List.append_nil, List.getElem?_append_left (List.getElem?_eq_some_iff.mp hc).1]
    exact ⟨known, hc⟩

/-- A table is what the values that have been set have made of it. -/
theorem Becomes.table (h : M.Becomes events N) (known : KeysKnown M sets)
    (hc : M[i]? = some (.table (M.entriesOf [] sets))) :
    KeysKnown N (sets ++ events.flatMap (Event.sets i)) ∧
      N[i]? = some (.table (N.entriesOf [] (sets ++ events.flatMap (Event.sets i)))) := by
  induction h with
  | refl =>
    rw [List.flatMap_nil, List.append_nil]
    exact ⟨known, hc⟩
  | snoc _ last ih =>
    rw [List.flatMap_append, List.flatMap_singleton, ← List.append_assoc]
    exact last.table ih.1 ih.2

end Contents

/-- A table in which some values have been set is a map throughout some events: no two of its keys
are equal, its calls answer what has been set last, and it has as many entries as there are keys
that are not equal to one another. The entries are in the order in which their keys have been set
first. -/
structure Contents.MapAt (i : Nat) (sets : List (Item × Item)) (events : List Event)
    (N : Contents) : Prop where
  answered : ∀ (before : List Event) (op : Operation) (args : List Item)
    (outcome : Except Fault Item)
    (after : List Event), events = before ++ .called op args outcome :: after → op.OnTables →
    args.getD 0 .nil = .object .table i →
      Item.TableAnswers N (sets ++ before.flatMap (Event.sets i)) args op outcome
  entries : N[i]? = some (.table (N.entriesOf [] (sets ++ events.flatMap (Event.sets i))))
  unequal : ((N.entriesOf [] (sets ++ events.flatMap (Event.sets i))).map Prod.fst).Pairwise
    fun x y => ¬N.equal x y
  keys : (N.entriesOf [] (sets ++ events.flatMap (Event.sets i))).map Prod.fst =
    N.distinct ((sets ++ events.flatMap (Event.sets i)).map Prod.fst)
  values : ∀ key, N.lookup key (N.entriesOf [] (sets ++ events.flatMap (Event.sets i))) =
    N.latest key (sets ++ events.flatMap (Event.sets i))
  again : ∀ (before : List Event) (args : List Item) (x : Item) (after : List Event),
    events = before ++ .called .tableSet args (.ok x) :: after →
    args.getD 0 .nil = .object .table i →
    (∃ e ∈ sets ++ before.flatMap (Event.sets i), N.equal e.1 (args.getD 1 .nil)) →
      N.size (sets ++ before.flatMap (Event.sets i) ++ [(args.getD 1 .nil, args.getD 2 .nil)]) =
        N.size (sets ++ before.flatMap (Event.sets i))

theorem Contents.Becomes.mapAt {M N : Contents} {events : List Event} {i : Nat}
    {sets : List (Item × Item)} (h : M.Becomes events N) (known : KeysKnown M sets)
    (hc : M[i]? = some (.table (M.entriesOf [] sets))) :
    MapAt i sets events N where
  answered before op args outcome after hevents on first := by
    subst hevents
    obtain ⟨L, L', past, hargs, responds, future⟩ := h.split_called
    have collects : op.Collects := by rcases on with rfl | rfl | rfl <;> decide
    obtain ⟨known', hc'⟩ := past.table known hc
    have grows : L.Grows N := responds.grows.trans future.grows
    have answers := ((responds.answers collects).table on first hc').1
    cases answers with
    | get => rw [← grows.latest known' (known_getD hargs 1)]; exact .get
    | set given => exact .set given
    | setFull given requested limit => exact .setFull given requested limit
    | setNothing missing plain => exact .setNothing missing plain
    | length => rw [← grows.size known']; exact .length
  entries := (h.table known hc).2
  unequal := unequal_entriesOf _
  keys := keys_entriesOf _
  values key := lookup_eq_latest key _
  again _ _ _ _ _ _ again := size_append again

/-- All tables are maps throughout some events: those that have been there, those that messages
bring, and those that are made, which are empty at first. A call of one changes no other object. -/
structure Contents.Maps (M : Contents) (events : List Event) (N : Contents) : Prop where
  old : ∀ (i : Nat) (entries : List (Item × Item)), M[i]? = some (.table entries) →
    MapAt i entries events N
  brought : ∀ (before : List Event) (objects : Contents) (after : List Event),
    events = before ++ .made objects :: after → ∃ L, M.Becomes before L ∧
      ∀ (j : Nat) (entries : List (Item × Item)), objects[j]? = some (.table entries) →
        MapAt (L.length + j) entries after N
  new : ∀ (before : List Event) (args : List Item) (outcome : Except Fault Item)
    (after : List Event),
    events = before ++ .called .tableNew args outcome :: after → ∃ L, M.Becomes before L ∧
      ((outcome = .ok (.object .table L.length) ∧ MapAt L.length [] after N) ∨
        ∃ requested limit, outcome = .error (.heap (.outOfMemory requested limit)))
  others : M.Undisturbed events N

namespace Contents

/-- The entries of a table may have been set one after the other. -/
theorem Sound.table {M : Contents} (h : M.Sound) {i : Nat} {entries : List (Item × Item)}
    (hc : M[i]? = some (.table entries)) :
    KeysKnown M entries ∧ M.entriesOf [] entries = entries := by
  have hmem := List.mem_of_getElem? hc
  exact ⟨fun e he => h.known _ hmem _ (mem_items_table.mpr ⟨e, he, .inl rfl⟩),
    entriesOf_self (h.unequal _ hmem)⟩

theorem Becomes.maps {M N : Contents} {events : List Event} (h : M.Becomes events N)
    (sound : M.Sound) :
    M.Maps events N where
  old i entries hc := by
    obtain ⟨known, hself⟩ := sound.table hc
    exact h.mapAt known (hself.symm ▸ hc)
  brought before objects after hevents := by
    subst hevents
    obtain ⟨L, past, sound', future⟩ := h.split_made
    refine ⟨L, past, fun j entries hc => ?_⟩
    have hc' : (L ++ objects)[L.length + j]? = some (.table entries) := by
      rw [List.getElem?_append_right (Nat.le_add_right _ _), Nat.add_sub_cancel_left, hc]
    obtain ⟨known, hself⟩ := sound'.table hc'
    exact future.mapAt known (hself.symm ▸ hc')
  new before args outcome after hevents := by
    subst hevents
    obtain ⟨L, L', past, -, responds, future⟩ := h.split_called
    refine ⟨L, past, ?_⟩
    obtain ⟨rfl, rfl⟩ | ⟨-, -, full⟩ := (responds.answers (by decide)).of_ok rfl
    · refine .inl ⟨rfl, future.mapAt nofun ?_⟩
      rw [List.getElem?_append_right (Nat.le_refl _), Nat.sub_self]
      rfl
    · exact .inr full
  others := h.undisturbed

end Contents

namespace Actor

variable {κ : Type} [Kernel κ] {a b : Actor} {V : Sight} {deeds : List (Deed × Except Fault Unit)}

/-- In every life of a well-formed actor its tables are finite maps. Whatever operations of the
library it calls, with whatever arguments, and whatever else is allocated, changed, collected,
delivered or moved about meanwhile, and whether or not it succeeds: a table is empty when it is
made, a get answers the value that has been set last for a key that is equal, or nil, and the length
is the number of keys that are not equal to one another, so that it stays the same when a value is
replaced. Strings are equal when their bytes are, wherever they are, and other objects only to
themselves; a key that is not equal to itself is found by no get. The entries keep their order when
the table grows, and a set for which there is no memory changes nothing. A call changes only the
table that it is made with. -/
theorem Lives.tables_are_maps (life : a.Lives κ deeds b) (shows : a.Shows V) :
    ∃ events V', V.Course deeds events V' ∧ b.Shows V' ∧ b.Hides ∧
      V.objects.Maps events V'.objects := by
  obtain ⟨events, V', course, after⟩ := life.course shows
  obtain ⟨-, _, _, shown⟩ := id after
  exact ⟨events, V', course, after, shown.hides, (course.becomes shows.1).1.maps shows.1.objects⟩

/-- An actor makes a table and sets two values for a key, which is another string each time, and
after a collection it reads the value and the number of entries. -/
def replacing : List Deed :=
  let shell := create {}
  let key := "k".toUTF8
  [.call .tableNew 0 0, .string key, .arrange shell [.integer 1, .stack 1, .stack 0] [],
    .call .tableSet 3 3, .string key, .arrange shell [.integer 2, .stack 4, .stack 2] [],
    .call .tableSet 3 3, .collect 0, .arrange shell [.stack 1, .stack 2] [], .call .tableGet 2 2,
    .call .tableLength 2 1]

theorem Lives.tables_are_maps_replacing :
    ∃ b, (create {}).Lives Solitude (replacing.map (·, .ok ())) b ∧
      b.stack[2]? = some (.integer 2) ∧ b.stack[3]? = some (.integer 1) ∧ b.Hides ∧
      ∃ events V', Sight.Course ⟨[], [], []⟩ (replacing.map (·, .ok ())) events V' ∧ b.Shows V' ∧
        Contents.Maps [] events V'.objects := by
  have run : ((create {}).through? (⟨⟨0⟩⟩ : Solitude) replacing).map
    (fun b => (b.stack[2]?, b.stack[3]?)) =
      some (some (.integer 2), some (.integer 1)) := by decide +kernel
  obtain ⟨b, hb, hstack⟩ := Option.map_eq_some_iff.mp run
  obtain ⟨hvalue, hlength⟩ := Prod.mk.inj hstack
  have sound : ∀ d ∈ replacing, d.Sound := by simp [replacing, Deed.Sound]
  have life := Lives.refl.through sound hb
  obtain ⟨events, V', course, shows, hides, maps⟩ := life.tables_are_maps (shows_create {})
  exact ⟨b, life, hvalue, hlength, hides, events, V', course, shows, maps⟩

end Actor

end ActorMachine
