import ActorMachine.Proofs.Lists

/-!
# Tables in the heap

Two values are equal in the heap if what the program sees of them is equal (`Named.equal`), so a
search finds the entry that the contents have for a key (`Named.tableFind`). Setting the value of a
key stores it if there is an entry for the key already or room for one, and else changes nothing
(`Named.tableTrySet`). A table whose store is full gets another one without a change of its entries
(`Named.setTableStore`).
-/

namespace ActorMachine

open Memory

namespace Contents

variable {M : Contents} {key v : Item} {entries : List (Item × Item)}

/-- The number of the first entry with a key. -/
def find? (M : Contents) (key : Item) (entries : List (Item × Item)) : Option Nat :=
  entries.findIdx? fun e => M.equal e.1 key

theorem find?_cons (e : Item × Item) : M.find? key (e :: entries) =
    if M.equal e.1 key then some 0 else (M.find? key entries).map (· + 1) :=
  List.findIdx?_cons

/-- The items of some entries with another value for the entry with a given number. -/
theorem put_of_find {n : Nat} (found : M.find? key entries = some n) :
    n < entries.length ∧ (M.put key v entries).length = entries.length ∧
      (Content.table (M.put key v entries)).items =
      (Content.table entries).items.set (n * 2 + 1) v ∧
      (Content.table entries).items[n * 2 + 1]? = some (M.lookup key entries) := by
  induction entries generalizing n with
  | nil => cases found
  | cons e entries ih =>
    rw [find?_cons] at found
    unfold put lookup
    by_cases hkey : M.equal e.1 key
    · rw [if_pos hkey] at found
      cases found
      rw [if_pos hkey, if_pos hkey]
      exact ⟨Nat.succ_pos _, rfl, rfl, rfl⟩
    · rw [if_neg hkey, Option.map_eq_some_iff] at found
      obtain ⟨n, hn, rfl⟩ := found
      obtain ⟨hlt, hlength, hitems, hvalue⟩ := ih hn
      rw [if_neg hkey, if_neg hkey]
      have hindex : (n + 1) * 2 + 1 = n * 2 + 1 + 2 := by omega
      refine ⟨Nat.succ_lt_succ hlt, congrArg Nat.succ hlength, ?_, ?_⟩
      · rw [hindex]
        exact congrArg (fun xs => e.1 :: e.2 :: xs) hitems
      · rw [hindex]
        exact hvalue

theorem put_of_find_none (found : M.find? key entries = none) :
    M.put key v entries = entries ++ [(key, v)] ∧ M.lookup key entries = .nil := by
  induction entries with
  | nil => exact ⟨rfl, rfl⟩
  | cons e entries ih =>
    rw [find?_cons] at found
    unfold put lookup
    by_cases hkey : M.equal e.1 key
    · rw [if_pos hkey] at found
      cases found
    · rw [if_neg hkey, Option.map_eq_none_iff] at found
      obtain ⟨hput, hlookup⟩ := ih found
      rw [if_neg hkey, if_neg hkey, hput]
      exact ⟨rfl, hlookup⟩

/-- The key of an entry precedes its value. -/
theorem getElem?_key (entries : List (Item × Item)) (n : Nat) :
    (Content.table entries).items[n * 2]? = entries[n]?.map Prod.fst := by
  induction entries generalizing n with
  | nil => rfl
  | cons e entries ih =>
    cases n with
    | zero => rfl
    | succ n =>
      rw [Nat.succ_mul]
      exact ih n

end Contents

namespace Named

variable {ν : Naming} {M : Contents} {σ : Matching} {h : Heap} {i : Nat} {r u : Ref}
  {entries : List (Item × Item)} {x y : Item} {v w key : Value}

theorem stringBytes (named : Named ν M σ h.memory) (hi : ν .string i r) :
    h.memory.stringAt r = M.bytesAt i := by
  obtain ⟨c, hc, hshape, hlies⟩ := named.content hi
  cases c with
  | string bytes =>
    unfold Contents.bytesAt
    rw [hc]
    exact hlies.string bytes rfl
  | _ => cases hshape

/-- The hash that a string records is that of its bytes. -/
theorem stringHash (named : Named ν M σ h.memory) (hi : ν .string i r) :
    h.stringHash r = .ok (hashBytes (M.bytesAt i)) := by
  rw [Heap.stringHash_eq (named.isObject hi), (named.typed hi).2, named.stringBytes hi,
    UInt32.ofNat_toNat]

/-- Values are equal if what is seen of them is. -/
theorem equal (named : Named ν M σ h.memory) (hx : x.At ν v) (hy : y.At ν w) :
    h.equal v w = .ok (M.equal x y) := by
  cases hx with
  | @inline v hv =>
    cases hy with
    | @inline w hw => cases v <;> first | rfl | cases hv
    | object hj => cases v <;> first | rfl | cases hv
  | @object s i r hi =>
    cases hy with
    | @inline w hw => cases s <;> cases w <;> first | rfl | cases hw
    | @object s' j t hj =>
      by_cases strings : s = .string ∧ s' = .string
      · obtain ⟨rfl, rfl⟩ := strings
        show (if r = t then _ else _ : Except HeapError Bool) = _
        by_cases heq : r = t
        · obtain rfl := heq
          obtain rfl := (named.unique hi hj).mpr rfl
          rw [if_pos rfl]
          exact congrArg Except.ok (decide_eq_true rfl).symm
        · rw [if_neg heq, named.stringHash hi, named.stringHash hj]
          show (if hashBytes (M.bytesAt i) ≠ hashBytes (M.bytesAt j) then _ else
            _ : Except HeapError Bool) = _
          rw [Heap.stringBytes_eq (named.isObject hi), Heap.stringBytes_eq (named.isObject hj),
            named.stringBytes hi, named.stringBytes hj]
          by_cases hhash : hashBytes (M.bytesAt i) = hashBytes (M.bytesAt j)
          · rw [if_neg (not_not_intro hhash)]
            rfl
          · rw [if_pos hhash]
            refine congrArg Except.ok (decide_eq_false fun hdata => hhash ?_).symm
            rw [ByteArray.ext hdata]
      · -- Objects that are not both strings are equal if they are the same.
        have plain : h.equal (.object s r) (.object s' t) =
            .ok (Value.agrees (.object s r) (.object s' t)) := by
          cases s <;> cases s' <;> first | rfl | exact absurd ⟨rfl, rfl⟩ strings
        have items : M.equal (.object s i) (.object s' j) = (s == s' && i == j) := by
          cases s <;> cases s' <;> first | rfl | exact absurd ⟨rfl, rfl⟩ strings
        rw [plain, items]
        refine congrArg Except.ok ?_
        show (Value.object s r == Value.object s' t) = _
        rw [Bool.eq_iff_iff, beq_iff_eq, Bool.and_eq_true, beq_iff_eq, beq_iff_eq,
          Value.object.injEq, named.unique hi hj]

/-! ## Searching -/

/-- A search of a store from one entry on. -/
theorem findEntry (named : Named ν M σ h.memory) (hu : σ .tuple u u)
    (row : h.memory.Row ν u (Content.table entries).items) (hx : x.At ν key) (n count : Nat)
    (hn : n + count = entries.length) (room : entries.length * 2 ≤ h.memory.lengthAt u) :
    h.findEntry u key n count = .ok ((M.find? x (entries.drop n)).map (n + ·)) := by
  induction count generalizing n with
  | zero =>
    rw [List.drop_eq_nil_of_le (by omega)]
    rfl
  | succ count ih =>
    have hlt : n < entries.length := by omega
    have hget : h.tupleGet u (n * 2 : Nat) = .ok (h.memory.slotAt u (n * 2)) := by
      rw [Heap.tupleGet_eq (named.iso.left.isObject ⟨_, hu⟩), if_pos (by omega)]
      rfl
    have hkey : (entries[n].1).At ν (h.memory.slotAt u (n * 2)) := by
      refine row _ _ ?_
      rw [Contents.getElem?_key, List.getElem?_eq_getElem hlt]
      rfl
    unfold Heap.findEntry
    rw [hget, List.drop_eq_getElem_cons hlt, Contents.find?_cons]
    show (h.equal _ _ >>= _) = _
    rw [named.equal hkey hx]
    show (if M.equal entries[n].1 x = true then _ else _ : Except HeapError (Option Nat)) = _
    by_cases hequal : M.equal entries[n].1 x
    · rw [if_pos hequal, if_pos hequal]
      rfl
    · rw [if_neg hequal, if_neg hequal, ih (n + 1) (by omega), Option.map_map]
      congr 2
      funext k
      show n + 1 + k = n + (k + 1)
      omega

theorem tableLength (named : Named ν M σ h.memory) (hi : ν .table i r)
    (hc : M[i]? = some (.table entries)) :
    h.tableLength r = .ok entries.length := by
  rw [Heap.tableLength_eq (named.isObject hi), (named.lies hi hc).2.count nofun]
  rfl

/-- What is known of a table. -/
theorem table (named : Named ν M σ h.memory) (hi : ν .table i r)
    (hc : M[i]? = some (.table entries)) :
    (h.memory.slotAt r 0 = .nil ∧ entries = []) ∨
      ∃ u, h.memory.slotAt r 0 = .object .tuple u ∧ σ .tuple u u ∧
        entries.length * 2 ≤ h.memory.lengthAt u ∧ h.memory.Private ν r u ∧
        h.memory.Row ν u (Content.table entries).items := by
  have hlength : (Content.table entries).items.length = entries.length * 2 :=
    Content.length_items (c := .table entries) (.inr rfl)
  obtain ⟨hnil, hnone⟩ | ⟨u, slot, hu, room, own, row⟩ :=
    named.stored (c := .table entries) hi (named.lies hi hc).2 (.inr rfl)
  · refine .inl ⟨hnil, List.eq_nil_of_length_eq_zero ?_⟩
    rw [hnone, List.length_nil] at hlength
    omega
  · exact .inr ⟨u, slot, hu, hlength ▸ room, own, row⟩

theorem tableFind (named : Named ν M σ h.memory) (hi : ν .table i r)
    (hc : M[i]? = some (.table entries))
    (hx : x.At ν key) : h.tableFind r key = .ok (match (h.memory.slotAt r 0).ref? with
      | some u => (M.find? x entries).map (u, ·)
      | none => none) := by
  unfold Heap.tableFind
  rw [named.tableLength hi hc, Heap.tableStore_eq (named.isObject hi)]
  obtain ⟨hnil, -⟩ | ⟨u, slot, hu, room, -, row⟩ := named.table hi hc
  · rw [hnil]
    rfl
  · have small := lengthAt_lt (named.iso.left.typed ⟨_, hu⟩)
    have hcount : indexOfLength entries.length = entries.length := indexOfLength_eq (by omega)
    rw [slot]
    show (h.findEntry u key 0 (indexOfLength entries.length).toNat >>= _) = _
    rw [hcount, Int.toNat_natCast, named.findEntry hu row hx 0 entries.length (by omega) room]
    show Except.ok (Option.map (u, ·) (Option.map (0 + ·) _)) = Except.ok (Option.map (u, ·) _)
    rw [Option.map_map]
    congr 2
    funext k
    show (u, 0 + k) = (u, k)
    rw [Nat.zero_add]

theorem tableGet (named : Named ν M σ h.memory) (hi : ν .table i r)
    (hc : M[i]? = some (.table entries))
    (hx : x.At ν key) : ∃ v, h.tableGet r key = .ok v ∧ (M.lookup x entries).At ν v := by
  unfold Heap.tableGet
  rw [named.tableFind hi hc hx]
  obtain ⟨hnil, rfl⟩ | ⟨u, slot, hu, room, -, row⟩ := named.table hi hc
  · rw [hnil]
    exact ⟨.nil, rfl, .inline rfl⟩
  · rw [slot]
    cases hfound : M.find? x entries with
    | none =>
      rw [(Contents.put_of_find_none (v := .nil) hfound).2]
      exact ⟨.nil, rfl, .inline rfl⟩
    | some n =>
      obtain ⟨hlt, -, -, hvalue⟩ := Contents.put_of_find (v := .nil) hfound
      refine ⟨_, ?_, row _ _ hvalue⟩
      show h.tupleGet u (n * 2 + 1 : Nat) = _
      rw [Heap.tupleGet_eq (named.iso.left.isObject ⟨_, hu⟩), if_pos (by omega)]
      rfl

/-! ## Setting the value of a key -/

/-- The value of a key that a table has is replaced. -/
theorem storeEntry (named : Named ν M σ h.memory) (hi : ν .table i r)
    (hc : M[i]? = some (.table entries)) (slot : h.memory.slotAt r 0 = .object .tuple u) {n : Nat}
    (found : M.find? x entries = some n)
    (hy : y.At ν w) : ∃ m₁, HeapM.tupleSet u (n * 2 + 1 : Nat) w h =
      .ok () { h with memory := m₁ } ∧
      m₁.size = h.memory.size ∧ Named ν (M.set i (.table (M.put x y entries))) σ m₁ := by
  obtain ⟨hnil, -⟩ | ⟨u', slot', hu, room, own, row⟩ := named.table hi hc
  · rw [slot] at hnil
    cases hnil
  rw [slot] at slot'
  cases slot'
  obtain ⟨hlt, hlength, hitems, -⟩ := Contents.put_of_find (v := y) found
  have hr := named.within hi
  have hne : ¬r = u := fun heq => own.unnamed _ _ (heq ▸ hi)
  obtain ⟨m₁, run, written, -, hslots⟩ :=
    HeapM.tupleSet_written named.iso hu (n := n * 2 + 1) (by omega) (hy.still named.within)
  refine ⟨m₁, run, written.size,
    named.restore (c := .table (M.put x y entries)) hi (.inr rfl) own
      (written.mono fun _ => .inr) ?_ ?_ ?_⟩
  · exact (written.slotAt named.iso hr hne (k := 0) Nat.one_pos).trans slot
  · rw [written.lengthAt named.iso hr hne, (named.lies hi hc).2.count nofun]
    exact hlength.symm
  · rw [hitems]
    exact row.set hy hslots

/-- What adding an entry to a table writes: the key, the value and then the length. -/
theorem addEntry (named : Named ν M σ h.memory) (hi : ν .table i r)
    (hc : M[i]? = some (.table entries)) (slot : h.memory.slotAt r 0 = .object .tuple u)
    (hx : x.At ν key) (hy : y.At ν w) (room : entries.length * 2 + 1 < h.memory.lengthAt u) :
    ∃ m₁ m₂,
      HeapM.tupleSet u (indexOfLength (entries.length * 2)) key h = .ok () { h with memory := m₁ } ∧
      HeapM.tupleSet u (indexOfLength (entries.length * 2 + 1)) w { h with memory := m₁ } =
        .ok () { h with memory := m₂ } ∧
      (m₂.store (Heap.payloadOffset r) 8 (entries.length + 1)).size = h.memory.size ∧
      Named ν (M.set i (.table (entries ++ [(x, y)]))) σ
        (m₂.store (Heap.payloadOffset r) 8 (entries.length + 1)) := by
  obtain ⟨hnil, -⟩ | ⟨u', slot', hu, -, own, row⟩ := named.table hi hc
  · rw [slot] at hnil
    cases hnil
  rw [slot] at slot'
  cases slot'
  have hitems : (Content.table entries).items.length = entries.length * 2 :=
    Content.length_items (c := .table entries) (.inr rfl)
  have hr := named.within hi
  have hne : ¬r = u := fun heq => own.unnamed _ _ (heq ▸ hi)
  have small := lengthAt_lt (named.iso.left.typed ⟨_, hu⟩)
  -- The key.
  obtain ⟨m₁, run₁, first, hlength₁, hslots₁⟩ :=
    HeapM.tupleSet_written named.iso hu (n := entries.length * 2) (by omega) (hx.still named.within)
  have row₁ := row.append hx (by rwa [hitems])
  -- The value.
  obtain ⟨m₂, run₂, second, hlength₂, hslots₂⟩ :=
    HeapM.tupleSet_written (h := { h with memory := m₁ }) first.iso hu (n := entries.length * 2 + 1)
      (by show _ < m₁.lengthAt u; omega) (hy.still named.within)
  have row₂ := row₁.append hy (by rwa [List.length_append, hitems])
  dsimp only at second hlength₂
  -- The length.
  have slot₂ : m₂.slotAt r 0 = .object .tuple u :=
    ((second.slotAt first.iso hr hne (k := 0) Nat.one_pos).trans
      (first.slotAt named.iso hr hne (k := 0) Nat.one_pos)).trans slot
  have third := Written.length second.iso hr (.inr rfl) slot₂ (n := entries.length + 1)
    (by omega) (by
    rw [slotsNeeded_table]
    omega)
  refine ⟨m₁, m₂, ?_, ?_, ?_, named.restore (c := .table (entries ++ [(x, y)])) hi (.inr rfl) own
    (((first.trans second).mono fun _ => .inr).trans (third.mono fun _ => .inl)) ?_ ?_ ?_⟩
  · rw [indexOfLength_eq (by omega), run₁]
  · rw [indexOfLength_eq (by omega), run₂]
  · rw [size_store, second.size, first.size]
  · rw [slotAt_storeLength, slot₂]
  · rw [lengthAt_storeLength _ (eight_le_sizeAt (second.iso.left.typed ⟨_, hr⟩))
      (second.iso.left.isObject ⟨_, hr⟩) (by omega)]
    exact (@List.length_append _ entries [(x, y)]).symm
  · have hall : (Content.table (entries ++ [(x, y)])).items = (Content.table entries).items ++
        [x] ++ [y] := by
      show List.flatMap _ (_ ++ _) = List.flatMap _ entries ++ [x] ++ [y]
      rw [List.flatMap_append, List.append_assoc]
      rfl
    rw [hall]
    exact row₂.congr fun k hk => third.slotAt second.iso hu (Ne.symm hne) (show k < m₂.lengthAt u by
      rw [List.length_append, List.length_append, hitems, List.length_singleton,
        List.length_singleton] at hk
      omega)

/-- How many entries a table has room for: at least those that it has. -/
theorem tableCapacity (named : Named ν M σ h.memory) (hi : ν .table i r)
    (hc : M[i]? = some (.table entries)) : ∃ n, h.tableCapacity r = .ok n ∧ entries.length ≤ n ∧
      (h.memory.slotAt r 0 = .nil → n = 0) ∧
      ∀ u, h.memory.slotAt r 0 = .object .tuple u → n = h.memory.lengthAt u / 2 := by
  unfold Heap.tableCapacity
  rw [Heap.tableStore_eq (named.isObject hi)]
  obtain ⟨hnil, rfl⟩ | ⟨u, slot, hu, room, -⟩ := named.table hi hc
  · rw [hnil]
    exact ⟨0, rfl, Nat.le_refl _, fun _ => rfl, nofun⟩
  · rw [slot]
    refine ⟨h.memory.lengthAt u / 2, ?_, by omega, nofun, fun u' heq => ?_⟩
    · show (h.tupleLength u >>= _) = _
      rw [Heap.tupleLength_eq (named.iso.left.isObject ⟨_, hu⟩)]
      rfl
    · cases heq
      rfl

/-- Setting the value of a key succeeds if there is an entry for the key or room for one, and else
changes nothing. -/
theorem tableTrySet (named : Named ν M σ h.memory) (hi : ν .table i r)
    (hc : M[i]? = some (.table entries)) (hx : x.At ν key) (hy : y.At ν w) {n : Nat}
    (capacity : h.tableCapacity r = .ok n) :
    if (M.find? x entries).isSome ∨ entries.length < n then
      ∃ m₁, HeapM.tableTrySet r key w h = .ok true { h with memory := m₁ } ∧
        m₁.size = h.memory.size ∧
        Named ν (M.set i (.table (M.put x y entries))) σ m₁
    else HeapM.tableTrySet r key w h = .ok false h := by
  have hfind := named.tableFind hi hc hx
  have hlength := named.tableLength hi hc
  have hstore := Heap.tableStore_eq (named.isObject hi)
  unfold HeapM.tableTrySet
  rw [bind_of_ok (HeapM.read_ok hfind)]
  cases hfound : M.find? x entries with
  | some k =>
    rw [if_pos (.inl rfl)]
    -- An entry has been found, so that there is a store.
    obtain ⟨-, rfl⟩ | ⟨u, slot, -⟩ := named.table hi hc
    · cases hfound
    · obtain ⟨m₁, run, hsize, named'⟩ := named.storeEntry hi hc slot hfound hy
      refine ⟨m₁, ?_, hsize, named'⟩
      rw [slot]
      exact bind_of_ok run
  | none =>
    have habsent : (match (h.memory.slotAt r 0).ref? with
        | some u => (none : Option Nat).map (u, ·)
        | none => none) = none := by cases (h.memory.slotAt r 0).ref? <;> rfl
    rw [habsent]
    show if _ then ∃ m₁, (HeapM.read (·.tableLength r) >>= _) h = _ ∧ _ else
      (HeapM.read (·.tableLength r) >>= _) h = _
    rw [bind_of_ok (HeapM.read_ok hlength), bind_of_ok (HeapM.read_ok capacity)]
    by_cases room : entries.length < n
    · rw [if_pos (.inr room), if_neg (Nat.not_le_of_lt room)]
      obtain ⟨n', hn', -, hzero, hhalf⟩ := named.tableCapacity hi hc
      rw [capacity] at hn'
      cases hn'
      -- Without a store the table would have room for nothing.
      obtain ⟨hnil, -⟩ | ⟨u, slot, -⟩ := named.table hi hc
      · rw [hzero hnil] at room
        exact absurd room (Nat.not_lt_zero _)
      · have hroom := hhalf u slot
        obtain ⟨m₁, m₂, run₁, run₂, hsize, named'⟩ := named.addEntry hi hc slot hx hy (by omega)
        rw [slot] at hstore
        rw [(Contents.put_of_find_none hfound).1]
        refine ⟨_, ?_, hsize, named'⟩
        show (HeapM.read (·.tableStore r) >>= _) h = _
        rw [bind_of_ok (HeapM.read_ok hstore)]
        show (HeapM.tupleSet u _ key >>= _) h = _
        rw [bind_of_ok run₁, bind_of_ok run₂]
        rfl
    · have hnone : ¬((none : Option Nat).isSome ∨ entries.length < n) := by
        rintro (hsome | hlt)
        · cases hsome
        · exact room hlt
      rw [if_neg hnone, if_pos (Nat.le_of_not_lt room)]
      rfl

/-- A table gets another store that has room for its entries. -/
theorem setTableStore {p : Ref} (named : Named ν M σ h.memory) (hi : ν .table i r)
    (hc : M[i]? = some (.table entries)) (spare : h.memory.Spare ν p) (hp : σ .tuple p p)
    (room : entries.length * 2 ≤ h.memory.lengthAt p) :
    ∃ m₁, HeapM.setTableStore r p h = .ok () { h with memory := m₁ } ∧ m₁.size = h.memory.size ∧
      Named ν M σ m₁ ∧ m₁.slotAt r 0 = .object .tuple p ∧ m₁.lengthAt p = h.memory.lengthAt p := by
  have hitems : (Content.table entries).items.length = entries.length * 2 :=
    Content.length_items (c := .table entries) (.inr rfl)
  have small := lengthAt_lt (named.iso.left.typed ⟨_, hp⟩)
  have hcount : (indexOfLength (entries.length * 2)).toNat =
      (Content.table entries).items.length := by
    rw [indexOfLength_eq (by omega), Int.toNat_natCast, hitems]
  have hlength := Heap.tupleLength_eq (named.iso.left.isObject ⟨_, hp⟩)
  have hstore := Heap.tableStore_eq (named.isObject hi)
  unfold HeapM.setTableStore
  rw [bind_of_ok (HeapM.read_ok (named.tableLength hi hc)), bind_of_ok (HeapM.read_ok hlength),
    if_neg (Nat.not_lt_of_le room)]
  show ∃ m₁, (HeapM.read (·.tableStore r) >>= _) h = _ ∧ _
  rw [bind_of_ok (HeapM.read_ok hstore), hcount]
  obtain ⟨hnil, filled⟩ | ⟨u, m₁, slot, run, filled⟩ :=
    named.copied (c := .table entries) hi hc (.inr rfl) spare hp (hitems ▸ room)
  · obtain ⟨named', hsize, slot', hlength'⟩ :=
      named.rehouse (c := .table entries) hi hc (.inr rfl) spare hp (hitems ▸ room) filled
    rw [hnil]
    exact ⟨_, rfl, hsize, named', slot', hlength'⟩
  · obtain ⟨named', hsize, slot', hlength'⟩ :=
      named.rehouse (c := .table entries) hi hc (.inr rfl) spare hp (hitems ▸ room) filled
    rw [slot]
    refine ⟨_, ?_, hsize, named', slot', hlength'⟩
    show (HeapM.copySlots u p 0 _ >>= _) h = _
    rw [bind_of_ok run]
    rfl

end Named

end ActorMachine
