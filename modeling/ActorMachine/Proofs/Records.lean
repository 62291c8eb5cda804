import ActorMachine.Chunk.Reader
import ActorMachine.Proofs.Terminated
import ActorMachine.Word.Lemmas

/-!
# Chunks read back

`Reads m bytes x` says that `m` takes exactly these bytes from the front of an input and comes to
`x`. Every field of a record is read back by the read of its kind, a record with its strings cut at
their first NUL (`Prototype.read_encode`), and so a whole chunk (`Chunk.decode_encode`).
-/

namespace ActorMachine

/-! ## Trees with their strings cut -/

/-- A constant with its text cut at the first NUL. -/
def Constant.cut : Constant → Constant
  | text s => text (Text.cut s)
  | c => c

/-- An import with its names cut at the first NUL. -/
def Import.cut (i : Import) : Import :=
  ⟨Text.cut i.module, Text.cut i.name⟩

namespace Prototype

mutual

/-- A tree with every string cut at its first NUL. -/
def cut : Prototype → Prototype
  | ⟨source, symbol, code, constants, imports, nested⟩ =>
    ⟨Text.cut source, Text.cut symbol, code, constants.map Constant.cut, imports.map Import.cut,
      cutForest nested⟩

/-- Trees with every string cut at its first NUL. -/
def cutForest : List Prototype → List Prototype
  | [] => []
  | p :: ps => cut p :: cutForest ps

end

mutual

/-- No string of a tree holds a NUL. -/
def NulFree : Prototype → Prop
  | p@⟨_, _, _, _, _, nested⟩ => (∀ s ∈ p.strings, Text.NulFree s) ∧ NulFreeForest nested

/-- No string of some trees holds a NUL. -/
def NulFreeForest : List Prototype → Prop
  | [] => True
  | p :: ps => NulFree p ∧ NulFreeForest ps

end

end Prototype

/-- A chunk with every string cut at its first NUL. -/
def Chunk.cut (c : Chunk) : Chunk :=
  { c with module := c.module.cut }

/-! ## Reading -/

theorem Read.bind_of_ok {m : Read α} {f : α → Read β} {r r' : Reader} {x : α}
    (h : m r = .ok (x, r')) : (m >>= f) r = f x r' := by
  show StateT.bind m f r = _
  rw [StateT.bind, h]
  rfl

theorem Read.get_bind (f : Reader → Read β) (r : Reader) : (get >>= f : Read β) r = f r r := rfl

theorem Read.lift_bind_of_ok {result : Except ChunkError α} {f : α → Read β} {r : Reader} {x : α}
    (h : result = .ok x) : (liftM result >>= f : Read β) r = f x r := by
  subst h
  rfl

/-- The read takes these bytes from the front of an input, whatever follows them, and comes to
`x`. -/
def Reads (m : Read α) (bytes : List UInt8) (x : α) : Prop :=
  ∀ (size : Nat) (rest : List UInt8), m ⟨size, bytes ++ rest⟩ = .ok (x, ⟨size, rest⟩)

namespace Reads

variable {m : Read α} {bs cs : List UInt8} {x : α}

theorem pure (x : α) : Reads (pure x) [] x := fun _ _ => rfl

theorem bind {f : α → Read β} {y : β} (first : Reads m bs x) (rest : Reads (f x) cs y) :
    Reads (m >>= f) (bs ++ cs) y := by
  intro size tail
  rw [List.append_assoc, Read.bind_of_ok (first size _)]
  exact rest size tail

/-- What is done after the last byte has been taken. -/
theorem bind_nil {f : α → Read β} {y : β} (first : Reads m bs x) (rest : Reads (f x) [] y) :
    Reads (m >>= f) bs y :=
  List.append_nil bs ▸ first.bind rest

theorem map {f : α → β} (h : Reads m bs x) : Reads (f <$> m) bs (f x) := by
  intro size rest
  show StateT.map f m _ = _
  rw [StateT.map, h]
  rfl

/-- What is found without reading on takes no bytes. -/
theorem lift_bind {result : Except ChunkError α} {f : α → Read β} {y : β} (h : result = .ok x)
    (rest : Reads (f x) bs y) : Reads (liftM result >>= f) bs y := by
  subst h
  intro size tail
  exact rest size tail

theorem bytes (bs : List UInt8) : Reads (Reader.bytes bs.length) bs bs := by
  intro size rest
  rw [Reader.bytes]
  simp

theorem word32 (n : UInt32) : Reads Reader.word32 (Word.ofUInt32 n) n := by
  have h := (bytes (Word.ofUInt32 n)).map (f := fun bs => UInt32.ofNat (Word.ofLittleEndian bs))
  rw [Word.ofUInt32, Word.length_littleEndian, Word.ofLittleEndian_littleEndian] at h
  have hn : UInt32.ofNat (n.toNat % 256 ^ 4) = n := by
    rw [Nat.mod_eq_of_lt (by have := n.toNat_lt; omega), UInt32.ofNat_toNat]
  rw [hn] at h
  exact h

theorem word64 (n : Nat) : Reads Reader.word64 (Word.littleEndian 8 n) (UInt64.ofNat n) := by
  have h := (bytes (Word.littleEndian 8 n)).map
    (f := fun bs => UInt64.ofNat (Word.ofLittleEndian bs))
  rw [Word.length_littleEndian, Word.ofLittleEndian_littleEndian] at h
  have hn : UInt64.ofNat (n % 256 ^ 8) = UInt64.ofNat n := by
    apply UInt64.toNat_inj.mp
    rw [UInt64.toNat_ofNat', UInt64.toNat_ofNat']
    exact Nat.mod_mod _ _
  rw [hn] at h
  exact h

theorem int64 (n : Int64) : Reads Reader.int64 (Word.ofInt64 n) n := by
  have h := (word64 n.toUInt64.toNat).map (f := UInt64.toInt64)
  rw [UInt64.ofNat_toNat] at h
  exact h

theorem int64_ofNat64 (n : Nat) : Reads Reader.int64 (Word.ofNat64 n) (Int64.ofNat n) :=
  (word64 n).map (f := UInt64.toInt64)

theorem real (x : Binary64) : Reads Reader.real (Word.ofReal x) x := by
  have h := (word64 x.bits.toNat).map (f := Binary64.mk)
  rw [UInt64.ofNat_toNat] at h
  exact h

theorem times {read : Read α} {encode : β → List UInt8} {f : β → α} {items : List β}
    (each : ∀ i ∈ items, Reads read (encode i) (f i)) :
    Reads (Reader.times items.length read) (items.flatMap encode) (items.map f) := by
  induction items with
  | nil => exact .pure []
  | cons i items ih =>
    have hrest := ih fun j hj => each j (List.mem_cons_of_mem _ hj)
    show Reads (read >>= fun x => Reader.times items.length read >>= fun xs =>
      Pure.pure (x :: xs)) _ _
    exact (each i List.mem_cons_self).bind (hrest.bind_nil (.pure _))

end Reads

/-- A count is accepted where what is left can hold as many elements. -/
theorem Reader.count_ofNat64 {field : CountField} {elementSize n size : Nat} {rest : List UInt8}
    (small : n < 2 ^ 63) (room : n * elementSize ≤ rest.length) :
    Reader.count field elementSize ⟨size, Word.ofNat64 n ++ rest⟩ = .ok (n, ⟨size, rest⟩) := by
  have hn : (Int64.ofNat n).toInt = n := Int64.toInt_ofNat_of_lt small
  unfold Reader.count
  rw [Read.bind_of_ok (Reads.int64_ofNat64 n size rest)]
  show (if 0 ≤ (Int64.ofNat n).toInt ∧
    (Int64.ofNat n).toInt.toNat * elementSize ≤ rest.length then _
    else _ : Read Nat) _ = _
  rw [hn, Int.toNat_natCast, if_pos ⟨Int.natCast_nonneg n, room⟩]
  rfl

namespace Constant

theorem length_encode (t : StringTable) (c : Constant) : (c.encode t).length = 32 := by
  cases c <;> simp [encode, Word.ofUInt32, Word.ofInt64, Word.ofNat64, Word.ofReal]

/-- A constant is read back from a table that has its string. -/
theorem reads_encode {t : StringTable} {c : Constant} (small : t.bytes.length < 2 ^ 63)
    (hc : ∀ s ∈ c.strings, s ≠ "" → s ∈ t) :
    Reads (Constant.read t.bytes) (c.encode t) c.cut := by
  have skip : Reads (Reader.skip 4) (Word.ofUInt32 0) () := (Reads.bytes (Word.ofUInt32 0)).map
  unfold encode
  refine .bind (.word32 c.tag) (.bind skip ?_)
  cases c with
  | integer n =>
    exact .bind (.int64 n) (.bind (.int64_ofNat64 0) (.bind_nil (.real ⟨0⟩) (.pure _)))
  | text s =>
    have hlookup := StringTable.lookup_ref (hc s List.mem_cons_self)
    have href : (Int64.ofNat (t.ref s)).toInt = t.ref s :=
      Int64.toInt_ofNat_of_lt (Nat.lt_of_le_of_lt (t.ref_le s) small)
    rw [← href] at hlookup
    exact .bind (.int64_ofNat64 0) (.bind (.int64_ofNat64 _) (.bind_nil (.real ⟨0⟩)
      (.lift_bind hlookup (.pure _))))
  | real x =>
    exact .bind (.int64_ofNat64 0) (.bind (.int64_ofNat64 0) (.bind_nil (.real x) (.pure _)))

end Constant

namespace Import

theorem length_encode (t : StringTable) (i : Import) : (i.encode t).length = 16 := by
  simp [encode, Word.ofNat64]

/-- An import is read back from a table that has its names. -/
theorem reads_encode {t : StringTable} {i : Import} (small : t.bytes.length < 2 ^ 63)
    (hmodule : i.module ≠ "" → i.module ∈ t) (hname : i.name ≠ "" → i.name ∈ t) :
    Reads (Import.read t.bytes) (i.encode t) i.cut := by
  have href : ∀ s, (Int64.ofNat (t.ref s)).toInt = t.ref s := fun s =>
    Int64.toInt_ofNat_of_lt (Nat.lt_of_le_of_lt (t.ref_le s) small)
  have hlookup := StringTable.lookup_ref hmodule
  have hlookup' := StringTable.lookup_ref hname
  rw [← href] at hlookup hlookup'
  unfold encode
  exact .bind (.int64_ofNat64 _) (.lift_bind hlookup (.bind_nil (.int64_ofNat64 _)
    (.lift_bind hlookup' (.pure _))))

end Import

namespace Prototype

theorem length_flatMap_of_const {items : List α} {f : α → List β} {n : Nat}
    (h : ∀ x, (f x).length = n) : (items.flatMap f).length = items.length * n := by
  induction items with
  | nil => simp
  | cons x items ih => rw [List.flatMap_cons, List.length_append, ih, h, List.length_cons,
      Nat.succ_mul, Nat.add_comm]

/-- The bytes of a record's table and lists, without those of the nested records. -/
theorem length_encodeOwn (p : Prototype) :
    p.encodeOwn.length = 56 + p.table.bytes.length + p.code.length * 4 + p.constants.length * 32 +
      p.imports.length * 16 := by
  have hcode : (p.code.flatMap fun i => Word.ofUInt32 i.word).length = p.code.length * 4 :=
    length_flatMap_of_const fun _ => by rw [Word.ofUInt32, Word.length_littleEndian]
  have hconstants : (p.constants.flatMap (·.encode p.table)).length = p.constants.length * 32 :=
    length_flatMap_of_const (Constant.length_encode p.table)
  have himports : (p.imports.flatMap (·.encode p.table)).length = p.imports.length * 16 :=
    length_flatMap_of_const (Import.length_encode p.table)
  simp only [encodeOwn, List.length_append, hcode, hconstants, himports, Word.ofNat64,
    Word.length_littleEndian]
  omega

mutual

theorem treeSize_le_length : (p : Prototype) → p.treeSize * 56 ≤ p.encode.length
  | p@⟨_, _, _, _, _, nested⟩ => by
    have hforest := forestSize_le_length nested
    rw [treeSize, encode, List.length_append, length_encodeOwn]
    omega

theorem forestSize_le_length : (ps : List Prototype) → forestSize ps * 56 ≤ (encodeForest ps).length
  | [] => Nat.zero_le _
  | p :: ps => by
    have hp := treeSize_le_length p
    have hps := forestSize_le_length ps
    rw [forestSize, encodeForest, List.length_append]
    omega

end

theorem length_le_forestSize (ps : List Prototype) : ps.length ≤ forestSize ps := by
  induction ps with
  | nil => exact Nat.le_refl 0
  | cons p ps ih =>
    obtain ⟨_, _, _, _, _, nested⟩ := p
    rw [forestSize, treeSize, List.length_cons]
    omega

/-- The strings of a record are in its table. -/
theorem mem_table {p : Prototype} {s : String} (hs : s ∈ p.strings) (hne : s ≠ "") : s ∈ p.table :=
  StringTable.mem_ofStrings.mpr ⟨hs, hne⟩

theorem reads_code (p : Prototype) : Reads (Reader.times p.code.length Reader.word32)
    (p.code.flatMap fun i => Word.ofUInt32 i.word) (p.code.map Instruction.word) :=
  .times fun i _ => .word32 i.word

theorem reads_constants {p : Prototype} (small : p.table.bytes.length < 2 ^ 63) :
    Reads (Reader.times p.constants.length (Constant.read p.table.bytes))
      (p.constants.flatMap (·.encode p.table)) (p.constants.map Constant.cut) := by
  refine .times fun c hc => Constant.reads_encode small fun s hs => mem_table ?_
  exact List.mem_cons_of_mem _ (List.mem_cons_of_mem _ (List.mem_append_left _
    (List.mem_flatMap.mpr ⟨c, hc, hs⟩)))

theorem reads_imports {p : Prototype} (small : p.table.bytes.length < 2 ^ 63) :
    Reads (Reader.times p.imports.length (Import.read p.table.bytes))
      (p.imports.flatMap (·.encode p.table)) (p.imports.map Import.cut) := by
  have hmem : ∀ i ∈ p.imports, ∀ s ∈ [i.module, i.name], s ∈ p.strings := fun i hi s hs =>
    List.mem_cons_of_mem _ (List.mem_cons_of_mem _ (List.mem_append_right _
      (List.mem_flatMap.mpr ⟨i, hi, hs⟩)))
  refine .times fun i hi => Import.reads_encode small ?_ ?_
  · exact mem_table (hmem i hi _ List.mem_cons_self)
  · exact mem_table (hmem i hi _ (List.mem_cons_of_mem _ List.mem_cons_self))

/-- A record is read back with its strings cut if the records nested in it are. -/
theorem reads_record {p : Prototype} {depth : Nat} {bytes : List UInt8} {nested : List Prototype}
    (small : (p.encodeOwn ++ bytes).length < 2 ^ 63) (room : p.nested.length * 56 ≤ bytes.length)
    (hnested : Reads (Reader.times p.nested.length (read depth)) bytes nested) :
    Reads (read (depth + 1)) (p.encodeOwn ++ bytes)
      ⟨Text.cut p.source, Text.cut p.symbol, p.code, p.constants.map Constant.cut,
        p.imports.map Import.cut, nested⟩ := by
  have hlength := p.length_encodeOwn
  rw [List.length_append, hlength] at small
  have hsmall : p.table.bytes.length < 2 ^ 63 := by omega
  have hcode : (p.code.flatMap fun i => Word.ofUInt32 i.word).length = p.code.length * 4 :=
    length_flatMap_of_const fun _ => by rw [Word.ofUInt32, Word.length_littleEndian]
  have hconstants : (p.constants.flatMap (·.encode p.table)).length = p.constants.length * 32 :=
    length_flatMap_of_const (Constant.length_encode p.table)
  have himports : (p.imports.flatMap (·.encode p.table)).length = p.imports.length * 16 :=
    length_flatMap_of_const (Import.length_encode p.table)
  have href : ∀ s, (Int64.ofNat (p.table.ref s)).toInt = p.table.ref s := fun s =>
    Int64.toInt_ofNat_of_lt (Nat.lt_of_le_of_lt (p.table.ref_le s) hsmall)
  have hsource := StringTable.lookup_ref (t := p.table) (mem_table (p := p) List.mem_cons_self)
  have hsymbol := StringTable.lookup_ref (t := p.table)
    (mem_table (p := p) (List.mem_cons_of_mem _ List.mem_cons_self))
  rw [← href] at hsource hsymbol
  have hcodeMap : (p.code.map Instruction.word).map Instruction.mk = p.code := by
    rw [List.map_map]
    exact List.map_id p.code
  intro size rest
  have hrecord : ((p.encodeOwn ++ bytes ++ rest).take recordWidth).length = recordWidth := by
    rw [List.length_take, List.length_append, List.length_append, hlength, recordWidth]
    omega
  -- Each count is one that the bytes after it have room for.
  unfold read
  rw [Read.get_bind]
  dsimp only
  rw [if_neg (by omega)]
  simp only [encodeOwn, List.append_assoc]
  rw [Read.bind_of_ok (Reads.int64_ofNat64 _ _ _), Read.bind_of_ok (Reads.int64_ofNat64 _ _ _),
    Read.bind_of_ok (Reader.count_ofNat64 hsmall ?_),
    Read.bind_of_ok (Reader.count_ofNat64 (by omega) ?_),
    Read.bind_of_ok (Reader.count_ofNat64 (by omega) ?_),
    Read.bind_of_ok (Reader.count_ofNat64 (by omega) ?_),
    Read.bind_of_ok (Reader.count_ofNat64 (by omega) ?_),
    Read.bind_of_ok (Reads.bytes _ _ _), Read.lift_bind_of_ok hsource, Read.lift_bind_of_ok hsymbol,
    Read.bind_of_ok (p.reads_code _ _), Read.bind_of_ok (reads_constants hsmall _ _),
    Read.bind_of_ok (reads_imports hsmall _ _), Read.bind_of_ok (hnested _ _), hcodeMap]
  · rfl
  all_goals
    simp only [List.length_append, hcode, hconstants, himports, Word.ofNat64,
      Word.length_littleEndian, recordWidth]
    omega

mutual

/-- A record is read back with its strings cut. -/
theorem reads_encode : (p : Prototype) → {depth : Nat} → p.treeSize ≤ depth →
    p.encode.length < 2 ^ 63 → Reads (read depth) p.encode p.cut
  | p@⟨_, _, _, _, _, nested⟩, 0, hdepth, _ => by
    rw [treeSize] at hdepth
    omega
  | p@⟨_, _, _, _, _, nested⟩, depth + 1, hdepth, small => by
    rw [treeSize] at hdepth
    rw [encode] at small ⊢
    have hforest := forestSize_le_length nested
    have hlength := length_le_forestSize nested
    refine reads_record small (show nested.length * 56 ≤ _ by omega) ?_
    rw [List.length_append] at small
    exact reads_encodeForest nested (by omega) (by omega)

theorem reads_encodeForest : (ps : List Prototype) → {depth : Nat} → forestSize ps ≤ depth →
    (encodeForest ps).length < 2 ^ 63 →
    Reads (Reader.times ps.length (read depth)) (encodeForest ps) (cutForest ps)
  | [], _, _, _ => .pure []
  | p :: ps, depth, hdepth, small => by
    rw [forestSize] at hdepth
    rw [encodeForest, List.length_append] at small
    have hp : Reads (read depth) p.encode p.cut := reads_encode p (by omega) (by omega)
    have hps : Reads (Reader.times ps.length (read depth)) (encodeForest ps) (cutForest ps) :=
      reads_encodeForest ps (by omega) (by omega)
    show Reads (read depth >>= fun x => Reader.times ps.length (read depth) >>= fun xs =>
      Pure.pure (x :: xs)) _ _
    exact hp.bind (hps.bind_nil (.pure _))

end

end Prototype

/-! ## What is read has no NUL -/

/-- A computation that comes to something came to something at each step. -/
theorem ChunkError.ok_of_bind {m : Except ChunkError α} {f : α → Except ChunkError β} {y : β}
    (h : m >>= f = .ok y) : ∃ x, m = .ok x ∧ f x = .ok y := by
  cases m with
  | error e => cases h
  | ok x => exact ⟨x, rfl, h⟩

theorem Header.eq_of_checkWidth {field : WidthField} {found expected : UInt8}
    (ok : checkWidth field found expected = .ok ()) : found = expected := by
  unfold checkWidth at ok
  split at ok
  · assumption
  · cases ok

/-- Only the host's header is accepted. -/
theorem Header.eq_host_of_checkHost {h : Header} (ok : h.checkHost = .ok ()) : h = .host := by
  obtain ⟨major, minor, bigEndian, integer, float, instruction⟩ := h
  simp only [checkHost] at ok
  by_cases version : major = host.major ∧ minor = host.minor
  · rw [if_pos version] at ok
    by_cases order : bigEndian = host.bigEndian
    · rw [if_pos order] at ok
      obtain ⟨⟨⟩, hinteger, ok⟩ := ChunkError.ok_of_bind ok
      obtain ⟨⟨⟩, hfloat, hinstruction⟩ := ChunkError.ok_of_bind ok
      rw [version.1, version.2, order, eq_of_checkWidth hinteger, eq_of_checkWidth hfloat,
        eq_of_checkWidth hinstruction]
    · rw [if_neg order] at ok
      cases ok
  · rw [if_neg version] at ok
    cases ok

/-- Whatever the read comes to has the property. -/
def Yields (m : Read α) (P : α → Prop) : Prop :=
  ∀ (r r' : Reader) (x : α), m r = .ok (x, r') → P x

namespace Yields

variable {m : Read α} {P : α → Prop}

theorem trivial (m : Read α) : Yields m fun _ => True := fun _ _ _ _ => True.intro

theorem pure {x : α} (h : P x) : Yields (pure x) P := by
  rintro r r' y ⟨⟩
  exact h

theorem throw (e : ChunkError) : Yields (throw e) P := fun _ _ _ run => nomatch run

theorem bind {f : α → Read β} {Q : β → Prop} (first : Yields m P)
    (rest : ∀ x, P x → Yields (f x) Q) : Yields (m >>= f) Q := by
  intro r r' y run
  cases hm : m r with
  | error e =>
    change StateT.bind m f r = _ at run
    rw [StateT.bind, hm] at run
    cases run
  | ok x =>
    rw [Read.bind_of_ok hm] at run
    exact rest x.1 (first r x.2 x.1 hm) _ _ _ run

theorem lift {result : Except ChunkError α} (h : ∀ x, result = .ok x → P x) :
    Yields (liftM result : Read α) P := by
  intro r r' x run
  cases hresult : result with
  | error e =>
    rw [hresult] at run
    cases run
  | ok y =>
    rw [hresult] at run
    cases run
    exact h x hresult

theorem times (h : Yields m P) (count : Nat) :
    Yields (Reader.times count m) fun xs => ∀ x ∈ xs, P x := by
  induction count with
  | zero => exact .pure fun _ h => nomatch h
  | succ count ih =>
    refine .bind h fun x hx => .bind ih fun xs hxs => .pure ?_
    intro y hy
    rcases List.mem_cons.mp hy with rfl | hy
    · exact hx
    · exact hxs y hy

end Yields

theorem Constant.yields_read (table : List UInt8) :
    Yields (Constant.read table) fun c => ∀ s ∈ c.strings, Text.NulFree s := by
  unfold Constant.read
  refine .bind (.trivial _) fun tag _ => .bind (.trivial _) fun _ _ => .bind (.trivial _) fun _ _ =>
    .bind (.trivial _) fun _ _ => .bind (.trivial _) fun _ _ => ?_
  split
  · exact .pure fun _ h => nomatch h
  · refine .bind (.lift fun _ => StringTable.nulFree_of_lookup) fun s hs => .pure ?_
    intro t ht
    rw [List.mem_singleton.mp ht]
    exact hs
  · exact .pure fun _ h => nomatch h
  · exact .throw _

theorem Import.yields_read (table : List UInt8) :
    Yields (Import.read table) fun i => Text.NulFree i.module ∧ Text.NulFree i.name :=
  .bind (.trivial _) fun _ _ => .bind (.lift fun _ => StringTable.nulFree_of_lookup)
    fun _ hmodule =>
    .bind (.trivial _) fun _ _ => .bind (.lift fun _ => StringTable.nulFree_of_lookup)
      fun _ hname => .pure ⟨hmodule, hname⟩

namespace Prototype

/-- The strings of a record are those of its names, its constants and its imports. -/
theorem forall_mem_strings {p : Prototype} {P : String → Prop} :
    (∀ s ∈ p.strings, P s) ↔ P p.source ∧ P p.symbol ∧
      (∀ c ∈ p.constants, ∀ s ∈ c.strings, P s) ∧ ∀ i ∈ p.imports, P i.module ∧ P i.name := by
  have himports : ∀ i : Import, (∀ s ∈ [i.module, i.name], P s) ↔ P i.module ∧ P i.name :=
    fun i => by rw [List.forall_mem_cons, List.forall_mem_singleton]
  rw [strings, List.forall_mem_cons, List.forall_mem_cons, List.forall_mem_append,
    List.forall_mem_flatMap, List.forall_mem_flatMap]
  simp only [himports]

theorem nulFreeForest_iff {ps : List Prototype} : NulFreeForest ps ↔ ∀ p ∈ ps, p.NulFree := by
  induction ps with
  | nil => simp [NulFreeForest]
  | cons p ps ih => rw [NulFreeForest, ih, List.forall_mem_cons]

/-- No string of a tree that has been read holds a NUL. -/
theorem yields_read (depth : Nat) : Yields (read depth) NulFree := by
  induction depth with
  | zero => exact .bind (.trivial _) fun _ _ => .throw _
  | succ depth ih =>
    unfold read
    refine .bind (.trivial _) fun start _ => ?_
    dsimp only
    split
    · exact .bind (.throw (P := fun _ => False) _) fun _ h => h.elim
    · refine .bind (.trivial _) fun _ _ => .bind (.trivial _) fun _ _ =>
        .bind (.trivial _) fun _ _ =>
        .bind (.trivial _) fun _ _ => .bind (.trivial _) fun _ _ => .bind (.trivial _) fun _ _ =>
        .bind (.trivial _) fun _ _ => .bind (.trivial _) fun table _ =>
        .bind (.lift fun _ => StringTable.nulFree_of_lookup) fun source hsource =>
        .bind (.lift fun _ => StringTable.nulFree_of_lookup) fun symbol hsymbol =>
        .bind (.trivial _) fun _ _ =>
        .bind ((Constant.yields_read table).times _) fun constants hconstants =>
        .bind ((Import.yields_read table).times _) fun imports himports =>
        .bind (ih.times _) fun nested hnested => .pure ?_
      rw [NulFree, forall_mem_strings, nulFreeForest_iff]
      exact ⟨⟨hsource, hsymbol, hconstants, himports⟩, hnested⟩

theorem map_cut_eq_self_iff {items : List α} {f : α → α} {P : α → Prop} (h : ∀ x, f x = x ↔ P x) :
    items.map f = items ↔ ∀ x ∈ items, P x := by
  induction items with
  | nil => simp
  | cons x items ih => rw [List.map_cons, List.cons.injEq, h, ih, List.forall_mem_cons]

end Prototype

theorem Constant.cut_eq_self_iff (c : Constant) : c.cut = c ↔ ∀ s ∈ c.strings, Text.NulFree s := by
  cases c with
  | text s => simp [cut, strings, Text.cut_eq_self_iff]
  | integer n => simp [cut, strings]
  | real x => simp [cut, strings]

theorem Import.cut_eq_self_iff (i : Import) :
    i.cut = i ↔ Text.NulFree i.module ∧ Text.NulFree i.name := by
  rw [← Text.cut_eq_self_iff, ← Text.cut_eq_self_iff, cut, Import.mk.injEq]

namespace Prototype

mutual

/-- Cutting changes exactly the trees that hold a NUL. -/
theorem cut_eq_self_iff : (p : Prototype) → (p.cut = p ↔ p.NulFree)
  | ⟨source, symbol, code, constants, imports, nested⟩ => by
    rw [cut, Prototype.mk.injEq, NulFree, Text.cut_eq_self_iff, Text.cut_eq_self_iff,
      map_cut_eq_self_iff Constant.cut_eq_self_iff, map_cut_eq_self_iff Import.cut_eq_self_iff,
      cutForest_eq_self_iff nested, forall_mem_strings]
    constructor
    · rintro ⟨hsource, hsymbol, -, hconstants, himports, hnested⟩
      exact ⟨⟨hsource, hsymbol, hconstants, himports⟩, hnested⟩
    · rintro ⟨⟨hsource, hsymbol, hconstants, himports⟩, hnested⟩
      exact ⟨hsource, hsymbol, rfl, hconstants, himports, hnested⟩

theorem cutForest_eq_self_iff : (ps : List Prototype) → (cutForest ps = ps ↔ NulFreeForest ps)
  | [] => by simp [cutForest, NulFreeForest]
  | p :: ps => by
    rw [cutForest, NulFreeForest, List.cons.injEq, cut_eq_self_iff p, cutForest_eq_self_iff ps]

end

end Prototype

namespace Chunk

/-- The module of a chunk is read back with its strings cut. -/
theorem decode_encode_cut {c : Chunk} (header : c.header = .host)
    (small : c.encode.length < 2 ^ 63) : decode c.encode = .ok c.cut := by
  have hlength : c.encode.length = c.header.encode.length + c.module.encode.length :=
    List.length_append
  have hdepth : c.module.treeSize ≤ c.encode.length := by
    have := c.module.treeSize_le_length
    omega
  have hheader : Header.decode c.encode = .ok .host := by
    rw [encode, header]
    exact Header.decode_encode_host _
  have hskip : Reads (Reader.skip Header.width) c.header.encode () := by
    rw [header]
    exact (Reads.bytes Header.host.encode).map
  have hmodule := Prototype.reads_encode c.module hdepth (by omega) c.encode.length []
  rw [List.append_nil] at hmodule
  have hstart : Reader.ofBytes c.encode =
    ⟨c.encode.length, c.header.encode ++ c.module.encode⟩ := rfl
  unfold decode
  rw [hheader]
  dsimp only [StateT.run']
  rw [hstart, Read.bind_of_ok (hskip _ _), Read.bind_of_ok hmodule, cut, header]
  rfl

/-- What has been read has the host's header, and none of its strings holds a NUL. -/
theorem decode_cases {bytes : List UInt8} {c : Chunk} (h : decode bytes = .ok c) :
    c.header = .host ∧ c.module.NulFree := by
  obtain ⟨header, -, h⟩ := ChunkError.ok_of_bind h
  obtain ⟨⟨⟩, hcheck, h⟩ := ChunkError.ok_of_bind h
  obtain ⟨module, hmodule, h⟩ := ChunkError.ok_of_bind h
  obtain ⟨⟨_, _⟩, hrun, hresult⟩ := ChunkError.ok_of_bind hmodule
  cases hresult
  cases h
  refine ⟨Header.eq_host_of_checkHost hcheck, ?_⟩
  refine Yields.bind (.trivial _) (fun _ _ =>
    .bind (Prototype.yields_read bytes.length) fun module hmodule =>
      .bind (.trivial _) ?_) _ _ _ hrun
  intro left _
  split
  · exact .pure hmodule
  · exact .throw _

/-- A chunk for this machine is read back with every string cut at its first NUL, so it is read back
as it was exactly if no string in its tree holds one; and whatever has been read is read back as it
was. A list of bytes in memory is never longer than `small` says, since its offsets are signed
words. -/
theorem decode_encode {c : Chunk} (small : c.encode.length < 2 ^ 63) :
    (c.header = .host →
      decode c.encode = .ok c.cut ∧ (decode c.encode = .ok c ↔ c.module.NulFree)) ∧
    ∀ bytes, decode bytes = .ok c → decode c.encode = .ok c := by
  have hcut : c.cut = c ↔ c.module.NulFree := by
    rw [← Prototype.cut_eq_self_iff, cut]
    obtain ⟨_, _⟩ := c
    rw [Chunk.mk.injEq]
    exact and_iff_right rfl
  refine ⟨fun header => ?_, fun bytes h => ?_⟩
  · have hdecode := decode_encode_cut header small
    refine ⟨hdecode, ?_⟩
    rw [hdecode, Except.ok.injEq]
    exact hcut
  · obtain ⟨header, nulFree⟩ := decode_cases h
    rw [decode_encode_cut header small, hcut.mpr nulFree]

/-- A module that uses a name twice, has a NUL in another and a constant that is not a number. -/
def cutShort : Chunk where
  header := .host
  module :=
    { source := "m", symbol := "a\x00b", code := [⟨0xFFFFFFFF⟩]
      constants := [.real ⟨0x7FF8000000000001⟩, .text ""], imports := [⟨"m", "\x00"⟩]
      nested := [⟨"m", "é", [], [.integer (-1), .text "m"], [], []⟩] }

theorem decode_encode_cutShort :
    cutShort.encode.length < 2 ^ 63 ∧ decode cutShort.encode = .ok cutShort.cut ∧
      cutShort.cut.module.symbol = "a" ∧ decode cutShort.encode ≠ .ok cutShort := by
  have small : cutShort.encode.length < 2 ^ 63 := by decide +kernel
  have hsymbol : cutShort.cut.module.symbol = "a" := by decide +kernel
  obtain ⟨hcut, -⟩ := (decode_encode small).1 rfl
  refine ⟨small, hcut, hsymbol, fun h => ?_⟩
  rw [hcut, Except.ok.injEq] at h
  rw [h] at hsymbol
  exact absurd hsymbol (by decide)

end Chunk

end ActorMachine
