import Mathlib
import ActorMachine.Proofs.Records

/-!
# The layout of chunks

`Chunk.Layout` says which bytes are those of a chunk, without a reader: fields in their order,
counts that agree with the lists they stand for, references that lead to terminated strings. The
reader accepts these bytes and no others, and comes to the chunk they are laid out for
(`Chunk.decode_eq_ok_iff_layout`); the counts it checks ahead of the elements and the bound on its
nesting never decide.

`Takes m Form` is what a read takes when it succeeds, and the counterpart of `Reads`, what a read
succeeds on.
-/

namespace ActorMachine

/-! ## The layout -/

/-- The string under a reference: the empty one under zero, else the bytes of a text without a NUL
that start there, before the first NUL after them. -/
def StringTable.Names (table : List UInt8) (ref : Int) (s : String) : Prop :=
  ref = 0 ∧ s = "" ∨
    ∃ before after, table = before ++ (Text.encode s ++ 0 :: after) ∧ ref = before.length ∧
      1 ≤ before.length ∧ 0 ∉ Text.encode s

/-- Forms one after another, each that of the next item. -/
inductive Repeated (Form : List UInt8 → α → Prop) : List UInt8 → List α → Prop
  | nil : Repeated Form [] []
  | cons {bytes tail : List UInt8} {x : α} {xs : List α} (head : Form bytes x)
      (rest : Repeated Form tail xs) : Repeated Form (bytes ++ tail) (x :: xs)

/-- The thirty-two bytes of a constant: its tag, four bytes that say nothing, and one place for each
kind, of which only that of the tag counts. -/
def Constant.Layout (table : List UInt8) (bytes : List UInt8) (c : Constant) : Prop :=
  ∃ (padding : List UInt8) (n ref : Int64) (x : Binary64), padding.length = 4 ∧
    bytes = Word.ofUInt32 c.tag ++
    (padding ++ (Word.ofInt64 n ++ (Word.ofInt64 ref ++ Word.ofReal x))) ∧
    match c with
    | integer m => m = n
    | text s => StringTable.Names table ref.toInt s
    | real y => y = x

/-- The two references of an import. -/
def Import.Layout (table : List UInt8) (bytes : List UInt8) (i : Import) : Prop :=
  ∃ module name : Int64, bytes = Word.ofInt64 module ++ Word.ofInt64 name ∧
    StringTable.Names table module.toInt i.module ∧ StringTable.Names table name.toInt i.name

/-- A record: two references and five sizes, the table, the words of the code, the constants, the
imports, and the records of the prototypes nested in it. -/
inductive Prototype.Layout : List UInt8 → Prototype → Prop
  | record {source symbol tableSize codeSize nestedSize constantsSize importsSize : Int64}
      {table constants imports nested : List UInt8} {p : Prototype}
      (tableSize_eq : tableSize.toInt = table.length)
      (codeSize_eq : codeSize.toInt = p.code.length)
      (nestedSize_eq : nestedSize.toInt = p.nested.length)
      (constantsSize_eq : constantsSize.toInt = p.constants.length)
      (importsSize_eq : importsSize.toInt = p.imports.length)
      (source_names : StringTable.Names table source.toInt p.source)
      (symbol_names : StringTable.Names table symbol.toInt p.symbol)
      (constants_form : Repeated (Constant.Layout table) constants p.constants)
      (imports_form : Repeated (Import.Layout table) imports p.imports)
      (nested_form : Repeated Layout nested p.nested) :
      Layout (Word.ofInt64 source ++ (Word.ofInt64 symbol ++ (Word.ofInt64 tableSize ++
        (Word.ofInt64 codeSize ++ (Word.ofInt64 nestedSize ++ (Word.ofInt64 constantsSize ++
        (Word.ofInt64 importsSize ++ (table ++ (p.code.flatMap (fun i => Word.ofUInt32 i.word) ++
        (constants ++ (imports ++ nested))))))))))) p

/-- A header of twelve bytes, of which the last three say nothing, and the record of the module. -/
def Chunk.Layout (bytes : List UInt8) (c : Chunk) : Prop :=
  ∃ unused record : List UInt8, unused.length = 3 ∧
    bytes = Header.signature ++ ([1, 0, 8, 8, 4] ++ (unused ++ record)) ∧
    c.header = .host ∧ Prototype.Layout record c.module

/-! ## Sizes -/

theorem Repeated.le_length {Form : List UInt8 → α → Prop} {width : Nat} {bytes : List UInt8}
    {xs : List α} (h : Repeated Form bytes xs) (each : ∀ bs x, Form bs x → width ≤ bs.length) :
    xs.length * width ≤ bytes.length := by
  induction h with
  | nil => rw [List.length_nil, Nat.zero_mul]; exact Nat.zero_le _
  | cons head _ ih =>
    have hhead := each _ _ head
    rw [List.length_cons, Nat.succ_mul, List.length_append]
    omega

theorem Constant.Layout.length_eq {table bytes : List UInt8} {c : Constant}
    (h : Constant.Layout table bytes c) : bytes.length = 32 := by
  obtain ⟨padding, n, ref, x, hpadding, rfl, -⟩ := h
  simp only [Word.ofUInt32, Word.ofInt64, Word.ofReal, List.length_append, Word.length_littleEndian,
    hpadding]

theorem Import.Layout.length_eq {table bytes : List UInt8} {i : Import}
    (h : Import.Layout table bytes i) : bytes.length = 16 := by
  obtain ⟨module, name, rfl, -⟩ := h
  simp only [Word.ofInt64, List.length_append, Word.length_littleEndian]

theorem Prototype.Layout.le_length {bytes : List UInt8} {p : Prototype} (h : Layout bytes p) :
    recordWidth ≤ bytes.length := by
  cases h
  simp only [Word.ofInt64, List.length_append, Word.length_littleEndian, recordWidth]
  omega

/-! ## References -/

/-- Bytes with a NUL are those before the first one, that NUL, and the rest. -/
theorem StringTable.exists_after_nul {tail : List UInt8} (h : 0 ∈ tail) :
    ∃ after, tail = tail.takeWhile (· ≠ 0) ++ 0 :: after := by
  induction tail with
  | nil => cases h
  | cons b tail ih =>
    by_cases hb : b = 0
    · subst hb
      exact ⟨tail, by rw [List.takeWhile_cons_of_neg (by simp), List.nil_append]⟩
    · obtain ⟨after, hafter⟩ := ih ((List.mem_cons.mp h).resolve_left (Ne.symm hb))
      refine ⟨after, ?_⟩
      rw [List.takeWhile_cons_of_pos (by simpa using hb), List.cons_append, ← hafter]

theorem StringTable.names_of_lookup {table : List UInt8} {ref : Int} {s : String}
    (h : lookup table ref = .ok s) : Names table ref s := by
  have nulFree := nulFree_of_lookup h
  rw [Text.NulFree, ← Text.zero_mem_encode] at nulFree
  rw [lookup] at h
  split at h
  case isTrue hzero =>
    cases h
    exact .inl ⟨hzero, rfl⟩
  case isFalse hzero =>
    split at h
    case isTrue => cases h
    case isFalse hrange =>
      dsimp only at h
      split at h
      case isFalse => cases h
      case isTrue hnul =>
        split at h
        case h_2 => cases h
        case h_1 t hdecode =>
          cases h
          obtain ⟨after, hafter⟩ := exists_after_nul (by simpa using hnul)
          rw [← Text.encode_of_decode? hdecode] at hafter
          have hbefore : (table.take ref.toNat).length = ref.toNat := by
            rw [List.length_take]
            omega
          refine .inr ⟨table.take ref.toNat, after, ?_, by omega, by omega, nulFree⟩
          rw [← hafter, List.take_append_drop]

theorem StringTable.Names.lookup {table : List UInt8} {ref : Int} {s : String}
    (h : Names table ref s) : StringTable.lookup table ref = .ok s := by
  obtain ⟨rfl, rfl⟩ | ⟨before, after, rfl, rfl, hpos, hnul⟩ := h
  · rfl
  · have htext : (Text.encode s ++ 0 :: after).takeWhile (· ≠ 0) = Text.encode s := by
      rw [List.takeWhile_append_of_pos, List.takeWhile_cons_of_neg (by simp), List.append_nil]
      intro b hb
      rw [decide_eq_true_iff]
      rintro rfl
      exact hnul hb
    have hlength : before.length < (before ++ (Text.encode s ++ 0 :: after)).length := by
      simp only [List.length_append, List.length_cons]
      omega
    rw [StringTable.lookup, if_neg (by omega), if_neg (by omega), Int.toNat_natCast, List.drop_left,
      if_pos (by simp), htext, Text.decode?_encode]

/-! ## What is taken -/

/-- Whatever the read comes to, the bytes it took from the front of the input have the form of
it. -/
def Takes (m : Read α) (Form : List UInt8 → α → Prop) : Prop :=
  ∀ (r r' : Reader) (x : α), m r = .ok (x, r') →
    ∃ bytes, r = ⟨r'.size, bytes ++ r'.rest⟩ ∧ Form bytes x

namespace Takes

variable {m : Read α} {Form : List UInt8 → α → Prop}

theorem pure {x : α} (h : Form [] x) : Takes (pure x) Form := by
  rintro r r' y ⟨⟩
  exact ⟨[], rfl, h⟩

theorem throw (e : ChunkError) : Takes (throw e) Form := fun _ _ _ run => nomatch run

/-- A second read has to take the rest of the form. -/
theorem bind {f : α → Read β} {Whole : List UInt8 → β → Prop} (first : Takes m Form)
    (rest : ∀ bytes x, Form bytes x → Takes (f x) fun tail y => Whole (bytes ++ tail) y) :
    Takes (m >>= f) Whole := by
  intro r r'' y run
  obtain ⟨⟨x, r'⟩, hm, hf⟩ := ChunkError.ok_of_bind run
  obtain ⟨bytes, rfl, hform⟩ := first r r' x hm
  obtain ⟨tail, rfl, hwhole⟩ := rest bytes x hform r' r'' y hf
  exact ⟨bytes ++ tail, by rw [List.append_assoc], hwhole⟩

theorem get_bind {f : Reader → Read β} {Whole : List UInt8 → β → Prop}
    (rest : ∀ r, Takes (f r) Whole) : Takes (get >>= f) Whole :=
  fun r r' y run => rest r r r' y run

theorem lift_bind {result : Except ChunkError α} {f : α → Read β} {Whole : List UInt8 → β → Prop}
    (rest : ∀ x, result = .ok x → Takes (f x) Whole) : Takes (liftM result >>= f) Whole := by
  intro r r' y run
  cases hresult : result with
  | error e => rw [hresult] at run; cases run
  | ok x => exact rest x hresult r r' y (by rw [hresult] at run; exact run)

theorem bytes (count : Nat) :
    Takes (Reader.bytes count) fun bs taken => bs = taken ∧ bs.length = count := by
  intro r r' taken run
  rw [Reader.bytes] at run
  split at run
  · cases run
  · cases run
    refine ⟨r.rest.take count, ?_, rfl, ?_⟩
    · rw [List.take_append_drop]
    · have := List.length_take_le count r.rest
      omega

theorem map {f : α → β} {Whole : List UInt8 → β → Prop} (h : Takes m Form)
    (each : ∀ bytes x, Form bytes x → Whole bytes (f x)) : Takes (f <$> m) Whole := by
  rw [map_eq_pure_bind]
  exact h.bind fun bs x hx => .pure (by rw [List.append_nil]; exact each bs x hx)

theorem word32 : Takes Reader.word32 fun bs n => bs = Word.ofUInt32 n := by
  refine (bytes 4).bind fun bs taken ⟨heq, hlength⟩ => .pure ?_
  subst heq
  have hlt := Word.ofLittleEndian_lt bs
  rw [hlength] at hlt
  rw [List.append_nil, Word.ofUInt32, UInt32.toNat_ofNat_of_lt' hlt, ← hlength,
    Word.littleEndian_ofLittleEndian]

theorem word64 : Takes Reader.word64 fun bs n => bs = Word.littleEndian 8 n.toNat := by
  refine (bytes 8).bind fun bs taken ⟨heq, hlength⟩ => .pure ?_
  subst heq
  have hlt := Word.ofLittleEndian_lt bs
  rw [hlength] at hlt
  rw [List.append_nil, UInt64.toNat_ofNat_of_lt' hlt, ← hlength, Word.littleEndian_ofLittleEndian]

theorem int64 : Takes Reader.int64 fun bs n => bs = Word.ofInt64 n :=
  word64.bind fun _ _ hbs => .pure (by rw [List.append_nil]; exact hbs)

theorem real : Takes Reader.real fun bs x => bs = Word.ofReal x :=
  word64.bind fun _ _ hbs => .pure (by rw [List.append_nil]; exact hbs)

theorem count (field : CountField) (elementSize : Nat) :
    Takes (Reader.count field elementSize) fun bs n =>
      ∃ word : Int64, bs = Word.ofInt64 word ∧ word.toInt = n := by
  refine int64.bind fun bs word hbs => .get_bind fun r => ?_
  split
  case isTrue h => exact .pure ⟨word, by rw [List.append_nil]; exact hbs, by omega⟩
  case isFalse => exact .throw _

theorem times (h : Takes m Form) (count : Nat) :
    Takes (Reader.times count m) fun bs xs => xs.length = count ∧ Repeated Form bs xs := by
  induction count with
  | zero => exact .pure ⟨rfl, .nil⟩
  | succ count ih =>
    refine h.bind fun bs x hx => ih.bind fun tail xs ⟨hlength, hxs⟩ => .pure ?_
    rw [List.append_nil, List.length_cons, hlength]
    exact ⟨rfl, .cons hx hxs⟩

end Takes

/-! ## Only laid out bytes are accepted -/

theorem Constant.takes_read (table : List UInt8) :
    Takes (Constant.read table) (Constant.Layout table) := by
  unfold Constant.read
  refine .bind .word32 fun _ tag htag => ?_
  have hskip : Takes (Reader.skip 4) fun bs _ => bs.length = 4 :=
    (Takes.bytes 4).map fun _ _ h => h.2
  refine hskip.bind fun padding _ hpadding => ?_
  refine .bind .int64 fun _ n hn => .bind .int64 fun _ ref href => .bind .real fun _ x hx => ?_
  subst htag hn href hx
  split
  · refine .pure ⟨padding, n, ref, x, hpadding, ?_, rfl⟩
    rw [List.append_nil, tag]
  · refine .lift_bind fun s hs =>
      .pure ⟨padding, n, ref, x, hpadding, ?_, StringTable.names_of_lookup hs⟩
    rw [List.append_nil, tag]
  · refine .pure ⟨padding, n, ref, x, hpadding, ?_, rfl⟩
    rw [List.append_nil, tag]
  · exact .throw _

theorem Import.takes_read (table : List UInt8) :
    Takes (Import.read table) (Import.Layout table) := by
  refine .bind .int64 fun _ module hmodule => .lift_bind fun m hm => ?_
  refine .bind .int64 fun _ name hname => .lift_bind fun n hn => .pure ?_
  subst hmodule hname
  exact ⟨module, name, by rw [List.append_nil], StringTable.names_of_lookup hm,
    StringTable.names_of_lookup hn⟩

/-- Words one after another are those of the code they are read as. -/
theorem Repeated.flatMap_word {bytes : List UInt8} {words : List UInt32}
    (h : Repeated (fun bs n => bs = Word.ofUInt32 n) bytes words) :
    bytes = (words.map Instruction.mk).flatMap fun i => Word.ofUInt32 i.word := by
  induction h with
  | nil => rfl
  | cons head _ ih => rw [List.map_cons, List.flatMap_cons, ← ih, head]

namespace Prototype

/-- Whatever a record is read as, it is laid out for it. The induction is on the bound on the
nesting. -/
theorem takes_read (depth : Nat) : Takes (read depth) Layout := by
  induction depth with
  | zero => exact .get_bind fun _ => .throw _
  | succ depth ih =>
    unfold read
    refine .get_bind fun start => ?_
    dsimp only
    split
    · have hshort : Takes (throw (.unexpectedEnd start.size)) fun _ (_ : PUnit) => False := .throw _
      exact hshort.bind fun _ _ h => h.elim
    refine .bind .int64 fun _ source hsource => .bind .int64 fun _ symbol hsymbol => ?_
    refine .bind (.count _ _) ?_
    rintro _ _ ⟨tableSize, htableSize, tableSize_eq⟩
    refine .bind (.count _ _) ?_
    rintro _ _ ⟨codeSize, hcodeSize, codeSize_eq⟩
    refine .bind (.count _ _) ?_
    rintro _ _ ⟨nestedSize, hnestedSize, nestedSize_eq⟩
    refine .bind (.count _ _) ?_
    rintro _ _ ⟨constantsSize, hconstantsSize, constantsSize_eq⟩
    refine .bind (.count _ _) ?_
    rintro _ _ ⟨importsSize, himportsSize, importsSize_eq⟩
    refine .bind (.bytes _) ?_
    rintro _ table ⟨htable, table_length⟩
    refine .lift_bind fun _ source_found => .lift_bind fun _ symbol_found => ?_
    refine .bind (Takes.word32.times _) ?_
    rintro _ words ⟨code_length, hcode⟩
    refine .bind ((Constant.takes_read table).times _) ?_
    rintro _ _ ⟨constants_length, hconstants⟩
    refine .bind ((Import.takes_read table).times _) ?_
    rintro _ _ ⟨imports_length, himports⟩
    refine .bind (ih.times _) ?_
    rintro _ _ ⟨nested_length, hnested⟩
    refine .pure ?_
    subst hsource hsymbol htableSize hcodeSize hnestedSize hconstantsSize himportsSize htable
    rw [hcode.flatMap_word, List.append_nil]
    refine Layout.record (p := ⟨_, _, _, _, _, _⟩) ?_ ?_ ?_ ?_ ?_ ?_ ?_ hconstants himports hnested
    · rw [tableSize_eq, table_length]
    · rw [codeSize_eq, List.length_map, code_length]
    · rw [nestedSize_eq, nested_length]
    · rw [constantsSize_eq, constants_length]
    · rw [importsSize_eq, imports_length]
    · exact StringTable.names_of_lookup source_found
    · exact StringTable.names_of_lookup symbol_found

end Prototype

/-! ## All laid out bytes are accepted -/

/-- What is laid out is read if each item of it is. -/
theorem Repeated.reads_times {read : Read α} {Form : List UInt8 → α → Prop} {bytes : List UInt8}
    {xs : List α} (h : Repeated Form bytes xs)
    (each : ∀ bs x, Form bs x → bs.length ≤ bytes.length → Reads read bs x) :
    Reads (Reader.times xs.length read) bytes xs := by
  induction h with
  | nil => exact .pure []
  | @cons bs tail x xs head _ ih =>
    have htail := ih fun cs y hy hlength => each cs y hy (by rw [List.length_append]; omega)
    show Reads (read >>= fun x => Reader.times xs.length read >>= fun xs => Pure.pure (x :: xs)) _ _
    exact (each bs x head (by rw [List.length_append]; omega)).bind (htail.bind_nil (.pure _))

/-- A count is accepted where what is left can hold as many elements. -/
theorem Reader.count_of_room {field : CountField} {elementSize n size : Nat} {word : Int64}
    {rest : List UInt8} (hword : word.toInt = n) (room : n * elementSize ≤ rest.length) :
    Reader.count field elementSize ⟨size, Word.ofInt64 word ++ rest⟩ = .ok (n, ⟨size, rest⟩) := by
  unfold Reader.count
  rw [Read.bind_of_ok (Reads.int64 word size rest)]
  show (if 0 ≤ word.toInt ∧ word.toInt.toNat * elementSize ≤ rest.length then _ else
    _ : Read Nat) _ = _
  rw [hword, Int.toNat_natCast, if_pos ⟨Int.natCast_nonneg n, room⟩]
  rfl

theorem Constant.Layout.reads {table bytes : List UInt8} {c : Constant}
    (h : Constant.Layout table bytes c) : Reads (Constant.read table) bytes c := by
  obtain ⟨padding, n, ref, x, hpadding, rfl, hc⟩ := h
  have skip : Reads (Reader.skip 4) padding () := hpadding ▸ (Reads.bytes padding).map
  refine .bind (.word32 c.tag)
    (.bind skip (.bind (.int64 n) (.bind (.int64 ref) (.bind_nil (.real x) ?_))))
  cases c with
  | integer m => exact hc ▸ .pure _
  | text s =>
    show Reads (liftM (StringTable.lookup table ref.toInt) >>= fun t => Pure.pure (text t)) [] _
    exact .lift_bind hc.lookup (.pure _)
  | real y => exact hc ▸ .pure _

theorem Import.Layout.reads {table bytes : List UInt8} {i : Import}
    (h : Import.Layout table bytes i) :
    Reads (Import.read table) bytes i := by
  obtain ⟨module, name, rfl, hmodule, hname⟩ := h
  exact .bind (.int64 module) (.lift_bind hmodule.lookup (.bind_nil (.int64 name)
    (.lift_bind hname.lookup (.pure _))))

namespace Prototype

/-- A laid out record is read if the bound allows as many levels as its bytes can hold. -/
theorem Layout.reads {depth : Nat} {bytes : List UInt8} {p : Prototype} (h : Layout bytes p)
    (deep : bytes.length ≤ depth * recordWidth) : Reads (read depth) bytes p := by
  induction depth generalizing bytes p with
  | zero =>
    have := h.le_length
    rw [recordWidth] at this
    omega
  | succ depth ih =>
    cases h with
    | @record source symbol tableSize codeSize nestedSize constantsSize importsSize table constants
        imports nested _ htable hcode hnested hconstants himports source_names symbol_names
        constants_form imports_form nested_form =>
    have hnestedReads : Reads (Reader.times p.nested.length (read depth)) nested p.nested := by
      refine nested_form.reads_times fun bs q hq hlength => ih hq ?_
      simp only [Word.ofInt64, List.length_append, Word.length_littleEndian, recordWidth] at deep ⊢
      omega
    have hconstantsReads := constants_form.reads_times fun _ _ hc _ => hc.reads
    have himportsReads := imports_form.reads_times fun _ _ hi _ => hi.reads
    have hcodeReads : Reads (Reader.times p.code.length Reader.word32)
        (p.code.flatMap fun i => Word.ofUInt32 i.word) (p.code.map Instruction.word) :=
      .times fun i _ => .word32 i.word
    have hcodeMap : (p.code.map Instruction.word).map Instruction.mk = p.code := by
      rw [List.map_map]
      exact List.map_id p.code
    -- Each count is checked against what is left, where the elements it counts still are.
    have hcodeLength : (p.code.flatMap fun i => Word.ofUInt32 i.word).length = p.code.length * 4 :=
      length_flatMap_of_const fun _ => by rw [Word.ofUInt32, Word.length_littleEndian]
    have hconstantsLength := constants_form.le_length fun _ _ h => h.length_eq.ge
    have himportsLength := imports_form.le_length fun _ _ h => h.length_eq.ge
    have hnestedLength := nested_form.le_length fun _ _ h => h.le_length
    rw [recordWidth] at hnestedLength
    intro size rest
    unfold read
    rw [Read.get_bind]
    dsimp only
    simp only [List.append_assoc]
    rw [if_neg ?_, Read.bind_of_ok (Reads.int64 _ _ _), Read.bind_of_ok (Reads.int64 _ _ _),
      Read.bind_of_ok (Reader.count_of_room htable ?_),
      Read.bind_of_ok (Reader.count_of_room hcode ?_),
      Read.bind_of_ok (Reader.count_of_room hnested ?_),
      Read.bind_of_ok (Reader.count_of_room hconstants ?_),
      Read.bind_of_ok (Reader.count_of_room himports ?_),
      Read.bind_of_ok (Reads.bytes _ _ _), Read.lift_bind_of_ok source_names.lookup,
      Read.lift_bind_of_ok symbol_names.lookup,
      Read.bind_of_ok (hcodeReads _ _), Read.bind_of_ok (hconstantsReads _ _),
      Read.bind_of_ok (himportsReads _ _), Read.bind_of_ok (hnestedReads _ _), hcodeMap]
    · obtain ⟨_, _, _, _, _, _⟩ := p
      rfl
    all_goals
      simp only [List.length_take, List.length_append, Word.ofInt64, Word.length_littleEndian,
        recordWidth]
      omega

end Prototype

/-! ## The bound on the nesting -/

/-- Two reads do the same wherever no more than `room` bytes are left. -/
def AgreeWithin (room : Nat) (m m' : Read α) : Prop :=
  ∀ r : Reader, r.remaining ≤ room → m r = m' r

namespace AgreeWithin

variable {m m' : Read α} {Form : List UInt8 → α → Prop} {room : Nat}

theorem bind_right {f f' : α → Read β} (width : Nat) (takes : Takes m Form)
    (le_length : ∀ bytes x, Form bytes x → width ≤ bytes.length)
    (rest : ∀ x, AgreeWithin (room - width) (f x) (f' x)) :
    AgreeWithin room (m >>= f) (m >>= f') := by
  intro r hr
  cases hm : m r with
  | error e =>
    show StateT.bind m f r = StateT.bind m f' r
    rw [StateT.bind, StateT.bind, hm]
    rfl
  | ok result =>
    obtain ⟨x, r'⟩ := result
    rw [Read.bind_of_ok hm, Read.bind_of_ok hm]
    obtain ⟨bytes, rfl, hform⟩ := takes r r' x hm
    have hwidth := le_length bytes x hform
    apply rest x r'
    rw [Reader.remaining, List.length_append] at hr
    rw [Reader.remaining]
    omega

theorem bind_left {f : α → Read β} (h : AgreeWithin room m m') :
    AgreeWithin room (m >>= f) (m' >>= f) := by
  intro r hr
  show StateT.bind m f r = StateT.bind m' f r
  rw [StateT.bind, StateT.bind, h r hr]

theorem lift_bind {result : Except ChunkError α} {f f' : α → Read β}
    (rest : ∀ x, AgreeWithin room (f x) (f' x)) :
    AgreeWithin room (liftM result >>= f) (liftM result >>= f') := by
  cases result with
  | error e => exact fun _ _ => rfl
  | ok x => exact rest x

theorem times (takes : Takes m Form) (h : AgreeWithin room m m') (count : Nat) :
    AgreeWithin room (Reader.times count m) (Reader.times count m') := by
  induction count with
  | zero => exact fun _ _ => rfl
  | succ count ih =>
    have hrest : AgreeWithin room (Reader.times (count + 1) m)
        (m >>= fun x => Reader.times count m' >>= fun xs => Pure.pure (x :: xs)) :=
      bind_right 0 takes (fun _ _ _ => Nat.zero_le _) fun _ => ih.bind_left
    intro r hr
    exact (hrest r hr).trans (h.bind_left r hr)

end AgreeWithin

namespace Prototype

theorem read_of_remaining_lt {depth : Nat} {r : Reader} (h : r.remaining < recordWidth) :
    read depth r = .error (.unexpectedEnd r.size) := by
  cases depth with
  | zero => rfl
  | succ depth =>
    have hshort : (r.rest.take recordWidth).length < recordWidth := by
      rw [List.length_take]
      rw [Reader.remaining] at h
      omega
    unfold read
    rw [Read.get_bind]
    dsimp only
    rw [if_pos hshort]
    rfl

/-- Two bounds that allow as many levels as the bytes left can hold give the same reading. A level
takes the bytes of its seven numbers before the next one begins. -/
theorem agreeWithin_read {depth depth' room : Nat} (deep : room < (depth + 1) * recordWidth)
    (deep' : room < (depth' + 1) * recordWidth) : AgreeWithin room (read depth) (read depth') := by
  induction depth generalizing depth' room with
  | zero =>
    intro r hr
    rw [read_of_remaining_lt (by omega), read_of_remaining_lt (by omega)]
  | succ depth ih =>
    obtain _ | depth' := depth'
    · intro r hr
      rw [read_of_remaining_lt (by omega), read_of_remaining_lt (by omega)]
    have hword : ∀ (bs : List UInt8) (n : Int64), bs = Word.ofInt64 n → 8 ≤ bs.length := by
      rintro _ n rfl
      rw [Word.ofInt64, Word.length_littleEndian]
    have hcount : ∀ (bs : List UInt8) (n : Nat), (∃ word, bs = Word.ofInt64 word ∧ word.toInt = n) →
        8 ≤ bs.length := by
      rintro bs n ⟨word, hbs, -⟩
      exact hword bs word hbs
    have hnone : ∀ {α : Type} {Form : List UInt8 → α → Prop} (bs : List UInt8) (x : α), Form bs x →
        0 ≤ bs.length := fun _ _ _ => Nat.zero_le _
    intro r hr
    by_cases short : r.remaining < recordWidth
    · rw [read_of_remaining_lt short, read_of_remaining_lt short]
    have hlong : ¬(r.rest.take recordWidth).length < recordWidth := by
      rw [List.length_take]
      rw [Reader.remaining] at short
      omega
    unfold read
    rw [Read.get_bind, Read.get_bind]
    dsimp only
    rw [if_neg hlong, if_neg hlong]
    refine AgreeWithin.bind_right 8 .int64 hword
      (fun _ => .bind_right 8 .int64 hword fun _ => ?_) r hr
    refine .bind_right 8 (.count _ _) hcount fun _ => .bind_right 8 (.count _ _) hcount fun _ => ?_
    refine .bind_right 8 (.count _ _) hcount fun nestedCount =>
      .bind_right 8 (.count _ _) hcount fun _ => ?_
    refine .bind_right 8 (.count _ _) hcount fun _ => .bind_right 0 (.bytes _) hnone fun table => ?_
    refine .lift_bind fun _ => .lift_bind fun _ =>
      .bind_right 0 (Takes.word32.times _) hnone fun _ => ?_
    refine .bind_right 0 ((Constant.takes_read table).times _) hnone fun _ => ?_
    refine .bind_right 0 ((Import.takes_read table).times _) hnone fun _ => ?_
    refine .bind_left (.times (takes_read depth) (ih ?_ ?_) nestedCount)
    all_goals
      rw [recordWidth] at deep deep' ⊢
      omega

/-- A record takes at least the bytes of its seven numbers. -/
theorem remaining_of_read {depth : Nat} {r r' : Reader} {p : Prototype}
    (h : read depth r = .ok (p, r')) : r'.remaining + recordWidth ≤ r.remaining := by
  obtain ⟨bytes, rfl, hform⟩ := takes_read depth r r' p h
  have := hform.le_length
  rw [Reader.remaining, Reader.remaining, List.length_append]
  omega

end Prototype

/-! ## Chunks -/

/-- The headers that are accepted are those that differ from the host's in nothing but the last
bytes. -/
theorem Header.decode_eq_host_iff {bytes : List UInt8} :
    decode bytes = .ok .host ↔ ∃ unused record : List UInt8, unused.length = 3 ∧
      bytes = signature ++ ([1, 0, 8, 8, 4] ++ (unused ++ record)) := by
  constructor
  · intro h
    unfold decode at h
    split at h
    case h_1 s₀ s₁ s₂ s₃ version order integer float instruction b₀ b₁ b₂ record =>
      split at h
      case isTrue hsignature =>
        simp only [Except.ok.injEq, host, Header.mk.injEq] at h
        obtain ⟨hmajor, hminor, horder, rfl, rfl, rfl⟩ := h
        have hversion : version = 1 := by
          have hdiv := congrArg UInt8.toNat hmajor
          have hmod := congrArg UInt8.toNat hminor
          rw [UInt8.toNat_div] at hdiv
          rw [UInt8.toNat_mod] at hmod
          apply UInt8.toNat_inj.mp
          change version.toNat / 16 = 0 at hdiv
          change version.toNat % 16 = 1 at hmod
          show version.toNat = 1
          omega
        have hzero : order = 0 := by simpa using horder
        subst hversion hzero
        refine ⟨[b₀, b₁, b₂], record, rfl, ?_⟩
        rw [← hsignature]
        rfl
      case isFalse => cases h
    case h_2 => cases h
  · rintro ⟨unused, record, hunused, rfl⟩
    match unused, hunused with
    | [_, _, _], _ => rfl

namespace Chunk

/-- After an accepted header comes the record of the module, and what follows that is counted. -/
theorem decode_eq {bytes unused record : List UInt8} (hunused : unused.length = 3)
    (hbytes : bytes = Header.signature ++ ([1, 0, 8, 8, 4] ++ (unused ++ record))) :
    decode bytes = match Prototype.read bytes.length ⟨bytes.length, record⟩ with
      | .error e => .error e
      | .ok (module, r) => match r.remaining with
        | 0 => .ok ⟨.host, module⟩
        | n => .error (.trailingBytes n) := by
  have hheader : Header.decode bytes = .ok .host :=
    Header.decode_eq_host_iff.mpr ⟨unused, record, hunused, hbytes⟩
  have hcheck : Header.host.checkHost = .ok () := rfl
  have hskip : Reads (Reader.skip Header.width)
      (Header.signature ++ [1, 0, 8, 8, 4] ++ unused) () := by
    have hwidth : Header.width = (Header.signature ++ [1, 0, 8, 8, 4] ++ unused).length := by
      rw [List.length_append, hunused]
      rfl
    rw [hwidth]
    exact (Reads.bytes _).map
  have hstart : Reader.ofBytes bytes =
      ⟨bytes.length, Header.signature ++ [1, 0, 8, 8, 4] ++ unused ++ record⟩ := by
    rw [Reader.ofBytes, List.append_assoc, List.append_assoc, ← hbytes]
  unfold decode
  rw [hheader]
  dsimp only [StateT.run', bind, Except.bind, StateT.bind]
  rw [hcheck, hstart, hskip]
  dsimp only
  cases hread : Prototype.read bytes.length ⟨bytes.length, record⟩ with
  | error e => rfl
  | ok result =>
    obtain ⟨module, size, rest⟩ := result
    cases rest <;> rfl

theorem decode_eq_ok_iff {bytes unused record : List UInt8} {c : Chunk}
    (hunused : unused.length = 3)
    (hbytes : bytes = Header.signature ++ ([1, 0, 8, 8, 4] ++ (unused ++ record))) :
    decode bytes = .ok c ↔ c.header = .host ∧
      Prototype.read bytes.length ⟨bytes.length, record⟩ = .ok (c.module, ⟨bytes.length, []⟩) := by
  rw [decode_eq hunused hbytes]
  cases hread : Prototype.read bytes.length ⟨bytes.length, record⟩ with
  | error e =>
    constructor
    · rintro ⟨⟩
    · rintro ⟨-, ⟨⟩⟩
  | ok result =>
    obtain ⟨module, size, rest⟩ := result
    obtain ⟨taken, htaken, -⟩ := Prototype.takes_read _ _ _ _ hread
    obtain rfl : bytes.length = size := congrArg Reader.size htaken
    obtain ⟨header, module'⟩ := c
    obtain _ | ⟨b, rest⟩ := rest
    · constructor
      · rintro ⟨⟩
        exact ⟨rfl, rfl⟩
      · rintro ⟨⟨⟩, ⟨⟩⟩
        rfl
    · constructor
      · rintro ⟨⟩
      · rintro ⟨-, ⟨⟩⟩

/-- A list of bytes is read as a chunk exactly if it is laid out for it. No chunk is refused for a
count that is checked before the elements, and the bound on the nesting of records makes no
difference, since each record takes at least the bytes of its seven numbers: a reading without the
bound would come to an end. -/
theorem decode_eq_ok_iff_layout :
    (∀ bytes c, decode bytes = .ok c ↔ Layout bytes c) ∧
    (∀ depth r r' p, Prototype.read depth r = .ok (p, r') → r'.remaining + 56 ≤ r.remaining) ∧
    ∀ depth depth' r, r.remaining < (depth + 1) * 56 → r.remaining < (depth' + 1) * 56 →
      Prototype.read depth r = Prototype.read depth' r := by
  refine ⟨fun bytes c => ⟨fun h => ?_, ?_⟩, fun _ _ _ _ => Prototype.remaining_of_read,
    fun depth depth' r deep deep' => Prototype.agreeWithin_read deep deep' r (Nat.le_refl _)⟩
  · obtain ⟨header, hdecode, hrest⟩ := ChunkError.ok_of_bind h
    obtain ⟨⟨⟩, hcheck, -⟩ := ChunkError.ok_of_bind hrest
    obtain rfl := Header.eq_host_of_checkHost hcheck
    obtain ⟨unused, record, hunused, hbytes⟩ := Header.decode_eq_host_iff.mp hdecode
    obtain ⟨hheader, hread⟩ := (decode_eq_ok_iff hunused hbytes).mp h
    obtain ⟨taken, htaken, hlayout⟩ := Prototype.takes_read _ _ _ _ hread
    rw [List.append_nil, Reader.mk.injEq] at htaken
    exact ⟨unused, record, hunused, hbytes, hheader, htaken.2 ▸ hlayout⟩
  · rintro ⟨unused, record, hunused, hbytes, hheader, hlayout⟩
    have hdeep : record.length ≤ bytes.length * Prototype.recordWidth := by
      rw [hbytes, Prototype.recordWidth]
      simp only [List.length_append]
      omega
    have hread := hlayout.reads hdeep bytes.length []
    rw [List.append_nil] at hread
    exact (decode_eq_ok_iff hunused hbytes).mpr ⟨hheader, hread⟩

/-- A module whose two names overlap in a table that does not start with a NUL, and one nested in
it. -/
def overlapping : List UInt8 :=
  Header.signature ++ [1, 0, 8, 8, 4] ++ [7, 7, 7] ++
    [2, 1, 4, 0, 1, 0, 0].flatMap Word.ofNat64 ++ [0xFF, 0x61, 0x62, 0x00] ++ List.replicate 56 0

theorem layout_overlapping :
    Layout overlapping ⟨.host, ⟨"b", "ab", [], [], [], [.named ""]⟩⟩ ∧
      Prototype.read 2 (Reader.ofBytes (overlapping.drop 12)) =
        Prototype.read 100 (Reader.ofBytes (overlapping.drop 12)) := by
  obtain ⟨hlayout, -, hdepth⟩ := decode_eq_ok_iff_layout
  have hdecode : decode overlapping = .ok ⟨.host, ⟨"b", "ab", [], [], [], [.named ""]⟩⟩ := by cbv
  exact ⟨(hlayout _ _).mp hdecode, hdepth 2 100 _ (by decide +kernel) (by decide +kernel)⟩

end Chunk

end ActorMachine
