import Mathlib.Algebra.Order.Ring.Nat
import ActorMachine.Heap.Basic

/-!
# Laws of byte memory

A memory is known by its bytes (`Memory.byte`), which are zero beyond its end. Everything that is
read depends on a range of bytes only (`Memory.SameOn`), and everything that is written changes a
range of bytes only, so reads and writes of ranges that have no byte in common do not interfere.
-/

namespace ActorMachine

namespace Memory

variable {m m' : Memory}

theorem byte_of_lt {i : Nat} (h : i < m.size) : m.byte i = m[i] := dif_pos h

theorem byte_of_size_le {i : Nat} (h : m.size ≤ i) : m.byte i = 0 := dif_neg (by omega)

/-- Two memories have the same bytes from `lo` up to `hi`. -/
def SameOn (m m' : Memory) (lo hi : Nat) : Prop :=
  ∀ i, lo ≤ i → i < hi → m.byte i = m'.byte i

namespace SameOn

variable {lo hi : Nat}

theorem refl (m : Memory) (lo hi : Nat) : SameOn m m lo hi := fun _ _ _ => rfl

theorem symm (h : SameOn m m' lo hi) : SameOn m' m lo hi := fun i h1 h2 => (h i h1 h2).symm

theorem trans {m'' : Memory} (h : SameOn m m' lo hi) (h' : SameOn m' m'' lo hi) :
    SameOn m m'' lo hi := fun i h1 h2 => (h i h1 h2).trans (h' i h1 h2)

theorem mono (h : SameOn m m' lo hi) {lo' hi' : Nat} (hlo : lo ≤ lo') (hhi : hi' ≤ hi) :
    SameOn m m' lo' hi' := fun i h1 h2 => h i (by omega) (by omega)

end SameOn

/-! ## Reading -/

theorem word_lt (m : Memory) (i width : Nat) : m.word i width < 256 ^ width := by
  induction width generalizing i with
  | zero => exact Nat.one_pos
  | succ width ih =>
    have hbyte := (m.byte i).toNat_lt
    have := ih (i + 1)
    rw [word, Nat.pow_succ]
    omega

/-- The low bytes of a word, and the others. -/
theorem word_add (m : Memory) (i low high : Nat) :
    m.word i (low + high) = m.word i low + 256 ^ low * m.word (i + low) high := by
  induction low generalizing i with
  | zero => simp [word]
  | succ low ih =>
    rw [Nat.succ_add, word, word, ih, Nat.pow_succ', Nat.mul_add, Nat.mul_assoc,
      show i + 1 + low = i + (low + 1) by omega, Nat.add_assoc]

/-- A word depends on its bytes, wherever they are. -/
theorem word_congr {i j width : Nat}
    (h : ∀ k, k < width → m.byte (i + k) = m'.byte (j + k)) : m.word i width = m'.word j width := by
  induction width generalizing i j with
  | zero => rfl
  | succ width ih =>
    have hhead := h 0 (Nat.succ_pos _)
    rw [Nat.add_zero, Nat.add_zero] at hhead
    rw [word, word, hhead, ih fun k hk => ?_]
    have := h (k + 1) (by omega)
    rwa [Nat.add_right_comm i 1 k, Nat.add_right_comm j 1 k]

theorem SameOn.word {i width : Nat} (h : SameOn m m' i (i + width)) :
    m.word i width = m'.word i width :=
  word_congr fun k hk => h (i + k) (by omega) (by omega)

/-- A slot depends on its bytes, wherever they are. -/
theorem value_congr {i j : Nat} (h : ∀ k, k < slotWidth → m.byte (i + k) = m'.byte (j + k)) :
    m.value i = m'.value j := by
  have hkind := h 0 (by decide)
  rw [Nat.add_zero, Nat.add_zero] at hkind
  rw [value, value, hkind, word_congr fun k hk => ?_]
  have := h (8 + k) (by rw [slotWidth]; omega)
  rwa [Nat.add_assoc, Nat.add_assoc]

theorem SameOn.value {i : Nat} (h : SameOn m m' i (i + slotWidth)) : m.value i = m'.value i :=
  value_congr fun k hk => h (i + k) (by omega) (by omega)

/-- A header depends on its bytes, wherever they are in a memory. -/
theorem header?_congr {i j : Nat} (hi : i + headerWidth ≤ m.size) (hj : j + headerWidth ≤ m'.size)
    (h : ∀ k, k < headerWidth → m.byte (i + k) = m'.byte (j + k)) :
    m.header? i = m'.header? j := by
  have hkind := h 0 (by decide)
  rw [Nat.add_zero, Nat.add_zero] at hkind
  have hsize : m.word (i + 4) 4 = m'.word (j + 4) 4 := word_congr fun k hk => by
    rw [Nat.add_assoc, Nat.add_assoc]
    exact h (4 + k) (by rw [headerWidth]; omega)
  have hforward : m.word (i + 8) 8 = m'.word (j + 8) 8 := word_congr fun k hk => by
    rw [Nat.add_assoc, Nat.add_assoc]
    exact h (8 + k) (by rw [headerWidth]; omega)
  rw [header?, header?, if_pos hi, if_pos hj, hkind, hsize, hforward]

/-! ## Writing -/

theorem byte_set! (m : Memory) (i j : Nat) (b : UInt8) :
    byte (m.set! i b) j = if j = i ∧ i < m.size then b else m.byte j := by
  by_cases hj : j < m.size
  · have hj' : j < (m.set! i b).size := by rwa [ByteArray.size_set!]
    rw [byte_of_lt hj', byte_of_lt hj]
    by_cases heq : j = i
    · subst heq
      rw [if_pos ⟨rfl, hj⟩]
      exact ByteArray.getElem_set!_self _ _ _ hj
    · rw [if_neg fun h => heq h.1]
      exact ByteArray.getElem_set!_ne _ _ _ _ (Ne.symm heq) _
  · rw [byte_of_size_le (by rw [ByteArray.size_set!]; omega), byte_of_size_le (by omega),
      if_neg (by omega)]

@[simp]
theorem size_store (m : Memory) (i width n : Nat) : (m.store i width n).size = m.size := by
  induction width generalizing m i n with
  | zero => rfl
  | succ width ih => rw [store, ih, ByteArray.size_set!]

theorem byte_store_of_outside {i width n j : Nat} (h : j < i ∨ i + width ≤ j) :
    (m.store i width n).byte j = m.byte j := by
  induction width generalizing m i n with
  | zero => rfl
  | succ width ih => rw [store, ih (by omega), byte_set!, if_neg (by omega)]

/-- A word that has been written is read back modulo what its bytes can hold. -/
theorem word_store {i width n : Nat} (h : i + width ≤ m.size) :
    (m.store i width n).word i width = n % 256 ^ width := by
  induction width generalizing m i n with
  | zero => rw [word, Nat.pow_zero, Nat.mod_one]
  | succ width ih =>
    have hbyte : (m.store i (width + 1) n).byte i = UInt8.ofNat n := by
      rw [store, byte_store_of_outside (.inl (Nat.lt_succ_self i)), byte_set!,
        if_pos ⟨rfl, by omega⟩]
    have hnat : (UInt8.ofNat n).toNat = n % 256 := by simp
    rw [word, hbyte, store, ih (by rw [ByteArray.size_set!]; omega), hnat, Nat.pow_succ',
      Nat.mod_mul]

theorem byte_store_kind {i width : Nat} {kind : Kind} (h : i + (width + 1) ≤ m.size) :
    (m.store i (width + 1) kind.code.toNat).byte i = kind.code := by
  rw [store, byte_store_of_outside (.inl (Nat.lt_succ_self i)), byte_set!, if_pos ⟨rfl, by omega⟩,
    UInt8.ofNat_toNat]

theorem sameOn_store {i j k width n : Nat} (h : k ≤ i ∨ i + width ≤ j) :
    SameOn (m.store i width n) m j k :=
  fun _ h1 h2 => byte_store_of_outside (by omega)

@[simp]
theorem size_storeValue (m : Memory) (i : Nat) (v : Value) : (m.storeValue i v).size = m.size := by
  rw [storeValue, size_store, size_store]

theorem sameOn_storeValue {i j k : Nat} {v : Value} (h : k ≤ i ∨ i + slotWidth ≤ j) :
    SameOn (m.storeValue i v) m j k := by
  rw [slotWidth] at h
  exact (sameOn_store (by omega)).trans (sameOn_store (by omega))

/-- A value that has been written to a slot is read back. -/
theorem value_storeValue {i : Nat} {v : Value} (h : i + slotWidth ≤ m.size) :
    (m.storeValue i v).value i = v := by
  rw [slotWidth] at h
  have hkind : (m.storeValue i v).byte i = v.kind.code := by
    rw [storeValue, byte_store_of_outside (.inl (by omega)), byte_store_kind (by omega)]
  have hpayload : (m.storeValue i v).word (i + 8) 8 = v.payload.toNat := by
    rw [storeValue, word_store (by rw [size_store]; omega)]
    exact Nat.mod_eq_of_lt v.payload.toNat_lt
  rw [value, hkind, hpayload, UInt64.ofNat_toNat]
  exact Value.ofSlot_payload v

@[simp]
theorem size_storeHeader (m : Memory) (i : Nat) (h : ObjectHeader) :
    (m.storeHeader i h).size = m.size := by
  simp only [storeHeader, size_store]

theorem sameOn_storeHeader {i j k : Nat} {h : ObjectHeader}
    (apart : k ≤ i ∨ i + headerWidth ≤ j) : SameOn (m.storeHeader i h) m j k := by
  rw [headerWidth] at apart
  exact ((sameOn_store (by omega)).trans (sameOn_store (by omega))).trans (sameOn_store (by omega))

/-- The last word of a header as a number. -/
def forwardWord : Option Ref → Nat
  | some r => r.start
  | none => notForwarded

theorem forwardWord_lt (forward : Option Ref) : forwardWord forward < 256 ^ 8 := by
  cases forward with
  | some r => exact r.offset.toNat_lt
  | none => decide

theorem ite_forwardWord {forward : Option Ref}
    (h : ∀ r, forward = some r → r.start ≠ notForwarded) :
    (if forwardWord forward = notForwarded then none else some (Ref.ofNat (forwardWord forward))) =
      forward := by
  cases forward with
  | some r =>
    rw [forwardWord, if_neg (h r rfl), Ref.start, Ref.ofNat, UInt64.ofNat_toNat]
  | none => rw [forwardWord, if_pos rfl]

theorem storeHeader_eq (m : Memory) (i : Nat) (h : ObjectHeader) :
    m.storeHeader i h = ((m.store i 4 h.kind.code.toNat).store (i + 4) 4 h.size).store (i + 8) 8
      (forwardWord h.forward) := by
  obtain ⟨kind, size, forward⟩ := h
  cases forward <;> rfl

/-- A header that has been written is read back, if its numbers fit. -/
theorem header?_storeHeader {i : Nat} {h : ObjectHeader} (room : i + headerWidth ≤ m.size)
    (hsize : h.size < 2 ^ 32) (hforward : ∀ r, h.forward = some r → r.start ≠ notForwarded) :
    (m.storeHeader i h).header? i = some h := by
  rw [header?, if_pos (by rwa [size_storeHeader])]
  rw [headerWidth] at room
  have hkind : (m.storeHeader i h).byte i = h.kind.code := by
    rw [storeHeader_eq, byte_store_of_outside (.inl (by omega)),
      byte_store_of_outside (.inl (by omega)), byte_store_kind (by omega)]
  have hsizeWord : (m.storeHeader i h).word (i + 4) 4 = h.size := by
    rw [storeHeader_eq, (sameOn_store (.inl (by omega))).word,
      word_store (by rw [size_store]; omega)]
    exact Nat.mod_eq_of_lt hsize
  have hlast : (m.storeHeader i h).word (i + 8) 8 = forwardWord h.forward := by
    rw [storeHeader_eq, word_store (by rw [size_store, size_store]; omega)]
    exact Nat.mod_eq_of_lt (forwardWord_lt _)
  simp only [hkind, hsizeWord, hlast, Kind.ofCode?_code, Option.map_some, ite_forwardWord hforward]

/-! ## Growing and copying -/

@[simp]
theorem size_grow (m : Memory) (n : Nat) : (m.grow n).size = m.size + n := by
  induction n generalizing m with
  | zero => rfl
  | succ n ih =>
    rw [grow, ih, ByteArray.size_push]
    omega

/-- New bytes are zeros, which is how bytes beyond the end read. -/
@[simp]
theorem byte_grow (m : Memory) (n i : Nat) : (m.grow n).byte i = m.byte i := by
  induction n generalizing m with
  | zero => rfl
  | succ n ih =>
    rw [grow, ih]
    by_cases hlt : i < m.size
    · rw [byte_of_lt hlt, byte_of_lt (by rw [ByteArray.size_push]; omega)]
      exact Array.getElem_push_lt hlt
    · rw [byte_of_size_le (m := m) (by omega)]
      by_cases heq : i = m.size
      · subst heq
        rw [byte_of_lt (by rw [ByteArray.size_push]; omega)]
        exact Array.getElem_push_eq
      · exact byte_of_size_le (by rw [ByteArray.size_push]; omega)

theorem byte_append (m m' : Memory) (i : Nat) :
    byte (m ++ m') i = if i < m.size then m.byte i else m'.byte (i - m.size) := by
  by_cases hlt : i < m.size
  · rw [if_pos hlt, byte_of_lt hlt, byte_of_lt (by rw [ByteArray.size_append]; omega)]
    exact ByteArray.getElem_append_left hlt
  · rw [if_neg hlt]
    by_cases hin : i < (m ++ m').size
    · rw [byte_of_lt hin, ByteArray.getElem_append_right (by omega)]
      rw [ByteArray.size_append] at hin
      exact (byte_of_lt (by omega)).symm
    · rw [byte_of_size_le (by omega)]
      rw [ByteArray.size_append] at hin
      exact (byte_of_size_le (by omega)).symm

theorem byte_extract {lo hi i : Nat} (hi_le : hi ≤ m.size) (h : i < hi - lo) :
    byte (m.extract lo hi) i = m.byte (lo + i) := by
  rw [byte_of_lt (by rw [ByteArray.size_extract]; omega), byte_of_lt (by omega)]
  exact ByteArray.getElem_extract ..

theorem size_extract_of_le {j k : Nat} (h : k ≤ m.size) : (m.extract j k).size = k - j := by
  rw [ByteArray.size_extract]
  omega

/-- What is cut out depends on its bytes, wherever they are. -/
theorem extract_congr {i j n : Nat} (hi : i + n ≤ m.size) (hj : j + n ≤ m'.size)
    (h : ∀ k, k < n → m.byte (i + k) = m'.byte (j + k)) :
    m.extract i (i + n) = m'.extract j (j + n) := by
  have hsize : (m.extract i (i + n)).size = (m'.extract j (j + n)).size := by
    rw [size_extract_of_le hi, size_extract_of_le hj]
    omega
  refine ByteArray.ext_getElem hsize fun k hk hk' => ?_
  rw [size_extract_of_le hi] at hk
  rw [← byte_of_lt, ← byte_of_lt, byte_extract hi hk, byte_extract hj (by omega)]
  exact h k (by omega)

theorem storeBytes_eq (m : Memory) (i : Nat) (bytes : ByteArray) :
    m.storeBytes i bytes = m.extract 0 i ++ bytes ++ m.extract (i + bytes.size) m.size := by
  rw [storeBytes, ByteArray.copySlice_eq_append]
  congr 2
  · rw [Nat.zero_add, ByteArray.extract_zero_size]
  · have : bytes.data.size = bytes.size := rfl
    congr 1
    omega

theorem size_storeBytes {i : Nat} {bytes : ByteArray} (h : i + bytes.size ≤ m.size) :
    (m.storeBytes i bytes).size = m.size := by
  rw [storeBytes_eq, ByteArray.size_append, ByteArray.size_append,
    size_extract_of_le (by omega), size_extract_of_le (Nat.le_refl _)]
  omega

theorem byte_storeBytes {i : Nat} {bytes : ByteArray} (h : i + bytes.size ≤ m.size) (j : Nat) :
    (m.storeBytes i bytes).byte j =
      if i ≤ j ∧ j < i + bytes.size then byte bytes (j - i) else m.byte j := by
  have hi : (m.extract 0 i).size = i := by
    rw [size_extract_of_le (by omega)]
    omega
  rw [storeBytes_eq, byte_append, byte_append, ByteArray.size_append, hi]
  by_cases h1 : j < i
  · rw [if_pos (by omega), if_pos h1, if_neg (by omega),
      byte_extract (by omega) (by omega), Nat.zero_add]
  · by_cases h2 : j < i + bytes.size
    · rw [if_pos h2, if_neg h1, if_pos ⟨by omega, h2⟩]
    · rw [if_neg h2, if_neg (by omega)]
      by_cases h3 : j < m.size
      · rw [byte_extract (Nat.le_refl _) (by omega)]
        congr 1
        omega
      · rw [byte_of_size_le (m := m) (by omega)]
        exact byte_of_size_le (by rw [size_extract_of_le (Nat.le_refl _)]; omega)

end Memory

end ActorMachine
