import Mathlib.Data.Nat.ModEq
import Mathlib.Logic.Function.Iterate
import ActorMachine.Proofs.Slots

/-!
# Packed pids

`PidLayout.lossless`: whatever the widths of the two parts are, a pid gives back the index and the
generation that it is made of, and the generations of a slot come round only after all of them have
had their turn. Pids are words of 32 bits, and a machine shifts and masks such words; it never has
to shift by 32 bits or more, so it computes what the parts say as numbers
(`PidLayout.word_pid_eq_pack` and the lemmas that follow it).
-/

namespace ActorMachine.PidLayout

variable (l : PidLayout)

/-! ## Shifted and masked words -/

/-- The word in which the low `width` bits are set. -/
def lowBits (width : Nat) : UInt32 :=
  UInt32.ofNat (UInt32.size - 1) >>> UInt32.ofNat (32 - width)

/-- An index and a generation, masked and shifted into one word. -/
def pack (index generation : UInt32) : UInt32 :=
  (index &&& lowBits l.indexBits) <<< UInt32.ofNat l.indexShift |||
    (generation &&& lowBits l.generationBits) <<< UInt32.ofNat l.generationShift

/-- The index in a word. -/
def unpackIndex (word : UInt32) : UInt32 :=
  word >>> UInt32.ofNat l.indexShift &&& lowBits l.indexBits

/-- The generation in a word. -/
def unpackGeneration (word : UInt32) : UInt32 :=
  word >>> UInt32.ofNat l.generationShift &&& lowBits l.generationBits

/-- The generation after a given one. The word after the last word is zero. -/
def increment (generation : UInt32) : UInt32 :=
  (generation + 1) &&& lowBits l.generationBits

/-- All distances by which something is shifted: words, masks and the numbers of values. -/
def shifts : List Nat :=
  [l.indexShift, l.generationShift, 32 - l.indexBits, 32 - l.generationBits, l.indexBits,
    l.generationBits]

theorem shift_lt {shift : Nat} (h : shift ∈ l.shifts) : shift < 32 := by
  have hindex := l.indexBits_pos
  have hgeneration := l.generationBits_pos
  have hbits := l.bits_le
  simp only [shifts, List.mem_cons, List.not_mem_nil, or_false, indexShift, generationShift] at h
  omega

/-- A word is shifted by the distance itself, not by what is left of it modulo 32. -/
theorem toNat_shift {shift : Nat} (h : shift ∈ l.shifts) :
    (UInt32.ofNat shift).toNat % 32 = shift := by
  have hlt := l.shift_lt h
  rw [UInt32.toNat_ofNat']
  omega

/-- The low bits of a word are the number modulo the power of two. -/
theorem toNat_and_lowBits {width : Nat} (hshift : 32 - width ∈ l.shifts) (hle : width ≤ 32)
    (w : UInt32) :
    (w &&& lowBits width).toNat = w.toNat % 2 ^ width := by
  have h32 : 2 ^ 32 = 2 ^ width * 2 ^ (32 - width) := by
    rw [← Nat.pow_add, Nat.add_sub_cancel' hle]
  have hmask : (lowBits width).toNat = 2 ^ width - 1 := by
    have hpos := Nat.two_pow_pos width
    have hpos' := Nat.two_pow_pos (32 - width)
    rw [lowBits, UInt32.toNat_shiftRight, l.toNat_shift hshift, Nat.shiftRight_eq_div_pow]
    show (2 ^ 32 - 1) / 2 ^ (32 - width) = _
    rw [h32]
    refine Nat.div_eq_of_lt_le ?_ ?_
    · rw [Nat.sub_mul, Nat.one_mul]
      omega
    · rw [Nat.sub_add_cancel hpos]
      exact Nat.sub_lt (Nat.mul_pos hpos hpos') Nat.one_pos
  rw [UInt32.toNat_and, hmask, Nat.and_two_pow_sub_one_eq_mod]

theorem toNat_and_indexMask (w : UInt32) :
    (w &&& lowBits l.indexBits).toNat = w.toNat % l.maxProcesses := by
  have hbits := l.bits_le
  rw [l.toNat_and_lowBits (by simp [shifts]) (by omega), maxProcesses_eq]

theorem toNat_and_generationMask (w : UInt32) :
    (w &&& lowBits l.generationBits).toNat = w.toNat % l.generations := by
  have hbits := l.bits_le
  rw [l.toNat_and_lowBits (by simp [shifts]) (by omega), generations_eq]

/-- A number that is moved to the left stays within the room that there is for it. -/
theorem shiftLeft_lt {n width shift room : Nat} (h : n < 2 ^ width) (hroom : width + shift = room) :
    n <<< shift < 2 ^ room := by
  rw [Nat.shiftLeft_eq, ← hroom, Nat.pow_add]
  exact Nat.mul_lt_mul_of_pos_right h (Nat.two_pow_pos _)

theorem word_pid_eq_pack (index generation : UInt32) :
    (l.pid index.toNat generation.toNat).word = l.pack index generation := by
  have hbits := l.bits_le
  have high : (index.toNat % l.maxProcesses) <<< l.indexShift < 2 ^ 32 := by
    have hmod : index.toNat % l.maxProcesses < 2 ^ l.indexBits := by
      rw [maxProcesses_eq]
      exact Nat.mod_lt _ (Nat.two_pow_pos _)
    exact shiftLeft_lt hmod (by unfold indexShift; omega)
  have low : (generation.toNat % l.generations) <<< l.generationShift < 2 ^ l.indexShift := by
    have hmod : generation.toNat % l.generations < 2 ^ l.generationBits := by
      rw [generations_eq]
      exact Nat.mod_lt _ (Nat.two_pow_pos _)
    exact shiftLeft_lt hmod (by unfold indexShift generationShift; omega)
  have hle : 2 ^ l.indexShift ≤ 2 ^ 32 :=
    Nat.pow_le_pow_right Nat.two_pos (by unfold indexShift; omega)
  have hword : ((index.toNat % l.maxProcesses) <<< l.indexShift |||
      (generation.toNat % l.generations) <<< l.generationShift) < 2 ^ 32 :=
    Nat.or_lt_two_pow high (Nat.lt_of_lt_of_le low hle)
  apply UInt32.toNat_inj.mp
  rw [pid, pack, UInt32.toNat_ofNat', UInt32.toNat_or, UInt32.toNat_shiftLeft,
    UInt32.toNat_shiftLeft,
    l.toNat_shift (by simp [shifts]), l.toNat_shift (by simp [shifts]), l.toNat_and_indexMask,
    l.toNat_and_generationMask, Nat.mod_eq_of_lt high,
    Nat.mod_eq_of_lt (Nat.lt_of_lt_of_le low hle),
    Nat.shiftLeft_add_eq_or_of_lt low, Nat.mod_eq_of_lt hword]

theorem index_eq_unpackIndex (p : Pid) : l.index p = (l.unpackIndex p.word).toNat := by
  have hbits := l.bits_le
  have hlt : p.word.toNat >>> l.indexShift < l.maxProcesses := by
    rw [Nat.shiftRight_eq_div_pow, maxProcesses_eq, Nat.div_lt_iff_lt_mul (Nat.two_pow_pos _),
      ← Nat.pow_add, show l.indexBits + l.indexShift = 32 by unfold indexShift; omega]
    exact p.word.toNat_lt
  rw [unpackIndex, toNat_and_indexMask, UInt32.toNat_shiftRight, l.toNat_shift (by simp [shifts]),
    Nat.mod_eq_of_lt hlt, index]

theorem generation_eq_unpackGeneration (p : Pid) :
    l.generation p = (l.unpackGeneration p.word).toNat := by
  rw [unpackGeneration, toNat_and_generationMask, UInt32.toNat_shiftRight,
    l.toNat_shift (by simp [shifts]), generation]

theorem nextGeneration_eq_increment (generation : UInt32) :
    l.nextGeneration generation.toNat = (l.increment generation).toNat := by
  have hbits := l.bits_le
  have hdvd : l.generations ∣ 2 ^ 32 := by
    rw [generations_eq]
    exact Nat.pow_dvd_pow 2 (by omega)
  rw [increment, toNat_and_generationMask, UInt32.toNat_add, Nat.mod_mod_of_dvd _ hdvd,
    nextGeneration]
  rfl

/-! ## Numbers of any size -/

/-- Numbers that are too great are taken modulo the number of values of their part. -/
theorem pid_mod (i g : Nat) : l.pid (i % l.maxProcesses) (g % l.generations) = l.pid i g := by
  rw [pid, Nat.mod_mod, Nat.mod_mod, pid]

theorem maxProcesses_pos : 0 < l.maxProcesses := by
  rw [maxProcesses_eq]
  exact Nat.two_pow_pos _

theorem index_pid_mod (i g : Nat) : l.index (l.pid i g) = i % l.maxProcesses := by
  rw [← pid_mod]
  exact l.index_pid (Nat.mod_lt _ l.maxProcesses_pos) (Nat.mod_lt _ l.generations_pos)

theorem generation_pid_mod (i g : Nat) : l.generation (l.pid i g) = g % l.generations := by
  rw [← pid_mod]
  exact l.generation_pid (Nat.mod_lt _ l.maxProcesses_pos) (Nat.mod_lt _ l.generations_pos)

/-- The bits below the generation are zeros. -/
theorem word_pid_mod (i g : Nat) : (l.pid i g).word.toNat % 2 ^ l.generationShift = 0 := by
  rw [← pid_mod, word_pid l (Nat.mod_lt _ l.maxProcesses_pos) (Nat.mod_lt _ l.generations_pos)]
  exact Nat.mul_mod_left _ _

/-! ## Generations in turn -/

variable {g g' : Nat}

theorem iterate_nextGeneration (hg : g < l.generations) (k : Nat) :
    l.nextGeneration^[k] g = (g + k) % l.generations := by
  induction k with
  | zero => exact (Nat.mod_eq_of_lt hg).symm
  | succ k ih =>
    rw [Function.iterate_succ_apply', ih, nextGeneration, Nat.mod_add_mod, Nat.add_assoc]

/-- There is just one time in a round at which it is the turn of a generation. -/
theorem existsUnique_iterate (hg : g < l.generations) (hg' : g' < l.generations) :
    ∃! k, k < l.generations ∧ l.nextGeneration^[k] g = g' := by
  have hturn : (g + (g' + l.generations - g) % l.generations) % l.generations = g' := by
    rw [Nat.add_mod_mod, Nat.add_sub_cancel' (by omega), Nat.add_mod_right, Nat.mod_eq_of_lt hg']
  simp only [l.iterate_nextGeneration hg]
  refine ⟨_, ⟨Nat.mod_lt _ l.generations_pos, hturn⟩, ?_⟩
  rintro k ⟨hk, hturn'⟩
  have hsame : g + k ≡ g + (g' + l.generations - g) % l.generations [MOD l.generations] :=
    hturn'.trans hturn.symm
  exact (hsame.add_left_cancel' g).eq_of_lt_of_lt hk (Nat.mod_lt _ l.generations_pos)

theorem widths_of_make? {indexBits generationBits : Nat} {l : PidLayout}
    (accepted : make? indexBits generationBits = some l) :
    l.indexBits = indexBits ∧ l.generationBits = generationBits := by
  unfold make? at accepted
  split at accepted
  · obtain rfl := Option.some.inj accepted
    exact ⟨rfl, rfl⟩
  · cases accepted

/-- In a layout with any two widths that are accepted, nothing is ever shifted by 32 bits or more,
and shifting and masking words gives what the parts are as numbers. An index and a generation that
fit are given back by their pid, no other such pair has the same one, and the bits below them are
zeros. Numbers that do not fit are taken modulo the number of values of their part, and the other
part is what it would be anyway. From any generation on, every generation has its turn exactly once
before that generation comes again. -/
theorem lossless {indexBits generationBits : Nat} {l : PidLayout}
    (accepted : make? indexBits generationBits = some l) :
    ((∀ shift ∈ l.shifts, shift < 32) ∧
      (∀ i g : UInt32, (l.pid i.toNat g.toNat).word = l.pack i g) ∧
      (∀ p : Pid, l.index p = (l.unpackIndex p.word).toNat ∧
        l.generation p = (l.unpackGeneration p.word).toNat) ∧
      ∀ g : UInt32, l.nextGeneration g.toNat = (l.increment g).toNat) ∧
    (∀ i g, i < 2 ^ indexBits → g < 2 ^ generationBits →
      l.index (l.pid i g) = i ∧ l.generation (l.pid i g) = g ∧
      ∀ i' g', i' < 2 ^ indexBits → g' < 2 ^ generationBits → l.pid i g = l.pid i' g' →
        i = i' ∧ g = g') ∧
    (∀ i g, l.index (l.pid i g) = i % 2 ^ indexBits ∧
      l.generation (l.pid i g) = g % 2 ^ generationBits ∧
      (l.pid i g).word.toNat % 2 ^ (32 - indexBits - generationBits) = 0) ∧
    ∀ g, g < 2 ^ generationBits → l.nextGeneration^[2 ^ generationBits] g = g ∧
      ∀ g', g' < 2 ^ generationBits → ∃! k, k < 2 ^ generationBits ∧
        l.nextGeneration^[k] g = g' := by
  obtain ⟨rfl, rfl⟩ := widths_of_make? accepted
  rw [← maxProcesses_eq, ← generations_eq]
  refine ⟨⟨fun _ => l.shift_lt, l.word_pid_eq_pack, fun p => ⟨l.index_eq_unpackIndex p,
    l.generation_eq_unpackGeneration p⟩, l.nextGeneration_eq_increment⟩, fun i g hi hg => ?_,
    fun i g => ?_, fun g hg => ⟨?_, fun g' hg' => l.existsUnique_iterate hg hg'⟩⟩
  · refine ⟨l.index_pid hi hg, l.generation_pid hi hg, fun i' g' hi' hg' heq => ⟨?_, ?_⟩⟩
    · rw [← l.index_pid hi hg, heq, l.index_pid hi' hg']
    · rw [← l.generation_pid hi hg, heq, l.generation_pid hi' hg']
  · exact ⟨l.index_pid_mod i g, l.generation_pid_mod i g, l.word_pid_mod i g⟩
  · rw [l.iterate_nextGeneration hg, Nat.add_mod_right, Nat.mod_eq_of_lt hg]

/-- With 31 bits for the index and one for the generation no bit is left: the last index and the
last generation fill the word, and come back from it. The generation after the last one is the
first. -/
theorem lossless_fullWidth : ∃ l, make? 31 1 = some l ∧ (l.pid (2 ^ 31 - 1) 1).word = 0xFFFFFFFF ∧
    l.index (l.pid (2 ^ 31 - 1) 1) = 2 ^ 31 - 1 ∧ l.generation (l.pid (2 ^ 31 - 1) 1) = 1 ∧
    l.nextGeneration^[2] 1 = 1 := by
  obtain ⟨-, fits, -, turns⟩ :=
    lossless (show make? 31 1 = some ⟨31, 1, by decide, by decide, by decide⟩ from rfl)
  obtain ⟨hindex, hgeneration, -⟩ := fits (2 ^ 31 - 1) 1 (by decide) (by decide)
  exact ⟨_, rfl, by decide, hindex, hgeneration, (turns 1 (by decide)).1⟩

end ActorMachine.PidLayout
