import ActorMachine.Proofs.Contents
import ActorMachine.Proofs.Owning

/-!
# When values are equal

`Heap.equal_exact`: strings are equal if and only if their bytes are, wherever they lie and whether
or not their hashes differ; on all values but the reals that are not numbers, equality is an
equivalence relation; and it does not change when values are moved to other places, by a collection
or by a deep copy. Comparing the hashes first makes no difference because the hash that is recorded
in a string is always the hash of its bytes (`Stocked.equal_string`), and moving makes none because
different objects are moved to different places (`Memory.equates_relocate`).
-/

namespace ActorMachine

open Memory

/-- The value is a real that is not a number. -/
def Value.isNaN : Value → Bool
  | real x => x.isNaN
  | _ => false

/-- The value is no string, or one of those of `P`. -/
def Value.Legible (P : Shape → Ref → Prop) (v : Value) :
    Prop := ∀ r, v = .object .string r → P .string r

theorem Value.Among.legible {P : Shape → Ref → Prop} {v : Value} (h : v.Among P) :
    v.Legible P := fun r => h _ r

theorem Value.agrees_self {v : Value} (h : v.isNaN = false) : v.agrees v := by
  cases v with
  | real x =>
    have hx : x.isNaN = false := h
    simp [agrees, Binary64.agrees, hx]
  | _ => simp [agrees]

/-- An object agrees with itself only. -/
theorem Value.eq_of_agrees {s : Shape} {r : Ref} {v : Value} (h : (Value.object s r).agrees v) :
    v = .object s r :=
  (of_decide_eq_true h : Value.object s r = v).symm

/-- Values at other places agree if and only if they did before, if different objects are at
different places. -/
theorem Value.agrees_relocate {φ : Ref → Ref} {v w : Value}
    (injective : ∀ s r t, v = .object s r → w = .object s t → φ r = φ t → r = t) :
    (v.relocate φ).agrees (w.relocate φ) = v.agrees w := by
  cases v with
  | object s r =>
    cases w with
    | object s' t =>
      show (Value.object s (φ r) == .object s' (φ t)) = (Value.object s r == .object s' t)
      rw [Bool.eq_iff_iff, beq_iff_eq, beq_iff_eq, object.injEq, object.injEq]
      refine and_congr_right fun hs => ⟨fun heq => ?_, congrArg φ⟩
      exact injective s r t rfl (hs ▸ rfl) heq
    | _ => rfl
  | _ => cases w <;> rfl

/-! ## What equality comes to -/

/-- Two values count as the same: strings with the same bytes, and values that agree. -/
inductive Memory.Equates (m : Memory) : Value → Value → Prop
  | string {r t : Ref} (h : m.stringAt r = m.stringAt t) :
    Equates m (.object .string r) (.object .string t)
  | plain {v w : Value} (h : v.agrees w) : Equates m v w

namespace Memory.Equates

variable {m : Memory} {v w x : Value} {r t : Ref}

theorem refl (h : v.isNaN = false) : m.Equates v v := .plain (Value.agrees_self h)

theorem symm (h : m.Equates v w) : m.Equates w v := by
  cases h with
  | string h => exact .string h.symm
  | plain h => exact .plain (Value.agrees_symm h)

theorem trans (h : m.Equates v w) (h' : m.Equates w x) : m.Equates v x := by
  cases h with
  | string h =>
    generalize hw : Value.object .string _ = w at h'
    cases h' with
    | string h' =>
      cases hw
      exact .string (h.trans h')
    | plain h' =>
      obtain rfl := Value.eq_of_agrees (hw ▸ h')
      exact .string h
  | plain h =>
    cases h' with
    | string h' =>
      obtain rfl := Value.eq_of_agrees (Value.agrees_symm h)
      exact .string h'
    | plain h' => exact .plain (Value.agrees_trans h h')

theorem string_iff : m.Equates (.object .string r) (.object .string t) ↔
    m.stringAt r = m.stringAt t := by
  refine ⟨fun h => ?_, .string⟩
  cases h with
  | string h => exact h
  | plain h =>
    obtain ⟨⟩ := Value.eq_of_agrees h
    rfl

theorem plain_iff (h : ∀ r t, v = .object .string r → w ≠ .object .string t) :
    m.Equates v w ↔ v.agrees w := by
  refine ⟨fun heq => ?_, .plain⟩
  cases heq with
  | string => exact absurd rfl (h _ _ rfl)
  | plain heq => exact heq

end Memory.Equates

theorem Heap.equal_plain {v w : Value} (heap : Heap)
    (h : ∀ r t, v = .object .string r → w ≠ .object .string t) :
    heap.equal v w = .ok (v.agrees w) := by
  unfold equal
  split
  · exact absurd rfl (h _ _ rfl)
  · rfl

namespace Stocked

variable {P : Shape → Ref → Prop} {h : Heap} {v w : Value} {r t : Ref}

/-- The hash recorded in a string is that of its bytes. -/
theorem stringHash_eq (stocked : Stocked P h.memory) (hr : P .string r) :
    h.stringHash r = .ok (hashBytes (h.memory.stringAt r)) := by
  obtain ⟨obj, formed, -⟩ := stocked.proper hr
  have hhash : h.memory.word (Heap.payloadOffset r) 4 = _ := formed.2
  rw [Heap.stringHash_eq obj, hhash, UInt32.ofNat_toNat]

/-- Equality is decided by the bytes of strings, and never fails on them. -/
theorem equal_string (stocked : Stocked P h.memory) (hr : P .string r) (ht : P .string t) :
    ∃ e, h.equal (.object .string r) (.object .string t) = .ok e ∧
      (e = true ↔ h.memory.stringAt r = h.memory.stringAt t) := by
  unfold Heap.equal
  dsimp only
  rw [stocked.stringHash_eq hr, stocked.stringHash_eq ht, Heap.stringBytes_eq (stocked.isObject hr),
    Heap.stringBytes_eq (stocked.isObject ht)]
  -- The hashes are those of the bytes, so they differ only if the bytes do.
  by_cases heq : r = t
  · rw [if_pos heq, heq]
    exact ⟨true, rfl, iff_of_true rfl rfl⟩
  rw [if_neg heq]
  generalize h.memory.stringAt r = a
  generalize h.memory.stringAt t = b
  by_cases hhash : hashBytes a = hashBytes b
  · refine ⟨decide (a.data = b.data), if_neg (not_not_intro hhash), ?_⟩
    rw [decide_eq_true_eq, ByteArray.ext_iff]
  · exact ⟨false, if_pos hhash, iff_of_false Bool.false_ne_true fun same =>
      hhash (congrArg hashBytes same)⟩

theorem equal_iff (stocked : Stocked P h.memory) (hv : v.Legible P) (hw : w.Legible P) :
    ∃ e, h.equal v w = .ok e ∧ (e = true ↔ h.memory.Equates v w) := by
  by_cases strings : ∃ r t, v = .object .string r ∧ w = .object .string t
  · obtain ⟨r, t, rfl, rfl⟩ := strings
    rw [Memory.Equates.string_iff]
    exact stocked.equal_string (hv r rfl) (hw t rfl)
  · have plain : ∀ r t, v = .object .string r → w ≠ .object .string t :=
      fun r t hv hw => strings ⟨r, t, hv, hw⟩
    exact ⟨_, h.equal_plain plain, (Memory.Equates.plain_iff plain).symm⟩

theorem equal_true_iff (stocked : Stocked P h.memory) (hv : v.Legible P) (hw : w.Legible P) :
    h.equal v w = .ok true ↔ h.memory.Equates v w := by
  obtain ⟨e, he, hiff⟩ := stocked.equal_iff hv hw
  rw [he, Except.ok.injEq]
  exact hiff

end Stocked

/-! ## Equality and places -/

/-- Moving values changes neither the bytes of strings nor which objects are the same. -/
theorem Memory.equates_relocate {φ : Ref → Ref} {m m' : Memory} {v w : Value}
    (strings : ∀ r, v = .object .string r ∨ w = .object .string r →
      m'.stringAt (φ r) = m.stringAt r) (injective :
      ∀ s r t, v = .object s r → w = .object s t → φ r = φ t → r = t) :
    m'.Equates (v.relocate φ) (w.relocate φ) ↔ m.Equates v w := by
  by_cases both : ∃ r t, v = .object .string r ∧ w = .object .string t
  · obtain ⟨r, t, rfl, rfl⟩ := both
    show m'.Equates (.object .string (φ r)) (.object .string (φ t)) ↔ _
    rw [Equates.string_iff, Equates.string_iff, strings r (.inl rfl), strings t (.inr rfl)]
  · rw [Equates.plain_iff fun r t hv hw => both ⟨r, t, hv, hw⟩, Equates.plain_iff,
      Value.agrees_relocate injective]
    intro r t hv hw
    obtain ⟨r', hv, -⟩ := Value.relocate_eq_object hv
    obtain ⟨t', hw, -⟩ := Value.relocate_eq_object hw
    exact both ⟨r', t', hv, hw⟩

/-- The values that some roots lead to are in another heap, their objects at their places under `φ`,
and are equal there if and only if they were. They are the roots themselves and what the slots of
objects hold that the roots lead to. -/
structure Heap.Carries (φ : Ref → Ref) (roots : Value → Prop) (h h' : Heap) : Prop where
  held : ∀ v, roots v → v.Among (h.memory.LedTo roots)
  slots : ∀ r i, h.memory.Leads roots r → i < h.memory.slotsIn r →
    (h.memory.slotAt r i).Among (h.memory.LedTo roots) ∧
      h'.memory.slotAt (φ r) i = (h.memory.slotAt r i).relocate φ
  equal : ∀ v w, v.Among (h.memory.LedTo roots) → w.Among (h.memory.LedTo roots) →
    ∃ e, h.equal v w = .ok e ∧ h'.equal (v.relocate φ) (w.relocate φ) = .ok e

theorem Stocked.carries {P : Shape → Ref → Prop} {h h' : Heap} {roots roots' : Value → Prop}
    {φ : Ref → Ref} {order : List Ref} {base : Nat} (stocked : Stocked P h.memory)
    (held : ∀ v, roots v → v.Among P) (replica : Replica φ h.memory order base h'.memory)
    (horder : ∀ r, r ∈ order ↔ h.memory.Leads roots r)
    (hroots : ∀ w, roots' w ↔ ∃ v, roots v ∧ v.relocate φ = w) : Heap.Carries φ roots h h' := by
  have reached := stocked.ledTo held
  have hobj : ∀ r ∈ order, ∃ s, h.memory.IsObject s r :=
    fun r hr => stocked.objects held ((horder r).mp hr)
  obtain ⟨copies, images⟩ := stocked.replica held replica horder hroots
  refine ⟨fun v hv s r heq => ?_, fun r i hr hi => ⟨?_, ?_⟩, fun v w hv hw => ?_⟩
  · have hleads : h.memory.Leads roots r := .root (heq ▸ hv)
    exact (stocked.ledTo_iff held).mpr ⟨hleads, held v hv s r heq⟩
  · obtain ⟨s, obj⟩ := stocked.objects held hr
    exact (reached.proper ⟨hr, obj⟩).slots i hi
  · exact (replica.copies r ((horder r).mpr hr)).slots i hi
  · have image : ∀ {s r}, h.memory.LedTo roots s r → h'.memory.LedTo roots' s (φ r) := fun hr =>
      images.mpr ⟨_, hr, rfl⟩
    obtain ⟨e, he, hiff⟩ := reached.equal_iff hv.legible hw.legible
    obtain ⟨e', he', hiff'⟩ := copies.equal_iff (hv.relocate image).legible
      (hw.relocate image).legible
    have same : h'.memory.Equates (v.relocate φ) (w.relocate φ) ↔ h.memory.Equates v w := by
      refine equates_relocate (fun r hr => ?_) fun s r t hr ht heq => ?_
      · have hled : h.memory.LedTo roots .string r := hr.elim (hv _ r) (hw _ r)
        exact (replica.copies r ((horder r).mpr hled.1)).stringAt_eq hled.2
          (reached.proper hled).formed.eight_le
      · exact replica.injective hobj ((horder r).mpr (hv s r hr).1)
          ((horder t).mpr (hw s t ht).1) heq
    refine ⟨e, he, ?_⟩
    rw [he', Bool.eq_iff_iff.mpr (hiff'.trans (same.trans hiff.symm))]

namespace Heap

variable {P Q : Shape → Ref → Prop} {h : Heap}

/-- Whatever has been done to a heap, and however often it has been collected and copied to: two
strings are equal if and only if their bytes are. Comparing values never fails, and on all values
but the reals that are not numbers, equality is an equivalence relation. A collection, whether or
not it finds the room that it is to find, moves the roots along, and all that they lead to is equal
afterwards if and only if it has been so before. The same holds of a value that is copied to any
other heap and of what it leads to, unless memory runs out. -/
theorem equal_exact (owned : Owned P h) :
    (∀ r t, P .string r → P .string t → ∃ a b e, h.stringBytes r = .ok a ∧ h.stringBytes t = .ok b ∧
      h.equal (.object .string r) (.object .string t) = .ok e ∧ (e = true ↔ a = b)) ∧
    (∀ v w, v.Legible P → w.Legible P → ∃ e, h.equal v w = .ok e) ∧
    Equivalence (fun v w : { v : Value // v.Legible P ∧ v.isNaN = false } =>
      h.equal v w = .ok true) ∧
    (∀ roots request, (∀ v ∈ roots, v.Among P) → ∃ s',
      (RootedM.collect request ⟨h, roots⟩ = .ok () s' ∨
        RootedM.collect request ⟨h, roots⟩ = .error (.outOfMemory request h.maxCapacity) s') ∧
      ∃ φ, s'.roots = roots.map (Value.relocate φ) ∧ Carries φ (· ∈ roots) h s'.heap) ∧
    ∀ v, v.Among P → ∀ Q target, Owned Q target → Ends (HeapM.copy h v) target
      (fun w target' => ∃ φ, w = v.relocate φ ∧ Carries φ (· = v) h target')
      fun e _ => ∃ requested, e = .outOfMemory requested target.maxCapacity := by
  obtain ⟨bounded, stocked⟩ := owned.sound
  refine ⟨fun r t hr ht => ?_, fun v w hv hw => ?_,
    ⟨fun v => ?_, fun {v w} heq => ?_, fun {v w x} heq heq' => ?_⟩,
    fun roots request held => ?_, fun v held Q target target_owned => ?_⟩
  · obtain ⟨e, he, hiff⟩ := stocked.equal_string hr ht
    exact ⟨_, _, e, stringBytes_eq (stocked.isObject hr), stringBytes_eq (stocked.isObject ht),
      he, hiff⟩
  · obtain ⟨e, he, -⟩ := stocked.equal_iff hv hw
    exact ⟨e, he⟩
  · exact (stocked.equal_true_iff v.2.1 v.2.1).mpr (.refl v.2.2)
  · rw [stocked.equal_true_iff v.2.1 w.2.1] at heq
    exact (stocked.equal_true_iff w.2.1 v.2.1).mpr heq.symm
  · rw [stocked.equal_true_iff v.2.1 w.2.1] at heq
    rw [stocked.equal_true_iff w.2.1 x.2.1] at heq'
    exact (stocked.equal_true_iff v.2.1 x.2.1).mpr (heq.trans heq')
  · obtain ⟨φ, order, collected⟩ :=
      RootedM.collected_spec (s := ⟨h, roots⟩) (stocked.scattered held)
      bounded.used_le_limit request
    exact ⟨_, RootedM.collect_cases ⟨h, roots⟩ request, φ, collected.compaction.roots_eq,
      stocked.carries held
      collected.compaction.replica collected.compaction.breadthFirst.mem_iff
        collected.mem_roots_iff⟩
  · refine (ends_copy_owned target_owned.sound.1 stocked held).mono ?_ ?_
    · rintro w target' ⟨-, φ, order, copied⟩
      exact ⟨φ, copied.value_eq, stocked.carries (by rintro _ rfl; exact held) copied.replica
        copied.lists.mem_iff copied.eq_iff⟩
    · rintro e target' ⟨-, refs, cramped⟩
      exact cramped.error

/-! ### Different strings with one hash -/

/-- The heap with a new string at its end. -/
def spell (h : Heap) (bytes : ByteArray) : Heap where
  memory := (h.memory.allocated (.object .string) (stringSize bytes.size)).withString
    (.ofNat h.used) bytes
  capacity := h.capacity
  maxCapacity := h.maxCapacity
  collections := h.collections

theorem Owned.spell (owned : Owned P h) (bytes : ByteArray) {n : Nat} (used : h.used = n)
    (small : stringSize bytes.size ≤ sizeLimit)
    (room : allocSize (stringSize bytes.size) ≤ h.free) :
    Owned (fun s r => P s r ∨ s = .string ∧ r = .ofNat n) (h.spell bytes) := by
  have hstart : (Ref.ofNat h.used).start = h.memory.size :=
    Ref.start_ofNat owned.sound.1.used_le_limit
  have hsize : stringSize bytes.size < 2 ^ 32 := Nat.lt_succ_of_le small
  let h₁ : Heap := { h with memory := h.memory.allocated (.object .string) (stringSize bytes.size) }
  have init : HeapM.initString (.ofNat h.used) bytes h₁ = .ok () (h.spell bytes) :=
    HeapM.initString_eq (isObject_allocated hstart hsize) (sizeAt_allocated hstart hsize)
  rw [← used]
  refine owned.make (.string bytes) ?_
  rw [Draft.make, bind_of_ok (HeapM.tryAlloc_eq small room), bind_of_ok init]
  rfl

/-- The first and the third of three strings are the same. The second one has the same hash as they
have. -/
def twins : Heap := (((create 96 96).spell ⟨#[101, 122]⟩).spell ⟨#[106, 98]⟩).spell ⟨#[101, 122]⟩

theorem owned_twins :
    Owned (fun s r => ((False ∨ s = .string ∧ r = .ofNat 0) ∨ s = .string ∧ r = .ofNat 32) ∨
    s = .string ∧ r = .ofNat 64) twins := by
  have first := (Owned.create 96 96).spell (n := 0) ⟨#[101, 122]⟩ rfl (by decide) (by decide)
  have second := first.spell (n := 32) ⟨#[106, 98]⟩ (by decide +kernel) (by decide)
    (by decide +kernel)
  exact second.spell (n := 64) ⟨#[101, 122]⟩ (by decide +kernel) (by decide) (by decide +kernel)

/-- Strings are told apart although they have the same hash, before a collection and after it. -/
theorem equal_exact_twins : twins.stringHash (.ofNat 0) = twins.stringHash (.ofNat 32) ∧
    twins.equal (.object .string (.ofNat 0)) (.object .string (.ofNat 64)) = .ok true ∧
    twins.equal (.object .string (.ofNat 0)) (.object .string (.ofNat 32)) = .ok false ∧
    ∃ s' r t, (RootedM.collect 0 ⟨twins,
      #[.object .string (.ofNat 32), .object .string (.ofNat 0)]⟩ = .ok () s' ∨
        RootedM.collect 0 ⟨twins, #[.object .string (.ofNat 32), .object .string (.ofNat 0)]⟩ =
          .error (.outOfMemory 0 96) s') ∧
      s'.roots = #[.object .string t, .object .string r] ∧
      s'.heap.equal (.object .string r) (.object .string t) = .ok false := by
  obtain ⟨strings, -, -, collects, -⟩ := equal_exact owned_twins
  have hfirst : twins.stringBytes (.ofNat 0) = .ok ⟨#[101, 122]⟩ := by decide +kernel
  have hsecond : twins.stringBytes (.ofNat 32) = .ok ⟨#[106, 98]⟩ := by decide +kernel
  have hthird : twins.stringBytes (.ofNat 64) = .ok ⟨#[101, 122]⟩ := by decide +kernel
  obtain ⟨_, _, e, ha, hb, he, hiff⟩ :=
    strings (.ofNat 0) (.ofNat 64) (.inl (.inl (.inr ⟨rfl, rfl⟩)))
    (.inr ⟨rfl, rfl⟩)
  obtain rfl := Except.ok.inj (hfirst.symm.trans ha)
  obtain rfl := Except.ok.inj (hthird.symm.trans hb)
  obtain rfl : e = true := hiff.mpr rfl
  obtain ⟨_, _, e', ha, hb, he', hiff⟩ :=
    strings (.ofNat 0) (.ofNat 32) (.inl (.inl (.inr ⟨rfl, rfl⟩)))
    (.inl (.inr ⟨rfl, rfl⟩))
  obtain rfl := Except.ok.inj (hfirst.symm.trans ha)
  obtain rfl := Except.ok.inj (hsecond.symm.trans hb)
  obtain rfl : e' = false := Bool.eq_false_iff.mpr fun heq => by cases hiff.mp heq
  refine ⟨by decide +kernel, he, he', ?_⟩
  obtain ⟨s', run, φ, roots, carries⟩ :=
    collects #[.object .string (.ofNat 32), .object .string (.ofNat 0)] 0 (by simp)
  obtain ⟨e, before, after⟩ :=
    carries.equal _ _ (carries.held (.object .string (.ofNat 0)) (by simp))
    (carries.held (.object .string (.ofNat 32)) (by simp))
  refine ⟨s', φ (.ofNat 0), φ (.ofNat 32), run, by simpa [Value.relocate] using roots, ?_⟩
  exact after.trans (before.symm.trans he')

end Heap

end ActorMachine
