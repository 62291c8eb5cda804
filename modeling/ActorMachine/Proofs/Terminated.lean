import ActorMachine.Chunk.Writer
import Mathlib.Algebra.Order.Ring.Nat
import Mathlib.Data.List.TakeWhile

/-!
# Terminated strings

A string table marks the end of a string by a NUL, and a string may hold NULs of its own. So what is
found under the reference to a string is the string up to its first NUL
(`StringTable.lookup_ref`), and whatever is found under a reference has none
(`StringTable.nulFree_of_lookup`).
-/

namespace ActorMachine

namespace Text

/-- A text up to its first NUL. -/
def cut (s : String) : String :=
  String.ofList (s.toList.takeWhile (· ≠ '\x00'))

/-- A text without a NUL. -/
def NulFree (s : String) : Prop :=
  '\x00' ∉ s.toList

theorem cut_eq_self_iff {s : String} : cut s = s ↔ NulFree s := by
  rw [cut, ← String.toList_inj, String.toList_ofList, List.takeWhile_eq_self_iff, NulFree]
  constructor
  · intro h hnul
    have := h _ hnul
    simp at this
  · intro h c hc
    have hne : c ≠ '\x00' := fun heq => h (heq ▸ hc)
    simpa using hne

theorem cut_empty : cut "" = "" := by
  rw [cut_eq_self_iff, NulFree]
  simp

theorem encode_eq (s : String) : encode s = s.toList.flatMap String.utf8EncodeChar := by
  rw [encode, String.toUTF8, ← String.utf8Encode_toList, List.utf8Encode, List.data_toByteArray]

theorem decode?_encode (s : String) : decode? (encode s) = some s := by
  have hbytes : (encode s).toByteArray = s.toByteArray := by
    rw [encode_eq, ← String.utf8Encode_toList, List.utf8Encode]
  rw [decode?, hbytes, String.fromUTF8?, dif_pos s.isValidUTF8]
  rfl

theorem encode_of_decode? {bytes : List UInt8} {s : String} (h : decode? bytes = some s) :
    encode s = bytes := by
  rw [decode?, String.fromUTF8?] at h
  split at h
  · cases h
    show bytes.toByteArray.data.toList = bytes
    rw [List.data_toByteArray]
  · cases h

/-- Only the form of a NUL has a zero byte. -/
theorem zero_mem_utf8EncodeChar {c : Char} : 0 ∈ String.utf8EncodeChar c ↔ c = '\x00' := by
  have hbyte : ∀ n, n < 256 → ((0 : UInt8) = UInt8.ofNat n ↔ n = 0) := by
    intro n hn
    rw [← UInt8.toNat_inj, UInt8.toNat_ofNat']
    show 0 = n % 2 ^ 8 ↔ n = 0
    omega
  have hchar : c = '\x00' ↔ c.val.toNat = 0 := by
    rw [← Char.val_inj, ← UInt32.toNat_inj]
    rfl
  rw [hchar]
  unfold String.utf8EncodeChar
  dsimp only
  split
  · rw [List.mem_singleton, hbyte _ (by omega)]
  · split
    · simp only [List.mem_cons, List.not_mem_nil, or_false]
      rw [hbyte _ (by omega), hbyte _ (by omega)]
      omega
    · split
      · simp only [List.mem_cons, List.not_mem_nil, or_false]
        rw [hbyte _ (by omega), hbyte _ (by omega), hbyte _ (by omega)]
        omega
      · simp only [List.mem_cons, List.not_mem_nil, or_false]
        rw [hbyte _ (by omega), hbyte _ (by omega), hbyte _ (by omega), hbyte _ (by omega)]
        omega

theorem zero_mem_encode {s : String} : 0 ∈ encode s ↔ '\x00' ∈ s.toList := by
  rw [encode_eq, List.mem_flatMap]
  constructor
  · rintro ⟨c, hc, hzero⟩
    exact zero_mem_utf8EncodeChar.mp hzero ▸ hc
  · intro h
    exact ⟨_, h, zero_mem_utf8EncodeChar.mpr rfl⟩

/-- The bytes of a text and of what comes after its terminator, up to the first zero. -/
theorem takeWhile_encode (s : String) (rest : List UInt8) :
    (encode s ++ 0 :: rest).takeWhile (· ≠ 0) = encode (cut s) := by
  rw [encode_eq, encode_eq, cut, String.toList_ofList]
  induction s.toList with
  | nil => rfl
  | cons c cs ih =>
    by_cases hc : c = '\x00'
    · subst hc
      rfl
    · have hbytes : ∀ b ∈ String.utf8EncodeChar c, decide (b ≠ 0) = true := by
        intro b hb
        rw [decide_eq_true_iff]
        rintro rfl
        exact hc (zero_mem_utf8EncodeChar.mp hb)
      rw [List.takeWhile_cons_of_pos (by simpa using hc), List.flatMap_cons, List.flatMap_cons,
        List.append_assoc, List.takeWhile_append_of_pos hbytes, ih]

end Text

namespace StringTable

open Text

theorem mem_ofStrings {strings : List String} {s : String} :
    s ∈ ofStrings strings ↔ s ∈ strings ∧ s ≠ "" := by
  rw [ofStrings, List.mem_eraseDups, List.mem_filter, decide_eq_true_iff]

/-- The bytes of a table from the place of a string on. -/
theorem drop_ref {t : StringTable} {s : String} (hs : s ∈ t) (hne : s ≠ "") :
    ∃ rest, (bytes t).drop (ref t s) = encode s ++ 0 :: rest := by
  obtain ⟨before, after, rfl, hbefore⟩ := List.eq_append_cons_of_mem hs
  have htake : (before ++ s :: after).takeWhile (· ≠ s) = before := by
    rw [List.takeWhile_append_of_pos fun x hx => by
      rw [decide_eq_true_iff]
      rintro rfl
      exact hbefore hx]
    rw [List.takeWhile_cons_of_neg (by simp), List.append_nil]
  refine ⟨after.flatMap terminated, ?_⟩
  rw [ref, if_neg hne, htake, bytes, Nat.add_comm, List.drop_succ_cons, List.flatMap_append,
    List.drop_left, List.flatMap_cons, terminated, List.append_assoc, List.singleton_append]

theorem ref_le (t : StringTable) (s : String) : ref t s ≤ (bytes t).length := by
  rw [ref]
  split
  · exact Nat.zero_le _
  · have hsplit := congrArg List.length
      (congrArg (List.flatMap terminated) (List.takeWhile_append_dropWhile (p := (· ≠ s)) (l := t)))
    rw [List.flatMap_append, List.length_append] at hsplit
    rw [bytes, List.length_cons]
    omega

/-- Under the reference to a string there is the string up to its first NUL. -/
theorem lookup_ref {t : StringTable} {s : String} (hs : s ≠ "" → s ∈ t) :
    lookup (bytes t) (ref t s) = .ok (cut s) := by
  by_cases hne : s = ""
  · subst hne
    rw [ref, if_pos rfl, cut_empty]
    rfl
  · obtain ⟨rest, hdrop⟩ := drop_ref (hs hne) hne
    have hpos : 0 < ref t s := by
      rw [ref, if_neg hne]
      omega
    have hlt : ref t s < (bytes t).length := by
      by_contra hge
      rw [List.drop_eq_nil_of_le (by omega)] at hdrop
      have := congrArg List.length hdrop
      simp at this
    rw [lookup, if_neg (by omega), if_neg (by omega), Int.toNat_natCast, hdrop,
      if_pos (by simp), takeWhile_encode, decode?_encode]

/-- What is found in a table has no NUL. -/
theorem nulFree_of_lookup {table : List UInt8} {ref : Int} {s : String}
    (h : lookup table ref = .ok s) : NulFree s := by
  rw [lookup] at h
  split at h
  · cases h
    simp [NulFree]
  · split at h
    · cases h
    · dsimp only at h
      split at h
      · split at h
        · rename_i hdecode
          cases h
          intro hnul
          rw [← zero_mem_encode, encode_of_decode? hdecode] at hnul
          have := List.mem_takeWhile_imp hnul
          simp at this
        · cases h
      · cases h

end StringTable

end ActorMachine
