import ActorMachine.Proofs.Reach
import ActorMachine.Proofs.Replicas

/-!
# Objects on their way to another memory

A collection and a deep copy both bring objects of one memory to the end of another, first byte by
byte, and then redirect the references in the slots of the copies one after the other. `Transfer` is
the invariant of both: which objects have been brought to which places, one behind the other, and
how many slots of each copy have been redirected. When all have been, the copies are exact
(`Transfer.replica`).
-/

namespace ActorMachine

open Memory

/-- An object that has been brought to a place. -/
structure Move where
  source : Ref
  place : Ref

namespace Move

/-- The objects that have been moved, with their places. -/
def matching (log : List Move) : Matching := fun _ r p => ⟨r, p⟩ ∈ log

theorem matching_append {log more : List Move} {s : Shape} {r p : Ref} (h : matching log s r p) :
    matching (log ++ more) s r p := List.mem_append_left _ h

/-- The place that an object has been moved to; others are where they were. -/
def destination (log : List Move) (r : Ref) : Ref :=
  match log.find? (·.source = r) with
  | some mv => mv.place
  | none => r

theorem eq_of_source {log : List Move} (nodup : (log.map source).Nodup) {a b : Move} (ha : a ∈ log)
    (hb : b ∈ log) (heq : a.source = b.source) : a = b := by
  induction log with
  | nil => cases ha
  | cons first log ih =>
    obtain ⟨hnotin, hnodup⟩ := List.nodup_cons.mp nodup
    rcases List.mem_cons.mp ha with rfl | ha' <;> rcases List.mem_cons.mp hb with rfl | hb'
    · rfl
    · exact absurd (heq ▸ List.mem_map_of_mem hb') hnotin
    · exact absurd (heq ▸ List.mem_map_of_mem ha') hnotin
    · exact ih hnodup ha' hb'

theorem destination_eq {log : List Move} (nodup : (log.map source).Nodup) {mv : Move}
    (hmv : mv ∈ log) :
    destination log mv.source = mv.place := by
  rw [destination]
  cases found : log.find? (·.source = mv.source) with
  | none => exact absurd (decide_eq_true rfl) (List.find?_eq_none.mp found mv hmv)
  | some a =>
    have hsource := List.find?_some found
    rw [decide_eq_true_eq] at hsource
    rw [eq_of_source nodup (List.mem_of_find?_eq_some found) hmv hsource]

/-- A value that has been redirected leads to the place of its object. -/
theorem eq_relocate {log : List Move} (nodup : (log.map source).Nodup) {v w : Value}
    (h : v.Match (matching log) w) : w = v.relocate (destination log) := by
  cases h with
  | inline hv => exact (Value.relocate_of_inline hv _).symm
  | @object s r p hmv =>
    have hmv : (⟨r, p⟩ : Move) ∈ log := hmv
    exact congrArg (Value.object s) (destination_eq nodup hmv).symm

/-- The places lie one behind the other, from `lo` up to `hi`. -/
def Tiled (m : Memory) : (lo : Nat) → List Move → (hi : Nat) → Prop
  | lo, [], hi => lo = hi
  | lo, mv :: log, hi =>
    mv.place.start = lo ∧ Tiled m (lo + allocSize (m.sizeAt mv.source)) log hi

namespace Tiled

variable {m : Memory} {lo hi : Nat} {log : List Move}

theorem append (h : Tiled m lo log hi) {mv : Move} (hplace : mv.place.start = hi) :
    Tiled m lo (log ++ [mv]) (hi + allocSize (m.sizeAt mv.source)) := by
  induction log generalizing lo with
  | nil => exact ⟨by rw [hplace]; exact h.symm, by rw [show lo = hi from h]; rfl⟩
  | cons _ log ih => exact ⟨h.1, ih h.2⟩

/-- The places take up the room of the objects. -/
theorem total (h : Tiled m lo log hi) : hi = lo + m.total (log.map Move.source) := by
  induction log generalizing lo with
  | nil => exact h.symm
  | cons mv log ih =>
    rw [ih h.2, List.map_cons]
    show _ = lo + (allocSize (m.sizeAt mv.source) + m.total (log.map Move.source))
    omega

/-- The first places are followed by the others. -/
theorem split {more : List Move} (h : Tiled m lo (log ++ more) hi) :
    Tiled m (lo + m.total (log.map Move.source)) more hi := by
  induction log generalizing lo with
  | nil => exact h
  | cons mv log ih =>
    rw [List.map_cons]
    show Tiled m (lo + (allocSize (m.sizeAt mv.source) + m.total (log.map Move.source))) more hi
    rw [← Nat.add_assoc]
    exact ih h.2

theorem range (h : Tiled m lo log hi) {mv : Move} (hmv : mv ∈ log) :
    lo ≤ mv.place.start ∧ mv.place.start + allocSize (m.sizeAt mv.source) ≤ hi := by
  induction log generalizing lo with
  | nil => cases hmv
  | cons first log ih =>
    rcases List.mem_cons.mp hmv with rfl | hmv
    · refine ⟨Nat.le_of_eq h.1.symm, ?_⟩
      rw [h.1, h.2.total]
      exact Nat.le_add_right _ _
    · exact ⟨Nat.le_trans (Nat.le_add_right _ _) (ih h.2 hmv).1, (ih h.2 hmv).2⟩

/-- Of two places one lies behind the other. -/
theorem apart (h : Tiled m lo log hi) {a b : Move} (ha : a ∈ log) (hb : b ∈ log) (hne : a ≠ b) :
    a.place.start + allocSize (m.sizeAt a.source) ≤ b.place.start ∨
      b.place.start + allocSize (m.sizeAt b.source) ≤ a.place.start := by
  induction log generalizing lo with
  | nil => cases ha
  | cons first log ih =>
    rcases List.mem_cons.mp ha with rfl | ha' <;> rcases List.mem_cons.mp hb with rfl | hb'
    · exact absurd rfl hne
    · rw [h.1]
      exact .inl (h.2.range hb').1
    · rw [h.1]
      exact .inr (h.2.range ha').1
    · exact ih h.2 ha' hb'

theorem eq_of_place (h : Tiled m lo log hi) {a b : Move} (ha : a ∈ log) (hb : b ∈ log)
    (hplace : a.place = b.place) : a = b := by
  refine Classical.byContradiction fun hne => ?_
  have hwidth := headerWidth_le_allocSize (m.sizeAt a.source)
  have hwidth' := headerWidth_le_allocSize (m.sizeAt b.source)
  rw [headerWidth] at hwidth hwidth'
  have := h.apart ha hb hne
  rw [hplace] at this
  omega

end Tiled

end Move

open Move (matching)

/-- The place of a move holds a copy of the object, in which the references in the first `done`
slots have been redirected. -/
structure Copied (γ : Matching) (m t : Memory) (mv : Move) (done : Nat) : Prop where
  header : t.header? mv.place.start = m.header? mv.source.start
  inside : t.endAt mv.place ≤ t.size
  redirected : ∀ i, i < m.slotsIn mv.source → i < done →
    (m.slotAt mv.source i).Match γ (t.slotAt mv.place i)
  bytes : ∀ k, k < m.sizeAt mv.source → ¬m.RefByte mv.source done k →
    t.byte (Heap.payloadOffset mv.place + k) = m.byte (Heap.payloadOffset mv.source + k)

namespace Copied

variable {γ γ' : Matching} {m t t' : Memory} {mv : Move} {done : Nat} {s : Shape}

/-- A copy byte by byte. -/
theorem of_payload (same : SamePayload m t mv.source mv.place) (obj : m.IsObject s mv.source)
    (copy : t.IsObject s mv.place) : Copied γ m t mv 0 where
  header := by rw [copy.header, obj.header, same.sizeAt]
  inside := copy.inside
  redirected _ _ hi := absurd hi (Nat.not_lt_zero _)
  bytes k hk _ := (same.bytes k hk).symm

theorem mono (h : Copied γ m t mv done) (himp : ∀ {s r p}, γ s r p → γ' s r p) :
    Copied γ' m t mv done where
  header := h.header
  inside := h.inside
  redirected i hi hdone := (h.redirected i hi hdone).mono himp
  bytes := h.bytes

theorem sizeAt_eq (h : Copied γ m t mv done) (obj : m.IsObject s mv.source) :
    t.sizeAt mv.place = m.sizeAt mv.source :=
  sizeAt_of_header (h.header.trans obj.header)

theorem isObject (h : Copied γ m t mv done) (obj : m.IsObject s mv.source) :
    t.IsObject s mv.place := by
  have inside := h.inside
  rw [endAt, h.sizeAt_eq obj] at inside
  exact .intro (h.header.trans obj.header) inside

theorem endAt_eq (h : Copied γ m t mv done) (obj : m.IsObject s mv.source) :
    t.endAt mv.place = mv.place.start + allocSize (m.sizeAt mv.source) := by
  rw [endAt, h.sizeAt_eq obj]

theorem slotsIn_eq (h : Copied γ m t mv done) (obj : m.IsObject s mv.source) :
    t.slotsIn mv.place = m.slotsIn mv.source := by
  refine slotsIn_congr obj (h.isObject obj) (h.sizeAt_eq obj) fun h8 => word_congr fun k hk => ?_
  exact h.bytes k (by omega) (not_refByte_of_lt hk)

/-- The slots of a copy are where those of the object are. -/
theorem slot_room (h : Copied γ m t mv done) (obj : m.IsObject s mv.source) {i : Nat}
    (hi : i < m.slotsIn mv.source) :
    slotOffset mv.place.start i + slotWidth ≤ Heap.payloadOffset mv.place + t.sizeAt mv.place :=
  Memory.slot_room (h.isObject obj) (h.slotsIn_eq obj ▸ hi)

/-- Slots whose turn has not come hold what they held. -/
theorem raw (h : Copied γ m t mv done) (obj : m.IsObject s mv.source) {i : Nat}
    (hi : i < m.slotsIn mv.source) (hdone : done ≤ i) :
    t.slotAt mv.place i = m.slotAt mv.source i := by
  have room := Memory.slot_room obj hi
  rw [slotAt, slotAt]
  refine value_congr fun k hk => ?_
  rw [slotOffset, Heap.payloadOffset, slotWidth] at room
  rw [slotWidth] at hk
  have hbyte := h.bytes (8 + i * slotWidth + k) (by rw [slotWidth]; omega) ?_
  · rwa [Heap.payloadOffset, Heap.payloadOffset, ← Nat.add_assoc, ← Nat.add_assoc, ← Nat.add_assoc,
      ← Nat.add_assoc] at hbyte
  · rintro ⟨j, s', r', hj, -, -, hlo, hhi⟩
    rw [slotWidth] at hlo hhi
    omega

/-- What does not touch a copy leaves it as it is. -/
theorem of_sameObject (h : Copied γ m t mv done) (obj : m.IsObject s mv.source)
    (same : SameObject t t' mv.place mv.place) : Copied γ m t' mv done where
  header := by
    have copy := same.isObject (h.isObject obj)
    rw [copy.header, same.sizeAt, h.sizeAt_eq obj, obj.header]
  inside := (same.isObject (h.isObject obj)).inside
  redirected i hi hdone := by
    rw [same.slotAt (h.slot_room obj hi)]
    exact h.redirected i hi hdone
  bytes k hk hraw := by
    rw [← h.bytes k hk hraw]
    exact (same.payload.bytes k (by rwa [h.sizeAt_eq obj])).symm

/-- The next slot of a copy gets the redirected reference. -/
theorem store (h : Copied γ m t mv done) (obj : m.IsObject s mv.source)
    (hdone : done < m.slotsIn mv.source) {s' : Shape} {r : Ref}
    (hslot : m.slotAt mv.source done = .object s' r) {w : Value}
    (hw : (m.slotAt mv.source done).Match γ w) :
    Copied γ m (t.storeValue (slotOffset mv.place.start done) w) mv (done + 1) := by
  have room := h.slot_room obj hdone
  have copy := h.isObject obj
  have within := within_storeSlot room w
  have stored := within.isObject copy
  refine ⟨?_, stored.inside, fun i hi hlt => ?_, fun k hk hraw => ?_⟩
  · rw [stored.header, within.sizeAt, h.sizeAt_eq obj, obj.header]
  · rw [slotAt_storeSlot room w copy]
    by_cases heq : i = done
    · rw [if_pos heq, heq]
      exact hw
    · rw [if_neg heq]
      exact h.redirected i hi (by omega)
  · have outside : k < 8 + done * slotWidth ∨ 8 + (done + 1) * slotWidth ≤ k := by
      refine Classical.byContradiction fun hin => hraw ?_
      exact ⟨done, s', r, Nat.lt_succ_self _, hdone, hslot, by omega, by omega⟩
    rw [← h.bytes k hk fun ⟨i, s', r, hi, hrest⟩ => hraw ⟨i, s', r, Nat.lt_succ_of_lt hi, hrest⟩]
    refine sameOn_storeValue (j := Heap.payloadOffset mv.place + k)
      (k := Heap.payloadOffset mv.place + k + 1) ?_ _ (Nat.le_refl _) (Nat.lt_succ_self _)
    rw [slotWidth] at outside
    rw [slotOffset, Heap.payloadOffset, slotWidth]
    omega

/-- A slot that holds no reference stays as it is. -/
theorem skip (h : Copied γ m t mv done) (obj : m.IsObject s mv.source)
    (inline : (m.slotAt mv.source done).ref? = none) : Copied γ m t mv (done + 1) where
  header := h.header
  inside := h.inside
  redirected i hi hlt := by
    by_cases heq : i = done
    · subst heq
      rw [h.raw obj hi (Nat.le_refl _)]
      exact .inline inline
    · exact h.redirected i hi (by omega)
  bytes k hk hraw := h.bytes k hk fun ⟨i, s', r, hi, hrest⟩ =>
    hraw ⟨i, s', r, Nat.lt_succ_of_lt hi, hrest⟩

/-- When all references have been redirected, the copy is an exact one. -/
theorem faithful {log : List Move} (h : Copied (Move.matching log) m t mv done) (hmv : mv ∈ log)
    (nodup : (log.map Move.source).Nodup) (hdone : m.slotsIn mv.source ≤ done) :
    FaithfulCopy (Move.destination log) m t mv.source := by
  have hplace := Move.destination_eq nodup hmv
  refine ⟨?_, ?_, fun i hi => ?_, fun k hk hraw => ?_⟩ <;> rw [hplace]
  · exact h.header
  · exact h.inside
  · exact Move.eq_relocate nodup (h.redirected i hi (by omega))
  · exact h.bytes k hk fun ⟨i, s', r, _, hi, hrest⟩ => hraw ⟨i, s', r, hi, hi, hrest⟩

end Copied

/-- The progress when one more slot of the copy at a place has been redirected. -/
def Transfer.oneMore (progress : Ref → Nat) (place : Ref) : Ref → Nat :=
  fun p => if p = place then progress place + 1 else progress p

theorem Transfer.oneMore_self (progress : Ref → Nat) (place : Ref) :
    oneMore progress place place = progress place + 1 := if_pos rfl

theorem Transfer.oneMore_of_ne {progress : Ref → Nat} {place p : Ref} (h : p ≠ place) :
    oneMore progress place p = progress p := if_neg h

/-- Objects of `m` are being brought to `t`, to the places from `base` on. -/
structure Transfer (P : Ref → Prop) (m : Memory) (base : Nat) (log : List Move)
    (progress : Ref → Nat) (t : Memory) : Prop where
  isObject : ∀ mv ∈ log, ∃ s, m.IsObject s mv.source
  sound : ∀ mv ∈ log, P mv.source
  nodup : (log.map Move.source).Nodup
  tiled : Move.Tiled m base log t.size
  copied : ∀ mv ∈ log, Copied (matching log) m t mv (progress mv.place)
  fresh : ∀ p : Ref, t.size ≤ p.start → progress p = 0

namespace Transfer

variable {P : Ref → Prop} {m : Memory} {base : Nat} {log : List Move} {progress : Ref → Nat}
  {t t' : Memory} {s : Shape}

/-- Nothing has been brought yet. -/
theorem nil (P : Ref → Prop) (m t : Memory) : Transfer P m t.size [] (fun _ => 0) t where
  isObject _ h := nomatch h
  sound _ h := nomatch h
  nodup := List.nodup_nil
  tiled := rfl
  copied _ h := nomatch h
  fresh _ _ := rfl

theorem sound_source (h : Transfer P m base log progress t) {r : Ref}
    (hr : r ∈ log.map Move.source) :
    P r := by
  obtain ⟨mv, hmv, rfl⟩ := List.mem_map.mp hr
  exact h.sound mv hmv

/-- All places begin before the end. -/
theorem place_lt (h : Transfer P m base log progress t) {mv : Move} (hmv : mv ∈ log) :
    mv.place.start < t.size := by
  have hrange := (h.tiled.range hmv).2
  have hwidth := headerWidth_le_allocSize (m.sizeAt mv.source)
  rw [headerWidth] at hwidth
  omega

/-- A copy of another object comes to the end. -/
theorem add (h : Transfer P m base log progress t) (mv : Move) (obj : m.IsObject s mv.source)
    (hp : P mv.source) (new : mv.source ∉ log.map Move.source) (hstart : mv.place.start = t.size)
    (extends' : Extends t t') (hsize : t'.size = t.size + allocSize (m.sizeAt mv.source))
    (copied : Copied (matching (log ++ [mv])) m t' mv 0) :
    Transfer P m base (log ++ [mv]) progress t' where
  isObject a ha := by
    rcases List.mem_append.mp ha with ha | ha
    · exact h.isObject a ha
    · rw [List.mem_singleton.mp ha]
      exact ⟨s, obj⟩
  sound a ha := by
    rcases List.mem_append.mp ha with ha | ha
    · exact h.sound a ha
    · rw [List.mem_singleton.mp ha]
      exact hp
  nodup := by
    rw [List.map_append]
    exact nodup_concat h.nodup new
  tiled := by
    rw [hsize]
    exact h.tiled.append hstart
  copied a ha := by
    rcases List.mem_append.mp ha with ha | ha
    · have old := h.copied a ha
      obtain ⟨s', obj'⟩ := h.isObject a ha
      exact (old.of_sameObject obj' (extends'.sameObject (old.isObject obj'))).mono
        Move.matching_append
    · rw [List.mem_singleton.mp ha, h.fresh mv.place (Nat.le_of_eq hstart.symm)]
      exact copied
  fresh p hp' := h.fresh p (by omega)

/-- The next slot of a copy gets the redirected reference. -/
theorem store (h : Transfer P m base log progress t) {mv : Move} (hmv : mv ∈ log)
    (hdone : progress mv.place < m.slotsIn mv.source) {r : Ref}
    (hslot : m.slotAt mv.source (progress mv.place) = .object s r) {w : Value}
    (hw : (m.slotAt mv.source (progress mv.place)).Match (matching log) w) :
    Transfer P m base log (oneMore progress mv.place)
      (t.storeValue (slotOffset mv.place.start (progress mv.place)) w) where
  isObject := h.isObject
  sound := h.sound
  nodup := h.nodup
  tiled := by
    rw [size_storeValue]
    exact h.tiled
  copied a ha := by
    have old := h.copied mv hmv
    obtain ⟨s', obj⟩ := h.isObject mv hmv
    by_cases heq : a.place = mv.place
    · obtain rfl := h.tiled.eq_of_place ha hmv heq
      rw [oneMore_self]
      exact old.store obj hdone hslot hw
    · rw [oneMore_of_ne heq]
      have other := h.copied a ha
      obtain ⟨s'', obj'⟩ := h.isObject a ha
      refine other.of_sameObject obj' ?_
      refine (within_storeSlot (old.slot_room obj hdone) w).sameObject (other.isObject obj') ?_
      rw [Apart, old.endAt_eq obj, other.endAt_eq obj']
      exact h.tiled.apart hmv ha fun h => heq (congrArg Move.place h.symm)
  fresh p hp := by
    rw [size_storeValue] at hp
    have hlt := h.place_lt hmv
    rw [oneMore_of_ne, h.fresh p hp]
    rintro rfl
    omega

/-- A slot that holds no reference stays as it is. -/
theorem skip (h : Transfer P m base log progress t) {mv : Move} (hmv : mv ∈ log)
    (inline : (m.slotAt mv.source (progress mv.place)).ref? = none) :
    Transfer P m base log (oneMore progress mv.place) t where
  isObject := h.isObject
  sound := h.sound
  nodup := h.nodup
  tiled := h.tiled
  copied a ha := by
    by_cases heq : a.place = mv.place
    · obtain rfl := h.tiled.eq_of_place ha hmv heq
      obtain ⟨s, obj⟩ := h.isObject a hmv
      rw [oneMore_self]
      exact (h.copied a hmv).skip obj inline
    · rw [oneMore_of_ne heq]
      exact h.copied a ha
  fresh p hp := by
    have hlt := h.place_lt hmv
    rw [oneMore_of_ne, h.fresh p hp]
    rintro rfl
    omega

/-- When all references have been redirected, the copies are exact. -/
theorem replica (h : Transfer P m base log progress t)
    (finished : ∀ mv ∈ log, m.slotsIn mv.source ≤ progress mv.place) :
    Replica (Move.destination log) m (log.map Move.source) base t where
  copies r hr := by
    obtain ⟨mv, hmv, rfl⟩ := List.mem_map.mp hr
    exact (h.copied mv hmv).faithful hmv h.nodup (finished mv hmv)
  placed before r after heq := by
    obtain ⟨first, rest, hlog, rfl, hrest⟩ := List.map_eq_append_iff.mp heq
    obtain ⟨mv, last, rfl, rfl, -⟩ := List.map_eq_cons_iff.mp hrest
    have hmv : mv ∈ log := hlog ▸ List.mem_append_right _ List.mem_cons_self
    rw [Move.destination_eq h.nodup hmv]
    have tiled := h.tiled
    rw [hlog] at tiled
    exact tiled.split.1
  size := h.tiled.total

end Transfer

end ActorMachine
