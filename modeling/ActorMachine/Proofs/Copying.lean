import ActorMachine.Heap.Copy
import ActorMachine.Proofs.Collecting
import ActorMachine.Proofs.Outcome
import ActorMachine.Proofs.Searching

/-!
# What a deep copy does

`HeapM.ends_copy`: where there is room for what a value leads to, a deep copy adds exact copies of
these objects to the receiving heap, and takes up exactly this much room (`DeepCopy`); where there
is not, it runs out of memory (`CrampedCopy`). Either way all that has been there is as it was.
Copies that wait for their references to be redirected are in the queue; all others but the current
one are finished.
-/

namespace ActorMachine

open Memory Move

/-- What a deep copy of a value makes of the receiving heap and of the value: exact copies of the
objects that the value leads to, one behind the other after what has been there, and the value at
its new place. -/
structure DeepCopy (φ : Ref → Ref) (order : List Ref) (m : Memory) (v : Value)
    (target : Heap) (w : Value)
    (target' : Heap) : Prop where
  lists : Lists order (m.Leads (· = v))
  replica : Replica φ m order target.used target'.memory
  value_eq : w = v.relocate φ
  same : target' = { target with memory := target'.memory }
  extends_ : Extends target.memory target'.memory
  used_le : target'.used ≤ target.capacity

/-- What a deep copy leaves that has run out of memory, since there is no room for some objects. -/
structure CrampedCopy (m : Memory) (refs : List Ref) (target : Heap) (e : HeapError)
    (target' : Heap) :
    Prop where
  error : ∃ requested, e = .outOfMemory requested target.maxCapacity
  same : target' = { target with memory := target'.memory }
  extends_ : Extends target.memory target'.memory
  used_le : target'.used ≤ target.capacity
  room : target.capacity < target.used + m.total refs

/-- Filling a new object with the payload of another. -/
theorem Memory.within_copyPayload {m t : Memory} {s : Shape} {r p : Ref} (obj : m.IsObject s r)
    (copy : t.IsObject s p) (size : t.sizeAt p = m.sizeAt r) :
    Within t (t.storeBytes (Heap.payloadOffset p)
      (m.extract (Heap.payloadOffset r) (Heap.payloadOffset r + m.sizeAt r))) p ∧
    SamePayload m (t.storeBytes (Heap.payloadOffset p)
      (m.extract (Heap.payloadOffset r) (Heap.payloadOffset r + m.sizeAt r))) r p := by
  have hinside : Heap.payloadOffset r + m.sizeAt r ≤ m.size :=
    Nat.le_trans (payload_le_endAt m r) obj.inside
  have hpayload := payload_le_endAt t p
  have hroom : Heap.payloadOffset p + m.sizeAt r ≤ t.size := by
    rw [← size]
    exact Nat.le_trans hpayload copy.inside
  have hextract := size_extract_of_le (j := Heap.payloadOffset r) hinside
  rw [Nat.add_sub_cancel_left] at hextract
  have hbyte := byte_storeBytes (m := t) (show Heap.payloadOffset p +
    (m.extract (Heap.payloadOffset r) (Heap.payloadOffset r + m.sizeAt r)).size ≤ t.size by
      rwa [hextract])
  rw [hextract] at hbyte
  have within : Within t (t.storeBytes (Heap.payloadOffset p)
      (m.extract (Heap.payloadOffset r) (Heap.payloadOffset r + m.sizeAt r))) p := by
    refine ⟨size_storeBytes (by rwa [hextract]), fun i _ hi => ?_, fun i hi _ => ?_⟩
    · rw [hbyte, if_neg (by omega)]
    · rw [hbyte, if_neg (by omega)]
  refine ⟨within, within.sizeAt.trans size, fun k hk => ?_⟩
  rw [hbyte, if_pos (by omega), Nat.add_sub_cancel_left, byte_extract hinside (by omega)]

/-- The memory with a copy of an object of another one behind its end. The references in the copy
are still those of the original. -/
def Memory.withCopy (t m : Memory) (s : Shape) (r p : Ref) : Memory :=
  (t.allocated (.object s) (m.sizeAt r)).storeBytes (Heap.payloadOffset p)
    (m.extract (Heap.payloadOffset r) (Heap.payloadOffset r + m.sizeAt r))

theorem Memory.withCopy_spec {m t : Memory} {s : Shape} {r p : Ref} (obj : m.IsObject s r)
    (place : p.start = t.size) :
    Extends t (t.withCopy m s r p) ∧ (t.withCopy m s r p).size = t.size + allocSize (m.sizeAt r) ∧
      (t.withCopy m s r p).IsObject s p ∧ SamePayload m (t.withCopy m s r p) r p := by
  have copy := isObject_allocated (s := s) place (sizeAt_lt m r)
  obtain ⟨within, payload⟩ := within_copyPayload obj copy (sizeAt_allocated place (sizeAt_lt m r))
  refine ⟨extends_of_within (extends_allocated _ _ _) within place, ?_,
    within.isObject copy, payload⟩
  unfold withCopy
  rw [within.size, size_allocated]

/-- A deep copy under way: the references of the copy at `current` are being redirected. -/
structure CopyingOf (P : Ref → Prop) (m : Memory) (target : Heap) (log : List Move)
    (progress : Ref → Nat) (current : Option Ref) (c : Copying) : Prop where
  transfer : Transfer P m target.used log progress c.target.memory
  same : c.target = { target with memory := c.target.memory }
  extends_ : Extends target.memory c.target.memory
  used_le : c.target.used ≤ target.capacity
  moved : ∀ r p : Ref, c.moved[r.start]? = some p ↔ ⟨r, p⟩ ∈ log
  queued : ∀ r p, (r, p) ∈ c.work → progress p = 0 ∧ current ≠ some p ∧ ⟨r, p⟩ ∈ log
  distinct : (c.work.map Prod.snd).Nodup
  rest : ∀ mv ∈ log, progress mv.place = m.slotsIn mv.source ∨
    (mv.source, mv.place) ∈ c.work ∨ current = some mv.place

namespace CopyingOf

variable {P : Ref → Prop} {m m' : Memory} {target : Heap} {log : List Move} {progress : Ref → Nat}
  {current : Option Ref} {c : Copying} {mv : Move} {r p : Ref}

/-- A step of the current copy changes nothing but its progress. -/
theorem advance (h : CopyingOf P m target log progress (some mv.place) c)
    (transfer : Transfer P m target.used log (Transfer.oneMore progress mv.place) m')
    (size : m'.size = c.target.used) (extends' : Extends target.memory m') :
    CopyingOf P m target log (Transfer.oneMore progress mv.place) (some mv.place)
      { c with target := { c.target with memory := m' } } where
  transfer := transfer
  same := by rw [h.same]
  extends_ := extends'
  used_le := Nat.le_trans (Nat.le_of_eq size) h.used_le
  moved := h.moved
  queued r p hmem := by
    obtain ⟨hzero, hne, hlog⟩ := h.queued r p hmem
    refine ⟨?_, hne, hlog⟩
    rw [Transfer.oneMore_of_ne fun heq => hne (by rw [heq])]
    exact hzero
  distinct := h.distinct
  rest a ha := by
    by_cases heq : a.place = mv.place
    · exact .inr (.inr (by rw [heq]))
    · rw [Transfer.oneMore_of_ne heq]
      exact h.rest a ha

/-- A new copy behind all that has been there waits in the queue. -/
theorem add (h : CopyingOf P m target log progress current c)
    (transfer : Transfer P m target.used (log ++ [⟨r, p⟩]) progress m')
    (new : r ∉ log.map Move.source) (place : p.start = c.target.used)
    (hcurrent : ∀ q, current = some q → q.start < c.target.used)
    (extends' : Extends target.memory m') (used_le : m'.size ≤ target.capacity) :
    CopyingOf P m target (log ++ [⟨r, p⟩]) progress current
      { target := { c.target with memory := m' }
        moved := c.moved.insert r.start p
        work := (r, p) :: c.work } where
  transfer := transfer
  same := by rw [h.same]
  extends_ := extends'
  used_le := used_le
  moved r' p' := by
    show (c.moved.insert r.start p)[r'.start]? = some p' ↔ _
    rw [Std.TreeMap.getElem?_insert, List.mem_append, List.mem_singleton, Move.mk.injEq]
    by_cases heq : r.start = r'.start
    · rw [if_pos (Nat.compare_eq_eq.mpr heq)]
      obtain rfl := Ref.start_inj heq
      constructor
      · rintro ⟨⟩
        exact .inr ⟨rfl, rfl⟩
      · rintro (hmem | ⟨-, rfl⟩)
        · exact absurd (List.mem_map_of_mem hmem) new
        · rfl
    · rw [if_neg (by rwa [Nat.compare_eq_eq]), h.moved]
      refine ⟨.inl, ?_⟩
      rintro (hmem | ⟨rfl, -⟩)
      · exact hmem
      · exact absurd rfl heq
  queued r' p' hmem := by
    rcases List.mem_cons.mp hmem with heq | hmem
    · cases heq
      refine ⟨h.transfer.fresh p (Nat.le_of_eq place.symm), fun heq => ?_,
        List.mem_append_right _ List.mem_cons_self⟩
      have := hcurrent p heq
      omega
    · obtain ⟨hzero, hne, hlog⟩ := h.queued r' p' hmem
      exact ⟨hzero, hne, List.mem_append_left _ hlog⟩
  distinct := by
    refine List.nodup_cons.mpr ⟨fun hmem => ?_, h.distinct⟩
    -- All copies that wait lie before the new one.
    obtain ⟨⟨r', p'⟩, hmem, heq⟩ := List.mem_map.mp hmem
    obtain ⟨-, -, hlog⟩ := h.queued r' p' hmem
    have heq : p' = p := heq
    have hlt : p'.start < c.target.memory.size := h.transfer.place_lt hlog
    have hplace : p.start = c.target.memory.size := place
    rw [heq] at hlt
    omega
  rest mv hmv := by
    rcases List.mem_append.mp hmv with hmv | hmv
    · rcases h.rest mv hmv with hfull | hqueued | hnow
      · exact .inl hfull
      · exact .inr (.inl (List.mem_cons_of_mem _ hqueued))
      · exact .inr (.inr hnow)
    · rw [List.mem_singleton.mp hmv]
      exact .inr (.inl List.mem_cons_self)

/-- The next copy in the queue becomes the current one. -/
theorem next (h : CopyingOf P m target log progress none c) {work : List (Ref × Ref)}
    (hwork : c.work = (r, p) :: work) :
    CopyingOf P m target log progress (some p) { c with work } := by
  have hdistinct := h.distinct
  rw [hwork] at hdistinct
  obtain ⟨hnotin, hdistinct⟩ := List.nodup_cons.mp hdistinct
  refine { h with queued := fun r' p' hmem => ?_, distinct := hdistinct, rest := fun mv hmv => ?_ }
  · obtain ⟨hzero, -, hlog⟩ := h.queued r' p' (by
      rw [hwork]
      exact List.mem_cons_of_mem _ hmem)
    refine ⟨hzero, fun heq => hnotin ?_, hlog⟩
    cases heq
    exact List.mem_map.mpr ⟨_, hmem, rfl⟩
  · rcases h.rest mv hmv with hfull | hqueued | hnow
    · exact .inl hfull
    · rw [hwork] at hqueued
      rcases List.mem_cons.mp hqueued with heq | hqueued
      · cases heq
        exact .inr (.inr rfl)
      · exact .inr (.inl hqueued)
    · cases hnow

/-- The current copy is finished when its last reference has been redirected. -/
theorem finished (h : CopyingOf P m target log progress (some mv.place) c) (hmv : mv ∈ log)
    (full : progress mv.place = m.slotsIn mv.source) :
    CopyingOf P m target log progress none c := by
  refine { h with queued := fun r p hmem => ?_, rest := fun a ha => ?_ }
  · obtain ⟨hzero, -, hlog⟩ := h.queued r p hmem
    exact ⟨hzero, nofun, hlog⟩
  · rcases h.rest a ha with hdone | hqueued | hnow
    · exact .inl hdone
    · exact .inr (.inl hqueued)
    · obtain rfl := h.transfer.tiled.eq_of_place ha hmv (Option.some.inj hnow).symm
      exact .inl full

/-- When no copy waits any more, all that the value leads to has been copied. -/
theorem deepCopy {s : Shape} {more : List Move}
    (h : CopyingOf (m.Leads (· = .object s r)) m target (⟨r, p⟩ :: more) progress none c)
    (empty : c.work = []) :
    ∃ φ order, DeepCopy φ order m (.object s r) target (.object s p) c.target := by
  have transfer := h.transfer
  have hroot : (⟨r, p⟩ : Move) ∈ ⟨r, p⟩ :: more := List.mem_cons_self
  have finished : ∀ mv ∈ (⟨r, p⟩ : Move) :: more, m.slotsIn mv.source ≤ progress mv.place := by
    intro mv hmv
    rcases h.rest mv hmv with hfull | hqueued | hnow
    · exact Nat.le_of_eq hfull.symm
    · rw [empty] at hqueued
      cases hqueued
    · cases hnow
  refine ⟨_, _, ⟨transfer.nodup, fun r' => ⟨transfer.sound_source, fun hr' => ?_⟩⟩,
    transfer.replica finished,
    congrArg (Value.object s) (destination_eq transfer.nodup hroot).symm, h.same,
    h.extends_, h.used_le⟩
  -- What a copied object refers to has been copied, since the reference in the copy has been
  -- redirected to it.
  refine hr'.subset (P := (· ∈ ((⟨r, p⟩ : Move) :: more).map Move.source)) (fun hr hi hslot => ?_)
    fun s' r' heq => ?_
  · obtain ⟨mv, hmv, rfl⟩ := List.mem_map.mp hr
    have hmatch := (transfer.copied mv hmv).redirected _ hi
      (Nat.lt_of_lt_of_le hi (finished mv hmv))
    obtain ⟨t, ht⟩ := hmatch.exists_of_object hslot
    exact List.mem_map_of_mem ht
  · cases heq
    exact List.mem_map_of_mem hroot

end CopyingOf

namespace CopyM

variable {P : Ref → Prop} {source target : Heap} {refs : List Ref} {log : List Move}
  {progress : Ref → Nat} {current : Option Ref} {c : Copying}

theorem ofSource_ok {α : Type} (x : α) (c : Copying) : ofSource (.ok x) c = .ok x c := rfl

theorem ends_write {f : Memory → Memory} {ok : Unit → Copying → Prop}
    {err : HeapError → Copying → Prop}
    (h : ok () { c with target := { c.target with memory := f c.target.memory } }) :
    Ends (onTarget (HeapM.write f)) c ok err := h

/-- One object is copied behind all that has been there, if there is room for it. -/
theorem shallow_eq {s : Shape} {r : Ref} (obj : source.memory.IsObject s r)
    (room : allocSize (source.memory.sizeAt r) ≤ c.target.free) :
    shallow source r c = .ok (Ref.ofNat c.target.used)
      { target := { c.target with
          memory := c.target.memory.withCopy source.memory s r (Ref.ofNat c.target.used) }
        moved := c.moved.insert r.start (Ref.ofNat c.target.used)
        work := (r, Ref.ofNat c.target.used) :: c.work } := by
  have halloc : onTarget (HeapM.tryAlloc (.object s) (source.memory.sizeAt r)) c =
      .ok (Ref.ofNat c.target.used) { c with target := { c.target with
        memory := c.target.memory.allocated (.object s) (source.memory.sizeAt r) } } := by
    unfold onTarget
    rw [HeapM.tryAlloc_eq (Nat.le_sub_one_of_lt (sizeAt_lt _ r)) room]
  unfold shallow
  rw [Heap.header_eq obj, bind_of_ok (ofSource_ok _ c), bind_of_ok halloc, Heap.payload_eq obj]
  rfl

theorem shallow_eq_error {s : Shape} {r : Ref} (obj : source.memory.IsObject s r)
    (full : c.target.free < allocSize (source.memory.sizeAt r)) :
    shallow source r c =
      .error (.outOfMemory (allocSize (source.memory.sizeAt r)) c.target.maxCapacity) c := by
  have halloc : onTarget (HeapM.tryAlloc (.object s) (source.memory.sizeAt r)) c =
      .error (.outOfMemory (allocSize (source.memory.sizeAt r)) c.target.maxCapacity) c := by
    unfold onTarget
    rw [HeapM.tryAlloc_error (.inr full)]
  unfold shallow
  rw [Heap.header_eq obj, bind_of_ok (ofSource_ok _ c), bind_of_error halloc]

section

variable (objects : ∀ r, P r → ∃ s, source.memory.IsObject s r) (all : ∀ r, P r → r ∈ refs)
  (small : target.capacity ≤ Heap.sizeLimit)

include objects all small

/-- Copying one object. If there is no room for it, there is none for all. -/
theorem ends_shallow (h : CopyingOf P source.memory target log progress current c) {r : Ref}
    (hp : P r) (new : r ∉ log.map Move.source)
    (hcurrent : ∀ p, current = some p → p.start < c.target.used) :
    Ends (shallow source r) c
      (fun p c' => CopyingOf P source.memory target (log ++ [⟨r, p⟩]) progress current c' ∧
        c'.work = (r, p) :: c.work)
      fun e c' => CrampedCopy source.memory refs target e c'.target := by
  obtain ⟨s, obj⟩ := objects r hp
  have hused : c.target.used = target.used + source.memory.total (log.map Move.source) :=
    h.transfer.tiled.total
  have hcapacity : c.target.capacity = target.capacity := by rw [h.same]
  have hmax : c.target.maxCapacity = target.maxCapacity := by rw [h.same]
  have hfree : c.target.free = target.capacity - c.target.used := by rw [← hcapacity]; rfl
  have hle := h.used_le
  by_cases full : c.target.free < allocSize (source.memory.sizeAt r)
  · refine .fails (shallow_eq_error obj full) ⟨⟨_, by rw [hmax]⟩, h.same, h.extends_, h.used_le, ?_⟩
    -- All that have been copied and this one are among those for which there would have to be room.
    have htotal : source.memory.total (log.map Move.source ++ [r]) ≤ source.memory.total refs := by
      refine source.memory.total_le_of_subset (nodup_concat h.transfer.nodup new) fun t ht => ?_
      rcases List.mem_append.mp ht with ht | ht
      · exact all t (h.transfer.sound_source ht)
      · rw [List.mem_singleton.mp ht]
        exact all r hp
    rw [total_append, total_cons] at htotal
    omega
  · have hwidth := headerWidth_le_allocSize (source.memory.sizeAt r)
    rw [headerWidth] at hwidth
    have place : (Ref.ofNat c.target.used).start = c.target.used := Ref.start_ofNat (by omega)
    obtain ⟨hextends, hgrown, copy, payload⟩ := withCopy_spec obj (t := c.target.memory) place
    refine .returns (shallow_eq obj (Nat.le_of_not_lt full)) ⟨?_, rfl⟩
    refine h.add (h.transfer.add ⟨r, _⟩ obj hp new place hextends hgrown
      (.of_payload payload obj copy)) new
      place hcurrent (h.extends_.trans hextends) (Nat.le_trans (Nat.le_of_eq hgrown) ?_)
    show c.target.used + _ ≤ _
    omega

/-- The copy of an object. -/
theorem ends_copyOf (h : CopyingOf P source.memory target log progress current c) {r : Ref}
    (hp : P r) (hcurrent : ∀ p, current = some p → p.start < c.target.used) :
    Ends (copyOf source r) c
      (fun p c' => ∃ more, CopyingOf P source.memory target (log ++ more) progress current c' ∧
        ⟨r, p⟩ ∈ log ++ more ∧ c'.work.length = c.work.length + more.length)
      fun e c' => CrampedCopy source.memory refs target e c'.target := by
  unfold copyOf
  refine .bind <| .get ?_
  cases hmoved : c.moved[r.start]? with
  | some p =>
    refine .pure ⟨[], ?_, ?_, rfl⟩ <;> rw [List.append_nil]
    · exact h
    · exact (h.moved r p).mp hmoved
  | none =>
    have new : r ∉ log.map Move.source := by
      intro hmem
      obtain ⟨mv, hmv, rfl⟩ := List.mem_map.mp hmem
      rw [(h.moved mv.source mv.place).mpr hmv] at hmoved
      cases hmoved
    refine (ends_shallow objects all small h hp new hcurrent).mono ?_ fun _ _ h => h
    rintro p c' ⟨h', hwork⟩
    refine ⟨[⟨r, p⟩], h', List.mem_append_right _ List.mem_cons_self, ?_⟩
    rw [hwork]
    rfl

/-- The references in the remaining slots of the current copy are redirected. -/
theorem ends_redirect (closed : source.memory.ClosedUnder P) (mv : Move) {count : Nat}
    (h : CopyingOf P source.memory target log progress (some mv.place) c) (hmv : mv ∈ log)
    (hcount : progress mv.place + count = source.memory.slotsIn mv.source) :
    Ends (redirect source mv.source mv.place (progress mv.place) count) c
      (fun _ c' => ∃ more progress',
        CopyingOf P source.memory target (log ++ more) progress' (some mv.place) c' ∧
        progress' mv.place = source.memory.slotsIn mv.source ∧
        c'.work.length = c.work.length + more.length)
      fun e c' => CrampedCopy source.memory refs target e c'.target := by
  induction count generalizing log progress c with
  | zero =>
    refine .pure ⟨[], progress, ?_, hcount, rfl⟩
    rw [List.append_nil]
    exact h
  | succ count ih =>
    have hlt : progress mv.place < source.memory.slotsIn mv.source := by omega
    have hself := Transfer.oneMore_self progress mv.place
    have rest := fun {log c} h hmv => @ih log (Transfer.oneMore progress mv.place) c h
      hmv (by omega)
    rw [hself] at rest
    unfold redirect
    have hread : source.memory.value (slotOffset mv.source.start (progress mv.place)) =
      source.memory.slotAt mv.source (progress mv.place) := rfl
    rw [hread]
    have skip : (source.memory.slotAt mv.source (progress mv.place)).ref? = none →
        CopyingOf P source.memory target log (Transfer.oneMore progress mv.place)
          (some mv.place) c :=
      fun inline => h.advance (h.transfer.skip hmv inline) rfl h.extends_
    cases hslot : source.memory.slotAt mv.source (progress mv.place) with
    | object s r =>
      refine .bind <| .bind <|
        (ends_copyOf objects all small h (closed (h.transfer.sound mv hmv) hlt hslot)
        fun p heq => ?_).mono ?_ fun _ _ h => h
      · cases heq
        exact h.transfer.place_lt hmv
      rintro p c' ⟨more, h', hmem, hwork⟩
      have hmv' := List.mem_append_left more hmv
      have hmatch : (source.memory.slotAt mv.source (progress mv.place)).Match
          (matching (log ++ more)) (.object s p) := by
        rw [hslot]
        exact .object hmem
      -- The slot that is written to belongs to a copy, and those lie behind all that was there.
      have hextends : Extends target.memory (c'.target.memory.storeValue
          (slotOffset mv.place.start (progress mv.place)) (.object s p)) := by
        refine ⟨?_, fun i h1 h2 => ?_⟩
        · rw [size_storeValue]
          exact h'.extends_.size
        · rw [h'.extends_.bytes i h1 h2]
          have hstart := (h.transfer.tiled.range hmv).1
          have hstart : target.memory.size ≤ mv.place.start := hstart
          refine (sameOn_storeValue (j := 0) (k := target.memory.size) (.inl ?_) i h1 h2).symm
          rw [slotOffset]
          omega
      refine .bind (ends_write ?_)
      refine (rest (h'.advance (h'.transfer.store hmv' hlt hslot hmatch)
        (size_storeValue _ _ _) hextends) hmv').mono ?_ fun _ _ h => h
      rintro _ c'' ⟨more', progress', hdone, hfull, hwork'⟩
      rw [List.append_assoc] at hdone
      refine ⟨more ++ more', progress', hdone, hfull, ?_⟩
      rw [hwork', List.length_append]
      show c'.work.length + _ = _
      omega
    | _ => exact .bind (.pure (rest (skip (by rw [hslot]; rfl)) hmv))

/-- The copies are finished in turn, those that are made on the way included. -/
theorem ends_finish (closed : source.memory.ClosedUnder P) (bound : Nat)
    (h : CopyingOf P source.memory target log progress none c)
    (hbound : refs.length + c.work.length < bound + log.length) :
    Ends (finish source bound) c
      (fun _ c' => ∃ more progress', CopyingOf P source.memory target
        (log ++ more) progress' none c' ∧
        c'.work = [])
      fun e c' => CrampedCopy source.memory refs target e c'.target := by
  induction bound generalizing log progress c with
  | zero =>
    have hlength : log.length ≤ refs.length := by
      rw [← List.length_map (f := Move.source)]
      exact List.Nodup.length_le_of_subset h.transfer.nodup fun r hr =>
        all r (h.transfer.sound_source hr)
    omega
  | succ bound ih =>
    unfold finish
    refine .bind <| .get ?_
    cases hwork : c.work with
    | nil =>
      refine .pure ⟨[], progress, ?_, hwork⟩
      rw [List.append_nil]
      exact h
    | cons first work =>
      obtain ⟨object, copy⟩ := first
      obtain ⟨hzero, -, hmem⟩ := h.queued object copy (by rw [hwork]; exact List.mem_cons_self)
      obtain ⟨s, obj⟩ := h.transfer.isObject _ hmem
      have hcount : source.memory.slotCount object.start
          ⟨.object s, source.memory.sizeAt object, none⟩ = source.memory.slotsIn object :=
        (slotsIn_eq obj).symm
      refine .bind <| .modify <| .bind ?_
      rw [Heap.header_eq obj]
      refine .pure <| .bind ?_
      rw [hcount]
      have redirected := ends_redirect objects all small closed ⟨object, copy⟩ (h.next hwork) hmem
        (show progress copy + source.memory.slotsIn object = _ by rw [hzero, Nat.zero_add])
      rw [hzero] at redirected
      refine redirected.mono ?_ fun _ _ h => h
      rintro _ c' ⟨more, progress', h', hfull, hlength⟩
      rw [hwork, List.length_cons] at hbound
      refine (ih (h'.finished (List.mem_append_left _ hmem) hfull) ?_).mono ?_ fun _ _ h => h
      · rw [hlength, List.length_append]
        show _ + (work.length + more.length) < _
        omega
      · rintro _ c'' ⟨more', progress'', hdone, hempty⟩
        rw [List.append_assoc] at hdone
        exact ⟨more ++ more', progress'', hdone, hempty⟩

end

end CopyM

/-- A deep copy succeeds if there is room for what the value leads to, and otherwise runs out of
memory. -/
theorem HeapM.ends_copy {source target : Heap} {refs : List Ref} {v : Value}
    (objects : ∀ r, source.memory.Leads (· = v) r → ∃ s, source.memory.IsObject s r)
    (lists : Lists refs (source.memory.Leads (· = v))) (used_le : target.used ≤ target.capacity)
    (small : target.capacity ≤ Heap.sizeLimit) :
    Ends (HeapM.copy source v) target
      (fun w target' => ∃ φ order, DeepCopy φ order source.memory v target w target')
      (CrampedCopy source.memory refs target) := by
  have inline : v.ref? = none → DeepCopy id [] source.memory v target v target := by
    intro hinline
    refine ⟨⟨List.nodup_nil, fun r => ⟨nofun, fun hr => absurd hr (not_leads_of_inline hinline)⟩⟩,
      ⟨nofun, fun before r after heq => ?_, rfl⟩, (Value.relocate_of_inline hinline _).symm,
      rfl, .refl _, used_le⟩
    simp at heq
  cases v with
  | object s r =>
    have hp : source.memory.Leads (· = .object s r) r := .root rfl
    have all : ∀ r', source.memory.Leads (· = .object s r) r' → r' ∈ refs :=
      fun r' => (lists.mem_iff r').mpr
    have closed : source.memory.ClosedUnder (source.memory.Leads (· = .object s r)) :=
      closedUnder_leads _ _
    have first : CopyingOf (source.memory.Leads (· = .object s r)) source.memory target []
        (fun _ => 0) none { target, moved := ∅, work := [] } :=
      ⟨Transfer.nil _ _ _, rfl, .refl _, used_le, fun r p => by simp, fun _ _ h => (nomatch h),
        List.nodup_nil, fun _ h => nomatch h⟩
    have hlength : refs.length ≤ source.used := length_le_size lists.nodup fun r hr =>
      objects r ((lists.mem_iff r).mp hr)
    -- The copy of the first object is where the value leads to, and all copies are finished in the
    -- end.
    have run : Ends (do
          let root ← CopyM.shallow source r
          CopyM.finish source (source.used + 1)
          return root : CopyM Ref) { target, moved := ∅, work := [] }
        (fun p c => ∃ φ order, DeepCopy φ order source.memory (.object s r) target
          (.object s p) c.target)
        fun e c => CrampedCopy source.memory refs target e c.target := by
      refine .bind <| (CopyM.ends_shallow objects all small first hp List.not_mem_nil nofun).mono ?_
        fun _ _ h => h
      rintro p c ⟨h, hwork⟩
      refine .bind <| (CopyM.ends_finish objects all small closed (source.used + 1) h ?_).mono ?_
        fun _ _ h => h
      · rw [hwork]
        show refs.length + 1 < source.used + 1 + 1
        omega
      rintro _ c' ⟨more, progress, hdone, hempty⟩
      exact .pure (hdone.deepCopy hempty)
    refine .intro (fun w target' hrun => ?_) fun e target' hrun => ?_
    · unfold HeapM.copy at hrun
      dsimp only at hrun
      split at hrun
      · cases hrun
        exact run.of_ok ‹_›
      · cases hrun
    · unfold HeapM.copy at hrun
      dsimp only at hrun
      split at hrun
      · cases hrun
      · cases hrun
        exact run.of_error ‹_›
  | _ => exact ⟨_, _, inline rfl⟩

/-- Where the objects are well-typed and there is room for them, a deep copy adds what is isomorphic
to them. -/
theorem HeapM.copy_iso {P : Shape → Ref → Prop} {source : Heap} (target : Heap) {refs : List Ref}
    {v : Value} (laid : Laid P source.memory) (closed : Closed P source.memory)
    (hv : ∀ s r, v = .object s r → P s r)
    (enumerates : Enumerates refs (source.memory.Reaches (· = v)))
    (room : target.used + source.memory.total refs ≤ target.capacity)
    (small : target.capacity ≤ Heap.sizeLimit) :
    ∃ (w : Value) (γ : Matching) (m' : Memory),
      HeapM.copy source v target = .ok w { target with memory := m' } ∧
      Extends target.memory m' ∧ m'.size = target.used + source.memory.total refs ∧
      Iso γ source.memory m' ∧ v.Match γ w ∧ (∀ {s r p}, γ s r p → target.used ≤ p.start) := by
  have hroots : ∀ s r, Value.object s r = v → P s r := fun s r heq => hv s r heq.symm
  have leads : ∀ r, source.memory.Leads (· = v) r ↔
      ∃ s, source.memory.Reaches (· = v) s r := fun _ =>
    leads_iff laid closed hroots
  have laid : Laid (source.memory.Reaches (· = v)) source.memory :=
    laid.mono fun hr => hr.subset closed hroots
  have lists : Lists refs (source.memory.Leads (· = v)) :=
    ⟨enumerates.nodup, fun r => (enumerates.mem_iff r).trans (leads r).symm⟩
  have objects : ∀ r, source.memory.Leads (· = v) r → ∃ s, source.memory.IsObject s r := by
    intro r hr
    obtain ⟨s, hreach⟩ := (leads r).mp hr
    exact ⟨s, laid.isObject hreach⟩
  have ends := HeapM.ends_copy objects lists (Nat.le_trans (Nat.le_add_right _ _) room) small
  cases run : HeapM.copy source v target with
  | error e target' =>
    have := (ends.of_error run).room
    omega
  | ok w target' =>
    obtain ⟨φ, order, copy⟩ := ends.of_ok run
    refine ⟨w, _, target'.memory, by rw [← copy.same], copy.extends_, ?_,
      copy.replica.iso laid (Reaches.closed _ _) fun r =>
        (copy.lists.mem_iff r).trans (leads r), ?_, ?_⟩
    · rw [copy.replica.size, copy.lists.total_eq lists]
    · rw [copy.value_eq]
      exact Value.match_relocate fun s r heq => .root heq.symm
    · rintro s r _ ⟨hreach, rfl⟩
      exact copy.replica.base_le ((copy.lists.mem_iff r).mpr ((leads r).mpr ⟨s, hreach⟩))

end ActorMachine
