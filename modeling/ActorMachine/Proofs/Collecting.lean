import ActorMachine.Heap.Collection
import ActorMachine.Proofs.MatchedValues
import ActorMachine.Proofs.Transfer

/-!
# What a collection does

`Rooted.compact_spec`: a collection leaves exact copies of the objects that the roots lead to, and
of no others, one behind the other in the order of a breadth-first search, with the roots at their
new places. The search goes on with the first object whose references have not been redirected, so
that the objects before it are finished and those behind it are as they were copied; it ends where
there is no further object (`Evacuation.Scans`).
-/

namespace ActorMachine

open Memory Move

theorem Ref.start_ofNat {n : Nat} (h : n ≤ Heap.sizeLimit) : (Ref.ofNat n).start = n := by
  rw [Heap.sizeLimit, UInt32.size] at h
  rw [Ref.ofNat, Ref.start]
  exact UInt64.toNat_ofNat_of_lt' (by rw [UInt64.size]; omega)

/-- The old memory says where the objects are that have moved, and holds the others. -/
structure Forwarding (P : Ref → Prop) (m : Memory) (log : List Move) (source : Memory) : Prop where
  size : source.size = m.size
  moved : ∀ mv ∈ log, ∃ s,
    source.header? mv.source.start = some ⟨.object s, m.sizeAt mv.source, some mv.place⟩
  waiting : ∀ {r}, P r → r ∉ log.map Move.source → SameObject m source r r

/-- Where an object has been, there is a note of its new place. The notes of the others and the
objects that have not moved are elsewhere. -/
theorem Forwarding.add {P : Ref → Prop} {m source : Memory} {log : List Move} {r place : Ref}
    {s : Shape} (h : Forwarding P m log source) (scattered : Scattered P m)
    (sound : ∀ mv ∈ log, P mv.source) (hp : P r) (new : r ∉ log.map Move.source)
    (room : r.start + headerWidth ≤ source.size) (hplace : place.start ≠ UInt64.size - 1) :
    Forwarding P m (log ++ [⟨r, place⟩])
      (source.storeHeader r.start ⟨.object s, m.sizeAt r, some place⟩) where
  size := by
    rw [size_storeHeader]
    exact h.size
  moved mv hmv := by
    rcases List.mem_append.mp hmv with hmv | hmv
    · have hne : r ≠ mv.source := fun heq => new (heq ▸ List.mem_map_of_mem hmv)
      obtain ⟨s₁, hold⟩ := h.moved mv hmv
      refine ⟨s₁, ?_⟩
      have hin := add_headerWidth_le_size_of_header? hold
      have hwidth := headerWidth_le_allocSize (m.sizeAt r)
      have hwidth' := headerWidth_le_allocSize (m.sizeAt mv.source)
      rw [← hold]
      refine header?_congr (by rwa [size_storeHeader]) hin fun k hk => ?_
      have hapart := scattered.apart hp (sound mv hmv) hne
      rw [Apart, endAt, endAt] at hapart
      refine sameOn_storeHeader (j := mv.source.start) (k := mv.source.start + headerWidth) ?_ _
        (by omega) (by omega)
      omega
    · rw [List.mem_singleton.mp hmv]
      refine ⟨s, header?_storeHeader room (sizeAt_lt m r) ?_⟩
      rintro _ ⟨⟩
      exact hplace
  waiting {r'} hp' hr' := by
    rw [List.map_append, List.mem_append, not_or] at hr'
    have hne : r ≠ r' := fun heq => hr'.2 (List.mem_singleton.mpr heq.symm)
    have other := h.waiting hp' hr'.1
    have hwidth := headerWidth_le_allocSize (m.sizeAt r)
    have hapart := scattered.apart hp hp' hne
    rw [Apart, endAt, endAt] at hapart
    refine ⟨fun k hk => ?_, ?_⟩
    · rw [other.bytes k hk]
      refine (sameOn_storeHeader (j := r'.start) (k := r'.start + allocSize (m.sizeAt r')) ?_ _
        (by omega) (by omega)).symm
      omega
    · rw [size_storeHeader]
      exact other.inside

/-- The objects in `log` have been moved from `m`. -/
structure Evacuating (P : Ref → Prop) (m : Memory) (log : List Move) (progress : Ref → Nat)
    (e : Evacuation) : Prop where
  transfer : Transfer P m 0 log progress e.target
  forwarding : Forwarding P m log e.source

namespace Evacuation

variable {P : Ref → Prop} {m : Memory} {log : List Move} {progress : Ref → Nat} {e : Evacuation}

theorem extends_append (t object : Memory) : Extends t (t ++ object) where
  size := by
    rw [ByteArray.size_append]
    exact Nat.le_add_right _ _
  bytes i _ hi := by rw [byte_append, if_pos hi]

/-- What has been moved takes up no more room than the memory that it comes from. -/
theorem size_target_le (h : Evacuating P m log progress e) (scattered : Scattered P m) :
    e.target.size ≤ m.size := by
  rw [h.transfer.tiled.total, Nat.zero_add]
  exact scattered.total_le h.transfer.nodup fun _ => h.transfer.sound_source

/-- Moving an object that has not moved. -/
theorem move_waiting (h : Evacuating P m log progress e) (scattered : Scattered P m)
    (small : m.size ≤ Heap.sizeLimit) (s : Shape) {r : Ref} (hp : P r)
    (new : r ∉ log.map Move.source) :
    ∃ place, (e.move (.object s r)).1 = .object s place ∧
      Evacuating P m (log ++ [⟨r, place⟩]) progress (e.move (.object s r)).2 := by
  have same := h.forwarding.waiting hp new
  obtain ⟨s₀, obj⟩ := scattered.isObject hp
  have hinside := same.inside
  have hwidth := headerWidth_le_allocSize (m.sizeAt r)
  have hle := size_target_le h scattered
  have hplace : (Ref.ofNat e.target.size).start = e.target.size :=
    Ref.start_ofNat (Nat.le_trans hle small)
  have hroom : r.start + headerWidth ≤ e.source.size := by omega
  have hheader : e.source.header? r.start = some ⟨.object s₀, m.sizeAt r, none⟩ := by
    rw [(same.isObject obj).header, same.sizeAt]
  have hmove : e.move (.object s r) = (.object s (Ref.ofNat e.target.size),
      { source := e.source.storeHeader r.start
          ⟨.object s₀, m.sizeAt r, some (Ref.ofNat e.target.size)⟩
        target := e.target ++ e.source.extract r.start (r.start + allocSize (m.sizeAt r)) }) := by
    simp only [move, hheader]
  rw [hmove]
  generalize hmv : Ref.ofNat e.target.size = place at *
  have hextract : (e.source.extract r.start (r.start + allocSize (m.sizeAt r))).size =
      allocSize (m.sizeAt r) := by
    rw [size_extract_of_le hinside, Nat.add_sub_cancel_left]
  have moved : SameObject m
      (e.target ++ e.source.extract r.start (r.start + allocSize (m.sizeAt r))) r place := by
    constructor
    · intro k hk
      rw [byte_append, hplace, if_neg (by omega), Nat.add_sub_cancel_left,
        byte_extract hinside (by omega)]
      exact same.bytes k hk
    · exact Nat.le_of_eq (by rw [ByteArray.size_append, hextract, hplace])
  refine ⟨place, rfl, h.transfer.add ⟨r, place⟩ obj hp new hplace (extends_append _ _)
    (by rw [ByteArray.size_append, hextract]) (.of_payload moved.payload obj (moved.isObject obj)),
    h.forwarding.add scattered h.transfer.sound hp new hroom ?_⟩
  rw [hplace, UInt64.size]
  rw [Heap.sizeLimit, UInt32.size] at small
  omega

/-- Moving the object of a value gives the value at its new place. -/
theorem move_spec (h : Evacuating P m log progress e) (scattered : Scattered P m)
    (small : m.size ≤ Heap.sizeLimit) {v : Value} (hv : ∀ s r, v = .object s r → P r) :
    ∃ more, Evacuating P m (log ++ more) progress (e.move v).2 ∧
      v.Match (matching (log ++ more)) (e.move v).1 ∧
      (log ++ more).map Move.source = discover (log.map Move.source)
        ([v].filterMap Value.ref?) := by
  have stay : ∀ {w : Value}, w.Match (matching log) (e.move w).1 → (e.move w).2 = e →
      discover (log.map Move.source) ([w].filterMap Value.ref?) = log.map Move.source →
      ∃ more, Evacuating P m (log ++ more) progress (e.move w).2 ∧
        w.Match (matching (log ++ more)) (e.move w).1 ∧
        (log ++ more).map Move.source = discover (log.map Move.source)
          ([w].filterMap Value.ref?) := by
    intro w hmatch heq hfound
    refine ⟨[], ?_, ?_, ?_⟩
    · rw [List.append_nil, heq]
      exact h
    · rwa [List.append_nil]
    · rw [List.append_nil, hfound]
  cases v with
  | object s r =>
    have hp := hv s r rfl
    by_cases hmem : r ∈ log.map Move.source
    · obtain ⟨mv, hmv, rfl⟩ := List.mem_map.mp hmem
      obtain ⟨s₁, hheader⟩ := h.forwarding.moved mv hmv
      have hmove : e.move (.object s mv.source) = (.object s mv.place, e) := by
        simp only [move, hheader]
      refine stay ?_ (by rw [hmove]) (if_pos hmem)
      rw [hmove]
      exact .object hmv
    · obtain ⟨place, hvalue, hnew⟩ := move_waiting h scattered small s hp hmem
      rw [hvalue]
      refine ⟨_, hnew, .object (List.mem_append_right _ (List.mem_singleton.mpr rfl)), ?_⟩
      rw [List.map_append]
      exact (if_neg hmem).symm
  | _ => exact stay (.inline rfl) rfl rfl

/-- Some roots are moved in turn. What has been moved stays matched while the others follow. -/
theorem foldl_move_spec (scattered : Scattered P m) (small : m.size ≤ Heap.sizeLimit)
    (vs : List Value) (done : Array Value) (h : Evacuating P m log progress e)
    (hvs : ∀ s r, .object s r ∈ vs → P r) :
    ∃ (more : List Move) (ws : List Value) (e' : Evacuation), vs.foldl (fun acc v =>
        (acc.1.push (acc.2.move v).1, (acc.2.move v).2)) (done, e) = (done ++ ws.toArray, e') ∧
      Evacuating P m (log ++ more) progress e' ∧ vs.length = ws.length ∧
      (∀ (i : Nat) v w, vs[i]? = some v → ws[i]? = some w →
        v.Match (matching (log ++ more)) w) ∧
      (log ++ more).map Move.source = discover (log.map Move.source) (vs.filterMap Value.ref?) := by
  induction vs generalizing done log e with
  | nil =>
    refine ⟨[], [], e, ?_, ?_, rfl, ?_, ?_⟩
    · rw [List.foldl_nil, Array.append_empty]
    · rw [List.append_nil]
      exact h
    · intro i v w hv
      cases hv
    · rw [List.append_nil]
      rfl
  | cons v vs ih =>
    obtain ⟨more, hmoved, hmatch, horder⟩ := move_spec h scattered small fun s r hv =>
      hvs s r (hv ▸ List.mem_cons_self)
    obtain ⟨more', ws, e', hfold, he', hlength, hrest, horder'⟩ :=
      ih (done.push (e.move v).1) hmoved fun s r hr => hvs s r (List.mem_cons_of_mem _ hr)
    rw [horder, List.append_assoc, ← discover_append, ← List.filterMap_append] at horder'
    rw [List.append_assoc] at he' hrest
    refine ⟨more ++ more', (e.move v).1 :: ws, e', ?_, he', by simp [hlength], ?_, horder'⟩
    · rw [List.foldl_cons, hfold]
      simp
    · intro i x y hx hy
      cases i with
      | zero =>
        rw [List.getElem?_cons_zero, Option.some.injEq] at hx hy
        subst hx hy
        refine hmatch.mono fun hmem => ?_
        rw [← List.append_assoc]
        exact matching_append hmem
      | succ i =>
        rw [List.getElem?_cons_succ] at hx hy
        exact hrest i x y hx hy

/-- The roots are moved in turn. -/
theorem moveAll_spec (h : Evacuating P m log progress e) (scattered : Scattered P m)
    (small : m.size ≤ Heap.sizeLimit) (values : Array Value)
    (hvalues : ∀ s r, .object s r ∈ values → P r) :
    ∃ more, Evacuating P m (log ++ more) progress (e.moveAll values).2 ∧
      Value.MatchAll (matching (log ++ more)) values (e.moveAll values).1 ∧
      (log ++ more).map Move.source =
        discover (log.map Move.source) (values.toList.filterMap Value.ref?) := by
  obtain ⟨more, ws, e', hfold, he', hlength, hmatch, horder⟩ :=
    foldl_move_spec scattered small values.toList
    (Array.emptyWithCapacity values.size) h fun s r hr => hvalues s r (Array.mem_toList_iff.mp hr)
  rw [Evacuation.moveAll_eq, hfold]
  refine ⟨more, he', ⟨?_, fun i v w hv hw => ?_⟩, horder⟩
  · simpa [Array.emptyWithCapacity] using hlength
  · refine hmatch i v w (by rwa [Array.getElem?_toList]) ?_
    simpa [Array.emptyWithCapacity] using hw

/-- The references in the remaining slots of a copy are redirected. -/
theorem moveSlots_spec (scattered : Scattered P m) (closed : m.ClosedUnder P)
    (small : m.size ≤ Heap.sizeLimit) {mv : Move} {count : Nat} (h : Evacuating P m log progress e)
    (hmv : mv ∈ log) (hcount : progress mv.place + count = m.slotsIn mv.source) :
    ∃ more progress', Evacuating P m (log ++ more) progress'
        (e.moveSlots (slotOffset mv.place.start (progress mv.place)) count) ∧
      progress' mv.place = m.slotsIn mv.source ∧ (∀ p, p ≠ mv.place → progress' p = progress p) ∧
      (log ++ more).map Move.source = discover (log.map Move.source)
        (((List.range' (progress mv.place) count).map (m.slotAt mv.source)).filterMap
          Value.ref?) := by
  induction count generalizing log progress e with
  | zero =>
    refine ⟨[], progress, ?_, hcount, fun _ _ => rfl, ?_⟩
    · rw [List.append_nil]
      exact h
    · rw [List.append_nil]
      rfl
  | succ count ih =>
    have hlt : progress mv.place < m.slotsIn mv.source := by omega
    obtain ⟨s₀, obj⟩ := h.transfer.isObject mv hmv
    have hraw : e.target.value (slotOffset mv.place.start (progress mv.place)) =
        m.slotAt mv.source (progress mv.place) :=
      (h.transfer.copied mv hmv).raw obj hlt (Nat.le_refl _)
    have hnext : slotOffset mv.place.start (progress mv.place) + slotWidth =
        slotOffset mv.place.start (progress mv.place + 1) := by
      rw [slotOffset, slotOffset, Nat.succ_mul]
      omega
    have hself := Transfer.oneMore_self progress mv.place
    have hrange : ((List.range' (progress mv.place) (count + 1)).map (m.slotAt mv.source)).filterMap
          Value.ref? =
        [m.slotAt mv.source (progress mv.place)].filterMap Value.ref? ++
          ((List.range' (progress mv.place + 1) count).map (m.slotAt mv.source)).filterMap
            Value.ref? := by
      rw [← List.filterMap_append]
      rfl
    rw [hrange, discover_append]
    unfold moveSlots
    rw [hraw, hnext]
    by_cases hcollectable : (m.slotAt mv.source (progress mv.place)).isCollectable = true
    · -- What the slot refers to is moved, unless it has been, and the slot is set to where it is
      -- now.
      rw [if_pos hcollectable]
      obtain ⟨r, hr⟩ := Option.isSome_iff_exists.mp hcollectable
      obtain ⟨s, hslot⟩ := Value.ref?_eq_some.mp hr
      obtain ⟨more, hmoved, hmatch, horder⟩ := move_spec h scattered small fun s r hv =>
        closed (h.transfer.sound mv hmv) hlt hv
      have hmv' := List.mem_append_left more hmv
      obtain ⟨more', progress', hdone, hfull, hothers, horder'⟩ := ih
        (e := { (e.move (m.slotAt mv.source (progress mv.place))).2 with
          target := (e.move (m.slotAt mv.source (progress mv.place))).2.target.storeValue
            (slotOffset mv.place.start (progress mv.place))
            (e.move (m.slotAt mv.source (progress mv.place))).1 })
        ⟨hmoved.transfer.store hmv' hlt hslot hmatch, hmoved.forwarding⟩ hmv'
        (by rw [hself]; omega)
      rw [hself] at hdone horder'
      rw [List.append_assoc] at hdone
      rw [List.append_assoc, horder] at horder'
      exact ⟨more ++ more', progress', hdone, hfull, fun p hp =>
        (hothers p hp).trans (Transfer.oneMore_of_ne hp), horder'⟩
    · rw [if_neg hcollectable]
      have inline : (m.slotAt mv.source (progress mv.place)).ref? = none := by
        simpa [Value.isCollectable] using hcollectable
      obtain ⟨more, progress', hdone, hfull, hothers, horder⟩ := ih (e := e)
        ⟨h.transfer.skip hmv inline, h.forwarding⟩ hmv (by rw [hself]; omega)
      rw [hself] at hdone horder
      refine ⟨more, progress', hdone, hfull, fun p hp =>
        (hothers p hp).trans (Transfer.oneMore_of_ne hp), ?_⟩
      rw [horder, List.filterMap_cons_none inline]
      rfl

/-- The search goes on from the object at an offset: it finds a header there, redirects what is in
the slots, and goes on behind the object. It ends at the end of the target. -/
inductive Scans : Evacuation → Nat → Evacuation → Prop
  | finished {e : Evacuation} : Scans e e.target.size e
  | object {e e' : Evacuation} {offset : Nat} {header : ObjectHeader}
    (more : offset < e.target.size) (readable : e.target.header? offset = some header)
    (rest : Scans (e.moveSlots (slotOffset offset 0) (e.target.slotCount offset header))
      (offset + allocSize header.size) e') : Scans e offset e'

/-- The search is at the object at `offset`: the objects before it are finished, and it and those
behind it are as they were copied. -/
structure Scanning (P : Ref → Prop) (m : Memory) (roots : List Ref) (done todo : List Move)
    (progress : Ref → Nat) (e : Evacuation) (offset : Nat) : Prop where
  evacuating : Evacuating P m (done ++ todo) progress e
  offset_eq : offset = 0 + m.total (done.map Move.source)
  finished : ∀ mv ∈ done, progress mv.place = m.slotsIn mv.source
  waiting : ∀ mv ∈ todo, progress mv.place = 0
  order : (done ++ todo).map Move.source =
    discover [] (roots ++ (done.map Move.source).flatMap m.refsIn)

namespace Scanning

variable {roots : List Ref} {mv : Move} {done todo : List Move} {offset bound : Nat}

/-- The next object begins where the finished ones end. -/
theorem place_eq (h : Scanning P m roots done (mv :: todo) progress e offset) :
    mv.place.start = offset := by
  rw [h.offset_eq]
  exact h.evacuating.transfer.tiled.split.1

/-- The next object is finished; the objects that it leads to come last. -/
theorem step (h : Scanning P m roots done (mv :: todo) progress e offset)
    (scattered : Scattered P m) (closed : m.ClosedUnder P) (small : m.size ≤ Heap.sizeLimit) :
    ∃ more progress', Scanning P m roots (done ++ [mv]) (todo ++ more) progress'
      (e.moveSlots (slotOffset offset 0) (m.slotsIn mv.source))
      (offset + allocSize (m.sizeAt mv.source)) := by
  have hmem : mv ∈ done ++ mv :: todo := List.mem_append_right _ List.mem_cons_self
  have hzero := h.waiting mv List.mem_cons_self
  have transfer := h.evacuating.transfer
  obtain ⟨more, progress', hmoved, hfull, hothers, horder⟩ := moveSlots_spec scattered closed small
    h.evacuating hmem (show progress mv.place + m.slotsIn mv.source = _ by rw [hzero, Nat.zero_add])
  rw [hzero, h.place_eq] at hmoved
  rw [hzero, ← List.range_eq_range', h.order, ← discover_append, List.append_assoc] at horder
  have hlog : done ++ mv :: todo ++ more = (done ++ [mv]) ++ (todo ++ more) := by simp
  have hne : ∀ a ∈ done ++ mv :: todo ++ more, a ∉ [mv] → a.place ≠ mv.place := fun a ha hnot heq =>
    hnot (List.mem_singleton.mpr
      (hmoved.transfer.tiled.eq_of_place ha (List.mem_append_left _ hmem) heq))
  -- The objects have different places, since each comes from a place of its own.
  have hnodup : mv ∉ done ∧ mv ∉ todo ++ more := by
    have := hmoved.transfer.nodup
    rw [show done ++ mv :: todo ++ more = done ++ mv :: (todo ++ more) by simp, List.map_append,
      List.map_cons, List.nodup_append, List.nodup_cons] at this
    exact ⟨fun hin => this.2.2 _ (List.mem_map_of_mem hin) _ List.mem_cons_self rfl,
      fun hin => this.2.1.1 (List.mem_map_of_mem hin)⟩
  refine ⟨more, progress', hlog ▸ hmoved, ?_, ?_, ?_, ?_⟩
  · rw [h.offset_eq, List.map_append, total_append, List.map_singleton, total_cons, Nat.add_assoc]
    rfl
  · intro a ha
    rcases List.mem_append.mp ha with ha | ha
    · rw [hothers a.place (hne a (by simp [ha]) fun hin =>
        hnodup.1 (List.mem_singleton.mp hin ▸ ha)), h.finished a ha]
    · rw [List.mem_singleton.mp ha]
      exact hfull
  · intro a ha
    rw [hothers a.place (hne a (by rw [hlog]; exact List.mem_append_right _ ha) fun hin =>
      hnodup.2 (List.mem_singleton.mp hin ▸ ha))]
    rcases List.mem_append.mp ha with ha | ha
    · exact h.waiting a (List.mem_cons_of_mem _ ha)
    · refine transfer.fresh a.place ?_
      rw [transfer.tiled.total]
      exact (hmoved.transfer.tiled.split.range ha).1
  · rw [← hlog, List.append_assoc, horder, List.map_append, List.flatMap_append, List.map_singleton,
      List.flatMap_singleton, ← List.append_assoc]
    rfl

/-- Where there is no further object the search has come to the end. -/
theorem scans (h : Scanning P m roots done [] progress e offset) : Scans e offset e := by
  have hend : offset = e.target.size := by
    rw [h.evacuating.transfer.tiled.total, List.append_nil, h.offset_eq]
  exact hend ▸ .finished

end Scanning

/-- From the first object that is not finished on, the objects are finished in turn. -/
theorem scan_spec (scattered : Scattered P m) (closed : m.ClosedUnder P)
    (small : m.size ≤ Heap.sizeLimit) {roots : List Ref} {done todo : List Move}
    {offset bound : Nat} (h : Scanning P m roots done todo progress e offset)
    (hbound : m.size ≤ offset + bound) :
    Scans e offset (e.scan offset bound) ∧ ∃ more progress' offset',
      Scanning P m roots (done ++ todo ++ more) [] progress' (e.scan offset bound) offset' := by
  induction bound generalizing done todo progress e offset with
  | zero =>
    unfold scan
    cases todo with
    | nil =>
      refine ⟨h.scans, [], progress, offset, ?_⟩
      rwa [List.append_nil, List.append_nil]
    | cons mv todo =>
      have hsize := size_target_le h.evacuating scattered
      have hlt := h.evacuating.transfer.place_lt (List.mem_append_right done List.mem_cons_self)
      rw [h.place_eq] at hlt
      omega
  | succ bound ih =>
    have transfer := h.evacuating.transfer
    unfold scan
    cases todo with
    | nil =>
      have hend : e.target.size = offset := by
        rw [transfer.tiled.total, List.append_nil, h.offset_eq]
      rw [if_neg (by omega)]
      refine ⟨h.scans, [], progress, offset, ?_⟩
      rwa [List.append_nil, List.append_nil]
    | cons mv todo =>
      have hmem : mv ∈ done ++ mv :: todo := List.mem_append_right _ List.mem_cons_self
      have hcopied := transfer.copied mv hmem
      obtain ⟨s, obj⟩ := transfer.isObject mv hmem
      have hlt := transfer.place_lt hmem
      have hwidth := headerWidth_le_allocSize (m.sizeAt mv.source)
      rw [headerWidth] at hwidth
      rw [h.place_eq] at hlt
      have hheader : e.target.header? offset = some ⟨.object s, m.sizeAt mv.source, none⟩ := by
        rw [← h.place_eq, hcopied.header, obj.header]
      have hcount : e.target.slotCount offset ⟨.object s, m.sizeAt mv.source, none⟩ =
          m.slotsIn mv.source := by
        rw [← hcopied.slotsIn_eq obj, slotsIn, h.place_eq, hheader]
      rw [if_pos hlt]
      obtain ⟨more, progress', hstep⟩ := h.step scattered closed small
      obtain ⟨hscans, more', progress'', offset', hdone⟩ := ih hstep (by omega)
      have hlog : (done ++ [mv]) ++ (todo ++ more) ++ more' =
          done ++ mv :: todo ++ (more ++ more') := by simp
      rw [hlog] at hdone
      simp only [hheader, hcount]
      exact ⟨.object hlt hheader (hcount.symm ▸ hscans), more ++ more', progress'', offset', hdone⟩

end Evacuation

/-- The roots are rewritten one by one. -/
theorem Value.MatchAll.eq_map {log : List Move} {vs ws : Array Value}
    (nodup : (log.map Move.source).Nodup)
    (h : MatchAll (matching log) vs ws) : ws = vs.map (relocate (destination log)) := by
  refine Array.ext (by rw [Array.size_map, h.size]) fun i hi hi' => ?_
  rw [Array.getElem_map]
  exact eq_relocate nodup (h.get i _ _ (Array.getElem?_eq_getElem _) (Array.getElem?_eq_getElem hi))

/-- What a collection makes of a memory and its roots: exact copies of the objects that the roots
lead to, one behind the other in the order of a breadth-first search, and the roots at their new
places. The search goes on to the end of the new memory. -/
structure Compaction (φ : Ref → Ref) (order : List Ref) (m : Memory) (roots : Array Value)
    (m' : Memory)
    (roots' : Array Value) : Prop where
  breadthFirst : m.BreadthFirst roots order
  replica : Replica φ m order 0 m'
  roots_eq : roots' = roots.map (Value.relocate φ)
  scans : ∃ source, (Evacuation.moveAll ⟨m, ByteArray.empty⟩ roots).2.Scans 0 ⟨source, m'⟩

/-- A collection leaves exactly what the roots lead to, without a gap, and moves the roots along. -/
theorem Rooted.compact_spec {s : Rooted}
    (scattered : Scattered (s.heap.memory.Leads (· ∈ s.roots)) s.heap.memory)
    (small : s.heap.used ≤ Heap.sizeLimit) :
    ∃ φ order, Compaction φ order s.heap.memory s.roots s.compact.heap.memory s.compact.roots := by
  have closed : s.heap.memory.ClosedUnder (s.heap.memory.Leads (· ∈ s.roots)) :=
    closedUnder_leads _ _
  have start : Evacuating (s.heap.memory.Leads (· ∈ s.roots)) s.heap.memory [] (fun _ => 0)
      ⟨s.heap.memory, ByteArray.empty⟩ := by
    refine ⟨Transfer.nil _ _ ByteArray.empty, rfl, fun _ h => (nomatch h), fun hp _ => ?_⟩
    obtain ⟨_, obj⟩ := scattered.isObject hp
    exact (Extends.refl _).sameObject obj
  obtain ⟨first, hmoved, hmatch, horder⟩ := Evacuation.moveAll_spec start scattered small s.roots
    fun _ _ hr => .root hr
  rw [List.nil_append] at hmoved hmatch horder
  have scanning : Evacuation.Scanning (s.heap.memory.Leads (· ∈ s.roots)) s.heap.memory
      (s.roots.toList.filterMap Value.ref?) [] first (fun _ => 0)
      (Evacuation.moveAll ⟨s.heap.memory, ByteArray.empty⟩ s.roots).2 0 := by
    refine ⟨hmoved, rfl, fun _ h => (nomatch h), fun _ _ => rfl, ?_⟩
    rw [List.nil_append, horder, List.map_nil, List.flatMap_nil, List.append_nil]
  obtain ⟨hscans, more, progress, offset, hdone⟩ :=
    Evacuation.scan_spec scattered closed small scanning
    (show s.heap.memory.size ≤ 0 + s.heap.used from Nat.le_of_eq (Nat.zero_add _).symm)
  rw [List.nil_append] at hdone
  have transfer := hdone.evacuating.transfer
  have horder := hdone.order
  rw [List.append_nil] at transfer horder
  refine ⟨destination (first ++ more), (first ++ more).map Move.source,
    ⟨fun r => ⟨transfer.sound_source, fun hr => ?_⟩, horder⟩,
    transfer.replica fun mv hmv => Nat.le_of_eq (hdone.finished mv hmv).symm,
    (hmatch.mono matching_append).eq_map transfer.nodup, _, hscans⟩
  -- What has been found leads to nothing else.
  refine hr.subset (P := (· ∈ (first ++ more).map Move.source)) (fun hr hi hslot => ?_)
    fun s' r hr => ?_
  · rw [horder]
    exact mem_discover.mpr (.inr (List.mem_append_right _ (List.mem_flatMap.mpr
      ⟨_, hr, mem_refsIn.mpr ⟨_, _, hi, hslot⟩⟩)))
  · rw [horder]
    exact mem_discover.mpr (.inr (List.mem_append_left _ (Value.mem_filterMap_ref?.mpr
      ⟨s', Array.mem_toList_iff.mpr hr⟩)))

/-- Where the objects are well-typed, a collection leaves an isomorphic memory. -/
theorem Rooted.compact_iso {P : Shape → Ref → Prop} {s : Rooted} (laid : Laid P s.heap.memory)
    (closed : Closed P s.heap.memory) (hroots : ∀ s' r, .object s' r ∈ s.roots → P s' r)
    (small : s.heap.used ≤ Heap.sizeLimit) :
    ∃ (γ : Matching) (refs : List Ref), Iso γ s.heap.memory s.compact.heap.memory ∧
      Value.MatchAll γ s.roots s.compact.roots ∧
      Enumerates refs (s.heap.memory.Reaches (· ∈ s.roots)) ∧
      s.compact.heap.used = s.heap.memory.total refs := by
  have leads : ∀ r, s.heap.memory.Leads (· ∈ s.roots) r ↔
      ∃ s', s.heap.memory.Reaches (· ∈ s.roots) s' r :=
    fun _ => leads_iff laid closed hroots
  have laid : Laid (s.heap.memory.Reaches (· ∈ s.roots)) s.heap.memory :=
    laid.mono fun h => h.subset closed hroots
  obtain ⟨φ, order, compaction⟩ := s.compact_spec (laid.scattered.mono (leads _).mp) small
  have enumerates := compaction.breadthFirst.lists.enumerates leads
  refine ⟨_, order, compaction.replica.iso laid (Reaches.closed _ _) enumerates.mem_iff,
    ?_, enumerates, compaction.replica.size.trans (Nat.zero_add _)⟩
  rw [compaction.roots_eq]
  refine ⟨(Array.size_map).symm, fun i v w hv hw => ?_⟩
  rw [Array.getElem?_map, hv] at hw
  cases hw
  refine Value.match_relocate fun s' r heq => .root (heq ▸ ?_)
  exact Array.mem_of_getElem? hv

/-! ## Making room -/

/-- A heap is filled no further than it may be. -/
structure Heap.Bounded (h : Heap) : Prop where
  used_le : h.used ≤ h.capacity
  capacity_le : h.capacity ≤ h.maxCapacity
  max_le : h.maxCapacity ≤ Heap.sizeLimit

theorem Heap.Bounded.used_le_limit {h : Heap} (b : h.Bounded) : h.used ≤ Heap.sizeLimit :=
  Nat.le_trans b.used_le (Nat.le_trans b.capacity_le b.max_le)

theorem Heap.Bounded.create (initial max : Nat) : (Heap.create initial max).Bounded :=
  ⟨Nat.zero_le _, Nat.min_le_right _ _, Nat.min_le_right _ _⟩

/-- The capacity that suits what is live is that of a bounded heap, and as much as is asked for
unless the heap must not grow so far. -/
theorem Heap.Bounded.grownCapacity {h : Heap} (bounded : h.Bounded) {live : Nat}
    (hlive : live ≤ h.used) (request : Nat) :
    live ≤ h.grownCapacity live request ∧ h.grownCapacity live request ≤ h.maxCapacity ∧
      (h.grownCapacity live request < live + request ↔ h.maxCapacity < live + request) := by
  have hused := bounded.used_le
  have hcapacity := bounded.capacity_le
  rw [Heap.grownCapacity]
  omega

/-- What a collection for `request` bytes leaves, whether or not there is room for so many. -/
def Rooted.collected (s : Rooted) (request : Nat) : Rooted :=
  { s.compact with
    heap := { s.compact.heap with capacity := s.heap.grownCapacity s.compact.heap.used request } }

theorem RootedM.collect_eq (s : Rooted) (request : Nat) :
    collect request s =
      if s.heap.grownCapacity s.compact.heap.used request < s.compact.heap.used + request then
        .error (.outOfMemory request s.heap.maxCapacity) (s.collected request)
      else .ok () (s.collected request) := rfl

end ActorMachine
