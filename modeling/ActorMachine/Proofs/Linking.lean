import ActorMachine.Proofs.Loaders
import ActorMachine.Proofs.Stowing

/-!
# Linked code refers to what is there

However chunks are loaded and natives are registered (`Loader.Built`), what the code that is loaded
hands out is there: imports stand for prototypes and natives that exist, and so do the positions of
nested prototypes (`Loader.Coherent`). It stays there, because a loader only grows (`Loader.Grows`).

Positions are kept in 32 bits. A chunk so far behind that its number does not fit can import what is
not there, but no reference leads to its code.
-/

namespace ActorMachine

/-! ## The list of a tree -/

namespace Prototype

mutual

theorem length_flatten : (start : Nat) → (p : Prototype) → (p.flatten start).length = p.treeSize
  | start, ⟨source, symbol, code, constants, imports, nested⟩ => by
    rw [flatten, treeSize, List.length_cons, length_flattenForest (start + 1) nested, Nat.add_comm]

theorem length_flattenForest : (start : Nat) → (ps : List Prototype) →
    (flattenForest start ps).length = forestSize ps
  | _, [] => by
    rw [flattenForest, forestSize, List.length_nil]
  | start, p :: ps => by
    rw [flattenForest, forestSize, List.length_append, length_flatten start p,
      length_flattenForest (start + p.treeSize) ps]

end

theorem treeSize_pos (p : Prototype) : 0 < p.treeSize := by
  cases p
  rw [treeSize]
  omega

/-- The roots of some trees are among their prototypes. -/
theorem rootPositions_lt (start : Nat) (ps : List Prototype) :
    ∀ position ∈ rootPositions start ps, position < start + forestSize ps := by
  induction ps generalizing start with
  | nil =>
    intro position hposition
    simp [rootPositions] at hposition
  | cons p ps ih =>
    intro position hposition
    have hpos := p.treeSize_pos
    rw [forestSize]
    rw [rootPositions, List.mem_cons] at hposition
    cases hposition with
    | inl heq => omega
    | inr hlater =>
      have := ih _ position hlater
      omega

mutual

/-- Nested prototypes are in the list of the tree. -/
theorem nested_flatten_lt : (start : Nat) → (p : Prototype) → ∀ flat ∈ p.flatten start,
    ∀ position ∈ flat.nested, position < start + p.treeSize
  | start, ⟨source, symbol, code, constants, imports, nested⟩ => by
    intro flat hflat position hposition
    rw [flatten, List.mem_cons] at hflat
    rw [treeSize]
    cases hflat with
    | inl hroot =>
      rw [hroot] at hposition
      have := rootPositions_lt (start + 1) nested position hposition
      omega
    | inr hnested =>
      have := nested_flattenForest_lt (start + 1) nested flat hnested position hposition
      omega

theorem nested_flattenForest_lt : (start : Nat) → (ps : List Prototype) →
    ∀ flat ∈ flattenForest start ps, ∀ position ∈ flat.nested, position < start + forestSize ps
  | start, [] => by
    intro flat hflat
    simp [flattenForest] at hflat
  | start, p :: ps => by
    intro flat hflat position hposition
    rw [flattenForest, List.mem_append] at hflat
    rw [forestSize]
    cases hflat with
    | inl hfirst =>
      have := nested_flatten_lt start p flat hfirst position hposition
      omega
    | inr hrest =>
      have := nested_flattenForest_lt (start + p.treeSize) ps flat hrest position hposition
      omega

end

/-- Under a name is the last prototype of this name that has been entered, or what has been there
before. -/
theorem find?_enterAll (d : Directory) (items : List (Prototype × Nat)) (name : String) :
    (enterAll d items).find? name =
      if name = "" then d.find? name
      else ((items.findRev? fun x => x.1.symbol == name).map (·.2)).or (d.find? name) := by
  induction items generalizing d with
  | nil => exact (ite_self _).symm
  | cons x items ih =>
    obtain ⟨p, position⟩ := x
    show (enterAll (if p.symbol = "" then d else d.enter p.symbol position) items).find? name = _
    rw [ih, List.findRev?]
    by_cases hname : name = ""
    · rw [if_pos hname, if_pos hname]
      split
      · rfl
      · next hsymbol => rw [Directory.find?_enter, if_neg fun heq => hsymbol (heq.trans hname)]
    · rw [if_neg hname, if_neg hname]
      cases items.findRev? fun x => x.1.symbol == name with
      | some y => rfl
      | none =>
        by_cases hsame : p.symbol = name
        · rw [if_neg (hsame ▸ hname), Directory.find?_enter, if_pos hsame]
          simp only [beq_iff_eq.mpr hsame]
          rfl
        · have hfind : (if p.symbol = "" then d else d.enter p.symbol position).find? name =
              d.find? name := by
            split
            · rfl
            · rw [Directory.find?_enter, if_neg hsame]
          rw [hfind, beq_eq_false_iff_ne.mpr hsame]
          rfl

/-- A module exports the last prototype of a name that is nested directly in it, and nothing under
the empty name. -/
theorem find?_exports (m : Prototype) (name : String) :
    m.exports.find? name = if name = "" then none
      else ((m.nested.zip (rootPositions 1 m.nested)).findRev? fun x =>
        x.1.symbol == name).map (·.2) := by
  rw [exports, find?_enterAll, Directory.find?_empty, Option.or_none]

/-- What a module exports is in its list. -/
theorem lt_of_find?_exports {m : Prototype} {name : String} {position : Nat}
    (h : m.exports.find? name = some position) : position < m.treeSize := by
  rw [find?_exports] at h
  split at h
  · cases h
  · obtain ⟨found, hfound, rfl⟩ := Option.map_eq_some_iff.mp h
    have hmem : found ∈ m.nested.zip (rootPositions 1 m.nested) := by
      rw [List.findRev?_eq_find?_reverse] at hfound
      exact List.mem_reverse.mp (List.mem_of_find?_eq_some hfound)
    have hlt := rootPositions_lt 1 m.nested found.2 (List.of_mem_zip hmem).2
    cases m
    rw [treeSize]
    exact hlt

end Prototype

namespace Loader

/-! ## What resolves -/

/-- There is something behind the value: code behind a function, an entry behind a native. -/
inductive Resolves (l : Loader) : Value → Prop
  | function {f : FuncRef} {p : LinkedPrototype} (code : l.prototype f = .ok p) :
    Resolves l (.function f)
  | native {id : UInt32} {entry : NativeEntry} (found : l.natives.get? id.toNat = some entry) :
    Resolves l (.native id)

/-- All code and all natives that are there stay there. -/
structure Grows (l l' : Loader) : Prop where
  prototype : ∀ {f p}, l.prototype f = .ok p → l'.prototype f = .ok p
  natives : l.natives.size ≤ l'.natives.size

variable {l l' : Loader}

theorem Resolves.of_lt {id : Nat} (h : id < l.natives.size) :
    l.Resolves (.native (UInt32.ofNat id)) := by
  have hlt : (UInt32.ofNat id).toNat < l.natives.entries.size := by
    rw [UInt32.toNat_ofNat']
    exact Nat.lt_of_le_of_lt (Nat.mod_le _ _) h
  exact .native (Array.getElem?_eq_getElem hlt)

/-- A position that is cut to 32 bits leads to code all the same, though maybe to other code. -/
theorem Resolves.of_position {chunk : LinkedChunk} {number : UInt32} {position : Nat}
    (hchunk : l.chunks[number.toNat]? = some chunk) (hposition : position < chunk.prototypes.size) :
    l.Resolves (.function ⟨number, UInt32.ofNat position⟩) := by
  have hlt : (UInt32.ofNat position).toNat < chunk.prototypes.size := by
    rw [UInt32.toNat_ofNat']
    exact Nat.lt_of_le_of_lt (Nat.mod_le _ _) hposition
  refine .function (p := chunk.prototypes[(UInt32.ofNat position).toNat]) ?_
  unfold prototype
  simp only [hchunk, Array.getElem?_eq_getElem hlt]

theorem Resolves.grow {v : Value} (h : l.Resolves v) (grows : l.Grows l') : l'.Resolves v := by
  cases h with
  | function code => exact .function (grows.prototype code)
  | @native id entry found =>
    have hlt : id.toNat < l'.natives.entries.size :=
      Nat.lt_of_lt_of_le (Array.getElem?_eq_some_iff.mp found).1 grows.natives
    exact .native (Array.getElem?_eq_getElem hlt)

theorem Extends.grows (step : l.Extends l') : l.Grows l' where
  prototype := step.prototype
  natives := by
    cases step with
    | loadChunk run =>
      obtain ⟨new, hloader, -⟩ := exists_of_loadChunk run
      rw [hloader]
      exact Nat.le_refl _
    | register module name builtin =>
      unfold Loader.register Registry.register
      cases l.natives.lookup module name with
      | none =>
        exact Nat.le_of_lt (Nat.lt_of_lt_of_eq (Nat.lt_succ_self _) (Array.size_push _).symm)
      | some id => exact Nat.le_of_eq (Array.size_setIfInBounds).symm
    | report => exact Nat.le_refl _

/-! ## Coherent loaders -/

/-- What loaded code hands out is there, and so is what is found under a name. Imports matter only
of chunks whose numbers fit into 32 bits. -/
structure Coherent (l : Loader) : Prop where
  inlined : l.Inlined
  imports : ∀ (number : UInt32) (chunk : LinkedChunk), l.chunks[number.toNat]? = some chunk →
    ∀ p ∈ chunk.prototypes, ∀ v ∈ p.imports, v.Vouched l.Resolves
  nested : ∀ chunk ∈ l.chunks, ∀ p ∈ chunk.prototypes, ∀ position ∈ p.nested,
    position < chunk.prototypes.size
  modules : ∀ name number, l.modules.find? name = some number → number < UInt32.size
  exports : ∀ chunk ∈ l.chunks, ∀ name position, chunk.exports.find? name = some position →
    position < chunk.prototypes.size

/-- The function that a module exports is there. -/
theorem Coherent.resolves_of_find? (coherent : l.Coherent) {module name : String} {f : FuncRef}
    (h : l.find? module name = some f) : l.Resolves (.function f) := by
  unfold find? at h
  obtain ⟨number, hnumber, h⟩ := Option.bind_eq_some_iff.mp h
  obtain ⟨chunk, hchunk, h⟩ := Option.bind_eq_some_iff.mp h
  obtain ⟨position, hposition, h⟩ := Option.bind_eq_some_iff.mp h
  cases h
  rw [← UInt32.toNat_ofNat_of_lt' (coherent.modules module number hnumber)] at hchunk
  exact .of_position hchunk
    (coherent.exports chunk (Array.mem_of_getElem? hchunk) name position hposition)

/-- What an import stands for is there as soon as the chunk is. -/
theorem Coherent.resolves_of_resolve? (coherent : l.Coherent) {own : Prototype} {i : Import}
    {v : Value} {chunk : LinkedChunk} (h : l.resolve? own i = some v)
    (number : l.chunks.size < 2 ^ 32) (size : chunk.prototypes.size = own.treeSize)
    (grows : l.Grows (l.add chunk)) :
    (l.add chunk).Resolves v := by
  unfold resolve? at h
  split at h
  · rename_i id hid
    cases h
    refine Resolves.grow (.of_lt ?_) grows
    exact (Array.findIdx?_eq_some_iff_getElem.mp hid).1
  · split at h
    · obtain ⟨position, hposition, rfl⟩ := Option.map_eq_some_iff.mp h
      have hchunk : (l.add chunk).chunks[(UInt32.ofNat l.chunks.size).toNat]? = some chunk := by
        rw [UInt32.toNat_ofNat', Nat.mod_eq_of_lt number]
        exact Array.getElem?_push_size
      exact .of_position hchunk (size ▸ Prototype.lt_of_find?_exports hposition)
    · obtain ⟨f, hf, rfl⟩ := Option.map_eq_some_iff.mp h
      exact (coherent.resolves_of_find? hf).grow grows

theorem Coherent.loadChunk (h : l.Coherent) {c : Chunk} {loaded : Loaded}
    (run : l.loadChunk c = .ok loaded) : loaded.loader.Coherent := by
  have grows := (Extends.loadChunk run).grows
  have inlined := h.inlined.extend (.loadChunk run)
  obtain ⟨chunk, hloader, hexports, hlinked⟩ := exists_of_loadChunk run
  rw [hloader] at grows inlined ⊢
  have hsize : chunk.prototypes.size = c.module.treeSize := by
    rw [← Array.length_toList, ← hlinked.length_eq, Prototype.length_flatten]
  refine ⟨inlined, fun number chunk' hchunk' p hp v hv => ?_,
    fun chunk' hchunk' p hp position => ?_,
    fun name number hnumber => ?_, fun chunk' hchunk' name position hposition => ?_⟩
  · change (l.chunks.push chunk)[number.toNat]? = some chunk' at hchunk'
    by_cases hold : number.toNat < l.chunks.size
    · rw [Array.getElem?_push_lt hold, ← Array.getElem?_eq_getElem] at hchunk'
      exact (h.imports number chunk' hchunk' p hp v hv).mono fun _ hres => hres.grow grows
    · -- The new chunk.
      have hlt := (Array.getElem?_eq_some_iff.mp hchunk').1
      rw [Array.size_push] at hlt
      have hnumber : number.toNat = l.chunks.size := by omega
      rw [hnumber, Array.getElem?_push_size] at hchunk'
      cases hchunk'
      obtain ⟨flat, -, hflat⟩ := exists_of_linked hlinked hp
      cases (of_link hflat).2 v hv with
      | inl hnil =>
        rw [hnil]
        exact nofun
      | inr hresolve =>
        obtain ⟨i, hi⟩ := hresolve
        exact fun _ => h.resolves_of_resolve? hi (hnumber ▸ number.toNat_lt) hsize grows
  · cases Array.mem_push.mp hchunk' with
    | inl hold => exact h.nested chunk' hold p hp position
    | inr heq =>
      subst heq
      obtain ⟨flat, hmem, hflat⟩ := exists_of_linked hlinked hp
      rw [(of_link hflat).1, List.mem_toArray, hsize]
      intro hposition
      have := Prototype.nested_flatten_lt 0 c.module flat hmem position hposition
      omega
  · change (l.modules.enter chunk.name (l.chunks.size % UInt32.size)).find? name =
      some number at hnumber
    rw [Directory.find?_enter] at hnumber
    split at hnumber
    · cases hnumber
      exact Nat.mod_lt _ (by decide)
    · exact h.modules name number hnumber
  · cases Array.mem_push.mp hchunk' with
    | inl hold => exact h.exports chunk' hold name position hposition
    | inr heq =>
      rw [heq, hexports] at hposition
      rw [heq, hsize]
      exact Prototype.lt_of_find?_exports hposition

/-- A loader that still has the same chunks is coherent if it finds as much as before. -/
theorem Coherent.of_chunks (h : l.Coherent) (grows : l.Grows l') (chunks : l'.chunks = l.chunks)
    (modules : l'.modules = l.modules) : l'.Coherent := by
  refine ⟨?_, fun number chunk hchunk p hp v hv => ?_, ?_, ?_, ?_⟩
  · unfold Inlined
    rw [chunks]
    exact h.inlined
  · rw [chunks] at hchunk
    exact (h.imports number chunk hchunk p hp v hv).mono fun _ hres => hres.grow grows
  · rw [chunks]
    exact h.nested
  · rw [modules]
    exact h.modules
  · rw [chunks]
    exact h.exports

theorem Coherent.extend (h : l.Coherent) (step : l.Extends l') : l'.Coherent := by
  have grows := step.grows
  cases step with
  | loadChunk run => exact h.loadChunk run
  | register | report => exact h.of_chunks grows rfl rfl

theorem Built.coherent (built : l.Built) : l.Coherent := by
  induction built with
  | create natives policy =>
    refine ⟨?_, ?_, ?_, ?_, ?_⟩ <;> simp [Inlined, Loader.create, Directory.find?_empty]
  | extend _ step ih => exact ih.extend step

/-- Where everything resolves that a program is given, it is handed nothing that does not, and finds
all that it calls. -/
theorem Coherent.backs (h : l.Coherent) : l.Backs l.Resolves False where
  inline := h.inlined.inline
  imports hp v hv := by
    obtain ⟨chunk, hchunk, hp⟩ := exists_of_prototype hp
    exact h.imports _ chunk hchunk _ (Array.mem_of_getElem? hp) v hv
  nested hp position hposition := by
    obtain ⟨chunk, hchunk, hp⟩ := exists_of_prototype hp
    exact .of_position hchunk
      (h.nested chunk (Array.mem_of_getElem? hchunk) _
        (Array.mem_of_getElem? hp) position hposition)
  function hf he := by
    cases hf with
    | function code =>
      rw [code] at he
      cases he
  native hid hnone := by
    cases hid with
    | native found =>
      rw [hnone] at found
      cases found

end Loader

end ActorMachine
