import ActorMachine.Proofs.Preorder

/-!
# What imports stand for

Modules are loaded one after the other (`Loader.Loads`), and what an import stands for depends on
the natives and on these modules only (`Import.Meaning`). `Loader.Loads.linking` says what loading
one more module comes to: when it succeeds, and what the chunk holds then, which is the tree of the
module with all imports resolved. The directories of the loader and of its chunks are always in step
with the chunks (`Loader.InStep`).

A reference numbers chunks and prototypes in 32 bits. So what is said of references is said of
modules whose numbers fit.
-/

namespace ActorMachine

open Prototype

/-- What an import of the module `own` stands for where `trees` have been loaded: a native of this
name, or else what the module of this name exports. That may be the module itself, whose chunk comes
next. -/
inductive Import.Meaning (natives : Registry) (trees : List Prototype) (own : Prototype)
    (i : Import) : Value → Prop
  | native {id : Nat} (found : natives.lookup i.module i.name = some id) :
    Meaning natives trees own i (.native (UInt32.ofNat id))
  | own {child : Prototype} {position : Nat} (free : natives.lookup i.module i.name = none)
    (self : i.module = own.symbol) (exports : own.Exports i.name child position) :
    Meaning natives trees own i (.function (Loader.funcRef trees.length position))
  | earlier {k position : Nat} {tree child : Prototype}
    (free : natives.lookup i.module i.name = none) (other : i.module ≠ own.symbol)
    (there : trees[k]? = some tree) (name : tree.symbol = i.module)
    (exports : tree.Exports i.name child position) :
    Meaning natives trees own i (.function (Loader.funcRef k position))

namespace Loader

variable {l : Loader} {own : Prototype}

/-! ## Linking the imports -/

/-- What an import becomes: what it stands for, or nil if it stands for nothing and this is
reported. -/
def Becomes (l : Loader) (own : Prototype) (i : Import) (v : Value) : Prop :=
  l.resolve? own i = some v ∨ (l.policy = .report ∧ l.resolve? own i = none ∧ v = .nil)

/-- The imports that stand for nothing. -/
def lacks (l : Loader) (own : Prototype) (i : Import) : Bool :=
  (l.resolve? own i).isNone

theorem linkImports_cons (l : Loader) (own : Prototype) (i : Import) (imports : List Import) :
    (∃ v, l.Becomes own i v ∧ l.linkImports own (i :: imports) =
      (l.linkImports own imports).map (v :: ·)) ∧ (l.policy = .refuse → l.lacks own i = false) ∨
    (l.policy = .refuse ∧ l.lacks own i = true ∧
      l.linkImports own (i :: imports) = .error (.unresolved i)) := by
  rw [linkImports, lacks]
  unfold Becomes
  cases hi : l.resolve? own i with
  | some v =>
    refine .inl ⟨⟨v, .inl rfl, ?_⟩, fun _ => rfl⟩
    cases l.linkImports own imports <;> rfl
  | none =>
    cases hp : l.policy with
    | refuse => exact .inr ⟨rfl, rfl, rfl⟩
    | report =>
      refine .inl ⟨⟨.nil, .inr ⟨rfl, rfl, rfl⟩, ?_⟩, nofun⟩
      cases l.linkImports own imports <;> rfl

theorem forall₂_of_linkImports {imports : List Import} {values : List Value}
    (h : l.linkImports own imports = .ok values) : List.Forall₂ (l.Becomes own) imports values := by
  induction imports generalizing values with
  | nil =>
    cases h
    exact .nil
  | cons i imports ih =>
    rcases linkImports_cons l own i imports with ⟨⟨v, hv, heq⟩, -⟩ | ⟨-, -, heq⟩
    · rw [heq] at h
      cases hvs : l.linkImports own imports with
      | error e =>
        rw [hvs] at h
        cases h
      | ok vs =>
        rw [hvs] at h
        cases h
        exact .cons hv (ih hvs)
    · rw [heq] at h
      cases h

/-- Linking fails at the first import that stands for nothing, unless this is only reported. -/
theorem linkImports_eq_error_iff {imports : List Import} {e : LoadError} :
    l.linkImports own imports = .error e ↔
      l.policy = .refuse ∧ ∃ i, imports.find? (l.lacks own) = some i ∧ e = .unresolved i := by
  induction imports with
  | nil => simp [linkImports]
  | cons i imports ih =>
    rcases linkImports_cons l own i imports with ⟨⟨v, -, heq⟩, hlacks⟩ | ⟨hp, hlacks, heq⟩
    · have hsame : l.linkImports own (i :: imports) = .error e ↔
          l.linkImports own imports = .error e := by
        rw [heq]
        cases l.linkImports own imports <;> simp [Except.map]
      rw [hsame, ih]
      refine and_congr_right fun hp => ?_
      rw [List.find?_cons_of_neg (by rw [hlacks hp]; simp)]
    · rw [heq, List.find?_cons_of_pos hlacks]
      constructor
      · intro h
        cases h
        exact ⟨hp, i, rfl, rfl⟩
      · rintro ⟨-, j, hj, rfl⟩
        cases hj
        rfl

theorem exists_of_link {flat : FlatPrototype} {q : LinkedPrototype} (h : l.link own flat = .ok q) :
    q.Carries flat.prototype ∧ q.nested = flat.nested.toArray ∧
      List.Forall₂ (l.Becomes own) flat.prototype.imports q.imports.toList := by
  obtain ⟨values, hvalues, h⟩ := exists_of_bind_ok h
  cases h
  exact ⟨⟨rfl, rfl, rfl, rfl⟩, rfl, by
    rw [List.toList_toArray]; exact forall₂_of_linkImports hvalues⟩

theorem link_eq_error_iff {flat : FlatPrototype} {e : LoadError} :
    l.link own flat = .error e ↔ l.linkImports own flat.prototype.imports = .error e := by
  unfold link
  cases h : l.linkImports own flat.prototype.imports <;>
    simp [h, bind, Except.bind, pure, Except.pure]

theorem mapM_link_eq_error_iff {flats : List FlatPrototype} {e : LoadError} :
    flats.mapM (l.link own) = .error e ↔ l.policy = .refuse ∧
      ∃ i, (flats.flatMap (·.prototype.imports)).find? (l.lacks own) = some i ∧
        e = .unresolved i := by
  induction flats with
  | nil => simp [pure, Except.pure]
  | cons flat flats ih =>
    rw [List.mapM_cons, List.flatMap_cons, List.find?_append]
    cases hfirst : l.link own flat with
    | error e' =>
      obtain ⟨hp, i, hi, rfl⟩ := linkImports_eq_error_iff.mp (link_eq_error_iff.mp hfirst)
      rw [hi]
      constructor
      · intro h
        cases h
        exact ⟨hp, i, rfl, rfl⟩
      · rintro ⟨-, j, hj, rfl⟩
        cases hj
        rfl
    | ok q =>
      have hrest : (do let x ← (Except.ok q : Except LoadError LinkedPrototype)
                       let xs ← flats.mapM (l.link own)
                       pure (x :: xs)) = .error e ↔ flats.mapM (l.link own) = .error e := by
        cases flats.mapM (l.link own) <;> simp [bind, Except.bind, pure, Except.pure]
      rw [hrest, ih]
      refine and_congr_right fun hp => ?_
      have hnone : flat.prototype.imports.find? (l.lacks own) = none := by
        rw [Option.eq_none_iff_forall_ne_some]
        intro i hi
        have := link_eq_error_iff.mpr (linkImports_eq_error_iff.mpr ⟨hp, i, hi, rfl⟩)
        rw [hfirst] at this
        cases this
      rw [hnone, Option.none_or]

/-! ## What has been loaded -/

/-- The loaders that there are, with the modules that they have loaded in order. In between, natives
may be registered and it may be decided that imports which stand for nothing are only reported. -/
inductive Loads : List Prototype → Loader → Prop
  | create (natives : Registry) (policy : UnresolvedPolicy) : Loads [] (.create natives policy)
  | loadChunk {trees : List Prototype} {l : Loader} {c : Chunk} {loaded : Loaded}
    (loads : Loads trees l)
    (run : l.loadChunk c = .ok loaded) : Loads (trees ++ [c.module]) loaded.loader
  | register {trees : List Prototype} {l : Loader} (loads : Loads trees l) (module name : String)
    (builtin : Builtin) : Loads trees (l.register module name builtin)
  | report {trees : List Prototype} {l : Loader} (loads : Loads trees l) :
    Loads trees l.reportUnresolved

/-- The chunks spell out the modules that have been loaded, no two of which have one name, and the
directory has their numbers under these names. -/
structure Holds (trees : List Prototype) (l : Loader) : Prop where
  size : l.chunks.size = trees.length
  spells : ∀ (k : Nat) tree, trees[k]? = some tree →
    ∃ chunk : LinkedChunk, l.chunks[k]? = some chunk ∧ chunk.Spells tree
  distinct : (trees.map (·.symbol)).Nodup
  modules : ∀ name number, l.modules.find? name = some number ↔
    ∃ (k : Nat) (tree : Prototype), trees[k]? = some tree ∧ tree.symbol = name ∧
      number = k % UInt32.size

/-- The directories are in step with the chunks: the loader has the number of every chunk under its
name, and every chunk has under a name the last prototype of this name directly below its first
one. -/
structure InStep (l : Loader) : Prop where
  modules : ∀ name number, l.modules.find? name = some number ↔
    ∃ (k : Nat) (chunk : LinkedChunk), l.chunks[k]? = some chunk ∧ chunk.name = name ∧
      number = k % UInt32.size
  exports : ∀ chunk ∈ l.chunks, ∀ name, chunk.exports.find? name = chunk.lastChild? name

variable {trees : List Prototype}

namespace Holds

theorem exists_tree (h : l.Holds trees) {k : Nat} {chunk : LinkedChunk}
    (hchunk : l.chunks[k]? = some chunk) :
    ∃ tree, trees[k]? = some tree ∧ chunk.Spells tree := by
  have hk := (Array.getElem?_eq_some_iff.mp hchunk).1
  rw [h.size] at hk
  obtain ⟨chunk', hchunk', spells⟩ := h.spells k _ (List.getElem?_eq_getElem hk)
  rw [hchunk] at hchunk'
  cases hchunk'
  exact ⟨_, List.getElem?_eq_getElem hk, spells⟩

theorem unique (h : l.Holds trees) {j k : Nat} {tree tree' : Prototype} (hj : trees[j]? = some tree)
    (hk : trees[k]? = some tree') (heq : tree.symbol = tree'.symbol) : j = k := by
  obtain ⟨hj', rfl⟩ := List.getElem?_eq_some_iff.mp hj
  obtain ⟨hk', rfl⟩ := List.getElem?_eq_some_iff.mp hk
  have hj : j < (trees.map (·.symbol)).length := by rwa [List.length_map]
  have hk : k < (trees.map (·.symbol)).length := by rwa [List.length_map]
  have same : (trees.map (·.symbol))[j] = (trees.map (·.symbol))[k] := by
    rw [List.getElem_map, List.getElem_map]
    exact heq
  exact h.distinct.getElem_inj_iff.mp same

theorem inStep (h : l.Holds trees) : l.InStep where
  modules name number := by
    rw [h.modules]
    constructor
    · rintro ⟨k, tree, htree, hname, rfl⟩
      obtain ⟨chunk, hchunk, spells⟩ := h.spells k tree htree
      exact ⟨k, chunk, hchunk, spells.name.trans hname, rfl⟩
    · rintro ⟨k, chunk, hchunk, hname, rfl⟩
      obtain ⟨tree, htree, spells⟩ := h.exists_tree hchunk
      exact ⟨k, tree, htree, spells.name.symm.trans hname, rfl⟩
  exports chunk hchunk name := by
    obtain ⟨k, hk⟩ := Array.mem_iff_getElem?.mp hchunk
    obtain ⟨tree, -, spells⟩ := h.exists_tree hk
    exact (spells.lastChild?_eq name).symm

theorem isSome_find?_modules_iff (h : l.Holds trees) {name : String} :
    (l.modules.find? name).isSome ↔ name ∈ trees.map (·.symbol) := by
  rw [Option.isSome_iff_exists, List.mem_map]
  simp only [h.modules]
  constructor
  · rintro ⟨_, k, tree, htree, hname, -⟩
    exact ⟨tree, List.mem_of_getElem? htree, hname⟩
  · rintro ⟨tree, htree, hname⟩
    obtain ⟨k, hk⟩ := List.mem_iff_getElem?.mp htree
    exact ⟨_, k, tree, hk, hname, rfl⟩

/-- A module that has been loaded is found, as long as its number fits. -/
theorem find?_eq_some_iff (h : l.Holds trees) (number : trees.length ≤ UInt32.size)
    {module name : String}
    {f : FuncRef} : l.find? module name = some f ↔ ∃ k tree child position, trees[k]? = some tree ∧
      tree.symbol = module ∧ tree.Exports name child position ∧ f = funcRef k position := by
  have fits : ∀ {k tree}, trees[k]? = some tree → k % UInt32.size = k := fun hk =>
    Nat.mod_eq_of_lt (Nat.lt_of_lt_of_le (List.getElem?_eq_some_iff.mp hk).1 number)
  unfold find?
  constructor
  · intro hf
    obtain ⟨number, hnumber, hf⟩ := Option.bind_eq_some_iff.mp hf
    obtain ⟨k, tree, htree, hname, rfl⟩ := (h.modules module number).mp hnumber
    rw [fits htree] at hf
    obtain ⟨chunk, hchunk, spells⟩ := h.spells k tree htree
    obtain ⟨chunk', hchunk', hf⟩ := Option.bind_eq_some_iff.mp hf
    rw [hchunk] at hchunk'
    cases hchunk'
    obtain ⟨position, hposition, hf⟩ := Option.bind_eq_some_iff.mp hf
    rw [spells.exports] at hposition
    obtain ⟨child, hchild⟩ := find?_exports_eq_some_iff.mp hposition
    exact ⟨k, tree, child, position, htree, hname, hchild, (Option.some.inj hf).symm⟩
  · rintro ⟨k, tree, child, position, htree, hname, exports, rfl⟩
    obtain ⟨chunk, hchunk, spells⟩ := h.spells k tree htree
    have hexported : chunk.exports.find? name = some position := by
      rw [spells.exports]
      exact find?_exports_eq_some_iff.mpr ⟨child, exports⟩
    rw [(h.modules module k).mpr ⟨k, tree, htree, hname, (fits htree).symm⟩]
    show (l.chunks[k]?).bind _ = _
    rw [hchunk]
    show (chunk.exports.find? name).bind _ = _
    rw [hexported]
    rfl

/-- What an import stands for is found. -/
theorem resolve?_eq_some_iff (h : l.Holds trees) (number : trees.length ≤ UInt32.size) {i : Import}
    {v : Value} :
    l.resolve? own i = some v ↔ i.Meaning l.natives trees own v := by
  unfold resolve?
  cases hnative : l.natives.lookup i.module i.name with
  | some id =>
    constructor
    · intro hv
      cases hv
      exact .native hnative
    · intro meaning
      cases meaning with
      | native found =>
        rw [hnative] at found
        cases found
        rfl
      | own free | earlier free =>
        rw [hnative] at free
        cases free
  | none =>
    by_cases hself : i.module = own.symbol
    · simp only [if_pos hself, Option.map_eq_some_iff]
      constructor
      · rintro ⟨position, hposition, rfl⟩
        obtain ⟨child, exports⟩ := find?_exports_eq_some_iff.mp hposition
        rw [h.size]
        exact .own hnative hself exports
      · intro meaning
        cases meaning with
        | native found =>
          rw [hnative] at found
          cases found
        | own _ _ exports => exact ⟨_, find?_exports_eq_some_iff.mpr ⟨_, exports⟩, by rw [h.size]⟩
        | earlier _ other => exact absurd hself other
    · simp only [if_neg hself, Option.map_eq_some_iff, h.find?_eq_some_iff number]
      constructor
      · rintro ⟨_, ⟨k, tree, child, position, htree, hname, exports, rfl⟩, rfl⟩
        exact .earlier hnative hself htree hname exports
      · intro meaning
        cases meaning with
        | native found =>
          rw [hnative] at found
          cases found
        | own _ self => exact absurd self hself
        | earlier _ _ htree hname exports =>
          exact ⟨_, ⟨_, _, _, _, htree, hname, exports, rfl⟩, rfl⟩

theorem lacks_eq_true_iff (h : l.Holds trees) (number : trees.length ≤ UInt32.size) {i : Import} :
    l.lacks own i = true ↔ ∀ v, ¬i.Meaning l.natives trees own v := by
  rw [lacks, Option.isNone_iff_eq_none, Option.eq_none_iff_forall_ne_some]
  exact forall_congr' fun v => not_congr (h.resolve?_eq_some_iff number)

end Holds

/-! ## Loading one more module -/

theorem loadChunk_eq (l : Loader) (c : Chunk) : l.loadChunk c =
    if (l.modules.find? c.module.symbol).isSome then .error (.duplicateModule c.module.symbol)
    else ((c.module.flatten 0).mapM (l.link c.module)).map fun prototypes =>
      { loader := l.add ⟨c.module.symbol, prototypes.toArray, c.module.exports⟩
        index := l.chunks.size
        unresolved := (c.module.preorder.flatMap (·.imports)).filter (l.lacks c.module) } := by
  have himports : ((c.module.flatten 0).flatMap fun f =>
      f.prototype.imports.filter fun i => (l.resolve? c.module i).isNone) =
      (c.module.preorder.flatMap (·.imports)).filter (l.lacks c.module) := by
    rw [← map_flatten 0, List.flatMap_map, List.filter_flatMap]
    rfl
  unfold loadChunk
  dsimp only
  by_cases duplicate : (l.modules.find? c.module.symbol).isSome
  · rw [if_pos duplicate, if_pos duplicate]
    rfl
  · rw [if_neg duplicate, if_neg duplicate, ← himports]
    cases (c.module.flatten 0).mapM (l.link c.module) <;> rfl

theorem exists_getElem?_of_forall₂ {α β : Type} {R : α → β → Prop} {xs : List α} {ys : List β}
    (h : List.Forall₂ R xs ys) {k : Nat} {x : α} (hx : xs[k]? = some x) :
    ∃ y, ys[k]? = some y ∧ R x y := by
  induction h generalizing k with
  | nil => cases hx
  | cons hxy _ ih =>
    cases k with
    | zero =>
      cases hx
      exact ⟨_, rfl, hxy⟩
    | succ k => exact ih hx

/-- What has been linked spells out the module. -/
theorem spells_of_linked {ps : List LinkedPrototype}
    (h : List.Forall₂ (fun flat q => l.link own flat = .ok q) (own.flatten 0) ps) :
    LinkedChunk.Spells ⟨own.symbol, ps.toArray, own.exports⟩ own where
  name := rfl
  exports := rfl
  size := by
    show ps.toArray.size = _
    rw [List.size_toArray, ← h.length_eq, length_flatten]
  list k flat hflat := by
    obtain ⟨q, hq, hlink⟩ := exists_getElem?_of_forall₂ h hflat
    obtain ⟨hcarries, hnested, -⟩ := exists_of_link hlink
    refine ⟨q, ?_, hcarries, hnested⟩
    rw [Nat.zero_add, List.getElem?_toArray]
    exact hq

/-- The imports of each prototype have been linked in order. -/
theorem imports_of_linked {ps : List LinkedPrototype}
    (h : List.Forall₂ (fun flat q => l.link own flat = .ok q) (own.flatten 0) ps) {k : Nat}
    {p : Prototype} {q : LinkedPrototype} (hp : own.preorder[k]? = some p) (hq : ps[k]? = some q) :
    List.Forall₂ (l.Becomes own) p.imports q.imports.toList := by
  rw [← map_flatten 0, List.getElem?_map, Option.map_eq_some_iff] at hp
  obtain ⟨flat, hflat, rfl⟩ := hp
  obtain ⟨q', hq', hlink⟩ := exists_getElem?_of_forall₂ h hflat
  rw [hq] at hq'
  cases hq'
  exact (exists_of_link hlink).2.2

/-- What is known when a chunk has been loaded. -/
theorem loadChunk_eq_ok_iff {c : Chunk} {loaded : Loaded} : l.loadChunk c = .ok loaded ↔
    (l.modules.find? c.module.symbol).isSome = false ∧
      ∃ ps, (c.module.flatten 0).mapM (l.link c.module) = .ok ps ∧
        loaded = { loader := l.add ⟨c.module.symbol, ps.toArray, c.module.exports⟩
                   index := l.chunks.size
                   unresolved := (c.module.preorder.flatMap (·.imports)).filter
                     (l.lacks c.module) } := by
  rw [loadChunk_eq]
  cases (l.modules.find? c.module.symbol).isSome with
  | true => simp
  | false =>
    cases (c.module.flatten 0).mapM (l.link c.module) with
    | error e => simp [Except.map]
    | ok ps => simp [Except.map, eq_comm]

/-- What is in a list that has been extended was there before or is the new end. -/
theorem getElem?_concat_eq_some_iff {α : Type} {xs : List α} {x y : α} {k : Nat} :
    (xs ++ [x])[k]? = some y ↔ xs[k]? = some y ∨ k = xs.length ∧ x = y := by
  by_cases hk : k < xs.length
  · rw [List.getElem?_append_left hk]
    exact ⟨.inl, fun h => h.elim id fun h => absurd hk (by omega)⟩
  · rw [List.getElem?_append_right (by omega), List.getElem?_singleton,
      List.getElem?_eq_none (by omega)]
    split
    · exact ⟨fun h => .inr ⟨by omega, Option.some.inj h⟩, fun h => h.elim nofun fun h =>
        by rw [h.2]⟩
    · exact ⟨nofun, fun h => h.elim nofun fun h => absurd h.1 (by omega)⟩

theorem Holds.add (h : l.Holds trees) {m : Prototype} {chunk : LinkedChunk}
    (spells : chunk.Spells m) (fresh : m.symbol ∉ trees.map (·.symbol)) :
    (l.add chunk).Holds (trees ++ [m]) where
  size := by
    show (l.chunks.push chunk).size = _
    rw [Array.size_push, List.length_append, h.size]
    rfl
  spells k tree htree := by
    rcases getElem?_concat_eq_some_iff.mp htree with htree | ⟨rfl, rfl⟩
    · obtain ⟨old, hold, spells⟩ := h.spells k tree htree
      have hlt := (Array.getElem?_eq_some_iff.mp hold).1
      exact ⟨old, by
        rw [← hold]
        exact (Array.getElem?_push_lt hlt).trans (Array.getElem?_eq_getElem hlt).symm, spells⟩
    · exact ⟨chunk, by rw [← h.size]; exact Array.getElem?_push_size, spells⟩
  distinct := by
    rw [List.map_append, List.map_singleton]
    exact List.nodup_append.mpr ⟨h.distinct, List.nodup_singleton _, fun a ha b hb => by
      rw [List.mem_singleton.mp hb]
      exact fun heq => fresh (heq ▸ ha)⟩
  modules name number := by
    show (l.modules.enter chunk.name (l.chunks.size % UInt32.size)).find? name = some number ↔ _
    rw [Directory.find?_enter, spells.name, h.size]
    by_cases hname : m.symbol = name
    · rw [if_pos hname, Option.some.injEq]
      constructor
      · rintro rfl
        exact ⟨trees.length, m, List.getElem?_concat_length, hname, rfl⟩
      · rintro ⟨k, tree, htree, hsymbol, rfl⟩
        -- The name is new, so it is the new module that has it.
        rcases getElem?_concat_eq_some_iff.mp htree with htree | ⟨rfl, -⟩
        · exact absurd (List.mem_map.mpr ⟨tree, List.mem_of_getElem? htree,
            hsymbol.trans hname.symm⟩) fresh
        · rfl
    · rw [if_neg hname, h.modules]
      constructor
      · rintro ⟨k, tree, htree, h⟩
        exact ⟨k, tree, getElem?_concat_eq_some_iff.mpr (.inl htree), h⟩
      · rintro ⟨k, tree, htree, hsymbol, hk⟩
        rcases getElem?_concat_eq_some_iff.mp htree with htree | ⟨-, rfl⟩
        · exact ⟨k, tree, htree, hsymbol, hk⟩
        · exact absurd hsymbol hname

theorem Holds.loadChunk (h : l.Holds trees) {c : Chunk} {loaded : Loaded}
    (run : l.loadChunk c = .ok loaded) :
    loaded.loader.Holds (trees ++ [c.module]) := by
  obtain ⟨hfresh, ps, hps, rfl⟩ := loadChunk_eq_ok_iff.mp run
  refine h.add (spells_of_linked (forall₂_of_mapM hps)) fun hmem => ?_
  rw [h.isSome_find?_modules_iff.mpr hmem] at hfresh
  cases hfresh

theorem Loads.holds (loads : Loads trees l) : l.Holds trees := by
  induction loads with
  | create natives policy =>
    exact ⟨rfl, nofun, List.nodup_nil, fun name number => ⟨nofun, fun ⟨_, _, h, _⟩ => nomatch h⟩⟩
  | loadChunk _ run ih => exact ih.loadChunk run
  | register _ _ _ _ ih => exact ⟨ih.size, ih.spells, ih.distinct, ih.modules⟩
  | report _ ih => exact ⟨ih.size, ih.spells, ih.distinct, ih.modules⟩

/-- A reference whose numbers fit leads to the prototype. -/
theorem prototype_funcRef {k position : Nat} {chunk : LinkedChunk} {q : LinkedPrototype}
    (hk : k < UInt32.size) (hposition : position < UInt32.size) (hchunk : l.chunks[k]? = some chunk)
    (hq : chunk.prototypes[position]? = some q) : l.prototype (funcRef k position) = .ok q := by
  unfold prototype funcRef
  simp only [UInt32.toNat_ofNat_of_lt' hk, UInt32.toNat_ofNat_of_lt' hposition, hchunk, hq]

/-- What loading the module `m` after `trees` comes to. -/
structure Links (trees : List Prototype) (l : Loader) (m : Prototype) (chunk : LinkedChunk)
    (loaded : Loaded) :
    Prop where
  index : loaded.index = trees.length
  loader : loaded.loader = l.add chunk
  represents : chunk.Represents m
  /-- Every module has its chunk, and references lead there. -/
  references : ∀ (k : Nat) tree, (trees ++ [m])[k]? = some tree → ∃ c : LinkedChunk,
    loaded.loader.chunks[k]? = some c ∧ c.Represents tree ∧
    ∀ (position : Nat) q, c.prototypes[position]? = some q →
      k < UInt32.size → position < UInt32.size →
      loaded.loader.prototype (funcRef k position) = .ok q
  /-- The exports of the module are found. -/
  found : trees.length < UInt32.size → ∀ name f, loaded.loader.find? m.symbol name = some f ↔
    ∃ child position, m.Exports name child position ∧ f = funcRef trees.length position
  /-- Every import of every prototype has become what it stands for, or is nil and reported. -/
  imports : trees.length < UInt32.size → ∀ (k : Nat) p q, m.preorder[k]? = some p →
    chunk.prototypes[k]? = some q →
    List.Forall₂ (fun i v => i.Meaning l.natives trees m v ∨
      (l.policy = .report ∧ (∀ w, ¬i.Meaning l.natives trees m w) ∧ v = .nil)) p.imports
        q.imports.toList
  unresolved : trees.length < UInt32.size → ∃ lacks : Import → Bool,
    (∀ i, lacks i = true ↔ ∀ v, ¬i.Meaning l.natives trees m v) ∧
      loaded.unresolved = (m.preorder.flatMap (·.imports)).filter lacks

theorem Holds.links (h : l.Holds trees) {c : Chunk} {loaded : Loaded}
    (run : l.loadChunk c = .ok loaded) :
    ∃ chunk, Links trees l c.module chunk loaded := by
  have holds := h.loadChunk run
  obtain ⟨hfresh, ps, hps, rfl⟩ := loadChunk_eq_ok_iff.mp run
  have linked := forall₂_of_mapM hps
  refine ⟨_, h.size, rfl, (spells_of_linked linked).represents, fun k tree htree => ?_,
    fun number name f => ?_,
    fun number k p q hp hq => ?_, fun number => ⟨l.lacks c.module, fun i => ?_, rfl⟩⟩
  · obtain ⟨chunk, hchunk, spells⟩ := holds.spells k tree htree
    exact ⟨chunk, hchunk, spells.represents, fun position q hq hk hposition =>
      prototype_funcRef hk hposition hchunk hq⟩
  · have hlast : (trees ++ [c.module])[trees.length]? = some c.module := by
      rw [List.getElem?_append_right (Nat.le_refl _), Nat.sub_self]
      rfl
    rw [holds.find?_eq_some_iff (by rw [List.length_append]; exact number)]
    constructor
    · rintro ⟨k, tree, child, position, htree, hname, exports, rfl⟩
      obtain rfl := holds.unique htree hlast hname
      rw [hlast] at htree
      cases htree
      exact ⟨child, position, exports, rfl⟩
    · rintro ⟨child, position, exports, rfl⟩
      exact ⟨_, _, child, position, hlast, rfl, exports, rfl⟩
  · rw [List.getElem?_toArray] at hq
    refine (imports_of_linked linked hp hq).imp fun i v hv => ?_
    rcases hv with hv | ⟨hp, hnone, hnil⟩
    · exact .inl ((h.resolve?_eq_some_iff (Nat.le_of_lt number)).mp hv)
    · refine .inr ⟨hp, (h.lacks_eq_true_iff (Nat.le_of_lt number)).mp ?_, hnil⟩
      rw [lacks, hnone]
      rfl
  · exact h.lacks_eq_true_iff (Nat.le_of_lt number)

/-- A module that is new fails at its first import that stands for nothing, unless this is only
reported. -/
theorem mapM_link_flatten_eq_error_iff {m : Prototype} {e : LoadError} :
    (m.flatten 0).mapM (l.link m) = .error e ↔ l.policy = .refuse ∧
      ∃ i, (m.preorder.flatMap (·.imports)).find? (l.lacks m) = some i ∧ e = .unresolved i := by
  rw [mapM_link_eq_error_iff, ← map_flatten 0, List.flatMap_map]

theorem loadChunk_eq_unresolved_iff {c : Chunk} {i : Import} :
    l.loadChunk c = .error (.unresolved i) ↔
    (l.modules.find? c.module.symbol).isSome = false ∧ l.policy = .refuse ∧
      (c.module.preorder.flatMap (·.imports)).find? (l.lacks c.module) = some i := by
  have hfirst := mapM_link_flatten_eq_error_iff (l := l) (m := c.module) (e := .unresolved i)
  simp only [LoadError.unresolved.injEq, exists_eq_right'] at hfirst
  rw [loadChunk_eq, ← hfirst]
  cases (l.modules.find? c.module.symbol).isSome with
  | true => simp
  | false => cases (c.module.flatten 0).mapM (l.link c.module) <;> simp [Except.map]

theorem exists_loadChunk_iff {c : Chunk} : (∃ loaded, l.loadChunk c = .ok loaded) ↔
    (l.modules.find? c.module.symbol).isSome = false ∧ (l.policy = .refuse →
      (c.module.preorder.flatMap (·.imports)).find? (l.lacks c.module) = none) := by
  simp only [loadChunk_eq_ok_iff]
  constructor
  · rintro ⟨loaded, hfresh, ps, hps, -⟩
    refine ⟨hfresh, fun hp => ?_⟩
    rw [Option.eq_none_iff_forall_ne_some]
    intro i hi
    have := mapM_link_flatten_eq_error_iff.mpr ⟨hp, i, hi, rfl⟩
    rw [hps] at this
    cases this
  · rintro ⟨hfresh, hnone⟩
    cases hps : (c.module.flatten 0).mapM (l.link c.module) with
    | ok ps => exact ⟨_, hfresh, ps, rfl, rfl⟩
    | error e =>
      obtain ⟨hp, i, hi, -⟩ := mapM_link_flatten_eq_error_iff.mp hps
      rw [hnone hp] at hi
      cases hi

/-- Linking is faithful. The chunk of a module that is loaded holds its tree, exports what the
module exports, and its imports are what they stand for. A new module is loaded if all its imports
stand for something, or if what does not is only reported. Otherwise loading fails at the
first import that stands for nothing. -/
theorem Loads.linking (loads : Loads trees l) (c : Chunk) :
    (∀ loaded, l.loadChunk c = .ok loaded → ∃ chunk, Links trees l c.module chunk loaded) ∧
    (trees.length < UInt32.size →
      ((∃ loaded, l.loadChunk c = .ok loaded) ↔ c.module.symbol ∉ trees.map (·.symbol) ∧
        (l.policy = .refuse → ∀ i ∈ c.module.preorder.flatMap (·.imports),
          ∃ v, i.Meaning l.natives trees c.module v)) ∧
      ∀ i, l.loadChunk c = .error (.unresolved i) ↔ c.module.symbol ∉ trees.map (·.symbol) ∧
        l.policy = .refuse ∧
        ∃ before after, c.module.preorder.flatMap (·.imports) = before ++ i :: after ∧
          (∀ j ∈ before, ∃ v, j.Meaning l.natives trees c.module v) ∧
          ∀ v, ¬i.Meaning l.natives trees c.module v) := by
  have h := loads.holds
  refine ⟨fun loaded run => h.links run, fun number => ?_⟩
  have fresh : (l.modules.find? c.module.symbol).isSome = false ↔
      c.module.symbol ∉ trees.map (·.symbol) := by
    rw [← h.isSome_find?_modules_iff, Bool.not_eq_true]
  have lacks : ∀ i : Import, l.lacks c.module i = true ↔
      ∀ v, ¬i.Meaning l.natives trees c.module v := fun i =>
    h.lacks_eq_true_iff (Nat.le_of_lt number)
  have means : ∀ i : Import, ¬l.lacks c.module i = true ↔
    ∃ v, i.Meaning l.natives trees c.module v := fun i => by
    rw [lacks, not_forall_not]
  refine ⟨?_, fun i => ?_⟩
  · rw [exists_loadChunk_iff, fresh, List.find?_eq_none]
    simp only [means]
  · rw [loadChunk_eq_unresolved_iff, fresh, List.find?_eq_some_iff_append, lacks]
    simp only [Bool.not_eq_true', ← Bool.not_eq_true, means]
    constructor
    · rintro ⟨hfresh, hp, hi, before, after, heq, hbefore⟩
      exact ⟨hfresh, hp, before, after, heq, hbefore, hi⟩
    · rintro ⟨hfresh, hp, before, after, heq, hbefore, hi⟩
      exact ⟨hfresh, hp, hi, before, after, heq, hbefore⟩

end Loader

/-- A module that imports its own export `f` and something that is not there. It has two prototypes
`f` nested directly in it; between them is another one with an `f` of its own. -/
def Prototype.forked : Prototype :=
  ⟨"", "m", [], [], [⟨"m", "f"⟩, ⟨"x", "y"⟩],
    [.named "f", ⟨"", "g", [], [], [], [.named "f"]⟩, .named "f"]⟩

theorem Prototype.exports_forked : forked.Exports "f" (.named "f") 4 :=
  ⟨by decide, [.named "f", ⟨"", "g", [], [], [], [.named "f"]⟩], [], rfl, rfl, nofun, rfl⟩

/-- Loaded first, where imports that stand for nothing are reported, the module exports the last of
its `f`, and reports the one import. -/
theorem Loader.Loads.linking_forked :
    ∃ loaded, (Loader.create .empty .report).loadChunk (.ofModule .forked) = .ok loaded ∧
      loaded.loader.find? "m" "f" = some ⟨0, 4⟩ ∧ loaded.unresolved = [⟨"x", "y"⟩] := by
  have loads := Loads.create .empty .report
  obtain ⟨links, rest⟩ := loads.linking (.ofModule .forked)
  obtain ⟨loaded, run⟩ := (rest (by decide)).1.mpr ⟨by simp, nofun⟩
  obtain ⟨chunk, linked⟩ := links loaded run
  refine ⟨loaded, run, (linked.found (by decide) "f" ⟨0, 4⟩).mpr ⟨_, 4, exports_forked, rfl⟩, ?_⟩
  obtain ⟨lacks, hlacks, heq⟩ := linked.unresolved (by decide)
  have free : ∀ i : Import, (Loader.create .empty .report).natives.lookup i.module i.name =
    none := fun i => by
    simp [Registry.lookup, Loader.create, Registry.empty]
  have hown : lacks ⟨"m", "f"⟩ = false := Bool.eq_false_iff.mpr fun h =>
    (hlacks _).mp h _ (.own (free _) rfl exports_forked)
  have hother : lacks ⟨"x", "y"⟩ = true := (hlacks _).mpr fun v hv => by
    cases hv with
    | native found =>
      rw [free] at found
      cases found
    | own _ self => exact absurd self (by decide)
    | earlier _ _ there => cases there
  rw [heq]
  show List.filter lacks [⟨"m", "f"⟩, ⟨"x", "y"⟩] = _
  simp [hown, hother]

end ActorMachine
