import ActorMachine.Proofs.Outcome
import ActorMachine.Proofs.Records
import ActorMachine.Proofs.Resolving

/-!
# Loading step by step

A load that fails may fail at any import of any prototype, after others have been linked and
reported. `LoadM` goes through a load one import at a time, and whatever it has done by then stands
when it fails. Nothing has been done by then: it comes to the same as `Loader.load`
(`LoadM.load_eq`, `LoadM.loadChunk_eq`). So loads are atomic and only ever add to what has been
loaded (`Loading.atomic`), however many of them have come before.
-/

namespace ActorMachine

open Prototype

/-- A prototype of a list with the values of its imports. -/
def FlatPrototype.linked (flat : FlatPrototype) (imports : List Value) : LinkedPrototype where
  source := flat.prototype.source
  symbol := flat.prototype.symbol
  code := flat.prototype.code.toArray
  constants := flat.prototype.constants.toArray
  imports := imports.toArray
  nested := flat.nested.toArray

/-- A loader at work. -/
structure Loading where
  loader : Loader
  /-- The imports that have been reported, in order. -/
  reported : List Import

/-- A step of a load. What it has changed stands even when it fails. -/
abbrev LoadM := EStateM LoadError Loading

namespace LoadM

/-- Gives the value of an import. One that stands for nothing is reported, or the load stops
here. -/
def resolve (own : Prototype) (i : Import) : LoadM Value := do
  let l := (← get).loader
  match l.resolve? own i, l.policy with
  | some v, _ => return v
  | none, .report =>
    modify fun s => { s with reported := s.reported ++ [i] }
    return .nil
  | none, .refuse => throw (.unresolved i)

/-- The values of some imports, one after the other. -/
def resolveAll (own : Prototype) : List Import → LoadM (List Value)
  | [] => return []
  | i :: imports => do
    let v ← resolve own i
    let values ← resolveAll own imports
    return v :: values

/-- Links the prototypes of a list, one after the other. -/
def linkAll (own : Prototype) : List FlatPrototype → LoadM (List LinkedPrototype)
  | [] => return []
  | flat :: flats => do
    let imports ← resolveAll own flat.prototype.imports
    let qs ← linkAll own flats
    return flat.linked imports :: qs

/-- Links a chunk and adds it in the end. Gives its number. -/
def loadChunk (c : Chunk) : LoadM Nat := do
  let own := c.module
  let l := (← get).loader
  if (l.modules.find? own.symbol).isSome then
    throw (.duplicateModule own.symbol)
  let prototypes ← linkAll own (own.flatten 0)
  let chunk : LinkedChunk :=
    { name := own.symbol, prototypes := prototypes.toArray, exports := own.exports }
  modify fun s => { s with loader := s.loader.add chunk }
  return l.chunks.size

/-- Reads, links and adds a chunk. -/
def load (bytes : List UInt8) : LoadM Nat :=
  match Chunk.decode bytes with
  | .ok c => loadChunk c
  | .error e => throw (.chunk e)

/-! ## What a load comes to -/

variable {s : Loading} {own : Prototype}

/-- One import is resolved as the first of several is. -/
theorem resolve_eq (s : Loading) (own : Prototype) (i : Import) :
    (∃ v, resolve own i s = .ok v
      { s with reported := s.reported ++ [i].filter (s.loader.lacks own) } ∧
      ∀ imports, s.loader.linkImports own (i :: imports) =
        (s.loader.linkImports own imports).map (v :: ·)) ∧
      (s.loader.policy = .refuse → s.loader.lacks own i = false) ∨
    ∃ e, resolve own i s = .error e s ∧
      ∀ imports, s.loader.linkImports own (i :: imports) = .error e := by
  have hget : (get : LoadM Loading) s = .ok s s := rfl
  unfold resolve
  rw [bind_of_ok hget, List.filter_singleton, Loader.lacks]
  cases hi : s.loader.resolve? own i with
  | some v =>
    refine .inl ⟨⟨v, ?_, fun imports => ?_⟩, fun _ => rfl⟩
    · simp only [Option.isNone_some, cond_false, List.append_nil]
      rfl
    · rw [Loader.linkImports, hi]
      cases s.loader.linkImports own imports <;> rfl
  | none =>
    cases hp : s.loader.policy with
    | report =>
      refine .inl ⟨⟨.nil, ?_, fun imports => ?_⟩, ?_⟩
      · rfl
      · rw [Loader.linkImports, hi, hp]
        cases s.loader.linkImports own imports <;> rfl
      · rintro ⟨⟩
    | refuse =>
      refine .inr ⟨.unresolved i, ?_, fun imports => ?_⟩
      · rfl
      · rw [Loader.linkImports, hi, hp]
        rfl

/-- Where all that stands for nothing is refused, what has been linked stands for something. -/
theorem filter_lacks_eq_nil {l : Loader} {imports : List Import} {values : List Value}
    (hp : l.policy = .refuse)
    (h : l.linkImports own imports = .ok values) : imports.filter (l.lacks own) = [] := by
  rw [List.filter_eq_nil_iff]
  intro i hi hlacks
  cases hfirst : imports.find? (l.lacks own) with
  | none => exact List.find?_eq_none.mp hfirst i hi hlacks
  | some j =>
    rw [Loader.linkImports_eq_error_iff.mpr ⟨hp, j, hfirst, rfl⟩] at h
    cases h

/-- All is reported that stands for nothing, and a failure has reported nothing. -/
theorem resolveAll_eq (s : Loading) (own : Prototype) (imports : List Import) :
    resolveAll own imports s =
    match s.loader.linkImports own imports with
    | .ok values =>
      .ok values { s with reported := s.reported ++ imports.filter (s.loader.lacks own) }
    | .error e => .error e s := by
  induction imports generalizing s with
  | nil =>
    rw [List.filter_nil, List.append_nil]
    rfl
  | cons i imports ih =>
    rw [resolveAll]
    rcases resolve_eq s own i with ⟨⟨v, run, hlink⟩, hlacks⟩ | ⟨e, run, hlink⟩
    · rw [bind_of_ok run, hlink]
      have ih := ih { s with reported := s.reported ++ [i].filter (s.loader.lacks own) }
      cases hrest : s.loader.linkImports own imports with
      | ok values =>
        rw [hrest] at ih
        rw [bind_of_ok ih]
        show EStateM.Result.ok _ _ = EStateM.Result.ok _ _
        rw [List.append_assoc, ← List.filter_append, List.singleton_append]
      | error e =>
        -- The load fails because of a later import, so the first one stands for something.
        rw [hrest] at ih
        have hp := (Loader.linkImports_eq_error_iff.mp hrest).1
        rw [bind_of_error ih, List.filter_singleton, hlacks hp]
        simp [Except.map]
    · rw [bind_of_error run, hlink]

theorem linkAll_eq (s : Loading) (own : Prototype) (flats : List FlatPrototype) :
    linkAll own flats s =
    match flats.mapM (s.loader.link own) with
    | .ok qs => .ok qs { s with reported := s.reported ++
        (flats.flatMap (·.prototype.imports)).filter (s.loader.lacks own) }
    | .error e => .error e s := by
  induction flats generalizing s with
  | nil =>
    rw [List.flatMap_nil, List.filter_nil, List.append_nil]
    rfl
  | cons flat flats ih =>
    have run := resolveAll_eq s own flat.prototype.imports
    rw [linkAll, List.mapM_cons, List.flatMap_cons, List.filter_append]
    cases hvalues : s.loader.linkImports own flat.prototype.imports with
    | error e =>
      rw [hvalues] at run
      rw [bind_of_error run, Loader.link_eq_error_iff.mpr hvalues]
      rfl
    | ok values =>
      rw [hvalues] at run
      have hlink : s.loader.link own flat = .ok (flat.linked values) := by
        unfold Loader.link
        dsimp only
        rw [hvalues]
        rfl
      have ih :=
        ih { s with reported := s.reported ++ flat.prototype.imports.filter (s.loader.lacks own) }
      rw [bind_of_ok run, hlink]
      cases hrest : flats.mapM (s.loader.link own) with
      | ok qs =>
        rw [hrest] at ih
        rw [bind_of_ok ih]
        show EStateM.Result.ok _ _ = EStateM.Result.ok _ _
        rw [List.append_assoc]
      | error e =>
        rw [hrest] at ih
        have hp := (Loader.mapM_link_eq_error_iff.mp hrest).1
        rw [bind_of_error ih, filter_lacks_eq_nil hp hvalues, List.append_nil]
        rfl

theorem loadChunk_eq (s : Loading) (c : Chunk) : loadChunk c s =
    match s.loader.loadChunk c with
    | .ok loaded => .ok loaded.index ⟨loaded.loader, s.reported ++ loaded.unresolved⟩
    | .error e => .error e s := by
  have hget : (get : LoadM Loading) s = .ok s s := rfl
  have run := linkAll_eq s c.module (c.module.flatten 0)
  rw [Loader.loadChunk_eq]
  unfold loadChunk
  rw [bind_of_ok hget]
  dsimp only
  by_cases duplicate : (s.loader.modules.find? c.module.symbol).isSome
  · rw [if_pos duplicate, if_pos duplicate]
    rfl
  · rw [if_neg duplicate, if_neg duplicate]
    cases hps : (c.module.flatten 0).mapM (s.loader.link c.module) with
    | ok ps =>
      rw [hps] at run
      rw [← map_flatten 0, List.flatMap_map]
      exact bind_of_ok run
    | error e =>
      rw [hps] at run
      exact bind_of_error run

theorem load_eq (s : Loading) (bytes : List UInt8) : load bytes s =
    match s.loader.load bytes with
    | .ok loaded => .ok loaded.index ⟨loaded.loader, s.reported ++ loaded.unresolved⟩
    | .error e => .error e s := by
  unfold load Loader.load
  cases Chunk.decode bytes with
  | ok c => exact loadChunk_eq s c
  | error e => rfl

end LoadM

/-! ## Loads one after the other -/

/-- A call that loads a chunk. -/
inductive LoadCall where
  | bytes (data : List UInt8)
  | chunk (c : Chunk)

namespace LoadCall

/-- The chunk that is to be loaded. -/
def decoded : LoadCall → Except ChunkError Chunk
  | bytes data => Chunk.decode data
  | chunk c => .ok c

def run : LoadCall → LoadM Nat
  | bytes data => LoadM.load data
  | chunk c => LoadM.loadChunk c

/-- A call fails because of the bytes, or it comes to what loading their chunk comes to. -/
theorem run_eq (call : LoadCall) (s : Loading) : call.run s =
    match call.decoded with
    | .error e => .error (.chunk e) s
    | .ok c =>
      match s.loader.loadChunk c with
      | .ok loaded => .ok loaded.index ⟨loaded.loader, s.reported ++ loaded.unresolved⟩
      | .error e => .error e s := by
  cases call with
  | chunk c => exact LoadM.loadChunk_eq s c
  | bytes data =>
    simp only [run, decoded, LoadM.load]
    cases Chunk.decode data with
    | ok c => exact LoadM.loadChunk_eq s c
    | error e => rfl

theorem run_eq_ok_iff {call : LoadCall} {s s' : Loading} {index : Nat} :
    call.run s = .ok index s' ↔ ∃ c loaded, call.decoded = .ok c ∧
      s.loader.loadChunk c = .ok loaded ∧ loaded.index = index ∧
      ⟨loaded.loader, s.reported ++ loaded.unresolved⟩ = s' := by
  rw [call.run_eq]
  cases call.decoded with
  | error e => simp
  | ok c => cases hload : s.loader.loadChunk c <;> simp [hload]

theorem run_eq_error_iff {call : LoadCall} {s s' : Loading} {e : LoadError} :
    call.run s = .error e s' ↔ s' = s ∧ ((∃ e', call.decoded = .error e' ∧ .chunk e' = e) ∨
      ∃ c, call.decoded = .ok c ∧ s.loader.loadChunk c = .error e) := by
  rw [call.run_eq]
  cases call.decoded with
  | error e' => simp [eq_comm, and_comm]
  | ok c => cases hload : s.loader.loadChunk c <;> simp [hload, eq_comm, and_comm]

end LoadCall

/-- What may happen to a loader. -/
inductive LoadEvent where
  | call (call : LoadCall)
  | register (module name : String) (builtin : Builtin)
  | report

namespace Loading

/-- What an event leaves, whether or not a call fails. -/
def next (s : Loading) : LoadEvent → Loading
  | .call call => leaves call.run s
  | .register module name builtin => { s with loader := s.loader.register module name builtin }
  | .report => { s with loader := s.loader.reportUnresolved }

/-- What some events leave one after the other. -/
def after (s : Loading) (events : List LoadEvent) : Loading := events.foldl next s

theorem loads_next {s : Loading} {trees : List Prototype} (loads : s.loader.Loads trees)
    (event : LoadEvent) :
    ∃ trees', (s.next event).loader.Loads trees' := by
  cases event with
  | register module name builtin => exact ⟨trees, loads.register module name builtin⟩
  | report => exact ⟨trees, loads.report⟩
  | call call =>
    show ∃ trees', (leaves call.run s).loader.Loads trees'
    unfold leaves
    rw [call.run_eq]
    cases call.decoded with
    | error e => exact ⟨trees, loads⟩
    | ok c =>
      dsimp only
      cases run : s.loader.loadChunk c with
      | error e => exact ⟨trees, loads⟩
      | ok loaded => exact ⟨_, loads.loadChunk run⟩

theorem loads_after {s : Loading} {trees : List Prototype} (loads : s.loader.Loads trees)
    (events : List LoadEvent) : ∃ trees', (s.after events).loader.Loads trees' := by
  induction events generalizing s trees with
  | nil => exact ⟨trees, loads⟩
  | cons event events ih =>
    obtain ⟨trees', loads'⟩ := loads_next loads event
    exact ih loads'

/-- The loaders that there are after any events. -/
def Reached (s : Loading) : Prop :=
  ∃ natives policy events, after ⟨.create natives policy, []⟩ events = s

/-- The names of the modules that have been loaded. -/
def names (s : Loading) : List String := s.loader.chunks.toList.map (·.name)

variable {s : Loading}

theorem Reached.next (reached : s.Reached) (event : LoadEvent) : (s.next event).Reached := by
  obtain ⟨natives, policy, events, rfl⟩ := reached
  refine ⟨natives, policy, events ++ [event], ?_⟩
  rw [after, List.foldl_append]
  rfl

theorem Reached.of_run (reached : s.Reached) {call : LoadCall} {index : Nat} {s' : Loading}
    (run : call.run s = .ok index s') : s'.Reached := by
  have next := reached.next (.call call)
  rwa [Loading.next, leaves, run] at next

theorem Reached.exists_loads (reached : s.Reached) : ∃ trees, s.loader.Loads trees := by
  obtain ⟨natives, policy, events, rfl⟩ := reached
  exact loads_after (.create natives policy) events

end Loading

namespace Loader

variable {l : Loader} {trees : List Prototype}

theorem Holds.names_eq (h : l.Holds trees) :
    l.chunks.toList.map (·.name) = trees.map (·.symbol) := by
  refine List.ext_getElem? fun k => ?_
  rw [List.getElem?_map, List.getElem?_map, Array.getElem?_toList]
  cases htree : trees[k]? with
  | some tree =>
    obtain ⟨chunk, hchunk, spells⟩ := h.spells k tree htree
    rw [hchunk, Option.map_some, Option.map_some, spells.name]
  | none =>
    rw [List.getElem?_eq_none_iff, ← h.size, ← Array.getElem?_eq_none_iff] at htree
    rw [htree]
    rfl

/-- A chunk that is added does not change what is found in others. -/
theorem find?_add (inStep : l.InStep) {chunk : LinkedChunk} {module : String}
    (hne : module ≠ chunk.name) (name : String) :
    (l.add chunk).find? module name = l.find? module name := by
  have hnumber : (l.add chunk).modules.find? module = l.modules.find? module := by
    show (l.modules.enter chunk.name _).find? module = _
    rw [Directory.find?_enter, if_neg hne.symm]
  unfold find?
  rw [hnumber]
  cases hfound : l.modules.find? module with
  | none => rfl
  | some number =>
    obtain ⟨k, old, hold, -, rfl⟩ := (inStep.modules module number).mp hfound
    have hlt := Nat.lt_of_le_of_lt (Nat.mod_le k UInt32.size) (Array.getElem?_eq_some_iff.mp hold).1
    have hsame : (l.chunks.push chunk)[k % UInt32.size]? = l.chunks[k % UInt32.size]? := by
      rw [Array.getElem?_push_lt hlt, Array.getElem?_eq_getElem]
    show (do let c ← (l.chunks.push chunk)[k % UInt32.size]?
             return funcRef (k % UInt32.size) (← c.exports.find? name)) = _
    rw [hsame]
    rfl

/-- Something stands for an import of the module `own`: a native, or else what the module itself
exports, or what is found in another module. -/
def Provides (l : Loader) (own : Prototype) (i : Import) : Prop :=
  (∃ id, l.natives.lookup i.module i.name = some id) ∨
    (i.module = own.symbol ∧ ∃ child position, own.Exports i.name child position) ∨
    (i.module ≠ own.symbol ∧ ∃ f, l.find? i.module i.name = some f)

theorem lacks_eq_true_iff {own : Prototype} {i : Import} :
    l.lacks own i = true ↔ ¬l.Provides own i := by
  have hown : (∃ child position, own.Exports i.name child position) ↔
      (own.exports.find? i.name).isSome := by
    rw [Option.isSome_iff_exists, exists_comm]
    simp only [find?_exports_eq_some_iff]
  unfold lacks resolve? Provides
  rw [hown]
  simp only [← Option.isSome_iff_exists]
  cases l.natives.lookup i.module i.name with
  | some id => simp
  | none =>
    by_cases hself : i.module = own.symbol
    · simp [hself]
    · simp [hself]

theorem not_lacks_eq_true_iff {own : Prototype} {i : Import} :
    (!l.lacks own i) = true ↔ l.Provides own i := by
  rw [Bool.not_eq_true', ← Bool.not_eq_true, lacks_eq_true_iff, not_not]

end Loader

namespace Loading

variable {s : Loading}

/-- Why a call fails: there is no chunk in the bytes, or its module has a name that has been loaded,
or an import of some prototype is not provided, which is the first such import in depth-first
order. -/
inductive Fails (s : Loading) (call : LoadCall) : LoadError → Prop
  | chunk {e : ChunkError} (unreadable : call.decoded = .error e) : Fails s call (.chunk e)
  | duplicate {c : Chunk} (readable : call.decoded = .ok c) (taken : c.module.symbol ∈ s.names) :
    Fails s call (.duplicateModule c.module.symbol)
  | unresolved {c : Chunk} {i : Import} {before after : List Import}
    (readable : call.decoded = .ok c) (fresh : c.module.symbol ∉ s.names)
    (policy : s.loader.policy = .refuse)
    (imports : c.module.preorder.flatMap (·.imports) = before ++ i :: after)
    (provided : ∀ j ∈ before, s.loader.Provides c.module j)
    (lacking : ¬s.loader.Provides c.module i) :
    Fails s call (.unresolved i)

/-- A chunk can be loaded: its module has a new name, and all its imports are provided unless those
that are not are only reported. -/
def Accepts (s : Loading) (c : Chunk) : Prop :=
  c.module.symbol ∉ s.names ∧ (s.loader.policy = .refuse →
    ∀ i ∈ c.module.preorder.flatMap (·.imports), s.loader.Provides c.module i)

/-- A chunk is added: its module is found as long as its number fits into 32 bits, and what has been
found before is as it was. The imports that are not provided are reported in order. -/
structure Adds (s : Loading) (c : Chunk) (index : Nat) (s' : Loading) : Prop where
  number : index = s.loader.chunks.size
  fresh : c.module.symbol ∉ s.names
  names : s'.names = s.names ++ [c.module.symbol]
  found : index < UInt32.size → ∀ name f, s'.loader.find? c.module.symbol name = some f ↔
    ∃ child position, c.module.Exports name child position ∧ f = Loader.funcRef index position
  others : ∀ module, module ≠ c.module.symbol → ∀ name,
    s'.loader.find? module name = s.loader.find? module name
  prototypes : ∀ f : FuncRef, f.chunk.toNat < index → s'.loader.prototype f = s.loader.prototype f
  natives : s'.loader.natives = s.loader.natives
  policy : s'.loader.policy = s.loader.policy
  reported : ∃ lacks : Import → Bool, (∀ i, lacks i = true ↔ ¬s.loader.Provides c.module i) ∧
    s'.reported = s.reported ++ (c.module.preorder.flatMap (·.imports)).filter lacks

variable {trees : List Prototype} {c : Chunk}

/-- A name is new if no chunk has it. -/
theorem fresh_iff (h : s.loader.Holds trees) :
    (s.loader.modules.find? c.module.symbol).isSome = false ↔ c.module.symbol ∉ s.names := by
  rw [names, h.names_eq, ← h.isSome_find?_modules_iff, Bool.not_eq_true]

theorem adds_of_loadChunk (h : s.loader.Holds trees) {loaded : Loaded}
    (run : s.loader.loadChunk c = .ok loaded) :
    s.Adds c loaded.index ⟨loaded.loader, s.reported ++ loaded.unresolved⟩ := by
  obtain ⟨chunk, links⟩ := h.links run
  obtain ⟨hfresh, ps, -, hloaded⟩ := Loader.loadChunk_eq_ok_iff.mp run
  have hname := links.represents.name
  have hindex : loaded.index = s.loader.chunks.size := links.index.trans h.size.symm
  refine ⟨hindex, (fresh_iff h).mp hfresh, ?_, fun number name f => ?_, fun module hne name => ?_,
    fun f hf => ?_, ?_, ?_,
    ⟨s.loader.lacks c.module, fun i => Loader.lacks_eq_true_iff, by rw [hloaded]⟩⟩
  · rw [names, names, links.loader, ← hname]
    exact (congrArg (List.map _) Array.toList_push).trans List.map_append
  · rw [links.index] at number ⊢
    exact links.found number name f
  · show loaded.loader.find? module name = _
    rw [links.loader]
    exact Loader.find?_add h.inStep (hname ▸ hne) name
  · show loaded.loader.prototype f = _
    rw [links.loader]
    exact Loader.prototype_add (hindex ▸ hf)
  · show loaded.loader.natives = _
    rw [links.loader]
    rfl
  · show loaded.loader.policy = _
    rw [links.loader]
    rfl

/-- A chunk is loaded if and only if it is acceptable. -/
theorem exists_loadChunk_iff (h : s.loader.Holds trees) :
    (∃ loaded, s.loader.loadChunk c = .ok loaded) ↔ s.Accepts c := by
  rw [Loader.exists_loadChunk_iff, fresh_iff h, List.find?_eq_none]
  simp only [Loader.lacks_eq_true_iff, not_not]
  rfl

/-- A call fails because of the bytes, or for a reason for which their chunk is not loaded. -/
theorem fails_iff {call : LoadCall} {e : LoadError} :
    s.Fails call e ↔ (∃ e', call.decoded = .error e' ∧ .chunk e' = e) ∨
      ∃ c, call.decoded = .ok c ∧ s.Fails (.chunk c) e := by
  constructor
  · intro fails
    cases fails with
    | chunk unreadable => exact .inl ⟨_, unreadable, rfl⟩
    | duplicate readable taken => exact .inr ⟨_, readable, .duplicate rfl taken⟩
    | unresolved readable fresh policy imports provided lacking =>
      exact .inr ⟨_, readable, .unresolved rfl fresh policy imports provided lacking⟩
  · rintro (⟨e', unreadable, rfl⟩ | ⟨c, readable, fails⟩)
    · exact .chunk unreadable
    · cases fails with
      | chunk unreadable => cases unreadable
      | duplicate readable' taken =>
        cases readable'
        exact .duplicate readable taken
      | unresolved readable' fresh policy imports provided lacking =>
        cases readable'
        exact .unresolved readable fresh policy imports provided lacking

/-- Loading a chunk fails with the name of its module, or at an import. -/
theorem loadChunk_eq_error_iff (h : s.loader.Holds trees) {e : LoadError} :
    s.loader.loadChunk c = .error e ↔ s.Fails (.chunk c) e := by
  constructor
  · intro run
    rw [Loader.loadChunk_eq] at run
    split at run
    · next duplicate =>
      cases run
      refine .duplicate rfl ?_
      rwa [names, h.names_eq, ← h.isSome_find?_modules_iff]
    · next hfresh =>
      cases hps : (c.module.flatten 0).mapM (s.loader.link c.module) with
      | ok ps =>
        rw [hps] at run
        cases run
      | error e' =>
        rw [hps] at run
        cases run
        obtain ⟨hp, i, hi, rfl⟩ := Loader.mapM_link_flatten_eq_error_iff.mp hps
        obtain ⟨hlacks, before, after, himports, hbefore⟩ := List.find?_eq_some_iff_append.mp hi
        refine .unresolved rfl ((fresh_iff h).mp (Bool.eq_false_iff.mpr hfresh)) hp himports
          (fun j hj => ?_) (Loader.lacks_eq_true_iff.mp hlacks)
        exact Loader.not_lacks_eq_true_iff.mp (hbefore j hj)
  · intro fails
    cases fails with
    | chunk unreadable => cases unreadable
    | duplicate readable taken =>
      cases readable
      rw [Loader.loadChunk_eq, if_pos]
      rwa [h.isSome_find?_modules_iff, ← h.names_eq]
    | @unresolved _ i _ _ readable fresh policy imports provided lacking =>
      cases readable
      exact Loader.loadChunk_eq_unresolved_iff.mpr ⟨(fresh_iff h).mpr fresh, policy,
        List.find?_eq_some_iff_append.mpr ⟨Loader.lacks_eq_true_iff.mpr lacking, _, _, imports,
          fun j hj => Loader.not_lacks_eq_true_iff.mpr (provided j hj)⟩⟩

end Loading

/-- A call is atomic. It fails for a reason that there is and leaves everything as it was, or it
adds its chunk. -/
structure LoadCall.Atomic (call : LoadCall) (s : Loading) : Prop where
  fails : ∀ e s', call.run s = .error e s' ↔ s' = s ∧ s.Fails call e
  loads : (∃ index s', call.run s = .ok index s') ↔ ∃ c, call.decoded = .ok c ∧ s.Accepts c
  adds : ∀ index s', call.run s = .ok index s' → ∃ c, call.decoded = .ok c ∧ s.Adds c index s'
  duplicate : ∀ name, (∃ s', call.run s = .error (.duplicateModule name) s') ↔
    ∃ c, call.decoded = .ok c ∧ c.module.symbol = name ∧ name ∈ s.names
  /-- A module that has been refused because of its imports takes no name: one of this name is
  loaded as soon as its imports are provided, or are only reported. -/
  again : ∀ e s', call.run s = .error e s' → ∀ c, call.decoded = .ok c → c.module.symbol ∉ s.names →
    ∀ (later : LoadCall) c', later.decoded = .ok c' → c'.module.symbol = c.module.symbol →
      ((∃ index s₁, later.run s' = .ok index s₁) ↔ (s'.loader.policy = .refuse →
        ∀ i ∈ c'.module.preorder.flatMap (·.imports), s'.loader.Provides c'.module i)) ∧
      ∃ index s₁, later.run (s'.next .report) = .ok index s₁

namespace Loading

variable {s : Loading} {trees : List Prototype}

/-- A call fails for the bytes or as loading their chunk fails. -/
theorem run_eq_error_iff (h : s.loader.Holds trees) {call : LoadCall} {e : LoadError}
    {s' : Loading} :
    call.run s = .error e s' ↔ s' = s ∧ s.Fails call e := by
  rw [LoadCall.run_eq_error_iff, fails_iff]
  simp only [loadChunk_eq_error_iff h]

/-- A call succeeds if its chunk is acceptable. -/
theorem exists_run_iff (h : s.loader.Holds trees) {call : LoadCall} :
    (∃ index s', call.run s = .ok index s') ↔ ∃ c, call.decoded = .ok c ∧ s.Accepts c := by
  simp only [LoadCall.run_eq_ok_iff, ← exists_loadChunk_iff h]
  constructor
  · rintro ⟨index, s', c, loaded, readable, loads, -, -⟩
    exact ⟨c, readable, loaded, loads⟩
  · rintro ⟨c, readable, loaded, loads⟩
    exact ⟨_, _, c, loaded, readable, loads, rfl, rfl⟩

theorem adds_of_run (h : s.loader.Holds trees) {call : LoadCall} {index : Nat} {s' : Loading}
    (run : call.run s = .ok index s') : ∃ c, call.decoded = .ok c ∧ s.Adds c index s' := by
  obtain ⟨c, loaded, readable, loads, rfl, rfl⟩ := LoadCall.run_eq_ok_iff.mp run
  exact ⟨c, readable, adds_of_loadChunk h loads⟩

theorem duplicate_iff {call : LoadCall} {name : String} : s.Fails call (.duplicateModule name) ↔
    ∃ c, call.decoded = .ok c ∧ c.module.symbol = name ∧ name ∈ s.names := by
  constructor
  · intro fails
    cases fails with
    | duplicate readable taken => exact ⟨_, readable, rfl, taken⟩
  · rintro ⟨c, readable, rfl, taken⟩
    exact .duplicate readable taken

/-- Loads are atomic and add at the end. A call fails if and only if its bytes hold no chunk, the
name of its module has been loaded or an import is refused, and then everything is as it was.
Otherwise it gives the number of chunks so far, its module is found from now on, and everything that
could be found before is found as before. No two modules have one name, and the directories stay in
step with the chunks. -/
theorem Reached.atomic (reached : s.Reached) :
    s.names.Nodup ∧ s.loader.InStep ∧ ∀ call : LoadCall, call.Atomic s := by
  obtain ⟨trees, loads⟩ := reached.exists_loads
  have h := loads.holds
  refine ⟨?_, h.inStep, fun call => ⟨fun e s' => run_eq_error_iff h, exists_run_iff h,
    fun index s' => adds_of_run h, fun name => ?_,
    fun e s' run c hc fresh later c' hc' hname => ?_⟩⟩
  · rw [names, h.names_eq]
    exact h.distinct
  · simp only [run_eq_error_iff h, exists_eq_left, duplicate_iff]
  · obtain ⟨rfl, -⟩ := (run_eq_error_iff h).mp run
    rw [← hname] at fresh
    refine ⟨?_, (exists_run_iff (s := s'.next .report) loads.report.holds).mpr
      ⟨c', hc', fresh, nofun⟩⟩
    rw [exists_run_iff h, hc']
    simp only [Except.ok.injEq, exists_eq_left', Accepts, fresh, not_false_eq_true, true_and]

/-- A module that has been refused because of an import takes no number and keeps no name: another
module of its name becomes the first chunk. After that it is refused because of its name. The chunks
are given as bytes. -/
theorem Reached.atomic_refused :
    ∃ (forked named : List UInt8) (s : Loading), s = ⟨.create .empty .refuse, []⟩ ∧ s.Reached ∧
      (LoadCall.bytes forked).run s = .error (.unresolved ⟨"x", "y"⟩) s ∧
      ∃ s', (LoadCall.bytes named).run s = .ok 0 s' ∧ s'.names = ["m"] ∧ s'.Reached ∧
        (LoadCall.bytes forked).run s' = .error (.duplicateModule "m") s' := by
  have hforked : Chunk.decode (Chunk.ofModule .forked).encode = .ok (.ofModule .forked) :=
    Chunk.decode_encode_cut rfl (by decide +kernel)
  have hnamed : Chunk.decode (Chunk.ofModule (.named "m")).encode = .ok (.ofModule (.named "m")) :=
    Chunk.decode_encode_cut rfl (by decide +kernel)
  obtain ⟨s, hs⟩ : ∃ s : Loading, s = ⟨.create .empty .refuse, []⟩ := ⟨_, rfl⟩
  have reached : s.Reached := ⟨_, _, [], hs.symm⟩
  have hnames : s.names = [] := by
    rw [hs]
    rfl
  have atomic := reached.atomic.2.2
  have provided : s.loader.Provides .forked ⟨"m", "f"⟩ := .inr (.inl ⟨rfl, _, _, exports_forked⟩)
  have lacking : ¬s.loader.Provides .forked ⟨"x", "y"⟩ := by
    rw [hs]
    rintro (⟨id, h⟩ | ⟨h, -⟩ | ⟨-, f, h⟩)
    · simp [Registry.lookup, Loader.create, Registry.empty] at h
    · exact absurd h (by decide)
    · cases h
  have himports : (Chunk.ofModule .forked).module.preorder.flatMap (·.imports) =
      [⟨"m", "f"⟩] ++ ⟨"x", "y"⟩ :: [] := rfl
  have hnone : (Chunk.ofModule (.named "m")).module.preorder.flatMap (·.imports) = [] := rfl
  have fresh : ∀ c : Chunk, c.module.symbol ∉ s.names := by
    rw [hnames]
    exact fun _ => List.not_mem_nil
  have refused := ((atomic (.bytes _)).fails _ s).mpr ⟨rfl, .unresolved hforked (fresh _)
    (by rw [hs]; rfl) himports (fun j hj => List.mem_singleton.mp hj ▸ provided) lacking⟩
  obtain ⟨index, s', run⟩ := (atomic (.bytes _)).loads.mpr
    ⟨_, hnamed, fresh _, fun _ => by rw [hnone]; exact List.forall_mem_nil _⟩
  obtain ⟨c, hc, adds⟩ := (atomic (.bytes _)).adds index s' run
  obtain rfl := Except.ok.inj (hnamed.symm.trans hc)
  have hindex : index = 0 := adds.number.trans (by rw [hs]; rfl)
  have hnames' : s'.names = ["m"] := by rw [adds.names, hnames]; rfl
  have reached' := reached.of_run run
  have duplicate := ((reached'.atomic.2.2 (.bytes _)).fails _ s').mpr
    ⟨rfl, .duplicate hforked (by rw [hnames']; exact List.mem_singleton_self _)⟩
  exact ⟨_, _, s, hs, reached, refused, s', hindex ▸ run, hnames', reached', duplicate⟩

end Loading

end ActorMachine
