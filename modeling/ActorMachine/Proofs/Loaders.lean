import Mathlib.Data.List.Forall2
import ActorMachine.Proofs.Outcome

/-!
# Loaders that load chunks

Chunks are added to a loader one after the other, and every one is linked before it is added. So the
imports of a prototype never hold an object: they are natives and functions (`Loader.Built.inline`).
Between two loads natives may be registered, and it may be decided that imports which stand for
nothing are only reported.
-/

namespace ActorMachine

/-- What a loader may become next. -/
inductive Loader.Extends (l : Loader) : Loader → Prop
  | loadChunk {c : Chunk} {loaded : Loaded} (run : l.loadChunk c = .ok loaded) :
    l.Extends loaded.loader
  | register (module name : String) (builtin : Builtin) :
    l.Extends (l.register module name builtin)
  | report : l.Extends l.reportUnresolved

/-- The loaders that there are: chunks are added one after the other to a loader without chunks. -/
inductive Loader.Built : Loader → Prop
  | create (natives : Registry) (policy : UnresolvedPolicy) : Built (Loader.create natives policy)
  | extend {l l' : Loader} (built : Built l) (step : l.Extends l') : Built l'

/-- The imports of a loaded chunk are inline values: natives and functions. -/
def Loader.Inline (l : Loader) : Prop :=
  ∀ f p, l.prototype f = .ok p → ∀ v ∈ p.imports, v.ref? = none

namespace Loader

variable {l : Loader}

theorem prototype_ne_heap {f : FuncRef} {e : Fault} (h : l.prototype f = .error e) :
    ∀ h', e ≠ .heap h' := by
  unfold prototype at h
  rintro h' rfl
  split at h
  · cases h
  · split at h <;> cases h

/-- What an import stands for is a native or a function. -/
theorem inline_of_resolve? {own : Prototype} {i : Import} {v : Value}
    (h : l.resolve? own i = some v) : v.ref? = none := by
  unfold resolve? at h
  split at h
  · cases h
    rfl
  · split at h
    · obtain ⟨_, -, rfl⟩ := Option.map_eq_some_iff.mp h
      rfl
    · obtain ⟨_, -, rfl⟩ := Option.map_eq_some_iff.mp h
      rfl

/-- An import is nil, or what some import stands for. -/
theorem of_mem_linkImports {own : Prototype} {imports : List Import} {values : List Value}
    (h : l.linkImports own imports = .ok values) :
    ∀ v ∈ values, v = .nil ∨ ∃ i, l.resolve? own i = some v := by
  induction imports generalizing values with
  | nil =>
    cases h
    exact fun v hv => nomatch hv
  | cons i imports ih =>
    have of_cons : ∀ {v : Value}, (v = .nil ∨ ∃ i, l.resolve? own i = some v) →
        (do return v :: (← l.linkImports own imports) : Except LoadError (List Value)) =
        .ok values →
        ∀ w ∈ values, w = .nil ∨ ∃ i, l.resolve? own i = some w := by
      intro v hv hrest
      cases hvs : l.linkImports own imports with
      | error e =>
        rw [hvs] at hrest
        cases hrest
      | ok vs =>
        rw [hvs] at hrest
        cases hrest
        exact List.forall_mem_cons.mpr ⟨hv, ih hvs⟩
    unfold linkImports at h
    cases hi : l.resolve? own i with
    | some v =>
      rw [hi] at h
      exact of_cons (.inr ⟨i, hi⟩) h
    | none =>
      rw [hi] at h
      cases hp : l.policy with
      | refuse =>
        rw [hp] at h
        cases h
      | report =>
        rw [hp] at h
        exact of_cons (.inl rfl) h

theorem of_link {own : Prototype} {flat : FlatPrototype} {p : LinkedPrototype}
    (h : l.link own flat = .ok p) : p.nested = flat.nested.toArray ∧
      ∀ v ∈ p.imports, v = .nil ∨ ∃ i, l.resolve? own i = some v := by
  obtain ⟨values, hvalues, h⟩ := exists_of_bind_ok h
  cases h
  exact ⟨rfl, fun v hv => of_mem_linkImports hvalues v (List.mem_toArray.mp hv)⟩

theorem inline_of_link {own : Prototype} {flat : FlatPrototype} {p : LinkedPrototype}
    (h : l.link own flat = .ok p) : ∀ v ∈ p.imports, v.ref? = none := by
  intro v hv
  cases (of_link h).2 v hv with
  | inl hnil =>
    rw [hnil]
    rfl
  | inr hresolve =>
    obtain ⟨i, hi⟩ := hresolve
    exact inline_of_resolve? hi

theorem forall₂_of_mapM {f : α → Except ε β} {xs : List α} {ys : List β} (h : xs.mapM f = .ok ys) :
    List.Forall₂ (fun x y => f x = .ok y) xs ys := by
  induction xs generalizing ys with
  | nil =>
    cases h
    exact .nil
  | cons x xs ih =>
    rw [List.mapM_cons] at h
    cases hx : f x with
    | error e =>
      rw [hx] at h
      cases h
    | ok y =>
      cases hxs : xs.mapM f with
      | error e =>
        rw [hx, hxs] at h
        cases h
      | ok zs =>
        rw [hx, hxs] at h
        cases h
        exact .cons hx (ih hxs)

/-- A chunk is linked before it is added. -/
theorem exists_of_loadChunk {c : Chunk} {loaded : Loaded} (h : l.loadChunk c = .ok loaded) :
    ∃ chunk : LinkedChunk, loaded.loader = l.add chunk ∧ chunk.exports = c.module.exports ∧
      List.Forall₂ (fun flat p => l.link c.module flat = .ok p) (c.module.flatten 0)
        chunk.prototypes.toList := by
  unfold loadChunk at h
  dsimp only at h
  split at h
  · cases h
  · cases hps : (c.module.flatten 0).mapM (l.link c.module) with
    | error e =>
      rw [hps] at h
      cases h
    | ok ps =>
      rw [hps] at h
      cases h
      exact ⟨_, rfl, rfl, forall₂_of_mapM hps⟩

/-- Every prototype of a chunk has been linked. -/
theorem exists_of_linked {own : Prototype} {flats : List FlatPrototype} {ps : Array LinkedPrototype}
    (h : List.Forall₂ (fun flat p => l.link own flat = .ok p) flats ps.toList) {p : LinkedPrototype}
    (hp : p ∈ ps) : ∃ flat ∈ flats, l.link own flat = .ok p := by
  obtain ⟨i, hi, rfl⟩ := List.mem_iff_getElem.mp (Array.mem_toList_iff.mpr hp)
  have hlength := h.length_eq
  exact ⟨flats[i], List.getElem_mem _, h.get (by omega) hi⟩

/-- What has been linked holds no object. -/
def Inlined (l : Loader) : Prop :=
  ∀ chunk ∈ l.chunks, ∀ p ∈ chunk.prototypes, ∀ v ∈ p.imports, v.ref? = none

theorem exists_of_prototype {f : FuncRef} {p : LinkedPrototype} (h : l.prototype f = .ok p) :
    ∃ chunk, l.chunks[f.chunk.toNat]? = some chunk ∧ chunk.prototypes[f.proto.toNat]? = some p := by
  unfold prototype at h
  split at h
  · cases h
  · rename_i chunk hchunk
    split at h
    · cases h
    · rename_i q hq
      cases h
      exact ⟨chunk, hchunk, hq⟩

/-- A chunk that is added does not change where references to others lead. -/
theorem prototype_add {chunk : LinkedChunk} {f : FuncRef} (hf : f.chunk.toNat < l.chunks.size) :
    (l.add chunk).prototype f = l.prototype f := by
  unfold prototype add
  rw [Array.getElem?_push_lt hf, ← Array.getElem?_eq_getElem]

/-- What has been loaded stays as it is. -/
theorem Extends.prototype {l' : Loader} (step : l.Extends l') {f : FuncRef} {p : LinkedPrototype}
    (h : l.prototype f = .ok p) : l'.prototype f = .ok p := by
  cases step with
  | loadChunk run =>
    obtain ⟨chunk, hchunk, -⟩ := exists_of_prototype h
    obtain ⟨new, hloader, -⟩ := exists_of_loadChunk run
    rw [hloader, prototype_add (Array.getElem?_eq_some_iff.mp hchunk).1, h]
  | register | report => exact h

theorem Inlined.inline (h : l.Inlined) : l.Inline := by
  intro f p hp
  obtain ⟨chunk, hchunk, hq⟩ := exists_of_prototype hp
  exact h chunk (Array.mem_of_getElem? hchunk) p (Array.mem_of_getElem? hq)

theorem Inlined.extend (h : l.Inlined) {l' : Loader} (step : l.Extends l') : l'.Inlined := by
  cases step with
  | loadChunk run =>
    obtain ⟨chunk, hloader, -, hlinked⟩ := exists_of_loadChunk run
    rw [hloader]
    intro chunk' hchunk' p hp
    cases Array.mem_push.mp hchunk' with
    | inl hold => exact h chunk' hold p hp
    | inr heq =>
      rw [heq] at hp
      obtain ⟨flat, -, hflat⟩ := exists_of_linked hlinked hp
      exact inline_of_link hflat
  | register | report => exact h

/-- No import of a loaded chunk holds an object. -/
theorem Built.inline (built : l.Built) : l.Inline := by
  suffices h : l.Inlined from h.inline
  induction built with
  | create natives policy => exact fun chunk hchunk => nomatch hchunk
  | extend _ step ih => exact ih.extend step

end Loader

end ActorMachine
