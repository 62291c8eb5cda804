import ActorMachine.Proofs.Linking

/-!
# Trees laid out as lists

The list of a tree of prototypes holds them in depth-first order (`Prototype.map_flatten`). A
position that a prototype keeps of one nested in it is behind its own, so a tree can be read back
from a list (`LinkedChunk.rebuild?`), and a chunk that spells out a tree gives it back, imports
apart (`LinkedChunk.Spells.rebuild?_eq`). A module exports under every name but the empty one the
last prototype of that name among those nested directly in it
(`Prototype.find?_exports_eq_some_iff`), and the directory of its chunk is in step with the list
(`LinkedChunk.Spells.lastChild?_eq`).
-/

namespace ActorMachine

namespace Prototype

mutual

/-- The prototypes of a tree in depth-first order, the root first. -/
def preorder : Prototype → List Prototype
  | p@⟨_, _, _, _, _, nested⟩ => p :: preorderForest nested

/-- The prototypes of some trees in depth-first order. -/
def preorderForest : List Prototype → List Prototype
  | [] => []
  | p :: ps => preorder p ++ preorderForest ps

end

mutual

/-- A tree without its imports. -/
def bare : Prototype → Prototype
  | ⟨source, symbol, code, constants, _, nested⟩ =>
    ⟨source, symbol, code, constants, [], bareForest nested⟩

/-- Some trees without their imports. -/
def bareForest : List Prototype → List Prototype
  | [] => []
  | p :: ps => bare p :: bareForest ps

end

/-- What a module exports under a name: a prototype that is nested directly in it and followed by no
other of this name. It has the position behind the module and the trees before it. -/
def Exports (m : Prototype) (name : String) (child : Prototype) (position : Nat) : Prop :=
  name ≠ "" ∧ ∃ before after, m.nested = before ++ child :: after ∧ child.symbol = name ∧
    (∀ p ∈ after, p.symbol ≠ name) ∧ position = 1 + forestSize before

/-! ## The list of a tree -/

mutual

theorem map_flatten : (start : Nat) → (p : Prototype) →
    (p.flatten start).map (·.prototype) = p.preorder
  | start, ⟨source, symbol, code, constants, imports, nested⟩ => by
    rw [flatten, preorder, List.map_cons, map_flattenForest (start + 1) nested]

theorem map_flattenForest : (start : Nat) → (ps : List Prototype) →
    (flattenForest start ps).map (·.prototype) = preorderForest ps
  | _, [] => by
    rw [flattenForest, preorderForest, List.map_nil]
  | start, p :: ps => by
    rw [flattenForest, preorderForest, List.map_append, map_flatten start p,
      map_flattenForest (start + p.treeSize) ps]

end

/-- What is at a place of the list of some trees is in the list of the first tree or of the
others. -/
theorem getElem?_flattenForest_cons {start k : Nat} {p : Prototype} {ps : List Prototype}
    {flat : FlatPrototype} :
    (flattenForest start (p :: ps))[k]? = some flat ↔
    (k < p.treeSize ∧ (p.flatten start)[k]? = some flat) ∨
      ∃ j, k = p.treeSize + j ∧ (flattenForest (start + p.treeSize) ps)[j]? = some flat := by
  have hlength := length_flatten start p
  rw [flattenForest]
  constructor
  · intro h
    by_cases hk : k < p.treeSize
    · exact .inl ⟨hk, by rwa [List.getElem?_append_left (by omega)] at h⟩
    · refine .inr ⟨k - p.treeSize, by omega, ?_⟩
      rwa [List.getElem?_append_right (by omega), hlength] at h
  · rintro (⟨hk, h⟩ | ⟨j, rfl, h⟩)
    · rwa [List.getElem?_append_left (by omega)]
    · rw [List.getElem?_append_right (by omega), hlength, Nat.add_sub_cancel_left]
      exact h

theorem le_of_mem_rootPositions {start : Nat} {ps : List Prototype} {position : Nat}
    (h : position ∈ rootPositions start ps) : start ≤ position := by
  induction ps generalizing start with
  | nil => cases h
  | cons p ps ih =>
    rcases List.mem_cons.mp h with rfl | h
    · exact Nat.le_refl _
    · exact Nat.le_trans (Nat.le_add_right _ _) (ih h)

mutual

/-- A prototype comes before those nested in it. -/
theorem lt_nested_flatten :
    (start : Nat) → (p : Prototype) → ∀ k flat, (p.flatten start)[k]? = some flat →
    ∀ position ∈ flat.nested, start + k < position
  | start, ⟨source, symbol, code, constants, imports, nested⟩ => by
    intro k flat hflat position hposition
    rw [flatten] at hflat
    cases k with
    | zero =>
      cases hflat
      exact le_of_mem_rootPositions hposition
    | succ k =>
      rw [List.getElem?_cons_succ] at hflat
      have := lt_nested_flattenForest (start + 1) nested k flat hflat position hposition
      omega

theorem lt_nested_flattenForest : (start : Nat) → (ps : List Prototype) → ∀ k flat,
    (flattenForest start ps)[k]? = some flat → ∀ position ∈ flat.nested, start + k < position
  | start, [] => by
    intro k flat hflat
    rw [flattenForest] at hflat
    cases hflat
  | start, p :: ps => by
    intro k flat hflat position hposition
    rcases getElem?_flattenForest_cons.mp hflat with ⟨-, hfirst⟩ | ⟨j, rfl, hrest⟩
    · exact lt_nested_flatten start p k flat hfirst position hposition
    · have := lt_nested_flattenForest (start + p.treeSize) ps j flat hrest position hposition
      omega

end

theorem head?_flatten (start : Nat) (p : Prototype) :
    (p.flatten start)[0]? = some ⟨p, rootPositions (start + 1) p.nested⟩ := by
  cases p
  rw [flatten]
  rfl

/-- At the positions of the roots are the roots. -/
theorem getElem?_of_mem_zip {start : Nat} {ps : List Prototype} {p : Prototype} {position : Nat}
    (h : (p, position) ∈ ps.zip (rootPositions start ps)) :
    ∃ k flat, position = start + k ∧ (flattenForest start ps)[k]? = some flat ∧
      flat.prototype = p := by
  induction ps generalizing start with
  | nil => cases h
  | cons q ps ih =>
    rw [rootPositions, List.zip_cons_cons] at h
    rcases List.mem_cons.mp h with heq | h
    · cases heq
      exact ⟨0, _, rfl, getElem?_flattenForest_cons.mpr (.inl ⟨p.treeSize_pos, head?_flatten _ p⟩),
        rfl⟩
    · obtain ⟨k, flat, rfl, hflat, hp⟩ := ih h
      exact ⟨q.treeSize + k, flat, Nat.add_assoc _ _ _,
        getElem?_flattenForest_cons.mpr (.inr ⟨k, rfl, hflat⟩), hp⟩

theorem length_rootPositions (start : Nat) (ps : List Prototype) :
    (rootPositions start ps).length = ps.length := by
  induction ps generalizing start with
  | nil => rfl
  | cons p ps ih => rw [rootPositions, List.length_cons, List.length_cons, ih]

/-! ## What a module exports -/

/-- A split of a list that has been extended is at the new head or within the rest. -/
theorem exists_split_cons {q p : Prototype} {ps : List Prototype}
    {P : List Prototype → List Prototype → Prop} :
    (∃ before after, q :: ps = before ++ p :: after ∧ P before after) ↔
      (q = p ∧ P [] ps) ∨ ∃ before after, ps = before ++ p :: after ∧ P (q :: before) after := by
  constructor
  · rintro ⟨before, after, heq, h⟩
    cases before with
    | nil =>
      cases heq
      exact .inl ⟨rfl, h⟩
    | cons b before =>
      cases heq
      exact .inr ⟨before, after, rfl, h⟩
  · rintro (⟨rfl, h⟩ | ⟨before, after, rfl, h⟩)
    · exact ⟨[], ps, rfl, h⟩
    · exact ⟨q :: before, after, rfl, h⟩

theorem findRev?_zip_eq_none {start : Nat} {ps : List Prototype} {good : Prototype → Bool} :
    (ps.zip (rootPositions start ps)).findRev? (fun x => good x.1) = none ↔
    ∀ p ∈ ps, good p = false := by
  induction ps generalizing start with
  | nil => simp
  | cons q ps ih =>
    rw [rootPositions, List.zip_cons_cons, List.findRev?, List.forall_mem_cons,
      ← @ih (start + q.treeSize)]
    cases (ps.zip (rootPositions (start + q.treeSize) ps)).findRev? fun x => good x.1 <;> simp

/-- The last of some trees whose root has a property, and where it is. -/
theorem findRev?_zip_rootPositions {start : Nat} {ps : List Prototype} {good : Prototype → Bool}
    {p : Prototype} {position : Nat} :
    (ps.zip (rootPositions start ps)).findRev? (fun x => good x.1) = some (p, position) ↔
      ∃ before after, ps = before ++ p :: after ∧ good p = true ∧ (∀ q ∈ after, good q = false) ∧
        position = start + forestSize before := by
  induction ps generalizing start with
  | nil => simp
  | cons q ps ih =>
    have ih := @ih (start + q.treeSize)
    have hnone := @findRev?_zip_eq_none (start + q.treeSize) ps good
    have hbehind : ∀ before, start + q.treeSize + forestSize before =
        start + forestSize (q :: before) :=
      fun before => by rw [forestSize, Nat.add_assoc]
    simp only [hbehind] at ih
    rw [rootPositions, List.zip_cons_cons, List.findRev?, exists_split_cons]
    cases hrest : (ps.zip (rootPositions (start + q.treeSize) ps)).findRev? fun x => good x.1 with
    | some x =>
      -- One of the others has the property, so the first is not the last one.
      rw [← ih, hrest]
      refine ⟨.inr, fun h => h.elim (fun hfirst => ?_) id⟩
      have := hnone.mpr hfirst.2.2.1
      rw [hrest] at this
      cases this
    | none =>
      rw [← ih, hrest, forestSize]
      have hall := hnone.mp hrest
      by_cases hgood : good q
      · simp only [hgood, if_true, Option.some.injEq, Prod.mk.injEq]
        constructor
        · rintro ⟨rfl, rfl⟩
          exact .inl ⟨rfl, hgood, hall, rfl⟩
        · rintro (⟨rfl, -, -, rfl⟩ | h)
          · exact ⟨rfl, rfl⟩
          · cases h
      · simp only [hgood]
        constructor
        · intro h
          cases h
        · rintro (⟨rfl, h, -⟩ | h)
          · exact absurd h hgood
          · cases h

theorem find?_exports_eq_some_iff {m : Prototype} {name : String} {position : Nat} :
    m.exports.find? name = some position ↔ ∃ child, m.Exports name child position := by
  rw [find?_exports]
  unfold Exports
  by_cases hname : name = ""
  · rw [if_pos hname]
    exact ⟨nofun, fun ⟨_, h, _⟩ => absurd hname h⟩
  · rw [if_neg hname, Option.map_eq_some_iff]
    have last := fun p => @findRev?_zip_rootPositions 1 m.nested (·.symbol == name) p
    constructor
    · rintro ⟨⟨p, position'⟩, hfound, rfl⟩
      obtain ⟨before, after, heq, hgood, hafter, hposition⟩ := (last p).mp hfound
      exact ⟨p, hname, before, after, heq, beq_iff_eq.mp hgood,
        fun q hq => beq_eq_false_iff_ne.mp (hafter q hq), hposition⟩
    · rintro ⟨p, -, before, after, heq, hsymbol, hafter, hposition⟩
      exact ⟨(p, position), (last p).mpr
        ⟨before, after, heq, beq_iff_eq.mpr hsymbol,
          fun q hq => beq_eq_false_iff_ne.mpr (hafter q hq),
          hposition⟩, rfl⟩

end Prototype

theorem findRev?_map_snd {α β : Type} {xs : List (α × β)} {f : β → Bool} {g : α × β → Bool}
    (h : ∀ x ∈ xs, f x.2 = g x) : (xs.map (·.2)).findRev? f = (xs.findRev? g).map (·.2) := by
  induction xs with
  | nil => rfl
  | cons x xs ih =>
    rw [List.map_cons, List.findRev?, List.findRev?, ih fun y hy => h y (List.mem_cons_of_mem x hy),
      h x List.mem_cons_self]
    cases xs.findRev? g with
    | some y => rfl
    | none => cases hx : g x <;> simp

/-! ## Chunks that spell out trees -/

/-- A linked prototype has the names, the code and the constants of a prototype. -/
structure LinkedPrototype.Carries (q : LinkedPrototype) (p : Prototype) : Prop where
  source : q.source = p.source
  symbol : q.symbol = p.symbol
  code : q.code = p.code.toArray
  constants : q.constants = p.constants.toArray

namespace LinkedChunk

/-- The tree that has its root at a position of the list, without imports. Every prototype is looked
for behind the one that it is nested in. -/
def rebuild? (c : LinkedChunk) (position : Nat) : Option Prototype :=
  match _found : c.prototypes[position]? with
  | none => none
  | some q => do
    let nested ← q.nested.toList.mapM fun child =>
      if position < child then c.rebuild? child else none
    return ⟨q.source, q.symbol, q.code.toList, q.constants.toList, [], nested⟩
termination_by c.prototypes.size - position
decreasing_by
  have hlt := (Array.getElem?_eq_some_iff.mp _found).1
  omega

/-- From a position on the chunk has the prototypes of a list. -/
def SpellsFrom (c : LinkedChunk) (start : Nat) (flats : List FlatPrototype) : Prop :=
  ∀ k flat, flats[k]? = some flat →
    ∃ q, c.prototypes[start + k]? = some q ∧ q.Carries flat.prototype ∧
      q.nested = flat.nested.toArray

/-- The last prototype of a name that the list has directly below its first one. -/
def lastChild? (c : LinkedChunk) (name : String) : Option Nat :=
  if name = "" then
    none
  else do
    let root ← c.prototypes[0]?
    root.nested.toList.findRev? fun position =>
      c.prototypes[position]?.any (·.symbol == name)

/-- The list of the chunk is that of a tree, and its directory that of the exports. -/
structure Spells (c : LinkedChunk) (m : Prototype) : Prop where
  name : c.name = m.symbol
  exports : c.exports = m.exports
  size : c.prototypes.size = m.treeSize
  list : c.SpellsFrom 0 (m.flatten 0)

variable {c : LinkedChunk}

open Prototype

mutual

theorem SpellsFrom.rebuild?_eq :
    (start : Nat) → (p : Prototype) → c.SpellsFrom start (p.flatten start) →
    c.rebuild? start = some p.bare
  | start, ⟨source, symbol, code, constants, imports, nested⟩ => by
    intro spells
    rw [flatten] at spells
    obtain ⟨q, hq, ⟨hsource, hsymbol, hcode, hconstants⟩, hnested⟩ := spells 0 _ rfl
    have hrest : c.SpellsFrom (start + 1) (flattenForest (start + 1) nested) := by
      intro k flat hflat
      rw [Nat.add_assoc, Nat.add_comm 1 k]
      exact spells (k + 1) flat hflat
    have hforest := SpellsFrom.rebuildForest?_eq (start + 1) nested start
      (Nat.lt_succ_self start) hrest
    rw [Nat.add_zero] at hq
    rw [rebuild?]
    split
    · next hnone =>
      rw [hnone] at hq
      cases hq
    · next q' hq' =>
      rw [hq] at hq'
      cases hq'
      rw [hnested, List.toList_toArray, hforest, hsource, hsymbol, hcode, hconstants, bare]
      rfl

theorem SpellsFrom.rebuildForest?_eq :
    (start : Nat) → (ps : List Prototype) → (own : Nat) → own < start →
    c.SpellsFrom start (flattenForest start ps) →
    (rootPositions start ps).mapM (fun child => if own < child then c.rebuild? child else none) =
      some (bareForest ps)
  | start, [] => by
    intro own _ _
    rw [rootPositions, bareForest]
    rfl
  | start, p :: ps => by
    intro own hown spells
    have hfirst : c.SpellsFrom start (p.flatten start) := fun k flat hflat =>
      spells k flat (getElem?_flattenForest_cons.mpr (.inl ⟨by
        have hlt := (List.getElem?_eq_some_iff.mp hflat).1
        rwa [length_flatten] at hlt, hflat⟩))
    have hrest : c.SpellsFrom (start + p.treeSize) (flattenForest (start + p.treeSize) ps) := by
      intro k flat hflat
      rw [Nat.add_assoc]
      exact spells (p.treeSize + k) flat (getElem?_flattenForest_cons.mpr (.inr ⟨k, rfl, hflat⟩))
    have htail := SpellsFrom.rebuildForest?_eq (start + p.treeSize) ps own (by omega) hrest
    rw [rootPositions, List.mapM_cons, if_pos hown, SpellsFrom.rebuild?_eq start p hfirst,
      htail, bareForest]
    rfl

end

namespace Spells

variable {m : Prototype}

/-- The tree can be read back. -/
theorem rebuild?_eq (h : c.Spells m) : c.rebuild? 0 = some m.bare := h.list.rebuild?_eq

theorem preorder (h : c.Spells m) {k : Nat} {p : Prototype} (hp : m.preorder[k]? = some p) :
    ∃ q, c.prototypes[k]? = some q ∧ q.Carries p := by
  rw [← map_flatten 0, List.getElem?_map, Option.map_eq_some_iff] at hp
  obtain ⟨flat, hflat, rfl⟩ := hp
  obtain ⟨q, hq, hcarries, -⟩ := h.list k flat hflat
  rw [Nat.zero_add] at hq
  exact ⟨q, hq, hcarries⟩

/-- A prototype comes before those nested in it, and all are in the list. -/
theorem nested (h : c.Spells m) {k : Nat} {q : LinkedPrototype} (hq : c.prototypes[k]? = some q)
    {child : Nat} (hchild : child ∈ q.nested) : k < child ∧ child < c.prototypes.size := by
  have hk := (Array.getElem?_eq_some_iff.mp hq).1
  rw [h.size, ← length_flatten 0] at hk
  obtain ⟨q', hq', -, hnested⟩ := h.list k _ (List.getElem?_eq_getElem hk)
  rw [Nat.zero_add, hq] at hq'
  cases hq'
  rw [hnested, List.mem_toArray] at hchild
  have hlt := lt_nested_flatten 0 m k _ (List.getElem?_eq_getElem hk) child hchild
  have hinside := nested_flatten_lt 0 m _ (List.getElem_mem hk) child hchild
  rw [h.size]
  omega

/-- At the positions of the prototypes nested directly in the module are these prototypes. -/
theorem root (h : c.Spells m) {p : Prototype} {position : Nat}
    (hp : (p, position) ∈ m.nested.zip (rootPositions 1 m.nested)) :
    ∃ q, c.prototypes[position]? = some q ∧ q.symbol = p.symbol := by
  obtain ⟨k, flat, rfl, hflat, rfl⟩ := getElem?_of_mem_zip hp
  have hlist : (m.flatten 0)[k + 1]? = some flat := by
    cases m
    rw [flatten, List.getElem?_cons_succ]
    exact hflat
  obtain ⟨q, hq, hcarries, -⟩ := h.list (k + 1) flat hlist
  exact ⟨q, by rw [← hq]; congr 1; omega, hcarries.symbol⟩

/-- The directory is in step with the list. -/
theorem lastChild?_eq (h : c.Spells m) (name : String) :
    c.lastChild? name = c.exports.find? name := by
  obtain ⟨root, hroot, -, hnested⟩ := h.list 0 _ (head?_flatten 0 m)
  rw [h.exports, find?_exports]
  unfold lastChild?
  by_cases hname : name = ""
  · rw [if_pos hname, if_pos hname]
  · rw [if_neg hname, if_neg hname, show c.prototypes[0]? = some root from hroot]
    have hpositions : root.nested.toList = (m.nested.zip (rootPositions 1 m.nested)).map (·.2) := by
      rw [hnested, List.toList_toArray, List.map_snd_zip (Nat.le_of_eq (length_rootPositions _ _))]
    show root.nested.toList.findRev? _ = _
    rw [hpositions]
    refine findRev?_map_snd fun x hx => ?_
    obtain ⟨p, position⟩ := x
    obtain ⟨q, hq, hsymbol⟩ := h.root hx
    show c.prototypes[position]?.any (·.symbol == name) = (p.symbol == name)
    rw [hq, ← hsymbol]
    rfl

end Spells

/-- A chunk holds a module: its prototypes in depth-first order, each of which knows where those
nested in it are, which is behind it. Put together again they are the module, imports apart. -/
structure Represents (c : LinkedChunk) (m : Prototype) : Prop where
  name : c.name = m.symbol
  size : c.prototypes.size = m.treeSize
  preorder : ∀ (k : Nat) p, m.preorder[k]? = some p → ∃ q, c.prototypes[k]? = some q ∧ q.Carries p
  nested : ∀ (k : Nat) q, c.prototypes[k]? = some q → ∀ child ∈ q.nested, k < child ∧
    child < c.prototypes.size
  rebuild : c.rebuild? 0 = some m.bare

theorem Spells.represents {m : Prototype} (h : c.Spells m) : c.Represents m :=
  ⟨h.name, h.size, fun _ _ => h.preorder, fun _ _ hq _ => h.nested hq, h.rebuild?_eq⟩

end LinkedChunk

end ActorMachine
