import ActorMachine.Chunk.Prototype
import ActorMachine.Number.Text
import ActorMachine.Text.Quoted

/-!
# Listings

The text form of a chunk: one indented block for each prototype, with its constants, its imports and
its code, followed by the blocks of the prototypes nested in it.
-/

namespace ActorMachine

/-- A constant as a listing shows it. -/
def Constant.listing : Constant → String
  | integer n => toString n.toInt
  | text s => Text.quote s
  | real x => x.text

/-- A number at the right of a field of `width` characters. -/
def Text.alignRight (width n : Nat) : String :=
  let digits := (toString n).toList
  String.ofList (List.replicate (width - digits.length) ' ' ++ digits)

namespace Prototype

/-- The lines of one prototype without those nested in it. -/
def ownLines (p : Prototype) : List String :=
  let name := if p.symbol = "" then "<anon>" else p.symbol
  let source := if p.source = "" then "" else s!" ({p.source})"
  s!"proto {name}{source}" ::
    (p.constants.zipIdx.map (fun (c, i) => s!"  k{i} = {c.listing}") ++
     p.imports.zipIdx.map (fun (m, i) => s!"  import {i} {m.module}:{m.name}") ++
     p.code.zipIdx.map (fun (c, i) => s!"  {Text.alignRight 4 i}  {c.text}"))

mutual

/-- The lines of a prototype and of those nested in it, two blanks further right at each level. -/
def lines (indent : String) : Prototype → List String
  | p@⟨_, _, _, _, _, nested⟩ =>
    p.ownLines.map (indent ++ ·) ++ forestLines (indent ++ "  ") nested

/-- The lines of a list of prototypes. -/
def forestLines (indent : String) : List Prototype → List String
  | [] => []
  | p :: ps => lines indent p ++ forestLines indent ps

end

end Prototype

/-- The listing of a chunk. -/
def Chunk.listing (c : Chunk) : String :=
  String.join ((c.module.lines "").map (· ++ "\n"))

end ActorMachine
