import LatticeSurgery.Lattice
import LatticeSurgery.Text.Json.Reader

namespace LatticeSurgery

open Text (Json)

/-! The JSON format of lattices. -/

namespace Cell

def toJson (cell : Cell) : Json := .object [("col", .integer cell.col), ("row", .integer cell.row)]

/-- A coordinate: a signed 32-bit word. -/
def coordinate? : Json → Option Int
  | .integer value => if Word.Fits32 value then some value else none
  | _ => none

def ofJson? (json : Json) : Option Cell := do
  match ← json.fields? ["col", "row"] with
  | [some col, some row] => return ⟨← coordinate? col, ← coordinate? row⟩
  | _ => none

end Cell

namespace Edge

def toJson (edge : Edge) : Json :=
  .object [("cell", edge.cell.toJson), ("orientation", .string edge.side.name),
    ("border_type", .string edge.border.name)]

def ofJson? (json : Json) : Option Edge := do
  match ← json.fields? ["cell", "orientation", "border_type"] with
  | [some cell, some side, some border] =>
      return ⟨← Cell.ofJson? cell, ← side.unit? >>= Side.ofName?, ← border.unit? >>= Border.ofName?⟩
  | _ => none

end Edge

namespace Patch

def toJson (patch : Patch) : Json :=
  .object [("patch_type", .string patch.role.name),
    ("state", Json.optionalTo PatchState.toJson patch.state),
    ("cells", .array (patch.cells.map Cell.toJson)),
    ("edges", .array (patch.edges.map Edge.toJson)),
    ("id", Json.optionalTo PatchId.toJson patch.id)]

def ofJson? (json : Json) : Option Patch := do
  match ← json.fields? ["patch_type", "state", "cells", "edges", "id"] with
  | [some role, state, some cells, some edges, id] =>
      return {
        role := ← role.unit? >>= PatchRole.ofName?
        state := ← Json.optional? PatchState.ofJson? state
        cells := ← cells.list? Cell.ofJson?
        edges := ← edges.list? Edge.ofJson?
        id := ← Json.optional? PatchId.ofJson? id }
  | _ => none

end Patch

namespace Lattice

def toJson (lattice : Lattice) : Json :=
  .object [("patches", .array (lattice.patches.map Patch.toJson)),
    ("min_rows", .integer lattice.leastRows), ("min_cols", .integer lattice.leastCols)]

def ofJson? (json : Json) : Option Lattice := do
  match ← json.fields? ["patches", "min_rows", "min_cols"] with
  | [some patches, some rows, some cols] =>
      return ⟨← patches.list? Patch.ofJson?, ← Cell.coordinate? rows, ← Cell.coordinate? cols⟩
  | _ => none

def jsonText (lattice : Lattice) : String := lattice.toJson.text

def ofJsonText? (source : String) : Option Lattice := Json.parse? source >>= ofJson?

end Lattice

end LatticeSurgery
