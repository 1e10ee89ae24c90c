import LatticeSurgery.Patch
import LatticeSurgery.Patch.Names

namespace LatticeSurgery

/-! One line of text for a patch: its role, name, state, cells and edges. -/

def PatchState.summary : PatchState → String
  | .idle state => state.ket
  | .active (.unitary operator) next => s!"U({operator.text})->{next.ket}"
  | .active (.measurement basis) next => s!"M({basis.text})->{next.ket}"

def Side.letter : Side → String
  | .top => "T"
  | .bottom => "B"
  | .left => "L"
  | .right => "R"

def Border.letters : Border → String
  | .solid => "S"
  | .solidStitched => "SS"
  | .dashed => "D"
  | .dashedStitched => "DS"
  | .join => "J"

def Cell.summary (cell : Cell) : String := s!"{cell.col},{cell.row}"

def Edge.summary (edge : Edge) : String :=
  edge.cell.summary ++ edge.side.letter ++ "=" ++ edge.border.letters

def Patch.summary (names : PatchNames) (patch : Patch) : String :=
  String.intercalate "|"
    [patch.role.name, (patch.id.map names.text).getD "-",
      (patch.state.map PatchState.summary).getD "-",
      String.intercalate " " (patch.cells.map Cell.summary),
      String.intercalate " " (patch.edges.map Edge.summary)]

end LatticeSurgery
