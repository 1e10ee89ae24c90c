import LatticeSurgery.Word

namespace LatticeSurgery

/-! Cells of the grid. Columns grow to the right and rows grow downwards.
Coordinates are 32-bit words, so a cell at the limit has no neighbour there. -/

structure Cell where
  col : Int
  row : Int
deriving DecidableEq, Hashable, Repr

inductive Side where
  | top
  | bottom
  | left
  | right
deriving DecidableEq, Repr

namespace Side

def all : List Side := [top, bottom, left, right]

def name : Side → String
  | top => "Top"
  | bottom => "Bottom"
  | left => "Left"
  | right => "Right"

def ofName? (name : String) : Option Side := all.find? fun side => side.name = name

/-- The step in columns and rows to the cell on this side. -/
def offset : Side → Int × Int
  | top => (0, -1)
  | bottom => (0, 1)
  | left => (-1, 0)
  | right => (1, 0)

end Side

namespace Cell

def text (cell : Cell) : String := s!"({cell.col}, {cell.row})"

def neighbour (cell : Cell) (side : Side) : Except Fault Cell := do
  let col ← Word.check32 (cell.col + side.offset.1)
  let row ← Word.check32 (cell.row + side.offset.2)
  return ⟨col, row⟩

def neighbours (cell : Cell) : Except Fault (List Cell) := Side.all.mapM cell.neighbour

/-- The side of a cell that faces another cell, if the two are adjacent. -/
def sideTowards (cell other : Cell) : Except Fault (Option Side) := do
  let cols ← Word.check32 (other.col - cell.col)
  let rows ← Word.check32 (other.row - cell.row)
  return Side.all.find? fun side => side.offset = (cols, rows)

end Cell

end LatticeSurgery
