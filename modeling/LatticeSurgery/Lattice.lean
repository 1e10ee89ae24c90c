import LatticeSurgery.Lattice.Error

namespace LatticeSurgery

/-! The patches of one time slice. The grid reaches as far as the cells of the
patches do, and at least as far as its least dimensions. -/

structure Lattice where
  patches : List Patch
  leastRows : Int
  leastCols : Int
deriving DecidableEq, Repr

namespace Lattice

def empty (rows cols : Int) : Lattice := ⟨[], rows, cols⟩

def cells (lattice : Lattice) : List Cell := lattice.patches.flatMap Patch.cells

/-! Dimensions. A cell at the limit of its word leaves no room for the count. -/

def extent (least : Int) (coordinates : List Int) : Except Fault Int := do
  let ends ← coordinates.mapM fun coordinate => Word.check32 (coordinate + 1)
  return ends.foldl max least

def rows (lattice : Lattice) : Except Fault Int :=
  extent lattice.leastRows (lattice.cells.map Cell.row)

def cols (lattice : Lattice) : Except Fault Int :=
  extent lattice.leastCols (lattice.cells.map Cell.col)

/-- The numbers of rows, columns and patches. -/
def dimensions (lattice : Lattice) : Except Fault (List Int) := do
  return [← lattice.rows, ← lattice.cols, lattice.patches.length]

def inBounds (lattice : Lattice) (cell : Cell) : Except Fault Bool := do
  let cols ← lattice.cols
  if 0 ≤ cell.col ∧ cell.col < cols then
    let rows ← lattice.rows
    return decide (0 ≤ cell.row ∧ cell.row < rows)
  else return false

/-! Looking up patches. Where several patches answer, the first one is taken. -/

def indexAt? (lattice : Lattice) (cell : Cell) : Option Nat :=
  lattice.patches.findIdx? fun patch => patch.covers cell

def patchAt? (lattice : Lattice) (cell : Cell) : Option Patch :=
  lattice.patches.find? fun patch => patch.covers cell

def isFree (lattice : Lattice) (cell : Cell) : Bool := (lattice.patchAt? cell).isNone

/-- The representative of the patch that covers a cell. -/
def representative? (lattice : Lattice) (cell : Cell) : Option Cell := do
  (← lattice.patchAt? cell).cells.head?

def indexOf? (lattice : Lattice) (id : PatchId) : Option Nat :=
  lattice.patches.findIdx? fun patch => patch.id = some id

def patchOf? (lattice : Lattice) (id : PatchId) : Option Patch :=
  lattice.patches.find? fun patch => patch.id = some id

/-- The representative cell of the patch with an identifier. -/
def cellOf? (lattice : Lattice) (id : PatchId) : Except Fault (Option Cell) :=
  match lattice.patchOf? id with
  | none => .ok none
  | some patch => do return some (← patch.representative)

/-- The covered cells, column by column. -/
def occupied (lattice : Lattice) : List Cell :=
  lattice.cells.eraseDups.mergeSort fun left right =>
    left.col < right.col || (left.col = right.col && left.row ≤ right.row)

/-! Changes. -/

def add (lattice : Lattice) (patch : Patch) : Result LatticeError Lattice :=
  match patch.cells.find? fun cell => !lattice.isFree cell with
  | some cell => Result.refuse (.cellOccupied cell)
  | none => .ok { lattice with patches := lattice.patches ++ [patch] }

def remove (lattice : Lattice) (index : Nat) : Lattice :=
  { lattice with patches := lattice.patches.eraseIdx index }

def modify (lattice : Lattice) (index : Nat) (change : Patch → Patch) : Lattice :=
  { lattice with patches := lattice.patches.modify index change }

/-! From one slice to the next. Merge regions vanish, measured patches that have
served their purpose are removed, and all other patches settle. -/

def clearAncilla (lattice : Lattice) : Lattice :=
  { lattice with
    patches := (lattice.patches.filter fun patch => patch.role ≠ .ancilla).map Patch.release }

/-- A measured patch with one of the given identifiers. -/
def isSpent (consumed : List PatchId) (patch : Patch) : Bool :=
  patch.isMeasured &&
    match patch.id with
    | some id => consumed.contains id
    | none => false

def clearActive (lattice : Lattice) (consumed : List PatchId) : Lattice :=
  { lattice with
    patches := (lattice.patches.filter fun patch => !isSpent consumed patch).map Patch.settle }

end Lattice

end LatticeSurgery
