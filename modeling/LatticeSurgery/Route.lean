import LatticeSurgery.Lattice
import LatticeSurgery.Route.Search
import LatticeSurgery.Storage

namespace LatticeSurgery

/-! Merge regions of joint measurements. A request names patches by their
representative cells together with the operators to be measured on them. The
first patch is the source, and a path of free cells is laid from it to every other
patch. A path leaves and enters a patch through borders that expose the operator. -/

abbrev Request := List (Cell × Pauli)

/-- One path per target, with the cells of both patches at its ends, and the
cells that received an ancilla patch. -/
structure Region where
  paths : List (List Cell)
  ancillas : List Cell
deriving DecidableEq, Repr

namespace Route

/-! A request is valid when it names at least two different patches, each by its
representative and with an operator that has a border. -/

def checkEntry (lattice : Lattice) (seen : List Cell) (entry : Cell × Pauli) :
    Result LatticeError (List Cell) :=
  let (cell, basis) := entry
  if (Border.exposing? basis).isNone then Result.refuse (.invalidBasis basis)
  else if lattice.representative? cell ≠ some cell then
    Result.refuse (.notRepresentative cell)
  else if cell ∈ seen then Result.refuse (.route (.duplicatePatch cell))
  else .ok (cell :: seen)

def check (lattice : Lattice) (request : Request) : Result LatticeError Unit := do
  if request.length < 2 then
    Result.refuse (.route (.tooFewPatches request.length))
  let _ ← request.foldlM (checkEntry lattice) []

/-! The links of the search. Free cells of the grid are linked to their free
neighbours. A matching border of the source adds links from the representative to
the cell of the border and on to the free cell across it, and a matching border of
a target adds the same links in the opposite direction. -/

/-- The grid of a search. -/
structure Grid where
  rows : Int
  cols : Int
deriving DecidableEq, Repr

namespace Grid

/-- Columns are not looked at when there are no rows. -/
def ofLattice (lattice : Lattice) : Except Fault Grid := do
  let rows ← lattice.rows
  if 0 < rows then return ⟨rows, ← lattice.cols⟩ else return ⟨0, 0⟩

def size (grid : Grid) : Nat := grid.rows.toNat * grid.cols.toNat

def contains (grid : Grid) (cell : Cell) : Bool :=
  0 ≤ cell.col && cell.col < grid.cols && 0 ≤ cell.row && cell.row < grid.rows

end Grid

def isOpen (lattice : Lattice) (cell : Cell) : Except Fault Bool := do
  return (← lattice.inBounds cell) && lattice.isFree cell

/-- The links that a border adds for a patch with the given representative. -/
def edgeLinks (lattice : Lattice) (representative : Cell) (border : Border) (outward : Bool)
    (edge : Edge) : Except Fault (List (Cell × Cell)) := do
  if edge.border ≠ border then return []
  let neighbour ← edge.across
  if !(← isOpen lattice neighbour) then return []
  let hops := [(representative, edge.cell), (edge.cell, neighbour)]
  return if outward then hops else hops.map Prod.swap

def entryLinks (lattice : Lattice) (entry : (Cell × Pauli) × Nat) :
    Except Fault (List (Cell × Cell)) :=
  let ((cell, basis), position) := entry
  match lattice.patchAt? cell, Border.exposing? basis with
  | some patch, some border => do
      return (← patch.edges.mapM (edgeLinks lattice cell border (position = 0))).flatten
  | _, _ => .ok []

/-- The links of patches, in the order of the request. -/
def patchLinks (lattice : Lattice) (request : Request) : Except Fault (List (Cell × Cell)) := do
  return (← request.zipIdx.mapM (entryLinks lattice)).flatten

/-- The cells linked from a cell, the latest link first: those of patches in
reverse order, then the free neighbours to the right, left, bottom and top. -/
def linksFrom (lattice : Lattice) (grid : Grid) (links : List (Cell × Cell)) (cell : Cell) :
    List Cell :=
  let isFree (cell : Cell) : Bool := grid.contains cell && lattice.isFree cell
  let adjacent := if isFree cell then
    (Side.all.map fun side => Cell.mk (cell.col + side.offset.1) (cell.row + side.offset.2)).filter
      isFree
  else []
  let entering := links.filterMap fun (source, target) =>
    if source = cell ∧ target ≠ cell ∧ grid.contains source ∧ grid.contains target then
      some target
    else none
  (adjacent ++ entering).eraseDups.reverse

/-- The number of links from all cells of the grid. -/
def linkCount (lattice : Lattice) (grid : Grid) (links : List (Cell × Cell)) : Nat :=
  grid.rows.toNat.fold (fun row _ count => grid.cols.toNat.fold (fun col _ count =>
    count + (linksFrom lattice grid links ⟨col, row⟩).length) count) 0

def findPath (source : Cell) (found : List (Trail Cell)) (target : Cell) :
    Result LatticeError (List Cell) :=
  match Search.pathTo? found target with
  | some path => .ok path
  | none => Result.refuse (.route (.noPath source target))

/-- The cells of the grid are the nodes of the search, so their number is limited as
well as the number of links. -/
def findPaths (lattice : Lattice) (request : Request) : Result LatticeError (List (List Cell)) :=
  match request with
  | [] => .ok []
  | (source, _) :: targets => do
      let grid ← Grid.ofLattice lattice
      Storage.number grid.size
      let links ← patchLinks lattice request
      Storage.number (linkCount lattice grid links)
      let found := Search.trails (linksFrom lattice grid links) grid.size source
      targets.mapM fun (target, _) => findPath source found target

/-! Laying a path. The cells of the end patches before the last border are left
out. The borders at both ends are stitched, and the free cells in between become
ancilla patches that are joined to the cells before and behind them. -/

def trimStart (lattice : Lattice) (source : Cell) : List Cell → List Cell
  | first :: second :: third :: rest =>
      if lattice.representative? second = some source then
        trimStart lattice source (second :: third :: rest)
      else first :: second :: third :: rest
  | path => path

def trim (lattice : Lattice) (path : List Cell) : List Cell :=
  match path.head? with
  | none => path
  | some source =>
      let backward := (trimStart lattice source path).reverse
      match backward.head? with
      | none => path
      | some target => (trimStart lattice target backward).reverse

/-! Laying changes the lattice in place. When a step fails, what the steps before it
have changed stays changed. -/

abbrev Laying := EStateM (Failure LatticeError) Lattice

def Laying.lift {α : Type} : Result LatticeError α → Laying α
  | .ok value => pure value
  | .error failure => throw failure

def stitch (cell towards : Cell) : Laying Unit := do
  let lattice ← get
  match lattice.indexAt? cell, lattice.patchAt? cell with
  | some index, some patch =>
      let (stitched, _) ← Laying.lift (Result.ofFaulty (patch.stitchTowards cell towards))
      set (lattice.modify index fun _ => stitched)
  | _, _ => throw (.refused (.notRepresentative cell))

/-- Place an ancilla patch where the cell is free, and add the cell to the list. -/
def place (ancillas : List Cell) (cell : Cell) : Laying (List Cell) := do
  let lattice ← get
  match lattice.indexAt? cell with
  | some _ => return ancillas
  | none =>
      set (← Laying.lift (lattice.add (Patch.ancilla cell)))
      return ancillas ++ [cell]

def join (cell towards : Cell) : Laying Unit := do
  let lattice ← get
  match lattice.indexAt? cell, lattice.patchAt? cell with
  | some index, some patch =>
      let (joined, _) ← Laying.lift (Result.ofFaulty (patch.joinTowards cell towards))
      set (lattice.modify index fun _ => joined)
  | _, _ => return ()

/-- Place ancilla patches between the ends of a path, and join each of them to its
neighbours on the path. -/
def layInterior (ancillas : List Cell) : List Cell → Laying (List Cell)
  | before :: cell :: next :: rest => do
      let ancillas ← place ancillas cell
      join cell next
      join cell before
      layInterior ancillas (cell :: next :: rest)
  | _ => return ancillas

def layPath (region : Region) (path : List Cell) : Laying Region := do
  let path := trim (← get) path
  match path, path.reverse with
  | first :: second :: _, last :: previous :: _ =>
      stitch first second
      stitch last previous
      let ancillas ← layInterior region.ancillas path
      return ⟨region.paths ++ [path], ancillas⟩
  | _, _ => throw (.fault .missingPosition)

/-- Lay the merge region of a request on the lattice. -/
def lay (request : Request) : Laying Region := do
  let lattice ← get
  Laying.lift (check lattice request)
  let paths ← Laying.lift (findPaths lattice request)
  paths.foldlM layPath ⟨[], []⟩

end Route

/-- The lattice with the merge region of a request on it. -/
def Lattice.route (lattice : Lattice) (request : Request) :
    Result LatticeError (Lattice × Region) :=
  match (Route.lay request).run lattice with
  | .ok region routed => .ok (routed, region)
  | .error failure _ => .error failure

end LatticeSurgery
