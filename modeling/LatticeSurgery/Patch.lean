import LatticeSurgery.Lattice.Cell
import LatticeSurgery.Patch.Identifier
import LatticeSurgery.Patch.State

namespace LatticeSurgery

/-! Borders of patches. A solid border carries Z operators and a dashed border
carries X operators. A stitched border takes part in the merge of the current
slice, and joins connect the cells of the merge region. -/

inductive Border where
  | solid
  | solidStitched
  | dashed
  | dashedStitched
  | join
deriving DecidableEq, Repr

namespace Border

def all : List Border := [solid, solidStitched, dashed, dashedStitched, join]

def name : Border → String
  | solid => "Solid"
  | solidStitched => "SolidStitched"
  | dashed => "Dashed"
  | dashedStitched => "DashedStitched"
  | join => "AncillaJoin"

def ofName? (name : String) : Option Border := all.find? fun border => border.name = name

/-- The border at which a Pauli operator is measured. -/
def exposing? : Pauli → Option Border
  | .X => some dashed
  | .Z => some solid
  | _ => none

def stitched : Border → Border
  | solid => solidStitched
  | dashed => dashedStitched
  | border => border

def unstitched : Border → Border
  | solidStitched => solid
  | dashedStitched => dashed
  | border => border

def isStitched : Border → Bool
  | solidStitched | dashedStitched => true
  | _ => false

@[simp] theorem unstitched_stitched_of_plain {border : Border}
    (plain : border.isStitched = false) : border.stitched.unstitched = border := by
  cases border <;> simp_all [isStitched, stitched, unstitched]

end Border

/-! One side of one cell of a patch. -/

structure Edge where
  cell : Cell
  side : Side
  border : Border
deriving DecidableEq, Repr

namespace Edge

def across (edge : Edge) : Except Fault Cell := edge.cell.neighbour edge.side

def stitch (edge : Edge) : Edge := { edge with border := edge.border.stitched }

def unstitch (edge : Edge) : Edge := { edge with border := edge.border.unstitched }

def faces (edge : Edge) (cell neighbour : Cell) : Except Fault Bool := do
  if edge.cell = cell then return decide ((← edge.across) = neighbour) else return false

end Edge

/-! A patch covers one or more cells and is addressed by the first of them, its
representative. Ancilla patches belong to the merge region of one slice. -/

inductive PatchRole where
  | qubit
  | distillation
  | ancilla
deriving DecidableEq, Repr

namespace PatchRole

def all : List PatchRole := [qubit, distillation, ancilla]

def name : PatchRole → String
  | qubit => "Qubit"
  | distillation => "DistillationQubit"
  | ancilla => "Ancilla"

def ofName? (name : String) : Option PatchRole := all.find? fun role => role.name = name

end PatchRole

structure Patch where
  role : PatchRole
  state : Option PatchState
  cells : List Cell
  edges : List Edge
  id : Option PatchId
deriving DecidableEq, Repr

namespace Patch

def bare (role : PatchRole) (state : Option PatchState) (cell : Cell) : Patch :=
  ⟨role, state, [cell], [], none⟩

def bordered (cell : Cell) (role : PatchRole) (state : SymbolicState)
    (vertical horizontal : Border) : Patch :=
  ⟨role, some (.idle state), [cell],
    [⟨cell, .top, vertical⟩, ⟨cell, .bottom, vertical⟩,
      ⟨cell, .left, horizontal⟩, ⟨cell, .right, horizontal⟩], none⟩

/-- A patch with dashed borders above and below and solid borders beside it. -/
def square (cell : Cell) (role : PatchRole) (state : SymbolicState) : Patch :=
  bordered cell role state .dashed .solid

/-- A patch with solid borders above and below and dashed borders beside it. -/
def rotatedSquare (cell : Cell) (role : PatchRole) (state : SymbolicState) : Patch :=
  bordered cell role state .solid .dashed

def ancilla (cell : Cell) : Patch := bare .ancilla none cell

def withCell (patch : Patch) (cell : Cell) : Patch :=
  { patch with cells := patch.cells ++ [cell] }

def withEdge (patch : Patch) (edge : Edge) : Patch :=
  { patch with edges := patch.edges ++ [edge] }

def withId (patch : Patch) (id : PatchId) : Patch := { patch with id := some id }

def withState (patch : Patch) (state : PatchState) : Patch := { patch with state := some state }

def representative (patch : Patch) : Except Fault Cell :=
  match patch.cells with
  | cell :: _ => .ok cell
  | [] => .error .missingPosition

def covers (patch : Patch) (cell : Cell) : Bool := patch.cells.contains cell

/-- The state that an operation acts on. Without a state nothing is known. -/
def heldState (patch : Patch) : PatchState := patch.state.getD (.idle .unknown)

def isMeasured (patch : Patch) : Bool := patch.heldState.isMeasured

/-! Merging. Stitching changes the borders on a cell that face a neighbour, and
joining adds a border between two cells of a merge region. Both tell whether they
found something to do. -/

def stitchTowards (patch : Patch) (cell neighbour : Cell) : Except Fault (Patch × Bool) := do
  let facing ← patch.edges.mapM fun edge => edge.faces cell neighbour
  let edges := patch.edges.zipWith (fun edge faces => if faces then edge.stitch else edge) facing
  return ({ patch with edges := edges }, facing.contains true)

def joinTowards (patch : Patch) (cell neighbour : Cell) : Except Fault (Patch × Bool) :=
  if patch.role = .ancilla ∧ patch.covers cell then do
    match ← cell.sideTowards neighbour with
    | none => return (patch, false)
    | some side =>
        if patch.edges.any fun edge => edge.cell = cell ∧ edge.side = side then
          return (patch, false)
        else return (patch.withEdge ⟨cell, side, .join⟩, true)
  else .ok (patch, false)

def hasStitched (patch : Patch) : Bool := patch.edges.any fun edge => edge.border.isStitched

/-- Undo a merge. Of a patch that took part in one, no state is known. -/
def release (patch : Patch) : Patch :=
  if patch.hasStitched then
    { patch with edges := patch.edges.map Edge.unstitch, state := some (.idle .unknown) }
  else patch

/-- Let an active patch settle. -/
def settle (patch : Patch) : Patch :=
  match patch.state with
  | some (.active _ next) => patch.withState (.idle next)
  | _ => patch

end Patch

end LatticeSurgery
