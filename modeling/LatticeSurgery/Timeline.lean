import LatticeSurgery.Layout
import LatticeSurgery.Operation.Table
import LatticeSurgery.Route

namespace LatticeSurgery

/-! Slices of a lattice over time. Every operation is marked on the current slice,
which is then closed. The slice that follows starts without merge regions and
without the patches that have been used up. -/

structure Timeline where
  /-- The closed slices, the latest first. -/
  closed : List Lattice
  current : Lattice
  magicCells : List Cell
  ancillaCells : List Cell
  /-- The patches that vanish once they are measured. -/
  consumed : List PatchId
deriving DecidableEq, Repr

namespace Timeline

def start (layout : Layout) : Timeline :=
  ⟨[], layout.lattice, layout.magicCells, layout.ancillaCells, []⟩

def slices (timeline : Timeline) : List Lattice :=
  timeline.closed.reverse ++ [timeline.current]

/-- Close the current slice as `marked` and open the next one. -/
def close (timeline : Timeline) (marked : Lattice) : Timeline :=
  { timeline with
    closed := marked :: timeline.closed
    current := marked.clearAncilla.clearActive timeline.consumed }

/-! A step changes the timeline even when it fails: what it had drawn from the
resources before the failure stays drawn. -/

abbrev Step := EStateM (Failure LatticeError) Timeline

namespace Step

def refuse {α : Type} (error : LatticeError) : Step α := throw (.refused error)

def lift {α : Type} : Result LatticeError α → Step α
  | .ok value => pure value
  | .error failure => throw failure

def consume (patch : PatchId) : Step Unit :=
  modify fun timeline => { timeline with consumed := patch :: timeline.consumed }

def drawMagic : Step Cell := do
  let timeline ← get
  match timeline.magicCells with
  | [] => refuse (.exhausted .magicStates)
  | cell :: rest =>
      set { timeline with magicCells := rest }
      return cell

end Step

/-! The marks of operations on a slice. -/

def changePatch (lattice : Lattice) (id : PatchId) (change : Patch → Patch) :
    Result LatticeError Lattice :=
  match lattice.indexOf? id with
  | some index => .ok (lattice.modify index change)
  | none => Result.refuse (.patchNotFound id)

def locate (lattice : Lattice) (factor : PatchId × Pauli) : Result LatticeError (Cell × Pauli) := do
  match ← lattice.cellOf? factor.1 with
  | some cell => return (cell, factor.2)
  | none => Result.refuse (.patchNotFound factor.1)

def freeAncilla (timeline : Timeline) : Result LatticeError Cell :=
  match timeline.ancillaCells.find? timeline.current.isFree with
  | some cell => .ok cell
  | none => Result.refuse (.exhausted .ancillaLocations)

def mark (kind : OperationKind) : Step Lattice := do
  let timeline ← get
  let lattice := timeline.current
  match kind with
  | .measureSingle patch basis _ =>
      if (Border.exposing? basis).isNone then Step.refuse (.invalidBasis basis)
      Step.lift (changePatch lattice patch fun found => found.withState (.measured basis))
  | .measureJoint patches _ =>
      let request ← Step.lift (patches.mapM (locate lattice))
      let (merged, _) ← Step.lift (lattice.route request)
      return merged
  | .pauli patch operator =>
      Step.lift (changePatch lattice patch fun found =>
        found.withState (found.heldState.withPauli operator))
  | .prepare patch state =>
      let cell ← Step.lift timeline.freeAncilla
      let placed ← Step.lift (lattice.add ((Patch.square cell .qubit state).withId patch))
      Step.consume patch
      return placed
  | .requestMagic patch =>
      let cell ← Step.drawMagic
      match lattice.indexAt? cell with
      | none => Step.refuse (.notRepresentative cell)
      | some index =>
          Step.consume patch
          return lattice.modify index fun found => found.withId patch

def perform (operation : Operation) : Step Unit := do
  let marked ← mark operation.kind
  modify fun timeline => timeline.close marked

/-! Whole computations. Operations whose condition fails are left out. -/

/-- The timeline after an operation, when it can be performed. -/
def next (timeline : Timeline) (operation : Operation) : Result LatticeError Timeline :=
  match (perform operation).run timeline with
  | .ok _ after => .ok after
  | .error failure _ => .error failure

def advance (table : OperationTable) (timeline : Timeline) (entry : Operation × Nat) :
    Result LatticeError Timeline := do
  let (operation, index) := entry
  if ← table.runsWithin (table.size + 1) index then timeline.next operation
  else return timeline

def compose (table : OperationTable) (layout : Layout) : Result LatticeError Timeline :=
  table.operations.zipIdx.foldlM (advance table) (start layout)

end Timeline

end LatticeSurgery
