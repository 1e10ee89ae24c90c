import LatticeSurgery.Patch

namespace LatticeSurgery

/-! Reasons for which an operation on the lattice is refused. -/

inductive Resource where
  | ancillaLocations
  | magicStates
deriving DecidableEq, Repr

def Resource.text : Resource → String
  | .ancillaLocations => "ancilla locations"
  | .magicStates => "magic states"

/-- Reasons for which no merge region connects the requested patches. -/
inductive RouteError where
  | noPath (source target : Cell)
  | tooFewPatches (count : Nat)
  | duplicatePatch (cell : Cell)
deriving DecidableEq, Repr

def RouteError.message : RouteError → String
  | .noPath source target => s!"no ancilla path from {source.text} to {target.text}"
  | .tooFewPatches count =>
      s!"a multi-body measurement needs at least two patches, got {count}"
  | .duplicatePatch cell => s!"patch at {cell.text} requested more than once"

inductive LatticeError where
  | route (error : RouteError)
  | invalidBasis (basis : Pauli)
  | exhausted (resource : Resource)
  | patchNotFound (id : PatchId)
  | notRepresentative (cell : Cell)
  | cellOccupied (cell : Cell)
deriving DecidableEq, Repr

/-- The name under which a reason is reported. -/
def LatticeError.kind : LatticeError → String
  | .route (.noPath ..) => "Routing.NoPath"
  | .route (.tooFewPatches ..) => "Routing.TooFewPatches"
  | .route (.duplicatePatch ..) => "Routing.DuplicatePatch"
  | .invalidBasis .. => "InvalidMeasurementBasis"
  | .exhausted .. => "ResourceExhausted"
  | .patchNotFound .. => "PatchNotFound"
  | .notRepresentative .. => "NotARepresentative"
  | .cellOccupied .. => "CellOccupied"

def LatticeError.message : LatticeError → String
  | .route error => s!"Routing failed: {error.message}"
  | .invalidBasis basis => s!"Cannot measure in basis {basis.text}"
  | .exhausted resource => s!"No {resource.text} left on the lattice"
  | .patchNotFound id => s!"Patch {id.text} not found on the lattice"
  | .notRepresentative cell => s!"Cell {cell.text} is not the representative of a patch"
  | .cellOccupied cell => s!"Cell {cell.text} is already occupied"

end LatticeSurgery
