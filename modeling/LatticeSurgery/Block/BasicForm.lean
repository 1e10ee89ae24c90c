import LatticeSurgery.Block

namespace LatticeSurgery.Block

/-! The basic form of a block has only measurements and rotations by halves,
quarters and eighths. A dyadic angle is split into its powers of one half. Powers
below one eighth and angles that are not dyadic are left to an approximation,
which exists for rotations about X or Z of a single qubit only. -/

def single (width qubit : Nat) (symbol : Pauli) (angle : Angle) : Block :=
  rotation ((PauliString.identity width).set qubit symbol) angle

def gateRotations (width qubit : Nat) (axis : Pauli) (gates : GateSequence) : List Block :=
  gates.flatMap fun gate =>
    (gate.rotations axis).map fun (symbol, amount) => single width qubit symbol amount

/-- The qubit and axis of a rotation about X or Z of a single qubit. -/
def singleAxis? (symbols : PauliString) : Option (Nat × Pauli) :=
  match symbols.support with
  | [(qubit, .X)] => some (qubit, .X)
  | [(qubit, .Z)] => some (qubit, .Z)
  | _ => none

def approximate (approximator : Approximator) (symbols : PauliString) (angle : Angle) :
    Result CircuitError (List Block) :=
  match singleAxis? symbols with
  | none => Result.refuse (.unsupportedAngle angle .notSingleAxis)
  | some (qubit, axis) => do
      match ← approximator angle with
      | none => Result.refuse (.unsupportedAngle angle .noSequence)
      | some gates => return gateRotations symbols.length qubit axis gates

/-- A single term of a dyadic angle. -/
def basicTerm (approximator : Approximator) (symbols : PauliString) (term : Angle) :
    Result CircuitError (List Block) :=
  if term.denom ≤ 8 then .ok [rotation symbols term]
  else approximate approximator symbols term

def basicForm (approximator : Approximator) (block : Block) :
    Result CircuitError (List Block) :=
  match block.kind with
  | .measurement _ => .ok [block]
  | .rotation angle => do
      if ← angle.isBasic then return [block]
      match ← angle.dyadicTerms with
      | none => approximate approximator block.symbols angle
      | some terms => return (← terms.mapM (basicTerm approximator block.symbols)).flatten

end LatticeSurgery.Block
