import LatticeSurgery.Approximation

namespace LatticeSurgery

/-! Reasons for which an operation on blocks or circuits is refused. -/

/-- The operation that compared two widths. -/
inductive WidthCheck where
  | commutation
  | append
  | insertion
  | join
deriving DecidableEq, Repr

def WidthCheck.text : WidthCheck → String
  | .commutation => "commutation"
  | .append => "add_block"
  | .insertion => "insert_block"
  | .join => "join"

/-- Why a rotation could not be replaced by a gate sequence. -/
inductive ApproximationObstacle where
  | notSingleAxis
  | noSequence
deriving DecidableEq, Repr

def ApproximationObstacle.text : ApproximationObstacle → String
  | .notSingleAxis => "approximation needs a single-qubit X or Z rotation"
  | .noSequence => "no approximation available"

inductive CircuitError where
  | widthMismatch (expected found : Nat) (during : WidthCheck)
  | qubitOutOfRange (qubit width : Nat)
  | blockOutOfRange (index length : Nat)
  | notQuarterRotation (index : Nat)
  | missingMeasurement
  | unsupportedAngle (angle : Angle) (obstacle : ApproximationObstacle)
  | invalidSymbol (character : Char)
  | invalidGate (character : Char)
  | zeroDenominator
  | cyclicDependencies
  | emptyJoin
deriving DecidableEq, Repr

/-- The name under which a reason is reported. -/
def CircuitError.kind : CircuitError → String
  | .widthMismatch .. => "QubitCountMismatch"
  | .qubitOutOfRange .. => "QubitOutOfRange"
  | .blockOutOfRange .. => "BlockOutOfRange"
  | .notQuarterRotation .. => "NotQuarterRotation"
  | .missingMeasurement => "MissingMeasurement"
  | .unsupportedAngle .. => "UnsupportedAngle"
  | .invalidSymbol .. => "InvalidPauliSymbol"
  | .invalidGate .. => "InvalidApproximationGate"
  | .zeroDenominator => "ZeroDenominator"
  | .cyclicDependencies => "InvalidGraph"
  | .emptyJoin => "EmptyCircuitList"

def CircuitError.message : CircuitError → String
  | .widthMismatch expected found during =>
      s!"Expected {expected} qubits, got {found} ({during.text})"
  | .qubitOutOfRange qubit width => s!"Qubit {qubit} out of range for {width} qubits"
  | .blockOutOfRange index length =>
      s!"Block index {index} out of range for circuit with {length} blocks"
  | .notQuarterRotation index => s!"Block {index} is not a ±π/4 rotation"
  | .missingMeasurement =>
      "Circuit contains π/4 rotations but no measurement to absorb them"
  | .unsupportedAngle angle obstacle =>
      s!"Unsupported rotation angle {angle.text}π ({obstacle.text})"
  | .invalidSymbol character => s!"Invalid Pauli symbol '{character}'"
  | .invalidGate character => s!"Invalid approximation gate '{character}'"
  | .zeroDenominator => "Angle denominator must be non-zero"
  | .cyclicDependencies => "Invalid dependency graph: dependency cycle"
  | .emptyJoin => "Cannot build a circuit from an empty list"

/-! Readers that refuse with such a reason. -/

/-- The angle of a pair in lowest terms. -/
def Angle.ofPair (numer denom : Int) : Result CircuitError Angle :=
  if denom = 0 then Result.refuse .zeroDenominator else Result.ofFaulty (make numer denom)

def PauliString.ofText (source : String) : Result CircuitError PauliString :=
  match parse source with
  | .ok symbols => .ok symbols
  | .error character => Result.refuse (.invalidSymbol character)

def GateSequence.ofText (source : String) : Result CircuitError GateSequence :=
  match parse source with
  | .ok gates => .ok gates
  | .error character => Result.refuse (.invalidGate character)

namespace ApproximationTable

/-! Filling a table in place. A text is read before the table is touched. -/

def enter (angle : Angle) (gates : GateSequence) : Update CircuitError ApproximationTable Unit := do
  let table ← get
  set (← Update.lift (Result.ofFaulty (table.insert angle gates)))

def enterText (angle : Angle) (source : String) : Update CircuitError ApproximationTable Unit := do
  let gates ← Update.lift (GateSequence.ofText source)
  enter angle gates

def insertText (table : ApproximationTable) (angle : Angle) (source : String) :
    Result CircuitError ApproximationTable :=
  (enterText angle source).result table

end ApproximationTable

end LatticeSurgery
