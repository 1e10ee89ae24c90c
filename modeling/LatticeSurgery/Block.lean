import LatticeSurgery.Circuit.Error
import LatticeSurgery.Storage

namespace LatticeSurgery

/-! A block is a Pauli product with what is done to it: a rotation by an angle,
or a measurement of the product or of its negative. A rotation by `angle` about
`P` is the operator `exp(-i · angle · π · P)`. -/

inductive BlockKind where
  | rotation (angle : Angle)
  | measurement (negative : Bool)
deriving DecidableEq, Repr

structure Block where
  symbols : PauliString
  kind : BlockKind
deriving DecidableEq, Repr

namespace BlockKind

/-- Kinds are compared by the value of their angle. -/
def Same : BlockKind → BlockKind → Prop
  | .rotation left, .rotation right => left.Same right
  | .measurement left, .measurement right => left = right
  | _, _ => False

instance : (left right : BlockKind) → Decidable (Same left right)
  | .rotation left, .rotation right => inferInstanceAs (Decidable (left.Same right))
  | .measurement left, .measurement right => inferInstanceAs (Decidable (left = right))
  | .rotation _, .measurement _ => .isFalse id
  | .measurement _, .rotation _ => .isFalse id

/-- Compare two kinds. Only two rotations have their angles compared. -/
def isSame : BlockKind → BlockKind → Except Fault Bool
  | .rotation left, .rotation right => left.isSame right
  | .measurement left, .measurement right => .ok (left = right)
  | _, _ => .ok false

end BlockKind

namespace Block

def rotation (symbols : PauliString) (angle : Angle) : Block := ⟨symbols, .rotation angle⟩

def measurement (symbols : PauliString) (negative : Bool) : Block :=
  ⟨symbols, .measurement negative⟩

def Same (left right : Block) : Prop :=
  left.symbols = right.symbols ∧ left.kind.Same right.kind

instance (left right : Block) : Decidable (Same left right) :=
  inferInstanceAs (Decidable (_ ∧ _))

/-- Compare two blocks. Their kinds are compared only when the products agree. -/
def isSame (left right : Block) : Except Fault Bool :=
  if left.symbols = right.symbols then left.kind.isSame right.kind else .ok false

def width (block : Block) : Nat := block.symbols.length

def angle? (block : Block) : Option Angle :=
  match block.kind with
  | .rotation angle => some angle
  | .measurement _ => none

def isRotation (block : Block) : Bool := block.angle?.isSome

def isMeasurement (block : Block) : Bool := block.angle?.isNone

/-- A measurement of the negative of its product. -/
def isNegative (block : Block) : Bool := block.kind = .measurement true

def isIdentity (block : Block) : Bool := block.symbols.isIdentity

def containsY (block : Block) : Bool := block.symbols.containsY

def isQuarterRotation (block : Block) : Except Fault Bool :=
  match block.kind with
  | .rotation angle => angle.isQuarter
  | .measurement _ => .ok false

def text (block : Block) : String :=
  match block.kind with
  | .rotation angle => block.symbols.text ++ "(" ++ angle.text ++ ")"
  | .measurement negative =>
      "M(" ++ (if negative then "-" else "") ++ block.symbols.text ++ ")"

/-! Blocks on the identity, which are stored symbol by symbol. -/

def identitySymbols (width : Nat) : Except Fault PauliString := do
  Storage.reserve width Storage.symbolSize
  return PauliString.identity width

def identityRotation (width : Nat) (angle : Angle) : Except Fault Block := do
  return rotation (← identitySymbols width) angle

def identityMeasurement (width : Nat) (negative : Bool) : Except Fault Block := do
  return measurement (← identitySymbols width) negative

/-! Reading a block from the letters of its product. -/

def parseRotation (source : String) (angle : Angle) : Result CircuitError Block := do
  return rotation (← PauliString.ofText source) angle

def parseMeasurement (source : String) (negative : Bool) : Result CircuitError Block := do
  return measurement (← PauliString.ofText source) negative

/-! Changes to one block. -/

def setSymbol (block : Block) (qubit : Nat) (symbol : Pauli) : Result CircuitError Block :=
  if qubit < block.width then .ok { block with symbols := block.symbols.set qubit symbol }
  else Result.refuse (.qubitOutOfRange qubit block.width)

/-- Negate the angle of a rotation or the sign of a measurement. -/
def flipSign (block : Block) : Except Fault Block :=
  match block.kind with
  | .rotation angle => do return { block with kind := .rotation (← angle.neg) }
  | .measurement negative => .ok { block with kind := .measurement !negative }

/-! Blocks commute when their products do. The checked test refuses products of
different widths. -/

def productsCommute (left right : Block) : Bool := left.symbols.commutes right.symbols

def commutes (left right : Block) : Result CircuitError Bool :=
  if left.width = right.width then .ok (left.productsCommute right)
  else Result.refuse (.widthMismatch left.width right.width .commutation)

/-- What becomes of a block when the quarter rotation before it is moved behind
it. A block that commutes with the rotation stays as it is. Otherwise its product
becomes `±i` times the product of both, with the sign of the rotation's angle, and
a phase of `-1` flips the sign of the block. Other phases than `±1` are ruled out by
an assertion. -/
def behindQuarter (next quarter : Block) (angle : Angle) : Except Fault Block :=
  if quarter.productsCommute next then .ok next
  else
    let (phase, product) := quarter.symbols.mul next.symbols
    let turned := phase * (if angle.isNegative then Phase.negI else Phase.i)
    let moved := { next with symbols := product }
    if ¬ turned.IsSign then .error .assertion
    else if turned.re < 0 then moved.flipSign
    else .ok moved

end Block

end LatticeSurgery
