import LatticeSurgery.Block
import LatticeSurgery.Block.BasicForm
import LatticeSurgery.Block.YFree

namespace LatticeSurgery

/-! A circuit is a sequence of blocks over a number of qubits. The operations that
add blocks refuse a block of another width. -/

structure Circuit where
  qubits : Nat
  blocks : List Block
deriving DecidableEq, Repr

namespace Circuit

def empty (qubits : Nat) : Circuit := ⟨qubits, []⟩

def size (circuit : Circuit) : Nat := circuit.blocks.length

/-- Every block has the width of the circuit. -/
def Uniform (circuit : Circuit) : Prop :=
  ∀ block ∈ circuit.blocks, block.width = circuit.qubits

instance (circuit : Circuit) : Decidable circuit.Uniform :=
  inferInstanceAs (Decidable (∀ block ∈ circuit.blocks, block.width = circuit.qubits))

/-! Building circuits. Blocks are added in place. -/

/-- A change of a circuit in place. -/
abbrev Edit := Update CircuitError Circuit Unit

def checkWidth (circuit : Circuit) (block : Block) (during : WidthCheck) :
    Result CircuitError Unit :=
  if block.width = circuit.qubits then .ok ()
  else Result.refuse (.widthMismatch circuit.qubits block.width during)

def push (block : Block) : Edit :=
  modify fun circuit => { circuit with blocks := circuit.blocks ++ [block] }

def addBlock (block : Block) : Edit := do
  let circuit ← get
  Update.lift (circuit.checkWidth block .append)
  push block

def add (circuit : Circuit) (block : Block) : Result CircuitError Circuit :=
  (addBlock block).result circuit

def ofBlocks (qubits : Nat) (blocks : List Block) : Result CircuitError Circuit :=
  blocks.foldlM add (empty qubits)

/-- Insert a block in front of the block at `index`. -/
def insertBlock (index : Nat) (block : Block) : Edit := do
  let circuit ← get
  Update.lift (circuit.checkWidth block .insertion)
  if index ≤ circuit.size then
    set { circuit with blocks := circuit.blocks.insertIdx index block }
  else Update.refuse (.blockOutOfRange index circuit.size)

/-- Add a rotation of one qubit. -/
def addRotation (qubit : Nat) (symbol : Pauli) (angle : Angle) : Edit := do
  let circuit ← get
  let identity ← Update.lift (Result.ofFaulty (Block.identityRotation circuit.qubits angle))
  push (← Update.lift (identity.setSymbol qubit symbol))

def extend (joined next : Circuit) : Result CircuitError Circuit :=
  if next.qubits = joined.qubits then
    .ok { joined with blocks := joined.blocks ++ next.blocks }
  else Result.refuse (.widthMismatch joined.qubits next.qubits .join)

def join : List Circuit → Result CircuitError Circuit
  | [] => Result.refuse .emptyJoin
  | first :: rest => (first :: rest).foldlM extend (empty first.qubits)

/-! Questions about the blocks. -/

def blockAt (circuit : Circuit) (index : Nat) : Result CircuitError Block :=
  match circuit.blocks[index]? with
  | some block => .ok block
  | none => Result.refuse (.blockOutOfRange index circuit.size)

def commuting (circuit : Circuit) (first second : Nat) : Result CircuitError Bool := do
  let left ← circuit.blockAt first
  let right ← circuit.blockAt second
  return left.productsCommute right

def hasMeasurement (circuit : Circuit) : Bool := circuit.blocks.any Block.isMeasurement

def measurementCount (circuit : Circuit) : Nat := circuit.blocks.countP Block.isMeasurement

/-- The number of rotations by an angle. Every rotation is compared with it. -/
def rotationsBy (circuit : Circuit) (angle : Angle) : Except Fault Nat := do
  let matching ← circuit.blocks.mapM fun block =>
    match block.angle? with
    | some found => found.isSame angle
    | none => .ok false
  return matching.count true

/-! Blockwise normal forms. -/

def yFree (circuit : Circuit) : Circuit :=
  { circuit with blocks := circuit.blocks.flatMap Block.yFree }

def checkedYFree (circuit : Circuit) : Except Fault Circuit := do
  let parts ← circuit.blocks.mapM Block.checkedYFree
  return { circuit with blocks := parts.flatten }

def basicForm (approximator : Approximator) (circuit : Circuit) :
    Result CircuitError Circuit := do
  let parts ← circuit.blocks.mapM (Block.basicForm approximator)
  return { circuit with blocks := parts.flatten }

end Circuit

end LatticeSurgery
