import LatticeSurgery.Operation.Table

namespace LatticeSurgery

/-! Gadgets are the operations that take the place of a block. A half rotation is
a Pauli operator on every target. A quarter rotation merges the targets with a
fresh ancilla in a Y state and measures the ancilla, and an eighth rotation does so
with a magic state. The outcomes decide about the corrections. -/

abbrev Targets := List (PatchId × Pauli)

namespace Gadget

def mergeWith (targets : Targets) (patch : PatchId) : OperationKind :=
  .measureJoint (targets ++ [(patch, .Z)]) false

def half (targets : Targets) (condition : Option Condition) : List Operation :=
  targets.map fun (patch, operator) => .pending (.pauli patch operator) condition

/-- A quarter rotation whose first operation stands at position `base`. -/
def quarter (base : Nat) (ancilla : PatchId) (targets : Targets) (negative : Bool)
    (condition : Option Condition) : List Operation :=
  [.pending (.prepare ancilla .yPlus) condition,
    .pending (mergeWith targets ancilla) condition,
    .pending (.measureSingle ancilla .X false) condition] ++
    half targets (some (.quarterCorrection (base + 1) (base + 2) negative))

/-- An eighth rotation whose first operation stands at position `base`. -/
def eighth (base : Nat) (magic ancilla : PatchId) (targets : Targets) (negative : Bool)
    (condition : Option Condition) : List Operation :=
  let correction := quarter (base + 2) ancilla targets false
    (some (.eighthFirstCorrection (base + 1) negative))
  [.pending (.requestMagic magic) condition, .pending (mergeWith targets magic) condition] ++
    correction ++
    .pending (.measureSingle magic .X false) condition ::
    half targets (some (.eighthSecondCorrection (base + 2 + correction.length)))

def measurement (block : Nat) (targets : Targets) (negative : Bool) :
    Result TableError (List Operation) :=
  match targets with
  | [] => Result.refuse (.emptyMeasurement block)
  | [(patch, basis)] => .ok [.pending (.measureSingle patch basis negative) none]
  | _ => .ok [.pending (.measureJoint targets negative) none]

end Gadget

/-! Fresh patches are named by a supply of identifiers. A table under construction
counts how many of them it has used. -/

abbrev IdSupply := Nat → PatchId

structure TableDraft where
  operations : List Operation
  used : Nat
deriving DecidableEq, Repr

namespace TableDraft

def append (draft : TableDraft) (operations : List Operation) (used : Nat) : TableDraft :=
  ⟨draft.operations ++ operations, draft.used + used⟩

def addRotation (supply : IdSupply) (draft : TableDraft) (block : Nat) (targets : Targets)
    (angle : Angle) : Result TableError TableDraft := do
  let base := draft.operations.length
  if ← angle.isHalf then return draft.append (Gadget.half targets none) 0
  if ← angle.isQuarter then
    return draft.append
      (Gadget.quarter base (supply draft.used) targets angle.isNegative none) 1
  if ← angle.isEighth then
    return draft.append
      (Gadget.eighth base (supply draft.used) (supply (draft.used + 1)) targets
        angle.isNegative none) 2
  Result.refuse (.unsupportedAngle angle block)

/-- The patches that a block acts on. -/
def targets (qubits : List PatchId) (symbols : PauliString) : Except Fault Targets :=
  symbols.support.mapM fun (qubit, symbol) =>
    match qubits[qubit]? with
    | some patch => .ok (patch, symbol)
    | none => .error .missingPosition

def addBlock (supply : IdSupply) (qubits : List PatchId) (draft : TableDraft)
    (entry : Block × Nat) : Result TableError TableDraft := do
  let (block, index) := entry
  if block.containsY then Result.refuse (.containsY index)
  let targets ← targets qubits block.symbols
  match block.kind with
  | .measurement negative => return draft.append (← Gadget.measurement index targets negative) 0
  | .rotation angle =>
      if targets.isEmpty then return draft
      draft.addRotation supply index targets angle

end TableDraft

/-- Replace every block of a circuit by its gadget. The first identifiers of the
supply name the logical qubits. -/
def OperationTable.ofCircuit (supply : IdSupply) (circuit : Circuit) :
    Result TableError OperationTable := do
  Storage.reserve circuit.qubits Storage.identifierSize
  let qubits := (List.range circuit.qubits).map supply
  let draft ← circuit.blocks.zipIdx.foldlM (TableDraft.addBlock supply qubits)
    ⟨[], circuit.qubits⟩
  return ⟨qubits, draft.operations⟩

end LatticeSurgery
