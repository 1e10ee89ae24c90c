import LatticeSurgery.Circuit
import LatticeSurgery.Operation

namespace LatticeSurgery

/-! Reasons for which a table of operations cannot be made or changed. -/

inductive TableError where
  | unsupportedAngle (angle : Angle) (block : Nat)
  | containsY (block : Nat)
  | emptyMeasurement (block : Nat)
  | operationOutOfRange (index size : Nat)
  | notMeasurement (index : Nat)
  | outcomeAlreadySet (index : Nat)
deriving DecidableEq, Repr

/-- The name under which a reason is reported. -/
def TableError.kind : TableError → String
  | .unsupportedAngle .. => "UnsupportedAngle"
  | .containsY .. => "NotYFree"
  | .emptyMeasurement .. => "EmptyMeasurement"
  | .operationOutOfRange .. => "OperationOutOfRange"
  | .notMeasurement .. => "NotAMeasurement"
  | .outcomeAlreadySet .. => "OutcomeAlreadySet"

def TableError.message : TableError → String
  | .unsupportedAngle angle block =>
      s!"Cannot lower rotation by {angle.text}π in block {block}"
  | .containsY block => s!"Block {block} contains Y; normalize the circuit first"
  | .emptyMeasurement block => s!"Block {block} measures the identity"
  | .operationOutOfRange index size => s!"Operation {index} out of range for {size} operations"
  | .notMeasurement index => s!"Operation {index} is not a measurement"
  | .outcomeAlreadySet index => s!"Outcome of operation {index} is already set"

/-! The operations of a computation in execution order, with the patches of its
logical qubits. -/

structure OperationTable where
  qubits : List PatchId
  operations : List Operation
deriving DecidableEq, Repr

namespace OperationTable

def size (table : OperationTable) : Nat := table.operations.length

def magicCount (table : OperationTable) : Nat :=
  table.operations.countP fun operation => operation.kind.isMagicRequest

def operationAt (table : OperationTable) (index : Nat) : Result TableError Operation :=
  match table.operations[index]? with
  | some operation => .ok operation
  | none => Result.refuse (.operationOutOfRange index table.size)

def outcomeAt (table : OperationTable) (index : Nat) : Option Outcome := do
  (← table.operations[index]?).outcome

/-! Outcomes can be recorded once, for measurements only. -/

def setOutcome (index : Nat) (outcome : Outcome) : Update TableError OperationTable Unit := do
  let table ← get
  let operation ← Update.lift (table.operationAt index)
  if !operation.kind.isMeasurement then Update.refuse (.notMeasurement index)
  if operation.outcome.isSome then Update.refuse (.outcomeAlreadySet index)
  set { table with
    operations := table.operations.set index { operation with outcome := some outcome } }

def record (table : OperationTable) (index : Nat) (outcome : Outcome) :
    Result TableError OperationTable :=
  (setOutcome index outcome).result table

/-! An operation runs when all measurements that its condition reads run and the
condition holds. A chain of conditions that is longer than the table meets an
operation twice and never ends. -/

def runsWithin (table : OperationTable) : (fuel : Nat) → Nat → Except Fault Bool
  | 0, _ => .error .endlessReference
  | fuel + 1, index =>
      match table.operations[index]? with
      | none => .error .missingPosition
      | some operation =>
          match operation.condition with
          | none => .ok true
          | some condition => do
              if ← condition.reads.allM (table.runsWithin fuel) then
                return condition.holds table.outcomeAt
              else return false

def runs (table : OperationTable) (index : Nat) : Result TableError Bool := do
  let _ ← table.operationAt index
  Result.ofFaulty (table.runsWithin (table.size + 1) index)

end OperationTable

end LatticeSurgery
