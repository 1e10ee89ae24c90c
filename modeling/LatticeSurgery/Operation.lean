import LatticeSurgery.Patch

namespace LatticeSurgery

/-! Outcomes of measurements are eigenvalues. -/

inductive Outcome where
  | plus
  | minus
deriving DecidableEq, Repr

namespace Outcome

def name : Outcome → String
  | plus => "Plus"
  | minus => "Minus"

def ofName? : String → Option Outcome
  | "Plus" => some plus
  | "Minus" => some minus
  | _ => none

def value : Outcome → Int
  | plus => 1
  | minus => -1

def ofValue? (value : Int) : Option Outcome :=
  if value = 1 then some plus else if value = -1 then some minus else none

@[simp] theorem ofValue?_value (outcome : Outcome) : ofValue? outcome.value = some outcome := by
  cases outcome <;> rfl

end Outcome

/-! Conditions of corrections. A condition reads the outcomes of measurements,
which it names by their positions in the table of operations.

A quarter rotation is corrected when the outcomes of its merge and of its ancilla
differ. An eighth rotation is corrected a first time when its merge gives minus,
and a second time when its magic state is measured as minus. An inverted condition
holds for the opposite outcomes. -/

inductive Condition where
  | quarterCorrection (merge ancilla : Nat) (invert : Bool)
  | eighthFirstCorrection (merge : Nat) (invert : Bool)
  | eighthSecondCorrection (magic : Nat)
deriving DecidableEq, Repr

namespace Condition

def reads : Condition → List Nat
  | .quarterCorrection merge ancilla _ => [merge, ancilla]
  | .eighthFirstCorrection merge _ => [merge]
  | .eighthSecondCorrection magic => [magic]

/-- A condition holds as long as one of its outcomes is not known. -/
def holds (outcome : Nat → Option Outcome) : Condition → Bool
  | .quarterCorrection merge ancilla invert =>
      match outcome merge, outcome ancilla with
      | some first, some second => decide (first ≠ second) != invert
      | _, _ => true
  | .eighthFirstCorrection merge invert =>
      match outcome merge with
      | some found => decide (found = .minus) != invert
      | none => true
  | .eighthSecondCorrection magic =>
      match outcome magic with
      | some found => decide (found = .minus)
      | none => true

end Condition

/-! Operations on the patches of a lattice. -/

inductive OperationKind where
  | measureSingle (patch : PatchId) (basis : Pauli) (negative : Bool)
  | measureJoint (patches : List (PatchId × Pauli)) (negative : Bool)
  | pauli (patch : PatchId) (operator : Pauli)
  | prepare (patch : PatchId) (state : SymbolicState)
  | requestMagic (patch : PatchId)
deriving DecidableEq, Repr

namespace OperationKind

def isMeasurement : OperationKind → Bool
  | .measureSingle .. | .measureJoint .. => true
  | _ => false

def isMagicRequest : OperationKind → Bool
  | .requestMagic _ => true
  | _ => false

def patches : OperationKind → List PatchId
  | .measureSingle patch _ _ | .pauli patch _ | .prepare patch _ | .requestMagic patch =>
      [patch]
  | .measureJoint patches _ => patches.map Prod.fst

end OperationKind

structure Operation where
  kind : OperationKind
  condition : Option Condition
  outcome : Option Outcome
deriving DecidableEq, Repr

namespace Operation

/-- The measurements that decide whether the operation runs. -/
def reads (operation : Operation) : List Nat :=
  match operation.condition with
  | some condition => condition.reads
  | none => []

def pending (kind : OperationKind) (condition : Option Condition) : Operation :=
  ⟨kind, condition, none⟩

end Operation

end LatticeSurgery
