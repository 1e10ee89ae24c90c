import LatticeSurgery.Operation.Table
import LatticeSurgery.Text.Json.Reader

namespace LatticeSurgery

open Text (Json)

/-! The JSON format of operation tables. -/

namespace Outcome

def toJson (outcome : Outcome) : Json := .string outcome.name

def ofJson? (json : Json) : Option Outcome := json.unit? >>= ofName?

end Outcome

namespace Condition

def toJson : Condition → Json
  | .quarterCorrection merge ancilla invert =>
      .object [("PiOverFourCorrection", .object [("multi_body", .integer merge),
        ("ancilla", .integer ancilla), ("invert", .bool invert)])]
  | .eighthFirstCorrection merge invert =>
      .object [("PiOverEightFirstCorrection", .object [("multi_body", .integer merge),
        ("invert", .bool invert)])]
  | .eighthSecondCorrection magic =>
      .object [("PiOverEightSecondCorrection", .object [("magic", .integer magic)])]

def ofJson? (json : Json) : Option Condition := do
  match ← json.variant? with
  | ("PiOverFourCorrection", some content) =>
      match ← content.fields? ["multi_body", "ancilla", "invert"] with
      | [some merge, some ancilla, some invert] =>
          return .quarterCorrection (← merge.size?) (← ancilla.size?) (← invert.bool?)
      | _ => none
  | ("PiOverEightFirstCorrection", some content) =>
      match ← content.fields? ["multi_body", "invert"] with
      | [some merge, some invert] => return .eighthFirstCorrection (← merge.size?) (← invert.bool?)
      | _ => none
  | ("PiOverEightSecondCorrection", some content) =>
      match ← content.fields? ["magic"] with
      | [some magic] => return .eighthSecondCorrection (← magic.size?)
      | _ => none
  | _ => none

end Condition

namespace OperationKind

def factorToJson (factor : PatchId × Pauli) : Json :=
  .array [factor.1.toJson, factor.2.toJson]

def factorOfJson? : Json → Option (PatchId × Pauli)
  | .array [patch, symbol] => do return (← PatchId.ofJson? patch, ← Pauli.ofJson? symbol)
  | _ => none

def toJson : OperationKind → Json
  | .measureSingle patch basis negative =>
      .object [("SinglePatchMeasurement", .object [("patch", patch.toJson),
        ("basis", basis.toJson), ("is_negative", .bool negative)])]
  | .measureJoint patches negative =>
      .object [("MultiBodyMeasurement", .object [("patches", .array (patches.map factorToJson)),
        ("is_negative", .bool negative)])]
  | .pauli patch operator =>
      .object [("LogicalPauli", .object [("patch", patch.toJson), ("op", operator.toJson)])]
  | .prepare patch state =>
      .object [("AncillaInit", .object [("patch", patch.toJson), ("state", state.toJson)])]
  | .requestMagic patch =>
      .object [("MagicStateRequest", .object [("patch", patch.toJson)])]

def ofJson? (json : Json) : Option OperationKind := do
  match ← json.variant? with
  | ("SinglePatchMeasurement", some content) =>
      match ← content.fields? ["patch", "basis", "is_negative"] with
      | [some patch, some basis, some negative] =>
          return .measureSingle (← PatchId.ofJson? patch) (← Pauli.ofJson? basis)
            (← negative.bool?)
      | _ => none
  | ("MultiBodyMeasurement", some content) =>
      match ← content.fields? ["patches", "is_negative"] with
      | [some patches, some negative] =>
          return .measureJoint (← patches.list? factorOfJson?) (← negative.bool?)
      | _ => none
  | ("LogicalPauli", some content) =>
      match ← content.fields? ["patch", "op"] with
      | [some patch, some operator] =>
          return .pauli (← PatchId.ofJson? patch) (← Pauli.ofJson? operator)
      | _ => none
  | ("AncillaInit", some content) =>
      match ← content.fields? ["patch", "state"] with
      | [some patch, some state] =>
          return .prepare (← PatchId.ofJson? patch) (← SymbolicState.ofJson? state)
      | _ => none
  | ("MagicStateRequest", some content) =>
      match ← content.fields? ["patch"] with
      | [some patch] => return .requestMagic (← PatchId.ofJson? patch)
      | _ => none
  | _ => none

end OperationKind

namespace Operation

def toJson (operation : Operation) : Json :=
  .object [("kind", operation.kind.toJson),
    ("condition", Json.optionalTo Condition.toJson operation.condition),
    ("outcome", Json.optionalTo Outcome.toJson operation.outcome)]

def ofJson? (json : Json) : Option Operation := do
  match ← json.fields? ["kind", "condition", "outcome"] with
  | [some kind, condition, outcome] =>
      return ⟨← OperationKind.ofJson? kind, ← Json.optional? Condition.ofJson? condition,
        ← Json.optional? Outcome.ofJson? outcome⟩
  | _ => none

end Operation

namespace OperationTable

def toJson (table : OperationTable) : Json :=
  .object [("logical_qubits", .array (table.qubits.map PatchId.toJson)),
    ("ops", .array (table.operations.map Operation.toJson))]

def ofJson? (json : Json) : Option OperationTable := do
  match ← json.fields? ["logical_qubits", "ops"] with
  | [some qubits, some operations] =>
      return ⟨← qubits.list? PatchId.ofJson?, ← operations.list? Operation.ofJson?⟩
  | _ => none

def jsonText (table : OperationTable) : String := table.toJson.text

def ofJsonText? (source : String) : Option OperationTable := Json.parse? source >>= ofJson?

end OperationTable

end LatticeSurgery
