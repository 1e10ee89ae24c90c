import LatticeSurgery.Circuit
import LatticeSurgery.Text.Json.Fields
import LatticeSurgery.Text.Json.Reader

namespace LatticeSurgery

open Text (Json)

/-! The JSON format of circuits. An angle is the array of its stored pair and is
read back as it is, a symbol is its letter, and the width of a block is not
checked when a circuit is read. -/

namespace Angle

def toJson (angle : Angle) : Json := .array [.integer angle.numer, .integer angle.denom]

def ofJson? : Json → Option Angle
  | .array [.integer numer, .integer denom] => ofPair? numer denom
  | _ => none

end Angle

namespace Pauli

def toJson (symbol : Pauli) : Json := .string symbol.text

def ofJson? (json : Json) : Option Pauli := do
  match (← json.unit?).toList with
  | [letter] => ofLetter? letter
  | _ => none

end Pauli

namespace BlockKind

def toJson : BlockKind → Json
  | .rotation angle => .object [("Rotation", angle.toJson)]
  | .measurement negative =>
      .object [("Measurement", .object [("is_negative", .bool negative)])]

def ofJson? (json : Json) : Option BlockKind := do
  match ← json.variant? with
  | ("Rotation", some content) => return .rotation (← Angle.ofJson? content)
  | ("Measurement", some content) =>
      match ← content.fields? ["is_negative"] with
      | [some negative] => return .measurement (← negative.bool?)
      | _ => none
  | _ => none

end BlockKind

namespace Block

def toJson (block : Block) : Json :=
  .object [("ops", .array (block.symbols.map Pauli.toJson)), ("kind", block.kind.toJson)]

def ofJson? (json : Json) : Option Block := do
  match ← json.fields? ["ops", "kind"] with
  | [some symbols, some kind] =>
      return ⟨← symbols.list? Pauli.ofJson?, ← BlockKind.ofJson? kind⟩
  | _ => none

end Block

namespace Circuit

def toJson (circuit : Circuit) : Json :=
  .object [("num_qubits", .integer circuit.qubits),
    ("blocks", .array (circuit.blocks.map Block.toJson))]

def ofJson? (json : Json) : Option Circuit := do
  match ← json.fields? ["num_qubits", "blocks"] with
  | [some qubits, some blocks] => return ⟨← qubits.size?, ← blocks.list? Block.ofJson?⟩
  | _ => none

def jsonText (circuit : Circuit) : String := circuit.toJson.text

def ofJsonText? (source : String) : Option Circuit := Json.parse? source >>= ofJson?

end Circuit

end LatticeSurgery
