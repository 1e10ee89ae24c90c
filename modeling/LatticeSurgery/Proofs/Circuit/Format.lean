import LatticeSurgery.Circuit.Format
import LatticeSurgery.Proofs.Text.Json

namespace LatticeSurgery

open Text (Json)
open Text.Json (Plain)

/-! # Circuits as texts

A circuit is read back from its text as it was stored. Angles keep their pairs, blocks may have
any width, and only the number of qubits has to be a word. -/

namespace Angle

theorem plain_toJson (angle : Angle) : Plain angle.toJson := by
  apply Plain.array
  rw [List.forall_mem_cons, List.forall_mem_singleton]
  exact ⟨.integer _, .integer _⟩

theorem ofJson?_toJson (angle : Angle) : ofJson? angle.toJson = some angle :=
  angle.ofPair?_self

end Angle

namespace Pauli

theorem plain_toJson (symbol : Pauli) : Plain symbol.toJson := .string _

theorem ofJson?_toJson (symbol : Pauli) : ofJson? symbol.toJson = some symbol := by
  cases symbol <;> rfl

end Pauli

namespace BlockKind

theorem plain_toJson (kind : BlockKind) : Plain kind.toJson := by
  cases kind with
  | rotation angle =>
      apply Plain.object
      rw [List.forall_mem_singleton]
      exact angle.plain_toJson
  | measurement negative =>
      apply Plain.object
      rw [List.forall_mem_singleton]
      apply Plain.object
      rw [List.forall_mem_singleton]
      exact .bool negative

theorem ofJson?_toJson (kind : BlockKind) : ofJson? kind.toJson = some kind := by
  cases kind with
  | rotation angle => simp [toJson, ofJson?, Json.variant?, angle.ofJson?_toJson]
  | measurement negative => rfl

end BlockKind

/-- Lists are read back item by item. -/
theorem mapM_map_eq_some {α β : Type} {write : α → β} {read : β → Option α}
    (each : ∀ value, read (write value) = some value) (values : List α) :
    (values.map write).mapM read = some values := by
  induction values with
  | nil => rfl
  | cons value others induction => simp [each, induction]

theorem plain_array_map {α : Type} {write : α → Json} (each : ∀ value, Plain (write value))
    (values : List α) : Plain (.array (values.map write)) := by
  apply Plain.array
  rw [List.forall_mem_map]
  exact fun value _ => each value

namespace Block

theorem plain_toJson (block : Block) : Plain block.toJson := by
  apply Plain.object
  rw [List.forall_mem_cons, List.forall_mem_singleton]
  exact ⟨plain_array_map Pauli.plain_toJson block.symbols, block.kind.plain_toJson⟩

theorem ofJson?_toJson (block : Block) : ofJson? block.toJson = some block := by
  have symbols := mapM_map_eq_some Pauli.ofJson?_toJson block.symbols
  simp [toJson, ofJson?, Json.fields?, Json.list?, symbols, block.kind.ofJson?_toJson]

end Block

namespace Circuit

theorem plain_toJson (circuit : Circuit) : Plain circuit.toJson := by
  apply Plain.object
  rw [List.forall_mem_cons, List.forall_mem_singleton]
  exact ⟨.integer _, plain_array_map Block.plain_toJson circuit.blocks⟩

theorem size?_natCast (number : Nat) : Json.size? (.integer number) =
    if (number : Int) < Json.sizeLimit then some number else none := by
  rw [Json.size?]
  by_cases isWord : (number : Int) < Json.sizeLimit
  · rw [if_pos ⟨Int.natCast_nonneg number, isWord⟩, if_pos isWord, Int.toNat_natCast]
  · rw [if_neg fun both => isWord both.2, if_neg isWord]

theorem fields?_toJson (circuit : Circuit) :
    circuit.toJson.fields? ["num_qubits", "blocks"] =
      some [some (.integer circuit.qubits), some (.array (circuit.blocks.map Block.toJson))] := by
  simp [toJson, Json.fields?]

theorem ofJson?_of_fields {json sizes items : Json}
    (fields : json.fields? ["num_qubits", "blocks"] = some [some sizes, some items])
    {blocks : List Block} (read : items.list? Block.ofJson? = some blocks) :
    ofJson? json = sizes.size?.map fun qubits => ⟨qubits, blocks⟩ := by
  rw [ofJson?, fields]
  cases found : sizes.size? with
  | none => simp [found]
  | some qubits => simp [found, read]

theorem ofJson?_toJson (circuit : Circuit) :
    ofJson? circuit.toJson =
      if (circuit.qubits : Int) < Json.sizeLimit then some circuit else none := by
  have blocks : Json.list? Block.ofJson? (.array (circuit.blocks.map Block.toJson)) =
      some circuit.blocks := mapM_map_eq_some Block.ofJson?_toJson circuit.blocks
  rw [ofJson?_of_fields circuit.fields?_toJson blocks, size?_natCast]
  by_cases isWord : (circuit.qubits : Int) < Json.sizeLimit
  · rw [if_pos isWord, if_pos isWord]
    rfl
  · rw [if_neg isWord, if_neg isWord]
    rfl

/-- The text of a circuit is read as the circuit, with every angle as it was stored, when the
number of its qubits is a word. -/
theorem ofJsonText?_jsonText (circuit : Circuit) :
    ofJsonText? circuit.jsonText =
      if (circuit.qubits : Int) < Json.sizeLimit then some circuit else none := by
  rw [ofJsonText?, jsonText, Json.parse?_text circuit.plain_toJson, Option.bind_eq_bind,
    Option.bind_some, ofJson?_toJson]

example : jsonText ⟨1, [.rotation [.Y, .X] { numer := 2, denom := -4 }]⟩ =
    "\x7b\"num_qubits\":1,\"blocks\":[\x7b\"ops\":[\"Y\",\"X\"]," ++
      "\"kind\":\x7b\"Rotation\":[2,-4]\x7d\x7d]\x7d" := by
  rfl

end Circuit

end LatticeSurgery
