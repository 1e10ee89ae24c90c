import LatticeSurgery.Text.Json

namespace LatticeSurgery.Text.Json

/-! Reading records, variants and words out of JSON values. A record is an object
with named fields or an array with exactly its fields in order. In an object a
field may be missing, other members are ignored, and no field may be repeated. -/

def fields? (names : List String) : Json → Option (List (Option Json))
  | .object members => names.mapM fun name =>
      match members.filter fun member => member.1 = name with
      | [] => some none
      | [member] => some (some member.2)
      | _ => none
  | .array items =>
      if items.length = names.length then some (items.map some) else none
  | _ => none

/-- An optional field is absent when it is missing or `null`. -/
def optional? {α : Type} (read? : Json → Option α) : Option Json → Option (Option α)
  | none | some .null => some none
  | some json => (read? json).map some

/-- A variant is its name, or an object with the name as its only member. -/
def variant? : Json → Option (String × Option Json)
  | .string name => some (name, none)
  | .object [(name, content)] => some (name, some content)
  | _ => none

/-- The name of a variant without content. -/
def unit? (json : Json) : Option String :=
  match json.variant? with
  | some (name, none) | some (name, some .null) => some name
  | _ => none

def list? {α : Type} (read? : Json → Option α) : Json → Option (List α)
  | .array items => items.mapM read?
  | _ => none

def bool? : Json → Option Bool
  | .bool value => some value
  | _ => none

def string? : Json → Option String
  | .string content => some content
  | _ => none

def integer? : Json → Option Int
  | .integer value => some value
  | _ => none

/-- The number of unsigned 64-bit words. -/
def sizeLimit : Int := 18446744073709551616

/-- A position or size: an unsigned 64-bit word. -/
def size? : Json → Option Nat
  | .integer value =>
      if 0 ≤ value ∧ value < sizeLimit then some value.toNat else none
  | _ => none

def optionalTo {α : Type} (write : α → Json) : Option α → Json
  | none => .null
  | some value => write value

end LatticeSurgery.Text.Json
