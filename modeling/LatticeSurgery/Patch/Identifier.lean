import LatticeSurgery.Text.Json.Fields

namespace LatticeSurgery

/-! Identifiers of patches. An identifier is a number, and its text shows the 32
hexadecimal digits of a 128-bit word in groups of 8, 4, 4, 4 and 12. -/

structure PatchId where
  value : Nat
deriving DecidableEq, Repr

namespace PatchId

def hexDigits (value : Nat) : (count : Nat) → List Char
  | 0 => []
  | count + 1 => hexDigits (value / 16) count ++ [Nat.digitChar (value % 16)]

def groups (digits : List Char) : List (List Char) :=
  [digits.take 8, (digits.drop 8).take 4, (digits.drop 12).take 4, (digits.drop 16).take 4,
    digits.drop 20]

def text (id : PatchId) : String :=
  String.ofList (List.intercalate ['-'] (groups (hexDigits id.value 32)))

/-! Reading accepts the digits alone, the grouped digits, and the grouped digits
within braces or behind `urn:uuid:`. Letters may have either case. -/

def digitValue? (digit : Char) : Option Nat :=
  if digit.isDigit then some (digit.toNat - '0'.toNat)
  else if 'a' ≤ digit ∧ digit ≤ 'f' then some (digit.toNat - 'a'.toNat + 10)
  else if 'A' ≤ digit ∧ digit ≤ 'F' then some (digit.toNat - 'A'.toNat + 10)
  else none

def ofDigits? (digits : List Char) : Option PatchId := do
  let values ← digits.mapM digitValue?
  if values.length = 32 then
    return ⟨values.foldl (fun value digit => 16 * value + digit) 0⟩
  else none

def ungroup? (characters : List Char) : Option (List Char) :=
  let digits := characters.filter (· ≠ '-')
  if characters = List.intercalate ['-'] (groups digits) then some digits else none

def ofGrouped? (characters : List Char) : Option PatchId :=
  ungroup? characters >>= ofDigits?

def scheme : List Char := "urn:uuid:".toList

def parse? (source : String) : Option PatchId :=
  let characters := source.toList
  if characters.length = 32 then ofDigits? characters
  else if characters.length = 36 then ofGrouped? characters
  else if characters.length = 38 ∧ characters.head? = some '\x7b' ∧
      characters.getLast? = some '\x7d' then
    ofGrouped? (characters.drop 1).dropLast
  else if characters.length = 45 ∧ (characters.take 9).map Char.toLower = scheme then
    ofGrouped? (characters.drop 9)
  else none

def toJson (id : PatchId) : Text.Json := .string id.text

def ofJson? (json : Text.Json) : Option PatchId := json.string? >>= parse?

end PatchId

end LatticeSurgery
