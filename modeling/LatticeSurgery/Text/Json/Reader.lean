import LatticeSurgery.Text.Json

namespace LatticeSurgery.Text.Json

/-! Reading. Every reader takes the characters that are left and returns a value
with the characters after it, or nothing when the text is not well formed. -/

def isSpace (character : Char) : Bool :=
  character = ' ' || character = '\n' || character = '\r' || character = '\t'

def skipSpace (source : List Char) : List Char := source.dropWhile isSpace

/-! Numbers. A literal without fraction and exponent is an integer, unless it is
a negative zero: no integer is written that way. -/

def takeDigits (source : List Char) : List Char × List Char :=
  source.span Char.isDigit

def digitsValue (digits : List Char) : Nat :=
  digits.foldl (fun value digit => 10 * value + (digit.toNat - '0'.toNat)) 0

/-- The digits before the point: a zero stands alone. -/
def readWhole (source : List Char) : Option (List Char × List Char) :=
  match source with
  | '0' :: rest => some (['0'], rest)
  | _ =>
      match takeDigits source with
      | ([], _) => none
      | (digits, rest) => some (digits, rest)

def readFraction (source : List Char) : Option (List Char × List Char) :=
  match source with
  | '.' :: rest =>
      match takeDigits rest with
      | ([], _) => none
      | (digits, rest) => some ('.' :: digits, rest)
  | _ => some ([], source)

def readExponentDigits (mark : List Char) (source : List Char) :
    Option (List Char × List Char) :=
  match takeDigits source with
  | ([], _) => none
  | (digits, rest) => some (mark ++ digits, rest)

def readExponent (source : List Char) : Option (List Char × List Char) :=
  match source with
  | 'e' :: '+' :: rest | 'E' :: '+' :: rest => readExponentDigits ['e', '+'] rest
  | 'e' :: '-' :: rest | 'E' :: '-' :: rest => readExponentDigits ['e', '-'] rest
  | 'e' :: rest | 'E' :: rest => readExponentDigits ['e'] rest
  | _ => some ([], source)

def numberOf (negative : Bool) (whole fraction exponent : List Char) : Json :=
  if fraction = [] ∧ exponent = [] ∧ ¬ (negative ∧ digitsValue whole = 0) then
    let magnitude : Int := digitsValue whole
    .integer (if negative then -magnitude else magnitude)
  else
    let sign := if negative then ['-'] else []
    .decimal (String.ofList (sign ++ whole ++ fraction ++ exponent))

def readNumber (source : List Char) : Option (Json × List Char) := do
  let (negative, unsigned) := match source with
    | '-' :: rest => (true, rest)
    | _ => (false, source)
  let (whole, rest) ← readWhole unsigned
  let (fraction, rest) ← readFraction rest
  let (exponent, rest) ← readExponent rest
  return (numberOf negative whole fraction exponent, rest)

/-! Strings. A character outside the basic plane is escaped as a surrogate pair,
and a surrogate that has no partner is no character. -/

def hexValue? (digit : Char) : Option Nat :=
  if digit.isDigit then some (digit.toNat - '0'.toNat)
  else if 'a' ≤ digit ∧ digit ≤ 'f' then some (digit.toNat - 'a'.toNat + 10)
  else if 'A' ≤ digit ∧ digit ≤ 'F' then some (digit.toNat - 'A'.toNat + 10)
  else none

def readUnit (source : List Char) : Option (Nat × List Char) :=
  match source with
  | first :: second :: third :: fourth :: rest => do
      let first ← hexValue? first
      let second ← hexValue? second
      let third ← hexValue? third
      let fourth ← hexValue? fourth
      return (((first * 16 + second) * 16 + third) * 16 + fourth, rest)
  | _ => none

def isHighSurrogate (unit : Nat) : Bool := 0xD800 ≤ unit && unit < 0xDC00

def isLowSurrogate (unit : Nat) : Bool := 0xDC00 ≤ unit && unit < 0xE000

def pairedPoint (high low : Nat) : Char :=
  Char.ofNat (0x10000 + (high - 0xD800) * 0x400 + (low - 0xDC00))

def readLowSurrogate (source : List Char) : Option (Nat × List Char) :=
  match source with
  | '\\' :: 'u' :: rest =>
      match readUnit rest with
      | some (low, rest) => if isLowSurrogate low then some (low, rest) else none
      | none => none
  | _ => none

def readCodePoint (source : List Char) : Option (Option Char × List Char) := do
  let (unit, rest) ← readUnit source
  if isHighSurrogate unit then
    match readLowSurrogate rest with
    | some (low, rest) => return (some (pairedPoint unit low), rest)
    | none => return (none, rest)
  else if isLowSurrogate unit then return (none, rest)
  else return (some (Char.ofNat unit), rest)

def readEscape (source : List Char) : Option (Option Char × List Char) :=
  match source with
  | '"' :: rest => some (some '"', rest)
  | '\\' :: rest => some (some '\\', rest)
  | '/' :: rest => some (some '/', rest)
  | 'b' :: rest => some (some '\x08', rest)
  | 'f' :: rest => some (some '\x0c', rest)
  | 'n' :: rest => some (some '\n', rest)
  | 'r' :: rest => some (some '\r', rest)
  | 't' :: rest => some (some '\t', rest)
  | 'u' :: rest => readCodePoint rest
  | _ => none

/-- The characters of a string up to its closing quote, where a surrogate without
partner is none. One unit of `fuel` is spent for every character read. -/
def readContent : (fuel : Nat) → List Char → Option (List (Option Char) × List Char)
  | 0, _ => none
  | fuel + 1, source =>
      match source with
      | '"' :: rest => some ([], rest)
      | '\\' :: rest => do
          let (character, rest) ← readEscape rest
          let (content, rest) ← readContent fuel rest
          return (character :: content, rest)
      | character :: rest =>
          if character.toNat < 0x20 then none
          else do
            let (content, rest) ← readContent fuel rest
            return (some character :: content, rest)
      | [] => none

/-- A string, with nothing inside when it stands for no text. -/
def readString (fuel : Nat) (source : List Char) : Option (Option String × List Char) :=
  match source with
  | '"' :: rest => (readContent fuel rest).map fun (content, rest) =>
      ((content.mapM id).map String.ofList, rest)
  | _ => none

def readName (fuel : Nat) (source : List Char) : Option (Option String × List Char) := do
  let (name, rest) ← readString fuel (skipSpace source)
  match skipSpace rest with
  | ':' :: rest => return (name, rest)
  | _ => none

def stringOf : Option String → Json
  | some content => .string content
  | none => .broken

/-- An object of members, each of which may lack its name. -/
def objectOf (members : List (Option String × Json)) : Json :=
  match members.mapM fun (name, value) => name.map fun name => (name, value) with
  | some members => .object members
  | none => .broken

/-! Values. One unit of `fuel` is spent for every value and for every item or
member, and each of them takes at least one character. So more units than
characters are left wherever a string starts. -/

mutual

def readValue : (fuel : Nat) → List Char → Option (Json × List Char)
  | 0, _ => none
  | fuel + 1, source =>
      match skipSpace source with
      | 'n' :: 'u' :: 'l' :: 'l' :: rest => some (.null, rest)
      | 't' :: 'r' :: 'u' :: 'e' :: rest => some (.bool true, rest)
      | 'f' :: 'a' :: 'l' :: 's' :: 'e' :: rest => some (.bool false, rest)
      | '"' :: rest => (readString fuel ('"' :: rest)).map fun (content, rest) =>
          (stringOf content, rest)
      | '[' :: rest =>
          match skipSpace rest with
          | ']' :: rest => some (.array [], rest)
          | rest => do
              let (head, rest) ← readValue fuel rest
              let (tail, rest) ← readItems fuel rest
              return (.array (head :: tail), rest)
      | '\x7b' :: rest =>
          match skipSpace rest with
          | '\x7d' :: rest => some (.object [], rest)
          | rest => do
              let (name, rest) ← readName fuel rest
              let (value, rest) ← readValue fuel rest
              let (tail, rest) ← readMembers fuel rest
              return (objectOf ((name, value) :: tail), rest)
      | rest => readNumber rest

def readItems : (fuel : Nat) → List Char → Option (List Json × List Char)
  | 0, _ => none
  | fuel + 1, source =>
      match skipSpace source with
      | ']' :: rest => some ([], rest)
      | ',' :: rest => do
          let (head, rest) ← readValue fuel rest
          let (tail, rest) ← readItems fuel rest
          return (head :: tail, rest)
      | _ => none

def readMembers : (fuel : Nat) → List Char →
    Option (List (Option String × Json) × List Char)
  | 0, _ => none
  | fuel + 1, source =>
      match skipSpace source with
      | '\x7d' :: rest => some ([], rest)
      | ',' :: rest => do
          let (name, rest) ← readName fuel rest
          let (value, rest) ← readValue fuel rest
          let (tail, rest) ← readMembers fuel rest
          return ((name, value) :: tail, rest)
      | _ => none

end

/-- The one value of a text. Only spaces may follow it. -/
def parse? (source : String) : Option Json := do
  let characters := source.toList
  let (json, rest) ← readValue (characters.length + 1) characters
  if (skipSpace rest).isEmpty then return json else none

end LatticeSurgery.Text.Json
