namespace LatticeSurgery.Text

/-! JSON values. Whole numbers are kept exactly, and a number with a fraction or
an exponent is kept as its literal. An object keeps its members in order, also
when a name is repeated. A string may escape half of a surrogate pair, and then it
stands for no text. Such a string, and an object with such a name, is `broken`: it
is well formed and can be passed over, but it cannot be used. -/

inductive Json where
  | null
  | bool (value : Bool)
  | integer (value : Int)
  | decimal (literal : String)
  | string (content : String)
  | array (items : List Json)
  | object (members : List (String × Json))
  | broken
deriving Repr, Inhabited

namespace Json

/-! Writing. Every writer puts its text in front of the characters that follow.
There are no spaces, and members stand in their order. -/

def hexDigit (value : Nat) : Char := (Nat.digitChar value)

def writeEscaped (character : Char) (rest : List Char) : List Char :=
  match character with
  | '"' => '\\' :: '"' :: rest
  | '\\' => '\\' :: '\\' :: rest
  | '\n' => '\\' :: 'n' :: rest
  | '\r' => '\\' :: 'r' :: rest
  | '\t' => '\\' :: 't' :: rest
  | '\x08' => '\\' :: 'b' :: rest
  | '\x0c' => '\\' :: 'f' :: rest
  | _ =>
      if character.toNat < 0x20 then
        '\\' :: 'u' :: '0' :: '0' :: hexDigit (character.toNat / 16) ::
          hexDigit (character.toNat % 16) :: rest
      else character :: rest

def writeString (content : String) (rest : List Char) : List Char :=
  '"' :: content.toList.foldr writeEscaped ('"' :: rest)

def writeInteger (value : Int) (rest : List Char) : List Char :=
  (toString value).toList ++ rest

mutual

def write : Json → List Char → List Char
  | .null, rest => "null".toList ++ rest
  | .bool true, rest => "true".toList ++ rest
  | .bool false, rest => "false".toList ++ rest
  | .integer value, rest => writeInteger value rest
  | .decimal literal, rest => literal.toList ++ rest
  | .string content, rest => writeString content rest
  | .array [], rest => '[' :: ']' :: rest
  | .array (head :: tail), rest => '[' :: write head (writeItems tail rest)
  | .broken, rest => "\"\\ud800\"".toList ++ rest
  | .object [], rest => '\x7b' :: '\x7d' :: rest
  | .object ((name, value) :: tail), rest =>
      '\x7b' :: writeString name (':' :: write value (writeMembers tail rest))

def writeItems : List Json → List Char → List Char
  | [], rest => ']' :: rest
  | head :: tail, rest => ',' :: write head (writeItems tail rest)

def writeMembers : List (String × Json) → List Char → List Char
  | [], rest => '\x7d' :: rest
  | (name, value) :: tail, rest =>
      ',' :: writeString name (':' :: write value (writeMembers tail rest))

end

def text (json : Json) : String := String.ofList (json.write [])

end Json

end LatticeSurgery.Text
