import LatticeSurgery.Text.Yaml
import LatticeSurgery.Text.Yaml.Scalar

namespace LatticeSurgery.Text.Yaml

/-! Names of anchors and aliases, which stand behind a mark. -/

def isNameEnd (source : List Char) : Bool :=
  endsWord source || source.head?.any (· ∈ ['?', ':', ',', ']', '\x7d', '%', '@', '\x60'])

def readAnchorName (cursor : Cursor) : Option (String × Cursor) :=
  let name := (cursor.rest.drop 1).takeWhile isNameChar
  let after := cursor.skip (name.length + 1)
  if name.isEmpty || !isNameEnd after.rest then none
  else some (String.ofList name, after)

/-! Tags. A tag is given in full between angle brackets, or by a handle and the
octets behind what the handle stands for. Characters may be escaped octet by octet,
as long as the octets have the form of UTF-8. An octet of zero ends the text. -/

def isTagChar (full : Bool) (character : Char) : Bool :=
  isNameChar character ||
    character ∈ [';', '/', '?', ':', '@', '&', '=', '+', '$', '.', '!', '~', '*', '\'', '(', ')'] ||
    (full && character ∈ [',', '[', ']'])

/-- The number of octets of a character, by the first of them. -/
def octetCount? (first : Nat) : Option Nat :=
  if first < 0x80 then some 1
  else if first < 0xC0 then none
  else if first < 0xE0 then some 2
  else if first < 0xF0 then some 3
  else if first < 0xF8 then some 4
  else none

def readOctet (source : List Char) : Option (Nat × List Char) :=
  match source with
  | '%' :: high :: low :: rest => do return (← hexValue? [high, low], rest)
  | _ => none

def readMoreOctets : (count : Nat) → List Char → Option (List Nat × List Char)
  | 0, source => some ([], source)
  | count + 1, source => do
      let (octet, rest) ← readOctet source
      if octet < 0x80 || 0xC0 ≤ octet then none
      let (octets, rest) ← readMoreOctets count rest
      return (octet :: octets, rest)

def readOctets (source : List Char) : Option (List Nat × List Char) := do
  let (first, rest) ← readOctet source
  let count ← octetCount? first
  let (octets, rest) ← readMoreOctets (count - 1) rest
  return (first :: octets, rest)

def readTagOctets (full : Bool) : (fuel : Nat) → List Char → Option (List Nat × List Char)
  | 0, _ => none
  | fuel + 1, source =>
      match source with
      | [] => some ([], [])
      | character :: rest =>
          if character = '%' then do
            let (octets, rest) ← readOctets source
            let (more, rest) ← readTagOctets full fuel rest
            return (octets ++ more, rest)
          else if isTagChar full character then do
            let (more, rest) ← readTagOctets full fuel rest
            return (character.toNat :: more, rest)
          else some ([], source)

/-- The text of a tag from the cursor on, where `head` is known to belong to it. At
least one character has to be there. -/
def readTagText (full : Bool) (head : List Char) (cursor : Cursor) : Option (Tag × Cursor) := do
  let (octets, rest) ← readTagOctets full (cursor.rest.length + 1) cursor.rest
  if head.isEmpty && octets.isEmpty then none
  let all := (head.drop 1).map Char.toNat ++ octets
  let text := (all.takeWhile (· ≠ 0)).map Nat.toUInt8
  return (text, cursor.skip (cursor.rest.length - rest.length))

/-- An exclamation mark, a name and another exclamation mark if there is one. -/
def takeHandle (source : List Char) : List Char :=
  let name := (source.drop 1).takeWhile isNameChar
  let closing := if (source.drop (name.length + 1)).head? = some '!' then ['!'] else []
  source.take 1 ++ name ++ closing

def isHandle (source : List Char) : Bool :=
  1 < source.length && source.getLast? = some '!'

structure TagToken where
  handle : String
  text : Tag
deriving Repr, DecidableEq

def markTag : Tag := Tag.ofText "!"

def readTagForm (cursor : Cursor) : Option (TagToken × Cursor) :=
  match cursor.rest with
  | '!' :: '<' :: _ => do
      let (text, after) ← readTagText true [] (cursor.skip 2)
      if after.rest.head? = some '>' then return (⟨"", text⟩, after.skip 1) else none
  | source => do
      let handle := takeHandle source
      let after := cursor.skip handle.length
      if isHandle handle then
        let (text, after) ← readTagText false [] after
        return (⟨String.ofList handle, text⟩, after)
      else
        let (text, after) ← readTagText false handle after
        if text.isEmpty then return (⟨"", markTag⟩, after)
        return (⟨"!", text⟩, after)

/-- A tag is followed by a blank or a line end, or between brackets by a comma. -/
def readTag (flow : Bool) (cursor : Cursor) : Option (TagToken × Cursor) := do
  let (tag, after) ← readTagForm cursor
  if endsWord after.rest || (flow && after.rest.head? = some ',') then return (tag, after)
  else none

/-! Directives stand in front of a document. -/

inductive Directive where
  | version (major minor : Nat)
  | tag (handle : String) (stem : Tag)
deriving Repr, DecidableEq

def readNumber (cursor : Cursor) : Option (Nat × Cursor) :=
  let digits := cursor.rest.takeWhile Char.isDigit
  if digits.isEmpty || 9 < digits.length then none
  else some (digits.foldl (fun value digit => 10 * value + (digit.toNat - '0'.toNat)) 0,
    cursor.pass digits)

def readVersion (cursor : Cursor) : Option (Directive × Cursor) := do
  let (major, after) ← readNumber cursor.skipBlanks
  if after.rest.head? ≠ some '.' then none
  let (minor, after) ← readNumber (after.skip 1)
  return (.version major minor, after)

def readTagDirective (cursor : Cursor) : Option (Directive × Cursor) := do
  let cursor := cursor.skipBlanks
  if cursor.rest.head? ≠ some '!' then none
  let handle := takeHandle cursor.rest
  if handle ≠ ['!'] && !isHandle handle then none
  let after := cursor.skip handle.length
  if !after.rest.head?.any isBlankChar then none
  let (stem, after) ← readTagText true [] after.skipBlanks
  if endsWord after.rest then return (.tag (String.ofList handle) stem, after) else none

def readDirective (cursor : Cursor) : Option (Directive × Cursor) := do
  let name := (cursor.rest.drop 1).takeWhile isNameChar
  let after := cursor.skip (name.length + 1)
  if !endsWord after.rest then none
  let (directive, after) ← match String.ofList name with
    | "YAML" => readVersion after
    | "TAG" => readTagDirective after
    | _ => none
  return (directive, ← after.finishLine?)

end LatticeSurgery.Text.Yaml
