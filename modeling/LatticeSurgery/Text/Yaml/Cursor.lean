namespace LatticeSurgery.Text.Yaml

/-! Characters. A line ends with a line feed, a carriage return or both, or with
one of three further characters, of which two are kept as they are. -/

def isBlankChar (character : Char) : Bool := character = ' ' || character = '\t'

def isBreak (character : Char) : Bool :=
  character ∈ ['\n', '\r', '\u0085', '\u2028', '\u2029']

def isGap (character : Char) : Bool := isBlankChar character || isBreak character

/-- The line end that a character stands for. -/
def lineEndOf (character : Char) : Char :=
  if character ∈ ['\u2028', '\u2029'] then character else '\n'

/-- The next character is a blank, a line end or missing. -/
def endsWord : List Char → Bool
  | [] => true
  | character :: _ => isGap character

def isFlowIndicator (character : Char) : Bool :=
  character ∈ [',', '[', ']', '\x7b', '\x7d']

/-- A character of the names of anchors, tag handles and directives. -/
def isNameChar (character : Char) : Bool :=
  character.isAlphanum || character = '_' || character = '-'

/-! A place in a document: the characters that are left, the number of octets and
lines before it, and its column, which counts characters. -/

structure Cursor where
  rest : List Char
  index : Nat
  line : Nat
  column : Nat
deriving Repr

namespace Cursor

def start (source : List Char) : Cursor := ⟨source, 0, 0, 0⟩

/-- Pass over the text that stands at the cursor. -/
def pass : (passed : List Char) → Cursor → Cursor
  | [], cursor => cursor
  | '\r' :: '\n' :: passed, cursor =>
      pass passed ⟨cursor.rest.drop 2, cursor.index + 2, cursor.line + 1, 0⟩
  | character :: passed, cursor =>
      let rest := cursor.rest.drop 1
      let index := cursor.index + character.utf8Size
      if isBreak character then pass passed ⟨rest, index, cursor.line + 1, 0⟩
      else pass passed ⟨rest, index, cursor.line, cursor.column + 1⟩

def skip (cursor : Cursor) (count : Nat) : Cursor := pass (cursor.rest.take count) cursor

def skipWhile (cursor : Cursor) (skipped : Char → Bool) : Cursor :=
  pass (cursor.rest.takeWhile skipped) cursor

def skipBlanks (cursor : Cursor) : Cursor := cursor.skipWhile isBlankChar

def skipLineEnd (cursor : Cursor) : Cursor :=
  match cursor.rest with
  | '\r' :: '\n' :: _ => cursor.skip 2
  | character :: _ => if isBreak character then cursor.skip 1 else cursor
  | [] => cursor

/-- Pass over the blanks and the comment at the end of a line and over its end. -/
def finishLine? (cursor : Cursor) : Option Cursor :=
  let after := cursor.skipBlanks
  let after := if after.rest.head? = some '#' then
    after.skipWhile fun character => !isBreak character
  else after
  match after.rest with
  | [] => some after
  | character :: _ => if isBreak character then some after.skipLineEnd else none

/-- A document marker stands at the start of a line. -/
def atMarker (cursor : Cursor) : Bool :=
  cursor.column = 0 &&
    match cursor.rest with
    | '-' :: '-' :: '-' :: rest | '.' :: '.' :: '.' :: rest => endsWord rest
    | _ => false

end Cursor

end LatticeSurgery.Text.Yaml
