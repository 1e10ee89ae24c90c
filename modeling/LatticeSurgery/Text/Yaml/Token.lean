import LatticeSurgery.Text.Yaml.BlockScalar
import LatticeSurgery.Text.Yaml.Property

namespace LatticeSurgery.Text.Yaml

/-! The tokens of a document. Indentation becomes tokens as well: a collection in
lines has a token at its start and one at its end. -/

inductive Token where
  | directive (directive : Directive)
  | documentStart
  | documentEnd
  | blockSequenceStart
  | blockMappingStart
  | blockEnd
  | flowSequenceStart
  | flowSequenceEnd
  | flowMappingStart
  | flowMappingEnd
  | flowEntry
  | blockEntry
  | key
  | value
  | aliasOf (name : String)
  | anchor (name : String)
  | tag (tag : TagToken)
  | scalar (style : Style) (content : String)
deriving Repr, DecidableEq

/-- A token that may turn out to start a key, when a colon follows on its line. At
the column of the enclosing collection it has to be one. -/
structure PossibleKey where
  position : Nat
  start : Cursor
  required : Bool
deriving Repr

namespace PossibleKey

/-- A key without mark is on one line and has at most 1024 octets. -/
def isOver (key : PossibleKey) (cursor : Cursor) : Bool :=
  key.start.line < cursor.line || key.start.index + 1024 < cursor.index

end PossibleKey

/-- The state of reading tokens: the tokens so far with their number, the columns of
the open collections in lines, the possible key at the present level of brackets
and those at the outer levels, and whether a key may start here. The latest token
and the innermost level come first, and `size` is the length of the document. -/
structure Lexer where
  cursor : Cursor
  size : Nat
  tokens : List Token
  count : Nat
  columns : List Nat
  key : Option PossibleKey
  outerKeys : List (Option PossibleKey)
  keyAllowed : Bool

namespace Lexer

def start (source : List Char) : Lexer :=
  ⟨Cursor.start source, source.length, [], 0, [], none, [], true⟩

def flow (lexer : Lexer) : Bool := !lexer.outerKeys.isEmpty

/-- The column that the lines of a value have to reach. -/
def least (lexer : Lexer) : Nat :=
  match lexer.columns with
  | column :: _ => column + 1
  | [] => 0

def add (lexer : Lexer) (token : Token) : Lexer :=
  { lexer with tokens := token :: lexer.tokens, count := lexer.count + 1 }

/-- Put a token behind the first ones, as many as `position` says. -/
def insert (lexer : Lexer) (position : Nat) (token : Token) : Lexer :=
  { lexer with
    tokens := lexer.tokens.insertIdx (lexer.count - position) token
    count := lexer.count + 1 }

def addMark (lexer : Lexer) (token : Token) : Lexer :=
  { lexer.add token with cursor := lexer.cursor.skip 1 }

/-! Possible keys. -/

def dropKey (lexer : Lexer) : Option Lexer :=
  if lexer.key.any PossibleKey.required then none else some { lexer with key := none }

def saveKey (lexer : Lexer) : Option Lexer :=
  if lexer.keyAllowed then do
    let required := !lexer.flow && lexer.columns.head? = some lexer.cursor.column
    let dropped ← lexer.dropKey
    return { dropped with key := some ⟨lexer.count, lexer.cursor, required⟩ }
  else some lexer

/-- Drop the possible key when it is over. Those at the outer levels are dropped when
their level is reached again. -/
def dropOverKey (lexer : Lexer) : Option Lexer :=
  if lexer.key.any fun key => key.isOver lexer.cursor then lexer.dropKey else some lexer

/-! Indentation counts outside of brackets only. -/

/-- Open a collection at a column, with its token at a position. -/
def indent (lexer : Lexer) (column position : Nat) (token : Token) : Lexer :=
  if lexer.flow || lexer.columns.head?.any (column ≤ ·) then lexer
  else { lexer.insert position token with columns := column :: lexer.columns }

/-- Close the collections behind a column, or all of them. -/
def dedent (lexer : Lexer) (column : Option Nat) : Lexer :=
  if lexer.flow then lexer
  else
    let closed := (lexer.columns.takeWhile fun opened => column.all (· < opened)).length
    { lexer with
      columns := lexer.columns.drop closed
      tokens := List.replicate closed .blockEnd ++ lexer.tokens
      count := lexer.count + closed }

/-- Pass over a mark of the byte order at the start of a line. -/
def skipOrderMark (cursor : Cursor) : Cursor :=
  if cursor.column = 0 && cursor.rest.head? = some '\ufeff' then cursor.skip 1 else cursor

/-- Pass over blanks, comments and line ends. A tab cannot stand where a key may
start, and behind a line end a key may start. -/
def skipSpaceFrom (flow : Bool) : (fuel : Nat) → Cursor → (keyAllowed : Bool) → Cursor × Bool
  | 0, cursor, keyAllowed => (cursor, keyAllowed)
  | fuel + 1, cursor, keyAllowed =>
      let after := (skipOrderMark cursor).skipWhile fun character =>
        character = ' ' || (character = '\t' && (flow || !keyAllowed))
      let after := if after.rest.head? = some '#' then
        after.skipWhile fun character => !isBreak character
      else after
      if after.rest.head?.any isBreak then
        skipSpaceFrom flow fuel after.skipLineEnd (keyAllowed || !flow)
      else (after, keyAllowed)

def skipSpace (lexer : Lexer) : Lexer :=
  let (cursor, keyAllowed) := skipSpaceFrom lexer.flow (lexer.size + 1) lexer.cursor
    lexer.keyAllowed
  { lexer with cursor := cursor, keyAllowed := keyAllowed }

/-! Tokens by their first character. -/

def readDirectiveToken (lexer : Lexer) : Option Lexer := do
  let lexer ← (lexer.dedent none).dropKey
  let (directive, after) ← readDirective lexer.cursor
  return { lexer.add (.directive directive) with cursor := after, keyAllowed := false }

def readMarker (lexer : Lexer) : Option Lexer := do
  let token := if lexer.cursor.rest.head? = some '-' then .documentStart else .documentEnd
  let lexer ← (lexer.dedent none).dropKey
  return { lexer.add token with cursor := lexer.cursor.skip 3, keyAllowed := false }

def openBracket (lexer : Lexer) (token : Token) : Option Lexer := do
  let lexer ← lexer.saveKey
  return { lexer.addMark token with
    key := none, outerKeys := lexer.key :: lexer.outerKeys, keyAllowed := true }

def closeBracket (lexer : Lexer) (token : Token) : Option Lexer := do
  let lexer ← lexer.dropKey
  let lexer := match lexer.outerKeys with
    | key :: outerKeys => { lexer with key := key, outerKeys := outerKeys }
    | [] => lexer
  return { lexer.addMark token with keyAllowed := false }

def readComma (lexer : Lexer) : Option Lexer := do
  let lexer ← lexer.dropKey
  return { lexer.addMark .flowEntry with keyAllowed := true }

/-- A dash or question mark that stands for an item or a key. -/
def readEntryMark (lexer : Lexer) (opening token : Token) (keyAllowed : Bool) :
    Option Lexer := do
  if !lexer.flow && !lexer.keyAllowed then none
  let opened := lexer.indent lexer.cursor.column lexer.count opening
  let lexer ← opened.dropKey
  return { lexer.addMark token with keyAllowed := keyAllowed }

/-- A colon makes a key of the possible key, or follows a marked key. -/
def readColon (lexer : Lexer) : Option Lexer :=
  match lexer.key with
  | some key =>
      let marked := lexer.insert key.position .key
      let opened := marked.indent key.start.column key.position .blockMappingStart
      some { opened.addMark .value with key := none, keyAllowed := false }
  | none =>
      if !lexer.flow && !lexer.keyAllowed then none
      else
        let opened := lexer.indent lexer.cursor.column lexer.count .blockMappingStart
        some { opened.addMark .value with keyAllowed := !lexer.flow }

/-- A token that can start a key and ends behind the cursor that is read with it. -/
def readKeyed (lexer : Lexer) (read : Cursor → Option (Token × Cursor)) : Option Lexer := do
  let lexer ← lexer.saveKey
  let (token, after) ← read lexer.cursor
  return { lexer.add token with cursor := after, keyAllowed := false }

def readPlainToken (lexer : Lexer) : Option Lexer := do
  let lexer ← lexer.saveKey
  let plain ← readPlain lexer.flow lexer.least (lexer.size + 1) lexer.cursor
  return { lexer.add (.scalar .plain (String.ofList plain.content)) with
    cursor := plain.after, keyAllowed := plain.endsLine }

def readBlockToken (lexer : Lexer) : Option Lexer := do
  let lexer ← lexer.dropKey
  let (style, content, after) ← readBlock lexer.least lexer.cursor
  return { lexer.add (.scalar style (String.ofList content)) with
    cursor := after, keyAllowed := true }

def readQuotedToken (quote : Char) (cursor : Cursor) : Option (Token × Cursor) := do
  let (content, after) ← readQuoted quote cursor
  return (.scalar .quoted (String.ofList content), after)

/-- The characters with which no plain scalar starts. -/
def indicators : List Char :=
  [',', '[', ']', '\x7b', '\x7d', '#', '&', '*', '!', '|', '>', '\'', '"', '%', '@', '\x60']

def readByFirst (lexer : Lexer) (first : Char) (rest : List Char) : Option Lexer :=
  match first with
  | '[' => lexer.openBracket .flowSequenceStart
  | '\x7b' => lexer.openBracket .flowMappingStart
  | ']' => lexer.closeBracket .flowSequenceEnd
  | '\x7d' => lexer.closeBracket .flowMappingEnd
  | ',' => lexer.readComma
  | '*' => lexer.readKeyed fun cursor => do
      let (name, after) ← readAnchorName cursor
      return (.aliasOf name, after)
  | '&' => lexer.readKeyed fun cursor => do
      let (name, after) ← readAnchorName cursor
      return (.anchor name, after)
  | '!' => lexer.readKeyed fun cursor => do
      let (tag, after) ← readTag lexer.flow cursor
      return (.tag tag, after)
  | '\'' => lexer.readKeyed (readQuotedToken '\'')
  | '"' => lexer.readKeyed (readQuotedToken '"')
  | _ =>
      if first = '-' && endsWord rest then
        lexer.readEntryMark .blockSequenceStart .blockEntry true
      else if first = '?' && (lexer.flow || endsWord rest) then
        lexer.readEntryMark .blockMappingStart .key (!lexer.flow)
      else if first = ':' && (lexer.flow || endsWord rest) then lexer.readColon
      else if (first = '|' || first = '>') && !lexer.flow then lexer.readBlockToken
      else if isGap first || first ∈ indicators then none
      else lexer.readPlainToken

def finish (lexer : Lexer) : Option (List Token) := do
  return (← (lexer.dedent none).dropKey).tokens.reverse

/-- Read the tokens up to the end. Every token takes at least one character. -/
def run : (fuel : Nat) → Lexer → Option (List Token)
  | 0, _ => none
  | fuel + 1, lexer => do
      let spaced ← lexer.skipSpace.dropOverKey
      let lexer := spaced.dedent (some spaced.cursor.column)
      match lexer.cursor.rest with
      | [] => lexer.finish
      | first :: rest =>
          let next ← if lexer.cursor.column = 0 && first = '%' then lexer.readDirectiveToken
            else if lexer.cursor.atMarker then lexer.readMarker
            else lexer.readByFirst first rest
          run fuel next

end Lexer

/-! The characters of a document: no control characters but tabs and line ends. -/

def isAllowed (character : Char) : Bool :=
  let code := character.toNat
  code = 0x09 || code = 0x0A || code = 0x0D || (0x20 ≤ code && code ≤ 0x7E) || code = 0x85 ||
    (0xA0 ≤ code && code ≤ 0xFFFD) || 0x10000 ≤ code

def tokens? (source : String) : Option (List Token) :=
  let characters := source.toList
  if characters.all isAllowed then
    (Lexer.start characters).run (characters.length + 1)
  else none

end LatticeSurgery.Text.Yaml
