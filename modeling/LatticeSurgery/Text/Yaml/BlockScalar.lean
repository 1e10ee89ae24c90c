import LatticeSurgery.Text.Yaml.Scalar

namespace LatticeSurgery.Text.Yaml

/-! Scalars in a block of indented lines. A bar keeps the line ends. An angle
bracket folds the line ends between lines that do not start with a blank. -/

/-- What stays of the line ends behind the last text: none, the first one or all. -/
inductive Chomping where
  | strip
  | clip
  | keep
deriving Repr, DecidableEq

structure BlockHeader where
  folded : Bool
  chomping : Chomping
  /-- The indentation beyond that of the enclosing collection, when it is given. -/
  indent : Option Nat
deriving Repr

namespace BlockHeader

def chomping? : Char → Option Chomping
  | '+' => some .keep
  | '-' => some .strip
  | _ => none

def indent? (digit : Char) : Option Nat :=
  if digit.isDigit then some (digit.toNat - '0'.toNat) else none

/-- The two marks behind the first character, in either order, with their length. -/
def marks (source : List Char) : Option Chomping × Option Nat × Nat :=
  let first := source.head?
  let second := (source.drop 1).head?
  match first.bind chomping?, first.bind indent? with
  | some chomping, _ =>
      match second.bind indent? with
      | some indent => (some chomping, some indent, 2)
      | none => (some chomping, none, 1)
  | none, some indent =>
      match second.bind chomping? with
      | some chomping => (some chomping, some indent, 2)
      | none => (none, some indent, 1)
  | none, none => (none, none, 0)

/-- The header at the cursor and the place of the lines below it. -/
def read? (cursor : Cursor) : Option (BlockHeader × Cursor) := do
  let (chomping, indent, length) := marks (cursor.rest.drop 1)
  if indent = some 0 then none
  let after ← (cursor.skip (length + 1)).finishLine?
  return (⟨cursor.rest.head? = some '>', chomping.getD .clip, indent⟩, after)

end BlockHeader

/-- A line of a block without its indentation. The last line of a document may
lack a line end. -/
inductive BlockLine where
  | blank (lineEnd : Char)
  | text (content : List Char) (lineEnd : Option Char)
deriving Repr

def spaces (cursor : Cursor) : Nat := (cursor.rest.takeWhile (· = ' ')).length

/-- The indentation of a block is that of its first text, and no blank line above
it may be wider. A tab is no indentation. -/
def blockIndent : (fuel widest : Nat) → Cursor → Option Nat
  | 0, _, _ => none
  | fuel + 1, widest, cursor =>
      let indented := cursor.skip (spaces cursor)
      let widest := max widest indented.column
      match indented.rest with
      | '\t' :: _ => none
      | character :: _ =>
          if isBreak character then blockIndent fuel widest indented.skipLineEnd
          else some widest
      | [] => some widest

/-- The lines of a block and the place behind them. -/
def blockLines (indent : Nat) : (fuel : Nat) → Cursor → Option (List BlockLine × Cursor)
  | 0, _ => none
  | fuel + 1, cursor =>
      let indented := cursor.skip (min (indent - cursor.column) (spaces cursor))
      match indented.rest with
      | [] => some ([], indented)
      | character :: _ =>
          if isBreak character then do
            let (lines, after) ← blockLines indent fuel indented.skipLineEnd
            return (.blank (lineEndOf character) :: lines, after)
          else if indented.column = indent then do
            let content := indented.rest.takeWhile fun character => !isBreak character
            let behind := indented.pass content
            let (lines, after) ← blockLines indent fuel behind.skipLineEnd
            return (.text content (behind.rest.head?.map lineEndOf) :: lines, after)
          else if character = '\t' then none
          else some ([], indented)

def startsBlank (content : List Char) : Bool := content.head?.any isBlankChar

/-- What stands between a text with its line end and the next one, with the ends of
the blank lines between them. -/
def separate (folded : Bool) (blanks last : List Char) (lineEnd : Option Char)
    (next : List Char) : List Char :=
  if folded && lineEnd = some '\n' && !startsBlank last && !startsBlank next then
    if blanks.isEmpty then [' '] else blanks
  else lineEnd.toList ++ blanks

/-- The content of the lines behind a text with its line end and behind blank lines. -/
def joinLines (header : BlockHeader) : (last : List Char) → (lineEnd : Option Char) →
    (blanks : List Char) → List BlockLine → List Char
  | last, lineEnd, blanks, .blank next :: lines =>
      joinLines header last lineEnd (blanks ++ [next]) lines
  | last, lineEnd, blanks, .text content next :: lines =>
      separate header.folded blanks last lineEnd content ++ content ++
        joinLines header content next [] lines
  | _, lineEnd, blanks, [] =>
      match header.chomping with
      | .strip => []
      | .clip => lineEnd.toList
      | .keep => lineEnd.toList ++ blanks

/-- Reads a block scalar whose lines have to reach the column `least`. -/
def readBlock (least : Nat) (cursor : Cursor) : Option (Style × List Char × Cursor) := do
  let (header, start) ← BlockHeader.read? cursor
  let fuel := start.rest.length + 1
  let indent ← match header.indent with
    | some indent => some (least - 1 + indent)
    | none => (blockIndent fuel 0 start).map fun width => max (max width least) 1
  let (lines, after) ← blockLines indent fuel start
  return (if header.folded then .folded else .literal, joinLines header [] none [] lines, after)

end LatticeSurgery.Text.Yaml
