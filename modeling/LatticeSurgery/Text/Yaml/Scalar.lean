import LatticeSurgery.Text.Yaml
import LatticeSurgery.Text.Yaml.Cursor

namespace LatticeSurgery.Text.Yaml

/-! Scalars of words with gaps of blanks and line ends between them. A gap within
a line is kept. Of a gap over several lines only the line ends count: a single line
feed becomes a space, and of several line ends a line feed in front is left out. -/

def lineEnds : List Char → List Char
  | '\r' :: '\n' :: rest => '\n' :: lineEnds rest
  | character :: rest =>
      if isBreak character then lineEndOf character :: lineEnds rest else lineEnds rest
  | [] => []

def fold (gap : List Char) : List Char :=
  match lineEnds gap with
  | [] => gap
  | ['\n'] => [' ']
  | '\n' :: more => more
  | all => all

/-- A tab stands in front of the column `least` on a line that starts in the gap. -/
def indentsByTab (least : Nat) : (column : Option Nat) → (gap : List Char) → Bool
  | _, [] => false
  | column, character :: gap =>
      if isBreak character then indentsByTab least (some 0) gap
      else (character = '\t' && column.any (· < least)) ||
        indentsByTab least (column.map (· + 1)) gap

/-! Plain scalars end before a colon that ends a key, before a comment and, between
brackets, before a bracket or comma. -/

structure Plain where
  content : List Char
  /-- The scalar is followed by a line end, which belongs to it. -/
  endsLine : Bool
  after : Cursor

/-- A word of a plain scalar. Between brackets a colon cannot stand in front of an
indicator. -/
def plainWord (flow : Bool) : List Char → Option (List Char)
  | [] => some []
  | character :: rest =>
      if isGap character then some []
      else if character = ':' && flow && rest.head?.any (fun next =>
          next = '?' || isFlowIndicator next) then none
      else if character = ':' && endsWord rest then some []
      else if flow && isFlowIndicator character then some []
      else (plainWord flow rest).map (character :: ·)

/-- The words from the cursor on, where `gap` stands in front of it and `reversed`
is the content so far. Lines have to reach the column `least` unless they are
between brackets. -/
def readWords (flow : Bool) (least : Nat) : (fuel : Nat) → (reversed gap : List Char) →
    Cursor → Option Plain
  | 0, _, _, _ => none
  | fuel + 1, reversed, gap, cursor =>
      let endsLine (gap : List Char) : Bool := gap.any isBreak
      if cursor.atMarker || cursor.rest.head? = some '#' then
        some ⟨reversed.reverse, endsLine gap, cursor⟩
      else do
        let word ← plainWord flow cursor.rest
        if word.isEmpty then return ⟨reversed.reverse, endsLine gap, cursor⟩
        let reversed := (fold gap ++ word).reverse ++ reversed
        let after := cursor.pass word
        let gap := after.rest.takeWhile isGap
        if indentsByTab least none gap then none
        let next := after.pass gap
        if gap.isEmpty || (!flow && next.column < least) then
          return ⟨reversed.reverse, endsLine gap, next⟩
        readWords flow least fuel reversed gap next

def readPlain (flow : Bool) (least fuel : Nat) (cursor : Cursor) : Option Plain :=
  readWords flow least fuel [] [] cursor

/-! Quoted scalars. A quote within single quotes is written twice. Double quotes
know escapes. -/

def escapes : List (Char × Char) :=
  [('0', '\x00'), ('a', '\x07'), ('b', '\x08'), ('t', '\t'), ('n', '\n'), ('v', '\x0b'),
    ('f', '\x0c'), ('r', '\r'), ('e', '\x1b'), (' ', ' '), ('"', '"'), ('/', '/'),
    ('\\', '\\'), ('N', '\u0085'), ('_', '\u00a0'), ('L', '\u2028'), ('P', '\u2029'),
    ('\t', '\t')]

def hexDigit? (digit : Char) : Option Nat :=
  if digit.isDigit then some (digit.toNat - '0'.toNat)
  else if 'a' ≤ digit ∧ digit ≤ 'f' then some (digit.toNat - 'a'.toNat + 10)
  else if 'A' ≤ digit ∧ digit ≤ 'F' then some (digit.toNat - 'A'.toNat + 10)
  else none

def hexValue? (digits : List Char) : Option Nat :=
  digits.foldlM (fun value digit => (hexDigit? digit).map (16 * value + ·)) 0

def readHex (count : Nat) (source : List Char) : Option (Char × Nat) := do
  let digits := source.take count
  if digits.length ≠ count then none
  let value ← hexValue? digits
  if value.isValidChar then return (Char.ofNat value, count + 1) else none

/-- The character of an escape behind its backslash, and the length of the escape
there. -/
def readEscape (source : List Char) : Option (Char × Nat) :=
  match source with
  | 'x' :: rest => readHex 2 rest
  | 'u' :: rest => readHex 4 rest
  | 'U' :: rest => readHex 8 rest
  | character :: _ => (escapes.lookup character).map fun found => (found, 1)
  | [] => none

/-- The content of a quoted scalar behind its opening quote, where `reversed` is the
content so far. A line end behind a backslash is left out. -/
def readQuotedFrom (quote : Char) : (fuel : Nat) → (reversed : List Char) → Cursor →
    Option (List Char × Cursor)
  | 0, _, _ => none
  | fuel + 1, reversed, cursor =>
      match cursor.rest with
      | [] => none
      | character :: rest =>
          if isGap character then
            let gap := cursor.rest.takeWhile isGap
            let after := cursor.pass gap
            if after.atMarker then none
            else readQuotedFrom quote fuel ((fold gap).reverse ++ reversed) after
          else if character = '\'' && quote = '\'' && rest.head? = some '\'' then
            readQuotedFrom quote fuel ('\'' :: reversed) (cursor.skip 2)
          else if character = quote then some (reversed.reverse, cursor.skip 1)
          else if character = '\\' && quote = '"' then
            if rest.head?.any isBreak then
              let gap := rest.takeWhile isGap
              let after := (cursor.skip 1).pass gap
              if after.atMarker then none
              else readQuotedFrom quote fuel (((lineEnds gap).drop 1).reverse ++ reversed) after
            else do
              let (escaped, length) ← readEscape rest
              readQuotedFrom quote fuel (escaped :: reversed) (cursor.skip (length + 1))
          else readQuotedFrom quote fuel (character :: reversed) (cursor.skip 1)

def readQuoted (quote : Char) (cursor : Cursor) : Option (List Char × Cursor) :=
  readQuotedFrom quote (cursor.rest.length + 1) [] (cursor.skip 1)

end LatticeSurgery.Text.Yaml
