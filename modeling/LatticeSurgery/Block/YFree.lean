import LatticeSurgery.Block

namespace LatticeSurgery.Block

/-! Replacing Y. Every Y of a block becomes X, and the block is surrounded by
quarter rotations about products of Z that turn the X at those positions back
into Y. One such conjugation covers an odd number of positions. An even number of
positions needs two of them, and the inner one covers the last position only. -/

def yPositions (symbols : PauliString) : List Nat :=
  symbols.zipIdx.filterMap fun (symbol, qubit) =>
    if symbol = .Y then some qubit else none

def xForY (symbols : PauliString) : PauliString :=
  symbols.map fun symbol => if symbol = .Y then .X else symbol

/-- The positions of each conjugation, from the inside out. -/
def conjugationGroups (positions : List Nat) : List (List Nat) :=
  if positions.length % 2 = 1 then [positions]
  else [positions.drop (positions.length - 1), positions.take (positions.length - 1)]

def zOn (width : Nat) (positions : List Nat) : PauliString :=
  (List.range width).map fun qubit => if qubit ∈ positions then .Z else .I

/-- Put one conjugation around blocks whose inner product is `current`, and give
the product that the inner one has become. The angle is chosen such that no phase
is left over. -/
def conjugate (inner : PauliString × List Block) (conjugator : PauliString) :
    PauliString × List Block :=
  let (current, blocks) := inner
  let (phase, product) := conjugator.mul current
  if Phase.negI * phase = Phase.one then
    (product, rotation conjugator .negQuarter :: blocks ++ [rotation conjugator .quarter])
  else
    (product, rotation conjugator .quarter :: blocks ++ [rotation conjugator .negQuarter])

/-- The conjugations around the core of a block, with the product that the core has
become. -/
def conjugations (block : Block) : PauliString × List Block :=
  let core := { block with symbols := xForY block.symbols }
  let conjugators := (conjugationGroups (yPositions block.symbols)).map (zOn block.width)
  conjugators.foldl conjugate (core.symbols, [core])

def yFree (block : Block) : List Block :=
  if (yPositions block.symbols).isEmpty then [block] else (conjugations block).2

/-- The form without Y, with the assertion that the conjugations restore the product. -/
def checkedYFree (block : Block) : Except Fault (List Block) :=
  if (yPositions block.symbols).isEmpty then .ok [block]
  else if (conjugations block).1 ≠ block.symbols then .error .assertion
  else .ok (conjugations block).2

example : (yFree (measurement [.Y, .Z] true)).map text = ["ZI(-1/4)", "M(-XZ)", "ZI(1/4)"] := by
  decide

end LatticeSurgery.Block
