import LatticeSurgery.Circuit

namespace LatticeSurgery.Circuit

/-! Moving quarter rotations to the end of a circuit. A quarter rotation can be
exchanged with the block behind it when that block is changed accordingly. Once
it stands behind the last measurement it no longer matters and is dropped. All of
this happens in place. -/

/-- The angle of the quarter rotation at `index`. -/
def quarterAt (circuit : Circuit) (index : Nat) : Result CircuitError (Block × Angle) := do
  let block ← circuit.blockAt index
  match block.kind with
  | .measurement _ => Result.refuse (.notQuarterRotation index)
  | .rotation angle =>
      if ← angle.isQuarter then return (block, angle)
      else Result.refuse (.notQuarterRotation index)

/-- Move the quarter rotation at `index` behind the block that follows it. -/
def swapQuarter (index : Nat) : Edit := do
  let circuit ← get
  let (quarter, angle) ← Update.lift (circuit.quarterAt index)
  let next ← Update.lift (circuit.blockAt (index + 1))
  let moved ← Update.lift (Result.ofFaulty (next.behindQuarter quarter angle))
  set { circuit with blocks := (circuit.blocks.set index moved).set (index + 1) quarter }

/-- Move the quarter rotation at `start` behind the last block and drop it there. -/
def absorbQuarter (start : Nat) : Edit := do
  let circuit ← get
  (List.range' start (circuit.size - 1 - start)).forM swapQuarter
  modify fun circuit => { circuit with blocks := circuit.blocks.dropLast }

/-- The positions at which a list of answers has a yes. -/
def positionsOf (answers : List Bool) : List Nat :=
  (answers.zipIdx.filter Prod.fst).map Prod.snd

/-- Take the quarter rotations out of a circuit, starting with the last one. -/
def absorbAll : Edit := do
  let circuit ← get
  let quarters ← Update.lift (Result.ofFaulty (circuit.blocks.mapM Block.isQuarterRotation))
  if !quarters.contains true then return
  if !circuit.hasMeasurement then Update.refuse .missingMeasurement
  (positionsOf quarters).reverse.forM absorbQuarter

/-- The Litinski transform: a circuit without quarter rotations. -/
def litinski (circuit : Circuit) : Result CircuitError Circuit := absorbAll.result circuit

end LatticeSurgery.Circuit
