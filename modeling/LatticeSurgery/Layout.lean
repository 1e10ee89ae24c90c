import LatticeSurgery.Lattice
import LatticeSurgery.Storage

namespace LatticeSurgery

/-! The first slice of a computation with the resources that it draws from: the
cells of magic states in the order of their use, and the cells at which ancilla
patches may be prepared. -/

structure Layout where
  lattice : Lattice
  magicCells : List Cell
  ancillaCells : List Cell
deriving DecidableEq, Repr

namespace Layout

def simpleName : String := "SimpleLayout"

/-- The columns for a number of qubits. -/
def simpleCols (qubits : Nat) : Int := Word.wrap32 (max (2 * qubits) 1)

/-- Qubits stand in every other column of the top row, and the magic states stand
behind them. The second row is left free for merge regions, and ancilla patches go
to the third row. -/
def simple (qubits : List PatchId) (magic : Nat) : Except Fault Layout := do
  let cols := simpleCols qubits.length
  let qubitPatches ← qubits.zipIdx.mapM fun (id, index) => do
    let col ← Word.check32 (2 * Word.wrap32 index)
    return (Patch.square ⟨col, 0⟩ .qubit .zero).withId id
  Storage.reserve magic Storage.cellSize
  let magicCells ← (List.range magic).mapM fun (index : Nat) => do
    return Cell.mk (← Word.check32 (cols + Word.wrap32 index)) 0
  let magicPatches := magicCells.map fun cell => Patch.rotatedSquare cell .distillation .magic
  return {
    lattice := ⟨qubitPatches ++ magicPatches, 3, cols⟩
    magicCells := magicCells
    ancillaCells := (List.range cols.toNat).map fun (col : Nat) => ⟨col, 2⟩ }

end Layout

end LatticeSurgery
