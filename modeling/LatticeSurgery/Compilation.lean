import LatticeSurgery.Operation.Gadget
import LatticeSurgery.Options
import LatticeSurgery.Pass
import LatticeSurgery.Timeline

namespace LatticeSurgery

/-! From a circuit to the slices of a lattice: passes bring the circuit into a form
that has gadgets, the gadgets make up a table of operations, and the operations are
performed on a layout. -/

namespace Options

def passes (options : Options) : List Pass :=
  [Pass.basicForm, Pass.yFree] ++
    (if options.litinski then [Pass.litinski, Pass.yFree] else []) ++
    (if options.scheduling = .parallel then [Pass.dependencies] else []) ++
    [Pass.verification]

end Options

namespace LayoutKind

def layoutName : LayoutKind → String
  | simplePreDistilledStates => Layout.simpleName

def initial : LayoutKind → (qubits : List PatchId) → (magic : Nat) → Except Fault Layout
  | simplePreDistilledStates => Layout.simple

end LayoutKind

structure Compilation where
  circuit : Circuit
  table : OperationTable
  timeline : Timeline
  /-- Pairs of a later and an earlier block, with parallel scheduling. -/
  dependencies : Option (List (Nat × Nat))

namespace Compilation

/-- What comes behind the passes of a compilation. -/
def lower (supply : IdSupply) (options : Options) (work : Workpiece) :
    Result CompileError Compilation := do
  let table ← (OperationTable.ofCircuit supply work.circuit).widen CompileError.table
  let layout ← options.layout.initial table.qubits table.magicCount
  let timeline ← (Timeline.compose table layout).widen CompileError.lattice
  return ⟨work.circuit, table, timeline, work.dependencies.map DependencyGraph.operationEdges⟩

def compile (supply : IdSupply) (options : Options) (approximator : Approximator)
    (circuit : Circuit) : Result CompileError Compilation := do
  let (work, finished) := Pass.runAll options.passes (Workpiece.start circuit approximator)
  finished
  lower supply options work

end Compilation

end LatticeSurgery
