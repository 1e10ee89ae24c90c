import LatticeSurgery.Circuit.Litinski
import LatticeSurgery.Dependency
import LatticeSurgery.Lattice.Error
import LatticeSurgery.Operation.Table

namespace LatticeSurgery

/-! Why a circuit is not ready for its gadgets. -/

inductive Unready where
  | containsY (block : Nat)
  | measuresIdentity (block : Nat)
  | angleOutside (block : Nat) (angle : Angle)
deriving DecidableEq, Repr

def Unready.message : Unready → String
  | .containsY block => s!"block {block} contains Y"
  | .measuresIdentity block => s!"block {block} measures the identity"
  | .angleOutside block angle => s!"block {block} rotates by {angle.text}π, outside the basic set"

/-! Passes over a circuit. -/

inductive Pass where
  | basicForm
  | yFree
  | litinski
  | dependencies
  | verification
deriving DecidableEq, Repr

inductive PassKind where
  | analysis
  | transformation
deriving DecidableEq, Repr

def PassKind.name : PassKind → String
  | .analysis => "Analysis"
  | .transformation => "Transformation"

namespace Pass

def all : List Pass := [basicForm, yFree, litinski, dependencies, verification]

def name : Pass → String
  | basicForm => "BasicForm"
  | yFree => "YFreeNormalization"
  | litinski => "LitinskiTransform"
  | dependencies => "DependencyAnalysis"
  | verification => "lowering_verification"

def ofName? (name : String) : Option Pass := all.find? fun pass => pass.name = name

def kind : Pass → PassKind
  | basicForm | yFree | litinski => .transformation
  | dependencies | verification => .analysis

end Pass

/-- Reasons for which a compilation is refused. -/
inductive CompileError where
  | circuit (error : CircuitError)
  | table (error : TableError)
  | lattice (error : LatticeError)
  | passFailed (pass : Pass) (reason : Unready)
deriving DecidableEq, Repr

/-- The name under which a reason is reported. -/
def CompileError.kind : CompileError → String
  | .circuit error => "Ir." ++ error.kind
  | .table error => error.kind
  | .lattice error => error.kind
  | .passFailed .. => "PassFailed"

def CompileError.message : CompileError → String
  | .circuit error => s!"IR error: {error.message}"
  | .table error => error.message
  | .lattice error => error.message
  | .passFailed pass reason => s!"Pass '{pass.name}' failed: {reason.message}"

/-! The number of blocks of each class in a circuit that is ready. -/

structure CircuitStats where
  halves : Nat
  quarters : Nat
  eighths : Nat
  measurements : Nat
deriving DecidableEq, Repr

namespace CircuitStats

def zero : CircuitStats := ⟨0, 0, 0, 0⟩

def total (stats : CircuitStats) : Nat :=
  stats.halves + stats.quarters + stats.eighths + stats.measurements

def summary (stats : CircuitStats) : String :=
  s!"CircuitStats \x7b pauli_rotations: {stats.halves}, clifford_rotations: {stats.quarters}, " ++
    s!"magic_rotations: {stats.eighths}, measurements: {stats.measurements} \x7d"

/-- Count a block, or report why it has no gadget. -/
def count (stats : CircuitStats) (entry : Block × Nat) : Result Unready CircuitStats := do
  let (block, index) := entry
  if block.containsY then Result.refuse (.containsY index)
  match block.kind with
  | .measurement _ =>
      if block.isIdentity then Result.refuse (.measuresIdentity index)
      return { stats with measurements := stats.measurements + 1 }
  | .rotation angle =>
      if block.isIdentity then return stats
      if ← angle.isHalf then return { stats with halves := stats.halves + 1 }
      if ← angle.isQuarter then return { stats with quarters := stats.quarters + 1 }
      if ← angle.isEighth then return { stats with eighths := stats.eighths + 1 }
      Result.refuse (.angleOutside index angle)

def ofCircuit (circuit : Circuit) : Result Unready CircuitStats :=
  circuit.blocks.zipIdx.foldlM count zero

end CircuitStats

/-! What passes work on: the circuit, and what analyses have found out about it. -/

structure Workpiece where
  circuit : Circuit
  approximator : Approximator
  dependencies : Option (DependencyGraph Nat)
  stats : Option CircuitStats

namespace Workpiece

def start (circuit : Circuit) (approximator : Approximator) : Workpiece :=
  ⟨circuit, approximator, none, none⟩

/-- One line of text about what the analyses have found. -/
def summary (work : Workpiece) : String :=
  let dependencies := match work.dependencies with
    | some graph => s!"Some({graph.edgeCount})"
    | none => "None"
  let stats := match work.stats with
    | some stats => s!"Some({stats.summary})"
    | none => "None"
  s!"PropertySet \x7b dependencies: {dependencies}, stats: {stats}, .. \x7d"

end Workpiece

namespace Pass

/-- A pass is needed when some block is not yet as the pass would leave it. -/
def isNeeded (pass : Pass) (circuit : Circuit) : Except Fault Bool :=
  match pass with
  | basicForm => circuit.blocks.anyM fun block =>
      match block.kind with
      | .rotation angle => do return !(← angle.isBasic)
      | .measurement _ => .ok false
  | yFree => .ok (circuit.blocks.any Block.containsY)
  | litinski => circuit.blocks.anyM Block.isQuarterRotation
  | dependencies | verification => .ok true

def transformed (work : Workpiece) (circuit : Result CircuitError Circuit) :
    Result CompileError Workpiece := do
  return { work with circuit := ← circuit.widen CompileError.circuit }

def run (pass : Pass) (work : Workpiece) : Result CompileError Workpiece :=
  match pass with
  | basicForm => transformed work (work.circuit.basicForm work.approximator)
  | yFree => transformed work (.ok work.circuit.yFree)
  | litinski => transformed work work.circuit.litinski
  | dependencies => do
      let graph ← (DependencyGraph.ofCircuit work.circuit).numbered
      graph.validate.widen CompileError.circuit
      return { work with dependencies := some graph }
  | verification => do
      let stats ← (CircuitStats.ofCircuit work.circuit).widen (CompileError.passFailed pass)
      return { work with stats := some stats }

/-- Run a pass where it is needed. -/
def runIfNeeded (pass : Pass) (work : Workpiece) : Result CompileError Workpiece := do
  if ← pass.isNeeded work.circuit then pass.run work else return work

/-- Run passes one after the other. When one of them fails, the work of the passes
before it is kept. -/
def runAll : List Pass → Workpiece → Workpiece × Result CompileError Unit
  | [], work => (work, .ok ())
  | pass :: rest, work =>
      match pass.runIfNeeded work with
      | .ok next => runAll rest next
      | .error failure => (work, .error failure)

end Pass

end LatticeSurgery
