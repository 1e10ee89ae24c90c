import LatticeSurgery.Operation.Gadget
import LatticeSurgery.Proofs.Circuit.Fitting
import LatticeSurgery.Proofs.Circuit.Ready

namespace LatticeSurgery

open Result

/-! # Overflow

Only a numerator that has no opposite makes the arithmetic on angles overflow. The angles that are
made on the way, by splitting, by approximation or by negation, all have an opposite, so that a
circuit without such a numerator can be transformed, verified and lowered at will. -/

variable {May : Fault → Prop}

namespace Angle

theorem neg_of_minimal {angle : Angle} (minimal : angle.numer = -Word.limit64) :
    angle.neg = .error .overflow := by
  rw [neg, minimal, ofWords, ofPair?, dif_neg]
  exact fun fits => absurd fits.1 (by decide)

theorem isBasic_of_minimal {angle : Angle} (minimal : angle.numer = -Word.limit64) :
    angle.isBasic = .error .overflow := by
  have negative : angle.isNegative = true := by
    rw [isNegative, minimal]
    decide
  rw [isBasic, isHalf, hasMagnitude, abs, if_pos negative, neg_of_minimal minimal]
  rfl

end Angle

/-- The approximator has an answer for every regular angle, which may be that there is none. -/
def Approximator.Answers (approximator : Approximator) : Prop :=
  ∀ angle : Angle, angle.Regular → ∃ answer, approximator angle = .ok answer

theorem ApproximationTable.answers (table : ApproximationTable) : table.approximator.Answers :=
  fun _ => table.exists_approximator

namespace Block

theorem basicForm_of_minimal (approximator : Approximator) (symbols : PauliString) {angle : Angle}
    (minimal : angle.numer = -Word.limit64) :
    basicForm approximator (rotation symbols angle) = .error (.fault .overflow) := by
  rw [basicForm, rotation]
  simp only [Angle.isBasic_of_minimal minimal]
  rfl

/-- A numerator that has an opposite leaves the faults to the approximator. -/
theorem asked_of_fault {approximator : Approximator} {symbols : PauliString} {angle : Angle}
    (regular : angle.Regular) {cause : Fault}
    (failed : basicForm approximator (rotation symbols angle) = .error (.fault cause)) :
    ∃ asked : Angle, asked.Regular ∧ approximator asked = .error cause := by
  have asks (asked : Angle) (askedRegular : asked.Regular) (cause : Fault)
      (answered : approximator asked = .error cause) :
      ∃ asked : Angle, asked.Regular ∧ approximator asked = .error cause :=
    ⟨asked, askedRegular, answered⟩
  have fits : (rotation symbols angle).Fits symbols.length := .rotation rfl regular
  exact (ends_basicForm asks fits).may_of_fault failed

end Block

/-! ## Lowering -/

/-! Too many qubits cannot be stored, and a block that is wider than the circuit has no target for
some of its symbols. -/

namespace TableDraft

theorem ends_addRotation (supply : IdSupply) (draft : TableDraft) (block : Nat) (targets : Targets)
    {angle : Angle} (regular : angle.Regular) :
    Ends May (fun _ => True) (draft.addRotation supply block targets angle) := by
  simp only [addRotation, Angle.isHalf, Angle.isQuarter, Angle.isEighth, regular.hasMagnitude_eq,
    liftM_eq_ofFaulty, ofFaulty_ok, ok_bind]
  split
  · exact .ok trivial
  split
  · exact .ok trivial
  split
  · exact .ok trivial
  · exact .refused _

theorem ends_targets (missing : May .missingPosition) (qubits : List PatchId)
    (symbols : PauliString) :
    Ends May (fun _ => True) (ofFaulty (targets qubits symbols) : Result TableError Targets) := by
  cases computed : targets qubits symbols with
  | ok found => exact .ok trivial
  | error cause =>
      rcases exists_of_mapM_error computed with ⟨⟨qubit, symbol⟩, _, fails⟩
      dsimp only at fails
      split at fails
      · cases fails
      · cases fails
        exact .fault missing

theorem ends_addBlock (missing : May .missingPosition) (supply : IdSupply)
    (qubits : List PatchId) (draft : TableDraft) {entry : Block × Nat}
    (regular : entry.1.TurnsRegular) :
    Ends May (fun _ => True) (addBlock supply qubits draft entry) := by
  rcases entry with ⟨block, index⟩
  rw [addBlock]
  cases block.containsY with
  | true => exact .refused _
  | false =>
      apply (ends_targets missing qubits block.symbols).bind
      intro targets _
      cases kind : block.kind with
      | measurement negative =>
          have measured : Ends May (fun _ => True)
              (Gadget.measurement index targets negative) := by
            cases targets with
            | nil => exact .refused _
            | cons first others => cases others <;> exact .ok trivial
          exact measured.bind fun _ _ => .ok trivial
      | rotation angle =>
          dsimp only
          split
          · exact .ok trivial
          · exact draft.ends_addRotation supply index targets (regular angle kind)

end TableDraft

theorem OperationTable.ends_ofCircuit (storage : May .storage) (missing : May .missingPosition)
    (supply : IdSupply) {circuit : Circuit}
    (regular : ∀ block ∈ circuit.blocks, block.TurnsRegular) :
    Ends May (fun _ => True) (ofCircuit supply circuit) := by
  have reserved : Ends May (fun _ => True) (ofFaulty
      (Storage.reserve circuit.qubits Storage.identifierSize) : Result TableError Unit) := by
    rw [Storage.reserve]
    split
    · exact .ok trivial
    · exact .fault storage
  rw [ofCircuit]
  apply reserved.bind
  intro _ _
  have each (draft : TableDraft) (entry) (member : entry ∈ circuit.blocks.zipIdx) (_ : True) :=
    draft.ends_addBlock missing supply ((List.range circuit.qubits).map supply)
      (regular entry.1 (List.fst_mem_of_mem_zipIdx member))
  exact (Ends.foldlM each trivial).bind fun _ _ => .ok trivial

theorem CircuitStats.ends_ofCircuit {circuit : Circuit}
    (regular : ∀ block ∈ circuit.blocks, block.TurnsRegular) :
    Ends May (fun _ => True) (ofCircuit circuit) := by
  cases computed : ofCircuit circuit with
  | ok stats => exact .ok trivial
  | error failure =>
      have invertible : ∀ block ∈ circuit.blocks, ∀ angle, block.kind = .rotation angle →
          angle.numer ≠ -Word.limit64 :=
        fun block member angle kind => (regular block member angle kind).numer_ne
      rcases refused_of_ofCircuit invertible computed with ⟨reason, rfl⟩
      exact .refused reason

/-! ## Stages -/

/-- Something that is done with a circuit, in place or by the way. -/
inductive Stage where
  | basicForm (approximator : Approximator)
  | yFree
  | litinski
  | verification
  | lowering (supply : IdSupply)

namespace Stage

/-- Put what is made from a circuit in its place. -/
def replace (make : Circuit → Result CompileError Circuit) : Update CompileError Circuit Unit := do
  let circuit ← get
  set (← Update.lift (make circuit))

/-- Look at a circuit and leave it as it is. -/
def inspect {α : Type} (test : Circuit → Result CompileError α) :
    Update CompileError Circuit Unit := do
  let circuit ← get
  let _ ← Update.lift (test circuit)

def perform : Stage → Update CompileError Circuit Unit
  | basicForm approximator => replace fun circuit =>
      (circuit.basicForm approximator).widen .circuit
  | yFree => replace fun circuit => ofFaulty circuit.checkedYFree
  | litinski => EStateM.adaptExcept (Failure.map .circuit) Circuit.absorbAll
  | verification => inspect fun circuit =>
      (CircuitStats.ofCircuit circuit).widen (.passFailed .verification)
  | lowering supply => inspect fun circuit => (OperationTable.ofCircuit supply circuit).widen .table

/-- The circuit after some stages, of which those that fail leave behind what they had reached. -/
def after (stages : List Stage) (circuit : Circuit) : Circuit :=
  stages.foldl (fun circuit stage => stage.perform.leaves circuit) circuit

/-- The faults with which a stage may end: those of the approximator that it asks, and those of a
lowering. -/
def MayEnd (cause : Fault) : Stage → Prop
  | basicForm approximator => ∃ asked : Angle, asked.Regular ∧ approximator asked = .error cause
  | lowering _ => cause = .storage ∨ cause = .missingPosition
  | _ => False

/-- A stage whose approximator has answers. -/
def Fair : Stage → Prop
  | basicForm approximator => approximator.Answers
  | _ => True

/-- With a fair stage, there is no fault but those of a lowering. -/
theorem Fair.fault_of_mayEnd {stage : Stage} {cause : Fault} (fair : stage.Fair)
    (may : stage.MayEnd cause) : cause = .storage ∨ cause = .missingPosition := by
  cases stage with
  | basicForm approximator =>
      rcases may with ⟨asked, regular, fails⟩
      rcases fair asked regular with ⟨answer, answered⟩
      cases fails.symm.trans answered
  | lowering supply => exact may
  | yFree | litinski | verification => exact may.elim

section Steps

variable {circuit : Circuit} {Holds : Circuit → Prop}

theorem atomic_replace {make : Circuit → Result CompileError Circuit}
    (ends : Ends May Holds (make circuit)) : Update.Atomic May Holds (replace make) circuit := by
  apply Update.Atomic.get_bind
  apply Update.Atomic.lift_bind ends
  intro made holds
  exact .ok rfl holds

theorem atomic_inspect {α : Type} {test : Circuit → Result CompileError α}
    (ends : Ends May (fun _ => True) (test circuit)) (holds : Holds circuit) :
    Update.Atomic May Holds (inspect test) circuit := by
  apply Update.Atomic.get_bind
  apply Update.Atomic.lift_bind ends
  intro _ _
  exact .ok rfl holds

/-- A stage keeps the blocks fitting. -/
theorem atomic_perform {stage : Stage} {width : Nat}
    (fits : ∀ block ∈ circuit.blocks, block.Fits width) :
    Update.Atomic (stage.MayEnd ·) (fun after => ∀ block ∈ after.blocks, block.Fits width)
      stage.perform circuit := by
  have regular : ∀ block ∈ circuit.blocks, block.TurnsRegular := fun block member =>
    (fits block member).regular
  cases stage with
  | basicForm approximator =>
      have asks (angle : Angle) (angleRegular : angle.Regular) (cause : Fault)
          (answered : approximator angle = .error cause) :
          (basicForm approximator).MayEnd cause := ⟨angle, angleRegular, answered⟩
      have ends := (Circuit.ends_basicForm fits asks).imp fun _ basic => basic.2
      exact atomic_replace (ends.widen _)
  | yFree =>
      apply atomic_replace
      rw [Circuit.checkedYFree_eq]
      exact .ok (Circuit.fits_yFree fits)
  | litinski => exact ((Circuit.atomic_absorbAll fits).imp fun _ after => after.2).widen _
  | verification => exact atomic_inspect ((CircuitStats.ends_ofCircuit regular).widen _) fits
  | lowering supply =>
      have ends : Ends ((lowering supply).MayEnd ·) (fun _ => True)
          (OperationTable.ofCircuit supply circuit) :=
        OperationTable.ends_ofCircuit (.inl rfl) (.inr rfl) supply regular
      exact atomic_inspect (ends.widen _) fits

end Steps

theorem fits_after (stages : List Stage) {circuit : Circuit} {width : Nat}
    (fits : ∀ block ∈ circuit.blocks, block.Fits width) :
    ∀ block ∈ (after stages circuit).blocks, block.Fits width := by
  induction stages generalizing circuit with
  | nil => exact fits
  | cons stage rest induction => exact induction ((atomic_perform fits).holds_leaves fits)

/-- The basic form of a rotation in lowest terms overflows for the least numerator, and otherwise
passes on the faults of its approximator. On a circuit of blocks of one width without the least
numerator no stage overflows, whatever stages came before it, unless an approximator does. -/
theorem overflow_only_of_minimal (approximator : Approximator) (symbols : PauliString)
    (angle : Angle) (lowest : angle.Lowest) (circuit : Circuit) (width : Nat)
    (widths : ∀ block ∈ circuit.blocks, block.width = width)
    (regular : ∀ block ∈ circuit.blocks, block.TurnsRegular) (stages : List Stage) :
    (angle.numer = -Word.limit64 →
      Block.basicForm approximator (.rotation symbols angle) = .error (.fault .overflow)) ∧
    (∀ cause, Block.basicForm approximator (.rotation symbols angle) = .error (.fault cause) →
      angle.numer = -Word.limit64 ∨
        ∃ asked : Angle, asked.Regular ∧ approximator asked = .error cause) ∧
    (approximator.Answers →
      ((∃ cause, Block.basicForm approximator (.rotation symbols angle) = .error (.fault cause)) ↔
        angle.numer = -Word.limit64)) ∧
    ∀ (stage : Stage) (cause : Fault) (left : Circuit),
      stage.perform.run (after stages circuit) = .error (.fault cause) left →
        stage.MayEnd cause ∧ (stage.Fair → cause ≠ .overflow) := by
  have passesOn (cause : Fault)
      (failed : Block.basicForm approximator (.rotation symbols angle) = .error (.fault cause)) :
      angle.numer = -Word.limit64 ∨
        ∃ asked : Angle, asked.Regular ∧ approximator asked = .error cause := by
    by_cases minimal : angle.numer = -Word.limit64
    · exact .inl minimal
    · exact .inr (Block.asked_of_fault ⟨lowest.denom_pos, minimal⟩ failed)
  refine ⟨Block.basicForm_of_minimal approximator symbols, passesOn, ?_, ?_⟩
  · intro answers
    constructor
    · rintro ⟨cause, failed⟩
      rcases passesOn cause failed with minimal | ⟨asked, askedRegular, fails⟩
      · exact minimal
      · rcases answers asked askedRegular with ⟨answer, answered⟩
        cases fails.symm.trans answered
    · intro minimal
      exact ⟨.overflow, Block.basicForm_of_minimal approximator symbols minimal⟩
  · intro stage cause left run
    have fits := fits_after stages fun block member => ⟨widths block member, regular block member⟩
    cases atomic_perform fits with
    | ok other => cases run.symm.trans other
    | refused other => cases run.symm.trans other
    | fault other may =>
        cases run.symm.trans other
        refine ⟨may, fun fair => ?_⟩
        rcases fair.fault_of_mayEnd may with rfl | rfl
        · exact nofun
        · exact nofun

/-- All kinds of stages on numerators next to the least one. -/
theorem overflow_only_of_minimal_thirds :
    let least : Angle := ⟨-9223372036854775808, 3, by decide, by decide, by decide⟩
    let next : Angle := ⟨-9223372036854775807, 2, by decide, by decide, by decide⟩
    let table : ApproximationTable := ⟨[(⟨1, 3, by decide, by decide, by decide⟩, [.H, .T, .H])]⟩
    let circuit : Circuit := ⟨2, [.rotation [.Y, .Z] next, .rotation [.X, .I] .quarter,
      .measurement [.Z, .Y] true]⟩
    let stages : List Stage := [litinski, yFree, basicForm table.approximator, litinski,
      verification, lowering fun index => ⟨index⟩, yFree]
    Block.basicForm table.approximator (.rotation [.Z] least) = .error (.fault .overflow) ∧
      (after stages circuit).blocks.length = 8 ∧
      ∀ left, (basicForm table.approximator).perform.run (after stages circuit) ≠
        .error (.fault .overflow) left := by
  intro least next table circuit stages
  rcases overflow_only_of_minimal table.approximator [.Z] least (by decide) circuit 2 (by decide)
    (by decide) stages with ⟨minimal, _, _, safe⟩
  refine ⟨minimal rfl, by decide +kernel, fun left run => ?_⟩
  exact (safe (basicForm table.approximator) .overflow left run).2 table.answers rfl

end Stage

end LatticeSurgery
