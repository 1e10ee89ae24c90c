import LatticeSurgery.Compilation
import LatticeSurgery.Proofs.Circuit.Preparation
import LatticeSurgery.Proofs.Dependency.Numbering
import LatticeSurgery.Proofs.Timeline.Composition

namespace LatticeSurgery

open Result

/-! # Compilations that succeed

A compilation is refused when a rotation has no basic form, when the identity is measured, or
when quarter rotations are to be moved behind a measurement and there is none. All else that
a stage leaves behind is accepted by the next one, as long as there are numbers for the
dependencies and for the merges. -/

namespace Circuit

variable {circuit : Circuit}

/-- The angles of the circuit are regular. -/
def Regular (circuit : Circuit) : Prop :=
  ∀ block ∈ circuit.blocks, ∀ angle, block.kind = .rotation angle → angle.Regular

theorem basicForm_eq_self (approximator : Approximator)
    (basic : ∀ block ∈ circuit.blocks, block.TurnsBasic) :
    circuit.basicForm approximator = .ok circuit := by
  have parts : circuit.blocks.mapM (Block.basicForm approximator) =
      .ok (circuit.blocks.map fun block => [block]) := by
    refine mapM_eq_map fun block member => ?_
    rw [Block.basicForm]
    cases kind : block.kind with
    | measurement negative => rfl
    | rotation angle =>
        simp only [basic block member angle kind]
        rfl
  rw [basicForm, parts, ok_bind, ← List.flatMap, List.flatMap_singleton']
  rfl

theorem yFree_eq_self (withoutY : ∀ block ∈ circuit.blocks, block.containsY = false) :
    circuit.yFree = circuit := by
  have kept : circuit.blocks.flatMap Block.yFree = circuit.blocks.flatMap fun block => [block] :=
    List.flatMap_congr fun block member => Block.yFree_eq_self (withoutY block member)
  rw [yFree, kept, List.flatMap_singleton']

end Circuit

/-! ## Passes

A pass that is not needed would change nothing, so every pass may be taken to run. -/

namespace Pass

variable {circuit : Circuit} {approximator : Approximator}

private theorem runIfNeeded_eq {pass : Pass} {work : Workpiece} {needed : Bool}
    (decided : pass.isNeeded work.circuit = .ok needed)
    (idle : needed = false → pass.run work = .ok work) :
    pass.runIfNeeded work = pass.run work := by
  rw [runIfNeeded, decided]
  cases needed with
  | true => rfl
  | false => exact (idle rfl).symm

private theorem exists_isNeeded_basicForm (regular : circuit.Regular) :
    ∃ needed, basicForm.isNeeded circuit = .ok needed ∧
      (needed = false → ∀ block ∈ circuit.blocks, block.TurnsBasic) := by
  have tested {block : Block} {angle : Angle} (member : block ∈ circuit.blocks)
      (kind : block.kind = .rotation angle) : angle.isBasic = .ok (decide angle.IsBasic) :=
    (regular block member angle kind).isBasic_eq
  refine (exists_anyM fun block member => ?_).imp fun needed found =>
    ⟨found.1, fun notNeeded block member angle kind => ?_⟩
  · cases kind : block.kind with
    | measurement negative => exact ⟨false, rfl⟩
    | rotation angle =>
        simp only [tested member kind]
        exact ⟨_, rfl⟩
  · rw [tested member kind, Except.ok.injEq]
    by_contra outside
    rw [Bool.not_eq_true] at outside
    refine Bool.false_ne_true (notNeeded.symm.trans (found.2.mpr ⟨block, member, ?_⟩))
    simp only [kind, tested member kind, outside]
    rfl

theorem runIfNeeded_basicForm (regular : circuit.Regular) :
    basicForm.runIfNeeded (.start circuit approximator) =
      (circuit.basicForm approximator).widen CompileError.circuit >>= fun basic =>
        .ok (.start basic approximator) := by
  rcases exists_isNeeded_basicForm regular with ⟨needed, decided, basic⟩
  refine runIfNeeded_eq decided fun notNeeded => ?_
  exact congrArg (transformed _) (Circuit.basicForm_eq_self approximator (basic notNeeded))

theorem runIfNeeded_yFree :
    yFree.runIfNeeded (.start circuit approximator) = .ok (.start circuit.yFree approximator) := by
  refine runIfNeeded_eq rfl fun notNeeded => ?_
  rw [List.any_eq_false] at notNeeded
  have withoutY : ∀ block ∈ circuit.blocks, block.containsY = false := fun block member =>
    Bool.eq_false_iff.mpr (notNeeded block member)
  exact congrArg (fun changed => transformed _ (.ok changed)) (Circuit.yFree_eq_self withoutY)

theorem runIfNeeded_litinski
    (tested : ∀ block ∈ circuit.blocks, ∃ isQuarter, block.isQuarterRotation = .ok isQuarter) :
    litinski.runIfNeeded (.start circuit approximator) =
      circuit.litinski.widen CompileError.circuit >>= fun absorbed =>
        .ok (.start absorbed approximator) := by
  have answered : ∃ needed, litinski.isNeeded circuit = .ok needed ∧
      (needed = true ↔ ∃ block ∈ circuit.blocks, block.isQuarterRotation = .ok true) :=
    exists_anyM tested
  rcases answered with ⟨needed, decided, found⟩
  refine runIfNeeded_eq decided fun notNeeded => ?_
  have none : ∀ block ∈ circuit.blocks, block.isQuarterRotation = .ok false := by
    intro block member
    rcases tested block member with ⟨isQuarter, answer⟩
    cases isQuarter with
    | false => exact answer
    | true =>
        have isNeeded := found.mpr ⟨block, member, answer⟩
        exact absurd (notNeeded.symm.trans isNeeded) Bool.false_ne_true
  exact congrArg (transformed _) (Circuit.litinski_eq_self none)

/-- Passes that are run one after the other stop at the first failure. -/
theorem runAll_bind {γ : Type} (passes : List Pass) (work : Workpiece)
    (rest : Workpiece → Result CompileError γ) :
    ((runAll passes work).2 >>= fun _ => rest (runAll passes work).1) =
      passes.foldlM (fun before pass => pass.runIfNeeded before) work >>= rest := by
  induction passes generalizing work with
  | nil => rfl
  | cons pass others induction =>
      rw [runAll, List.foldlM_cons]
      cases pass.runIfNeeded work with
      | error failure => rfl
      | ok next => exact induction next

theorem runAll_eq_ok {passes : List Pass} {work next : Workpiece} :
    runAll passes work = (next, .ok ()) ↔
      passes.foldlM (fun before pass => pass.runIfNeeded before) work = .ok next := by
  have both := runAll_bind passes work pure
  rw [bind_pure] at both
  constructor
  · intro finished
    rw [← both, finished]
    rfl
  · intro ran
    rcases bind_eq_ok.mp (both.trans ran) with ⟨_, finished, same⟩
    exact Prod.ext (Except.ok.inj same) finished

end Pass

namespace Options

variable {approximator : Approximator} {circuit : Circuit}

/-- The circuit that the transformations of a compilation leave. -/
def prepare (options : Options) (approximator : Approximator) (circuit : Circuit) :
    Result CircuitError Circuit := do
  let basic ← circuit.basicForm approximator
  if options.litinski then return (← basic.yFree.litinski).yFree
  return basic.yFree

private theorem foldlM_transformations (options : Options) (uniform : circuit.Uniform)
    (regular : circuit.Regular) :
    ([Pass.basicForm, Pass.yFree] ++ if options.litinski then [Pass.litinski, Pass.yFree]
        else []).foldlM (fun before pass => pass.runIfNeeded before)
          (Workpiece.start circuit approximator) =
      (options.prepare approximator circuit).widen CompileError.circuit >>= fun prepared =>
        .ok (.start prepared approximator) := by
  rw [List.foldlM_append, List.foldlM_cons, Pass.runIfNeeded_basicForm regular, prepare]
  cases computed : circuit.basicForm approximator with
  | error failure => rfl
  | ok basic =>
      have prepared := Circuit.prepared_yFree (Circuit.prepared_basicForm uniform computed).2
      rw [widen, ok_bind, ok_bind, ok_bind, List.foldlM_cons, Pass.runIfNeeded_yFree, ok_bind]
      cases options.litinski with
      | false => rfl
      | true =>
          have tested : ∀ block ∈ basic.yFree.blocks, ∃ isQuarter,
              block.isQuarterRotation = .ok isQuarter := fun block member =>
            ⟨_, (prepared.turnsBasic block member).regular.isQuarterRotation_eq⟩
          rw [if_pos rfl, if_pos rfl, List.foldlM_nil, pure_bind, List.foldlM_cons,
            Pass.runIfNeeded_litinski tested]
          cases basic.yFree.litinski with
          | error failure => rfl
          | ok absorbed => exact congrArg (· >>= pure) Pass.runIfNeeded_yFree

/-- There are numbers for the dependencies, if they are asked for. -/
def NumberedDependencies (options : Options) (circuit : Circuit) : Prop :=
  options.scheduling = .parallel → (DependencyGraph.ofCircuit circuit).Numbered

/-- The dependencies that the analyses find. -/
def dependenciesOf (options : Options) (circuit : Circuit) : Option (DependencyGraph Nat) :=
  if options.scheduling = .parallel then some (DependencyGraph.ofCircuit circuit) else none

private theorem foldlM_analyses {options : Options}
    (numbered : options.NumberedDependencies circuit) :
    ((if options.scheduling = .parallel then [Pass.dependencies] else []) ++
        [Pass.verification]).foldlM (fun before pass => pass.runIfNeeded before)
          (Workpiece.start circuit approximator) =
      (CircuitStats.ofCircuit circuit).widen (CompileError.passFailed .verification) >>=
        fun stats => .ok ⟨circuit, approximator, options.dependenciesOf circuit, some stats⟩ := by
  rw [dependenciesOf]
  cases chosen : options.scheduling with
  | sequential => exact bind_pure _
  | parallel =>
      have dependencies : Pass.dependencies.runIfNeeded (.start circuit approximator) =
          .ok ⟨circuit, approximator, some (DependencyGraph.ofCircuit circuit), none⟩ := by
        refine bind_eq_ok.mpr ⟨_, rfl, bind_eq_ok.mpr ⟨DependencyGraph.ofCircuit circuit, ?_,
          bind_eq_ok.mpr ⟨(), ?_, rfl⟩⟩⟩
        · exact ofFaulty_eq_ok_iff.mpr (DependencyGraph.numbered_of_numbered (numbered chosen))
        · exact widen_eq_ok.mpr (DependencyGraph.validate_ofCircuit circuit)
      rw [if_pos rfl, if_pos rfl, List.cons_append, List.foldlM_cons, dependencies, ok_bind]
      exact bind_pure _

private theorem foldlM_analyses_of_crowded {options : Options}
    (crowded : ¬ options.NumberedDependencies circuit) :
    ((if options.scheduling = .parallel then [Pass.dependencies] else []) ++
        [Pass.verification]).foldlM (fun before pass => pass.runIfNeeded before)
          (Workpiece.start circuit approximator) = .error (.fault .indexing) := by
  rw [NumberedDependencies, Classical.not_imp] at crowded
  have dependencies : Pass.dependencies.runIfNeeded (.start circuit approximator) =
      .error (.fault .indexing) :=
    congrArg (fun graph : Except Fault (DependencyGraph Nat) => do
      let found ← ofFaulty graph
      found.validate.widen CompileError.circuit
      return (⟨circuit, approximator, some found, none⟩ : Workpiece))
      (DependencyGraph.numbered_of_not_numbered crowded.2)
  rw [if_pos crowded.1, List.cons_append, List.foldlM_cons, dependencies]
  rfl

section Passes

variable {prepared : Circuit} {options : Options} (uniform : circuit.Uniform)
  (regular : circuit.Regular)

include uniform regular

/-- The passes of a compilation leave the prepared circuit, with what the analyses have found
out about it. -/
theorem foldlM_passes_eq_ok {work : Workpiece} :
    options.passes.foldlM (fun before pass => pass.runIfNeeded before)
        (Workpiece.start circuit approximator) = .ok work ↔
      ∃ prepared stats, options.prepare approximator circuit = .ok prepared ∧
        options.NumberedDependencies prepared ∧ CircuitStats.ofCircuit prepared = .ok stats ∧
        work = ⟨prepared, approximator, options.dependenciesOf prepared, some stats⟩ := by
  rw [passes, List.append_assoc, List.foldlM_append, foldlM_transformations options uniform regular]
  cases options.prepare approximator circuit with
  | error failure => simp [widen]
  | ok prepared =>
      rw [widen, ok_bind, ok_bind]
      by_cases numbered : options.NumberedDependencies prepared
      · rw [foldlM_analyses numbered]
        constructor
        · intro ran
          rcases bind_eq_ok.mp ran with ⟨stats, counted, same⟩
          exact ⟨prepared, stats, rfl, numbered, widen_eq_ok.mp counted,
            (Except.ok.inj same).symm⟩
        · rintro ⟨_, stats, same, _, counted, rfl⟩
          cases same
          exact bind_eq_ok.mpr ⟨stats, widen_eq_ok.mpr counted, rfl⟩
      · rw [foldlM_analyses_of_crowded numbered]
        simp [numbered]

theorem foldlM_passes_of_crowded
    (preparedEq : options.prepare approximator circuit = .ok prepared)
    (crowded : ¬ options.NumberedDependencies prepared) :
    options.passes.foldlM (fun before pass => pass.runIfNeeded before)
      (Workpiece.start circuit approximator) = .error (.fault .indexing) := by
  rw [passes, List.append_assoc, List.foldlM_append, foldlM_transformations options uniform regular,
    preparedEq]
  exact foldlM_analyses_of_crowded crowded

end Passes

variable {prepared : Circuit}

/-- The prepared circuit has basic blocks without Y, and the measurements of the given one. -/
theorem prepared_prepare {options : Options} (uniform : circuit.Uniform)
    (computed : options.prepare approximator circuit = .ok prepared) :
    prepared.qubits = circuit.qubits ∧
      Block.Prepared prepared.qubits prepared.blocks circuit.blocks ∧
      ∀ block ∈ prepared.blocks, block.containsY = false := by
  rcases bind_eq_ok.mp computed with ⟨basic, basicEq, computed⟩
  rcases Circuit.prepared_basicForm uniform basicEq with ⟨sameQubits, basicPrepared⟩
  have freePrepared := Circuit.prepared_yFree basicPrepared
  cases chosen : options.litinski with
  | false =>
      rw [chosen] at computed
      cases computed
      exact ⟨sameQubits, freePrepared, fun block => Circuit.containsY_of_mem_yFree⟩
  | true =>
      rw [chosen] at computed
      rcases bind_eq_ok.mp computed with ⟨absorbed, absorbedEq, preparedEq⟩
      cases preparedEq
      rcases Circuit.litinski_cases freePrepared with ⟨_, same⟩ | ⟨_, ⟨_, same⟩ | ⟨_, moved⟩⟩
      · cases same.symm.trans absorbedEq
        exact ⟨sameQubits, Circuit.prepared_yFree freePrepared,
          fun block => Circuit.containsY_of_mem_yFree⟩
      · exact absurd (same.symm.trans absorbedEq) (refuse_ne_ok _ _)
      · rcases moved with ⟨blocks, same, movedPrepared⟩
        cases same.symm.trans absorbedEq
        exact ⟨sameQubits, Circuit.prepared_yFree movedPrepared,
          fun block => Circuit.containsY_of_mem_yFree⟩

/-- A circuit can be prepared when it has a basic form, and when there is a measurement behind
which quarter rotations can be moved if that is asked for. -/
theorem exists_prepare_iff {options : Options} (uniform : circuit.Uniform) :
    (∃ prepared, options.prepare approximator circuit = .ok prepared) ↔
      ∃ basic, circuit.basicForm approximator = .ok basic ∧
        (options.litinski = false ∨ (∀ block ∈ basic.yFree.blocks, ¬ block.TurnsQuarter) ∨
          circuit.hasMeasurement = true) := by
  have cases {basic : Circuit} (basicEq : circuit.basicForm approximator = .ok basic) :=
    Circuit.litinski_cases (Circuit.prepared_yFree (Circuit.prepared_basicForm uniform basicEq).2)
  have sameMeasurements {basic : Circuit} (basicEq : circuit.basicForm approximator = .ok basic) :
      basic.yFree.hasMeasurement = circuit.hasMeasurement :=
    (Circuit.prepared_yFree
      (Circuit.prepared_basicForm uniform basicEq).2).any_isMeasurement
  constructor
  · rintro ⟨prepared, computed⟩
    rcases bind_eq_ok.mp computed with ⟨basic, basicEq, computed⟩
    refine ⟨basic, basicEq, ?_⟩
    cases chosen : options.litinski with
    | false => exact .inl rfl
    | true =>
        rw [chosen] at computed
        rcases bind_eq_ok.mp computed with ⟨absorbed, absorbedEq, _⟩
        rcases cases basicEq with ⟨none, _⟩ | ⟨_, ⟨_, refused⟩ | ⟨measured, _⟩⟩
        · exact .inr (.inl none)
        · exact absurd (refused.symm.trans absorbedEq) (refuse_ne_ok _ _)
        · exact .inr (.inr ((sameMeasurements basicEq).symm.trans measured))
  · rintro ⟨basic, basicEq, condition⟩
    rw [prepare, basicEq, ok_bind]
    cases chosen : options.litinski with
    | false => exact ⟨_, rfl⟩
    | true =>
        rcases cases basicEq with ⟨_, same⟩ | ⟨⟨block, member, turns⟩, ⟨unmeasured, _⟩ | ⟨_, moved⟩⟩
        · rw [same]
          exact ⟨_, rfl⟩
        · rcases condition with notChosen | none | measured
          · exact absurd (chosen.symm.trans notChosen) Bool.true_eq_false_eq_False
          · exact absurd turns (none block member)
          · exact absurd (measured.symm.trans ((sameMeasurements basicEq).symm.trans unmeasured))
              Bool.true_eq_false_eq_False
        · rcases moved with ⟨blocks, same, _⟩
          rw [same]
          exact ⟨_, rfl⟩

/-- No reason for which a compilation can be refused applies to the circuit: it has a basic form,
it does not measure the identity, and there is a measurement if quarter rotations are to be
moved. -/
def Accepts (options : Options) (approximator : Approximator) (circuit : Circuit) : Prop :=
  ∃ basic, circuit.basicForm approximator = .ok basic ∧
    (∀ block ∈ circuit.blocks, block.isMeasurement = true → block.isIdentity = false) ∧
    (options.litinski = false ∨ (∀ block ∈ basic.yFree.blocks, ¬ block.TurnsQuarter) ∨
      circuit.hasMeasurement = true)

/-- Such a circuit can be prepared, and it is then ready. -/
theorem accepts_iff {options : Options} (uniform : circuit.Uniform) :
    options.Accepts approximator circuit ↔ ∃ prepared stats,
      options.prepare approximator circuit = .ok prepared ∧
      CircuitStats.ofCircuit prepared = .ok stats := by
  constructor
  · rintro ⟨basic, basicEq, measures, movable⟩
    rcases (exists_prepare_iff uniform).mpr ⟨basic, basicEq, movable⟩ with ⟨prepared, preparedEq⟩
    rcases prepared_prepare uniform preparedEq with ⟨_, facts, withoutY⟩
    rcases CircuitStats.exists_ofCircuit_iff.mpr ((facts.ready_iff withoutY).mpr measures) with
      ⟨stats, counted⟩
    exact ⟨prepared, stats, preparedEq, counted⟩
  · rintro ⟨prepared, stats, preparedEq, counted⟩
    rcases (exists_prepare_iff uniform).mp ⟨_, preparedEq⟩ with ⟨basic, basicEq, movable⟩
    rcases prepared_prepare uniform preparedEq with ⟨_, facts, withoutY⟩
    have ready := CircuitStats.exists_ofCircuit_iff.mp ⟨stats, counted⟩
    exact ⟨basic, basicEq, (facts.ready_iff withoutY).mp ready, movable⟩

/-- There are numbers for all that a compilation numbers: the dependencies, if they are asked
for, and the searches of the merges. -/
structure Numbered (options : Options) (supply : IdSupply) (prepared : Circuit) : Prop where
  dependencies : options.NumberedDependencies prepared
  merges : ∀ table layout, OperationTable.ofCircuit supply prepared = .ok table →
    options.layout.initial table.qubits table.magicCount = .ok layout →
    (Timeline.start layout).RunNumbered table.running

end Options

namespace Compilation

variable {supply : IdSupply} {options : Options} {approximator : Approximator} {circuit : Circuit}

theorem compile_eq (supply : IdSupply) (options : Options) (approximator : Approximator)
    (circuit : Circuit) :
    compile supply options approximator circuit =
      options.passes.foldlM (fun before pass => pass.runIfNeeded before)
        (Workpiece.start circuit approximator) >>= lower supply options :=
  Pass.runAll_bind options.passes (.start circuit approximator) (lower supply options)

/-- What comes behind the passes of a compilation succeeds as long as there are numbers for the
merges. -/
theorem lower_of_ready (fresh : Function.Injective supply) (work : Workpiece)
    {stats : CircuitStats} (uniform : work.circuit.Uniform)
    (counted : CircuitStats.ofCircuit work.circuit = .ok stats)
    (room : 2 * work.circuit.qubits + stats.eighths < 2147483648) :
    ∃ table layout, OperationTable.ofCircuit supply work.circuit = .ok table ∧
      options.layout.initial table.qubits table.magicCount = .ok layout ∧
      ((Timeline.start layout).RunNumbered table.running →
        ∃ compilation, lower supply options work = .ok compilation) ∧
      (¬ (Timeline.start layout).RunNumbered table.running →
        lower supply options work = .error (.fault .indexing)) ∧
      (20 * work.circuit.qubits + 10 * stats.eighths ≤ Storage.indices + 6 →
        (Timeline.start layout).RunNumbered table.running) := by
  rcases OperationTable.exists_ofCircuit supply uniform (by omega) counted with
    ⟨table, made, requests⟩
  have earlier := OperationTable.readsEarlier_of_ofCircuit made
  rcases OperationTable.leads_of_running fresh made (requests ▸ room) .refl with
    ⟨layout, stored, leads⟩
  have initial : options.layout.initial table.qubits table.magicCount = .ok layout := by
    cases options.layout
    exact stored
  have composed : lower supply options work =
      (Timeline.compose table layout).widen CompileError.lattice >>= fun timeline => .ok
        ⟨work.circuit, table, timeline, work.dependencies.map DependencyGraph.operationEdges⟩ := by
    rw [lower, made, widen, ok_bind, initial]
    rfl
  rw [composed, OperationTable.compose_eq_foldlM earlier]
  refine ⟨table, layout, made, initial, fun numbered => ?_, fun unnumbered => ?_, fun small => ?_⟩
  · rcases leads.standing_of_runNumbered numbered with ⟨timeline, performed, _⟩
    rw [performed]
    exact ⟨_, rfl⟩
  · rw [leads.foldlM_of_not_runNumbered unnumbered]
    rfl
  · exact OperationTable.runNumbered_of_small leads (requests ▸ small)

theorem fields_of_lower {work : Workpiece} {compilation : Compilation}
    (computed : lower supply options work = .ok compilation) :
    compilation.circuit = work.circuit ∧
      compilation.dependencies = work.dependencies.map DependencyGraph.operationEdges := by
  rcases bind_eq_ok.mp computed with ⟨table, _, computed⟩
  rcases bind_eq_ok.mp computed with ⟨layout, _, computed⟩
  rcases bind_eq_ok.mp computed with ⟨timeline, _, computed⟩
  cases computed
  exact ⟨rfl, rfl⟩

/-- The circuit, the stats and the lowering behind a compilation that succeeds. -/
theorem compile_eq_ok (uniform : circuit.Uniform) (regular : circuit.Regular)
    {compilation : Compilation} :
    compile supply options approximator circuit = .ok compilation ↔ ∃ prepared stats,
      options.prepare approximator circuit = .ok prepared ∧
      options.NumberedDependencies prepared ∧ CircuitStats.ofCircuit prepared = .ok stats ∧
      lower supply options ⟨prepared, approximator, options.dependenciesOf prepared, some stats⟩ =
        .ok compilation := by
  rw [compile_eq, bind_eq_ok]
  simp only [Options.foldlM_passes_eq_ok uniform regular]
  constructor
  · rintro ⟨work, ⟨prepared, stats, preparedEq, numbered, counted, rfl⟩, lowered⟩
    exact ⟨prepared, stats, preparedEq, numbered, counted, lowered⟩
  · rintro ⟨prepared, stats, preparedEq, numbered, counted, lowered⟩
    exact ⟨_, ⟨prepared, stats, preparedEq, numbered, counted, rfl⟩, lowered⟩

section Ready

variable (fresh : Function.Injective supply) (uniform : circuit.Uniform)
  (regular : circuit.Regular)
  (room : ∀ work stats, Pass.runAll options.passes (.start circuit approximator) =
    (work, .ok ()) → work.stats = some stats → 2 * circuit.qubits + stats.eighths < 2147483648)
  {prepared : Circuit} {stats : CircuitStats}
  (preparedEq : options.prepare approximator circuit = .ok prepared)
  (counted : CircuitStats.ofCircuit prepared = .ok stats)

include fresh uniform regular room preparedEq counted

/-- What becomes of a circuit that is accepted is a matter of numbers. -/
theorem compile_of_ready :
    (options.Numbered supply prepared →
      ∃ compilation, compile supply options approximator circuit = .ok compilation) ∧
    (¬ options.Numbered supply prepared →
      compile supply options approximator circuit = .error (.fault .indexing)) := by
  rcases Options.prepared_prepare uniform preparedEq with ⟨sameQubits, facts, _⟩
  by_cases dependencies : options.NumberedDependencies prepared
  · have ran := (Options.foldlM_passes_eq_ok uniform regular).mpr
      ⟨prepared, stats, preparedEq, dependencies, counted, rfl⟩
    have fits := room _ stats (Pass.runAll_eq_ok.mpr ran) rfl
    rcases lower_of_ready fresh ⟨prepared, approximator, _, some stats⟩ facts.width counted
      (sameQubits ▸ fits) with ⟨table, layout, made, initial, lowers, faults, _⟩
    rw [compile_eq, ran, ok_bind]
    refine ⟨fun numbered => lowers (numbered.merges table layout made initial),
      fun unnumbered => faults fun merges => unnumbered ⟨dependencies, ?_⟩⟩
    intro other otherLayout otherMade otherInitial
    cases made.symm.trans otherMade
    cases initial.symm.trans otherInitial
    exact merges
  · refine ⟨fun numbered => absurd numbered.dependencies dependencies, fun _ => ?_⟩
    rw [compile_eq, Options.foldlM_passes_of_crowded uniform regular preparedEq dependencies]
    rfl

end Ready

/-- A short circuit on a small register has numbers for everything. -/
theorem numbered_of_small (fresh : Function.Injective supply) {prepared : Circuit}
    {stats : CircuitStats} (uniform : prepared.Uniform)
    (counted : CircuitStats.ofCircuit prepared = .ok stats)
    (short : options.scheduling = .parallel → prepared.size < 131072)
    (small : 20 * prepared.qubits + 10 * stats.eighths ≤ Storage.indices + 6) :
    options.Numbered supply prepared := by
  refine ⟨fun parallel => DependencyGraph.numbered_ofCircuit (short parallel), ?_⟩
  intro table layout made initial
  have room : 2 * prepared.qubits + stats.eighths < 2147483648 := by
    rw [Storage.indices] at small
    omega
  rcases lower_of_ready fresh (.start prepared .none) uniform counted room with
    ⟨other, otherLayout, otherMade, otherInitial, _, _, numbered⟩
  cases made.symm.trans otherMade
  cases initial.symm.trans otherInitial
  exact numbered small

/-- A compilation succeeds when all rotations have a basic form, the identity is not measured,
there is a measurement if quarter rotations are to be moved, and there are numbers for what is
numbered. If only numbers are missing, it ends in a fault. A short circuit on a small register
has enough of them. The circuit that a compilation leaves has basic rotations without Y only, and
the pairs of blocks that it reports do not commute. -/
theorem exists_compile_iff (fresh : Function.Injective supply) (uniform : circuit.Uniform)
    (regular : circuit.Regular)
    (room : ∀ work stats, Pass.runAll options.passes (.start circuit approximator) =
      (work, .ok ()) → work.stats = some stats → 2 * circuit.qubits + stats.eighths < 2147483648) :
    ((∃ compilation, compile supply options approximator circuit = .ok compilation) ↔
      options.Accepts approximator circuit ∧
        ∀ prepared, options.prepare approximator circuit = .ok prepared →
          options.Numbered supply prepared) ∧
    (options.Accepts approximator circuit →
      ∀ prepared, options.prepare approximator circuit = .ok prepared →
        ¬ options.Numbered supply prepared →
        compile supply options approximator circuit = .error (.fault .indexing)) ∧
    (∀ prepared stats, options.prepare approximator circuit = .ok prepared →
      CircuitStats.ofCircuit prepared = .ok stats →
      (options.scheduling = .parallel → prepared.size < 131072) →
      20 * circuit.qubits + 10 * stats.eighths ≤ Storage.indices + 6 →
      options.Numbered supply prepared) ∧
    ∀ compilation, compile supply options approximator circuit = .ok compilation →
      (∀ block ∈ compilation.circuit.blocks, block.containsY = false ∧
        ∀ angle, block.kind = .rotation angle → angle.IsBasic) ∧
      (options.scheduling = .parallel → ∃ pairs, compilation.dependencies = some pairs ∧
        ∀ pair ∈ pairs, pair.2 < pair.1 ∧ pair.1 < compilation.circuit.size ∧
          compilation.circuit.commuting pair.2 pair.1 = .ok false) := by
  refine ⟨⟨?_, ?_⟩, ?_, ?_, ?_⟩
  · rintro ⟨compilation, computed⟩
    rcases (compile_eq_ok uniform regular).mp computed with
      ⟨prepared, stats, preparedEq, _, counted, _⟩
    refine ⟨(Options.accepts_iff uniform).mpr ⟨prepared, stats, preparedEq, counted⟩, ?_⟩
    intro other otherEq
    cases preparedEq.symm.trans otherEq
    by_contra unnumbered
    have failed := (compile_of_ready fresh uniform regular room preparedEq counted).2 unnumbered
    cases computed.symm.trans failed
  · rintro ⟨accepts, numbered⟩
    rcases (Options.accepts_iff uniform).mp accepts with ⟨prepared, stats, preparedEq, counted⟩
    exact (compile_of_ready fresh uniform regular room preparedEq counted).1
      (numbered prepared preparedEq)
  · intro accepts prepared preparedEq
    rcases (Options.accepts_iff uniform).mp accepts with ⟨other, stats, otherEq, counted⟩
    cases preparedEq.symm.trans otherEq
    exact (compile_of_ready fresh uniform regular room preparedEq counted).2
  · intro prepared stats preparedEq counted short small
    rcases Options.prepared_prepare uniform preparedEq with ⟨sameQubits, facts, _⟩
    exact numbered_of_small fresh facts.width counted short (sameQubits ▸ small)
  · intro compilation computed
    rcases (compile_eq_ok uniform regular).mp computed with
      ⟨prepared, stats, preparedEq, _, _, lowered⟩
    rcases Options.prepared_prepare uniform preparedEq with ⟨_, facts, withoutY⟩
    rcases fields_of_lower lowered with ⟨sameCircuit, dependencies⟩
    rw [sameCircuit]
    refine ⟨fun block member => ⟨withoutY block member, fun angle kind => ?_⟩, fun parallel => ?_⟩
    · exact (Angle.isBasic_eq_ok_true.mp (facts.turnsBasic block member angle kind)).2
    · rw [Options.dependenciesOf, if_pos parallel] at dependencies
      exact ⟨_, dependencies, fun pair => DependencyGraph.commuting_of_mem_operationEdges⟩

/-- A rotation about YZ by three eighths and a measurement of -YX, with all passes. -/
theorem exists_compile_threeEighths :
    let options : Options := { scheduling := .parallel }
    let circuit : Circuit := ⟨2, [.rotation [.Y, .Z] ⟨3, 8, by decide, by decide, by decide⟩,
      .measurement [.Y, .X] true]⟩
    ∃ compilation, compile PatchId.mk options Approximator.none circuit = .ok compilation ∧
      (∀ block ∈ compilation.circuit.blocks, block.containsY = false ∧
        ∀ angle, block.kind = .rotation angle → angle.IsBasic) ∧
      ∃ pairs, compilation.dependencies = some pairs ∧
        ∀ pair ∈ pairs, pair.2 < pair.1 ∧ pair.1 < compilation.circuit.size ∧
          compilation.circuit.commuting pair.2 pair.1 = .ok false := by
  intro options circuit
  have uniform : circuit.Uniform := by decide
  have regular : circuit.Regular := by
    intro block member angle kind
    simp only [circuit, List.mem_cons, List.not_mem_nil, or_false] at member
    rcases member with rfl | rfl <;> cases kind
    exact ⟨by decide, by decide⟩
  have prepares : ∃ basic prepared, circuit.basicForm Approximator.none = .ok basic ∧
      options.prepare Approximator.none circuit = .ok prepared ∧
      CircuitStats.ofCircuit prepared = .ok ⟨0, 4, 1, 1⟩ ∧ prepared.size < 131072 :=
    ⟨(circuit.basicForm Approximator.none).toOption.getD circuit,
      (options.prepare Approximator.none circuit).toOption.getD circuit,
      by decide +kernel, by decide +kernel, by decide +kernel, by decide +kernel⟩
  rcases prepares with ⟨basic, prepared, basicEq, preparedEq, counted, short⟩
  have room : ∀ work stats, Pass.runAll options.passes (.start circuit Approximator.none) =
      (work, .ok ()) → work.stats = some stats →
        2 * circuit.qubits + stats.eighths < 2147483648 := by
    intro work stats finished found
    rcases (Options.foldlM_passes_eq_ok uniform regular).mp (Pass.runAll_eq_ok.mp finished) with
      ⟨other, otherStats, otherEq, _, otherCounted, rfl⟩
    cases preparedEq.symm.trans otherEq
    cases counted.symm.trans otherCounted
    cases found
    decide
  rcases exists_compile_iff (fun _ _ same => PatchId.mk.inj same) uniform regular room with
    ⟨succeeds, _, small, left⟩
  have numbered : ∀ other, options.prepare Approximator.none circuit = .ok other →
      options.Numbered PatchId.mk other := by
    intro other otherEq
    cases preparedEq.symm.trans otherEq
    exact small prepared _ preparedEq counted (fun _ => short) (by decide)
  rcases succeeds.mpr ⟨⟨basic, basicEq, by decide, .inr (.inr rfl)⟩, numbered⟩ with
    ⟨compilation, computed⟩
  rcases left compilation computed with ⟨blocks, pairs⟩
  exact ⟨compilation, computed, blocks, pairs rfl⟩

section TurnedHalves

open DependencyGraph (turnedHalves)

variable {count : Nat}

private theorem mem_turnedHalves {block : Block} (member : block ∈ (turnedHalves count).blocks) :
    block = .rotation [.X] .eighth ∨ block = .rotation [.Z] .eighth :=
  (List.mem_append.mp member).imp List.eq_of_mem_replicate List.eq_of_mem_replicate

theorem uniform_turnedHalves : (turnedHalves count).Uniform := by
  intro block member
  rcases mem_turnedHalves member with rfl | rfl <;> rfl

theorem turnsBasic_turnedHalves : ∀ block ∈ (turnedHalves count).blocks, block.TurnsBasic := by
  intro block member angle kind
  rcases mem_turnedHalves member with rfl | rfl <;> cases kind <;> rfl

theorem regular_turnedHalves : (turnedHalves count).Regular := by
  intro block member angle kind
  exact (Angle.isBasic_eq_ok_true.mp (turnsBasic_turnedHalves block member angle kind)).1

theorem accepts_turnedHalves (direct : options.litinski = false) :
    options.Accepts approximator (turnedHalves count) := by
  refine ⟨_, Circuit.basicForm_eq_self approximator turnsBasic_turnedHalves, ?_, .inl direct⟩
  intro block member measures
  rcases mem_turnedHalves member with rfl | rfl <;> cases measures

theorem prepare_turnedHalves (direct : options.litinski = false) :
    options.prepare approximator (turnedHalves count) = .ok (turnedHalves count) := by
  have withoutY : ∀ block ∈ (turnedHalves count).blocks, block.containsY = false := by
    intro block member
    rcases mem_turnedHalves member with rfl | rfl <;> rfl
  rw [Options.prepare, Circuit.basicForm_eq_self approximator turnsBasic_turnedHalves, ok_bind,
    direct, Circuit.yFree_eq_self withoutY]
  rfl

theorem ofCircuit_turnedHalves :
    CircuitStats.ofCircuit (turnedHalves count) = .ok ⟨0, 0, count + count, 0⟩ := by
  have counts {blocks : List Block} (eighths : ∀ block ∈ blocks,
      block = .rotation [.X] .eighth ∨ block = .rotation [.Z] .eighth) (start before : Nat) :
      (blocks.zipIdx start).foldlM CircuitStats.count ⟨0, 0, before, 0⟩ =
        .ok ⟨0, 0, before + blocks.length, 0⟩ := by
    induction blocks generalizing start before with
    | nil => rfl
    | cons block rest induction =>
        rw [List.forall_mem_cons] at eighths
        have first : CircuitStats.count ⟨0, 0, before, 0⟩ (block, start) =
            .ok ⟨0, 0, before + 1, 0⟩ := by
          rcases eighths.1 with rfl | rfl <;> rfl
        rw [List.zipIdx_cons, List.foldlM_cons, first, ok_bind, induction eighths.2,
          List.length_cons, Nat.add_right_comm, Nat.add_assoc]
  have length : (turnedHalves count).blocks.length = count + count := by
    simp [turnedHalves]
  rw [CircuitStats.ofCircuit, CircuitStats.zero, counts fun block => mem_turnedHalves, length,
    Nat.zero_add]

theorem compile_turnedHalves (direct : options.litinski = false)
    (parallel : options.scheduling = .parallel) (many : Storage.indices < count * count) :
    compile supply options approximator (turnedHalves count) = .error (.fault .indexing) := by
  have crowded : ¬ options.NumberedDependencies (turnedHalves count) := fun numbered =>
    DependencyGraph.not_numbered_turnedHalves many (numbered parallel)
  rw [compile_eq, Options.foldlM_passes_of_crowded uniform_turnedHalves regular_turnedHalves
    (prepare_turnedHalves direct) crowded]
  rfl

/-- No reason to refuse the circuit applies, but its dependencies cannot be numbered. -/
theorem not_compile_turnedHalves :
    let options : Options := { litinski := false, scheduling := .parallel }
    (turnedHalves 65536).Uniform ∧ (turnedHalves 65536).Regular ∧
      CircuitStats.ofCircuit (turnedHalves 65536) = .ok ⟨0, 0, 131072, 0⟩ ∧
      2 * (turnedHalves 65536).qubits + 131072 < 2147483648 ∧
      options.Accepts Approximator.none (turnedHalves 65536) ∧
      compile PatchId.mk options Approximator.none (turnedHalves 65536) =
        .error (.fault .indexing) := by
  intro options
  refine ⟨uniform_turnedHalves, regular_turnedHalves, ofCircuit_turnedHalves, by decide,
    accepts_turnedHalves rfl, ?_⟩
  exact compile_turnedHalves rfl rfl (by decide)

end TurnedHalves

end Compilation

end LatticeSurgery
