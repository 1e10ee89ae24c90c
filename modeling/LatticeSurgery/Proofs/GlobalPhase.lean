import LatticeSurgery.Proofs.Circuit.BasicForm
import LatticeSurgery.Proofs.Compilation

namespace LatticeSurgery

open Result

/-! # Rotations about the identity

A rotation about the identity is a global phase. The verification accepts it with any angle, and
the table has no operations for it. The basic form looks at the angle alone, so it refuses such a
rotation when the angle does not split. Otherwise the table stays the same. -/

namespace Block

/-- All blocks act but the rotations about the identity. -/
def acts (block : Block) : Bool := block.isMeasurement || !block.isIdentity

theorem exists_angle_of_not_acts {block : Block} (idle : block.acts = false) :
    block.isIdentity = true ∧ ∃ angle, block.kind = .rotation angle := by
  rw [acts, Bool.or_eq_false_iff, Bool.not_eq_false', isMeasurement, Option.isNone_eq_false_iff,
    angle?] at idle
  cases kind : block.kind with
  | rotation angle => exact ⟨idle.2, angle, rfl⟩
  | measurement negative =>
      rw [kind] at idle
      cases idle.1

theorem isIdentity_of_acts {block : Block} (acting : block.acts = true) {angle : Angle}
    (kind : block.kind = .rotation angle) : block.isIdentity = false := by
  simpa [acts, isMeasurement, angle?, kind] using acting

end Block

/-! ## Tables -/

namespace TableDraft

variable {supply : IdSupply} {qubits : List PatchId} {draft : TableDraft} {block : Block}

theorem addBlock_of_not_acts (index : Nat) (withoutY : block.containsY = false)
    (idle : block.acts = false) : addBlock supply qubits draft (block, index) = .ok draft := by
  rcases Block.exists_angle_of_not_acts idle with ⟨identity, angle, kind⟩
  have support : block.symbols.support = [] := block.symbols.support_eq_nil_iff.mpr identity
  simp [addBlock, withoutY, targets, support, kind]

private theorem addRotation_congr {angle : Angle} (basic : angle.isBasic = .ok true)
    (index other : Nat) (targets : Targets) :
    draft.addRotation supply index targets angle =
      draft.addRotation supply other targets angle := by
  rw [addRotation, addRotation]
  rcases bind_eq_ok.mp basic with ⟨isHalf, half, basic⟩
  rw [half]
  cases isHalf with
  | true => rfl
  | false =>
      rcases bind_eq_ok.mp basic with ⟨isQuarter, quarter, basic⟩
      rw [quarter]
      cases isQuarter with
      | true => rfl
      | false =>
          rw [if_neg Bool.false_ne_true] at basic
          rw [basic]
          rfl

/-- The position of a block is named in refusals only. -/
theorem addBlock_congr (ready : block.Ready) (index other : Nat) :
    addBlock supply qubits draft (block, index) = addBlock supply qubits draft (block, other) := by
  rw [addBlock, addBlock]
  simp only [ready.containsY, Bool.false_eq_true, if_false]
  cases found : targets qubits block.symbols with
  | error fault => rfl
  | ok targets =>
      have empty : targets = [] ↔ block.isIdentity = true := targets_eq_nil_iff found
      simp only [liftM_eq_ofFaulty, ofFaulty_ok, ok_bind]
      cases kind : block.kind with
      | measurement negative =>
          have identity := ready.measures (by simp [Block.isMeasurement, Block.angle?, kind])
          rcases targets with _ | ⟨factor, _ | ⟨second, rest⟩⟩
          · cases identity.symm.trans (empty.mp rfl)
          · rfl
          · rfl
      | rotation angle =>
          cases targets with
          | nil => rfl
          | cons factor rest =>
              have identity : block.isIdentity = false := by simpa using empty
              exact addRotation_congr (ready.turns angle kind identity) index other _

/-- Blocks that do not act leave no trace in a table. -/
theorem foldlM_acting {blocks : List Block} (ready : ∀ block ∈ blocks, block.Ready)
    (draft : TableDraft) (start other : Nat) :
    (blocks.zipIdx start).foldlM (addBlock supply qubits) draft =
      ((blocks.filter Block.acts).zipIdx other).foldlM (addBlock supply qubits) draft := by
  -- The positions drift apart with every block that does not act.
  induction blocks generalizing draft start other with
  | nil => rfl
  | cons block rest induction =>
      rw [List.forall_mem_cons] at ready
      rw [List.zipIdx_cons, List.foldlM_cons]
      cases acting : block.acts with
      | false =>
          rw [List.filter_cons_of_neg (by simp [acting]),
            addBlock_of_not_acts start ready.1.containsY acting, ok_bind]
          exact induction ready.2 draft (start + 1) other
      | true =>
          rw [List.filter_cons_of_pos acting, List.zipIdx_cons, List.foldlM_cons,
            addBlock_congr ready.1 start other]
          cases addBlock supply qubits draft (block, other) with
          | error failure => rfl
          | ok next => exact induction ready.2 next (start + 1) (other + 1)

end TableDraft

theorem OperationTable.ofCircuit_acting (supply : IdSupply) {circuit : Circuit}
    (ready : ∀ block ∈ circuit.blocks, block.Ready) :
    ofCircuit supply circuit =
      ofCircuit supply { circuit with blocks := circuit.blocks.filter Block.acts } := by
  rw [ofCircuit, ofCircuit]
  simp only [TableDraft.foldlM_acting ready _ 0 0]

/-! ## Basic form -/

namespace Block

variable {block : Block} {part : List Block}

theorem Ready.turnsBasic (ready : block.Ready) (acting : block.acts = true) : block.TurnsBasic :=
  fun angle kind => ready.turns angle kind (isIdentity_of_acts acting kind)

/-- The basic form of a ready block is the block itself, or it does not act either. -/
theorem SplitsInto.filter_acts (splits : block.SplitsInto part) (ready : block.Ready) :
    part.filter acts = [block].filter acts := by
  cases splits with
  | itself basic => rfl
  | @terms symbols angle terms notBasic split coarse =>
      have idle : symbols.isIdentity = true := by
        rw [← Bool.not_eq_false]
        intro acting
        cases notBasic.symm.trans (ready.turns angle rfl acting)
      have none (amount : Angle) : (rotation symbols amount).acts = false := by
        simp [acts, rotation, isMeasurement, angle?, isIdentity, idle]
      rw [List.filter_cons_of_neg (by simp [none]), List.filter_nil, List.filter_eq_nil_iff]
      intro member emitted
      rcases List.mem_map.mp emitted with ⟨term, _, rfl⟩
      simp [none]

theorem filter_acts_flatten {blocks : List Block} {parts : List (List Block)}
    (ready : ∀ block ∈ blocks, block.Ready) (splits : List.Forall₂ SplitsInto blocks parts) :
    parts.flatten.filter acts = blocks.filter acts := by
  induction splits with
  | nil => rfl
  | @cons block part rest others head _ induction =>
      rw [List.forall_mem_cons] at ready
      rw [List.flatten_cons, List.filter_append, head.filter_acts ready.1, induction ready.2,
        ← List.filter_append, List.singleton_append]

end Block

namespace Circuit

variable {circuit basic : Circuit}

/-- The basic form of a ready circuit differs from it in rotations about the identity only. -/
theorem basicForm_of_ready (ready : ∀ block ∈ circuit.blocks, block.Ready)
    (computed : circuit.basicForm .none = .ok basic) :
    basic.qubits = circuit.qubits ∧ basic.yFree = basic ∧
      basic.blocks.filter Block.acts = circuit.blocks.filter Block.acts := by
  rcases splits_of_basicForm computed with ⟨parts, splits, rfl⟩
  refine ⟨rfl, yFree_eq_self fun block member => ?_, Block.filter_acts_flatten ready splits⟩
  rcases List.mem_flatten.mp member with ⟨part, listed, emitted⟩
  rcases exists_of_mem_right splits listed with ⟨source, sourceMember, sourceSplits⟩
  rw [Block.containsY, sourceSplits.symbols_eq emitted]
  exact (ready source sourceMember).containsY

/-- The rotations about the identity have angles that split. -/
def PhasesSplit (circuit : Circuit) : Prop :=
  ∀ block ∈ circuit.blocks, block.isIdentity = true → ∀ angle, block.kind = .rotation angle →
    angle.Regular ∧ angle.Splits

theorem exists_basicForm_iff (ready : ∀ block ∈ circuit.blocks, block.Ready) :
    (∀ block ∈ circuit.blocks, ∃ part, block.basicForm .none = .ok part) ↔
      circuit.PhasesSplit := by
  constructor
  · intro each block member _ angle kind
    have turning : block = .rotation block.symbols angle := by rw [Block.rotation, ← kind]
    have found := each block member
    rwa [turning, Block.exists_basicForm_none_iff] at found
  · intro phases block member
    cases acting : block.acts with
    | true =>
        exact ⟨[block], Block.basicForm_none_eq_ok.mpr
          (.itself ((ready block member).turnsBasic acting))⟩
    | false =>
        rcases Block.exists_angle_of_not_acts acting with ⟨identity, angle, kind⟩
        have turning : block = .rotation block.symbols angle := by rw [Block.rotation, ← kind]
        rw [turning]
        exact Block.exists_basicForm_none_iff.mpr (phases block member identity angle kind)

theorem PhasesSplit.regular (phases : circuit.PhasesSplit)
    (ready : ∀ block ∈ circuit.blocks, block.Ready) : circuit.Regular := by
  intro block member angle kind
  cases identity : block.isIdentity with
  | true => exact (phases block member identity angle kind).1
  | false =>
      exact (Angle.isBasic_eq_ok_true.mp ((ready block member).turns angle kind identity)).1

end Circuit

/-! ## Passes -/

namespace Pass

variable {circuit : Circuit}

/-- The first pass goes through only if every block has a basic form, whether or not it is
needed. -/
theorem exists_basicForm_of_runIfNeeded {next : Workpiece}
    (ran : basicForm.runIfNeeded (.start circuit .none) = .ok next) :
    ∀ block ∈ circuit.blocks, ∃ part, block.basicForm .none = .ok part := by
  intro block member
  rcases bind_eq_ok.mp ran with ⟨needed, decided, ran⟩
  rw [liftM_eq_ofFaulty, ofFaulty_eq_ok_iff] at decided
  cases needed with
  | true =>
      rcases bind_eq_ok.mp ran with ⟨basic, computed, _⟩
      rcases bind_eq_ok.mp (widen_eq_ok.mp computed) with ⟨parts, partsEq, _⟩
      rcases exists_of_mem_left (mapM_eq_ok.mp partsEq) member with ⟨part, _, partEq⟩
      exact ⟨part, partEq⟩
  | false =>
      have tested := of_anyM_eq_ok_false decided block member
      refine ⟨[block], Block.basicForm_none_eq_ok.mpr (.itself fun angle kind => ?_)⟩
      rw [kind] at tested
      rcases bind_eq_ok.mp tested with ⟨isBasic, basic, answer⟩
      cases isBasic with
      | true => exact basic
      | false => cases answer

theorem ready_of_verification {work verified : Workpiece}
    (accepted : verification.run work = .ok verified) :
    ∀ block ∈ work.circuit.blocks, block.Ready := by
  rcases bind_eq_ok.mp accepted with ⟨stats, counted, _⟩
  exact CircuitStats.exists_ofCircuit_iff.mp ⟨stats, widen_eq_ok.mp counted⟩

end Pass

namespace Options

variable {options : Options} {circuit : Circuit}

theorem phasesSplit_of_runAll {work : Workpiece} (ready : ∀ block ∈ circuit.blocks, block.Ready)
    (ran : Pass.runAll options.passes (.start circuit .none) = (work, .ok ())) :
    circuit.PhasesSplit := by
  have folded := Pass.runAll_eq_ok.mp ran
  rcases bind_eq_ok.mp folded with ⟨next, first, _⟩
  exact (Circuit.exists_basicForm_iff ready).mp (Pass.exists_basicForm_of_runIfNeeded first)

/-- Without the Litinski transform the circuit that is prepared is its basic form. -/
theorem prepare_of_ready (direct : options.litinski = false)
    (ready : ∀ block ∈ circuit.blocks, block.Ready) {basic : Circuit}
    (computed : circuit.basicForm .none = .ok basic) :
    options.prepare .none circuit = .ok basic := by
  rw [prepare, computed, ok_bind, direct, (Circuit.basicForm_of_ready ready computed).2.1]
  rfl

section Direct

variable (direct : options.litinski = false) (uniform : circuit.Uniform)
  (ready : ∀ block ∈ circuit.blocks, block.Ready)

include direct uniform ready

/-- The passes leave the basic form of a ready circuit. -/
theorem exists_runAll_of_phasesSplit (phases : circuit.PhasesSplit)
    (numbered : ∀ basic, circuit.basicForm .none = .ok basic →
      options.NumberedDependencies basic) :
    ∃ work, Pass.runAll options.passes (.start circuit .none) = (work, .ok ()) := by
  rcases exists_mapM_of_forall ((Circuit.exists_basicForm_iff ready).mpr phases) with
    ⟨parts, partsEq⟩
  have computed : circuit.basicForm .none = .ok { circuit with blocks := parts.flatten } := by
    rw [Circuit.basicForm, partsEq]
    rfl
  have prepared := prepare_of_ready direct ready computed
  rcases prepared_prepare uniform prepared with ⟨_, facts, withoutY⟩
  have basicReady := (facts.ready_iff withoutY).mpr fun block member =>
    (ready block member).measures
  rcases CircuitStats.exists_ofCircuit_iff.mpr basicReady with ⟨stats, counted⟩
  have folded := (foldlM_passes_eq_ok uniform (phases.regular ready)).mpr
    ⟨_, stats, prepared, numbered _ computed, counted, rfl⟩
  exact ⟨_, Pass.runAll_eq_ok.mpr folded⟩

theorem basicForm_of_runAll {work : Workpiece}
    (ran : Pass.runAll options.passes (.start circuit .none) = (work, .ok ())) :
    circuit.basicForm .none = .ok work.circuit ∧ options.NumberedDependencies work.circuit ∧
      ∀ block ∈ work.circuit.blocks, block.Ready := by
  have regular := (phasesSplit_of_runAll ready ran).regular ready
  rcases (foldlM_passes_eq_ok uniform regular).mp (Pass.runAll_eq_ok.mp ran) with
    ⟨prepared, stats, preparedEq, numbered, counted, rfl⟩
  rcases bind_eq_ok.mp preparedEq with ⟨basic, computed, _⟩
  cases preparedEq.symm.trans (prepare_of_ready direct ready computed)
  exact ⟨computed, numbered, CircuitStats.exists_ofCircuit_iff.mp ⟨stats, counted⟩⟩

end Direct

/-- When the verification accepts a circuit as it stands, the passes without the Litinski
transform go through exactly if the rotations about the identity have angles that split and, when
dependencies are asked for, there are numbers for those of the basic form. The table for what they
leave is then the one for the circuit itself. -/
theorem runAll_passes_of_accepted (supply : IdSupply) (direct : options.litinski = false)
    (uniform : circuit.Uniform) {verified : Workpiece}
    (accepted : Pass.verification.run (.start circuit .none) = .ok verified) :
    ((∃ work, Pass.runAll options.passes (.start circuit .none) = (work, .ok ())) ↔
      circuit.PhasesSplit ∧ (options.scheduling = .parallel →
        ∀ basic, circuit.basicForm .none = .ok basic →
          (DependencyGraph.ofCircuit basic).Numbered)) ∧
    ∀ work, Pass.runAll options.passes (.start circuit .none) = (work, .ok ()) →
      OperationTable.ofCircuit supply work.circuit = OperationTable.ofCircuit supply circuit := by
  have ready : ∀ block ∈ circuit.blocks, block.Ready := Pass.ready_of_verification accepted
  refine ⟨⟨?_, ?_⟩, ?_⟩
  · intro succeeded
    rcases succeeded with ⟨work, ran⟩
    rcases basicForm_of_runAll direct uniform ready ran with ⟨computed, numbered, _⟩
    refine ⟨phasesSplit_of_runAll ready ran, fun parallel basic basicEq => ?_⟩
    cases computed.symm.trans basicEq
    exact numbered parallel
  · rintro ⟨phases, numbered⟩
    exact exists_runAll_of_phasesSplit direct uniform ready phases
      fun basic computed parallel => numbered parallel basic computed
  · intro work ran
    rcases basicForm_of_runAll direct uniform ready ran with ⟨computed, _, basicReady⟩
    rcases Circuit.basicForm_of_ready ready computed with ⟨sameQubits, _, sameActing⟩
    rw [OperationTable.ofCircuit_acting supply basicReady,
      OperationTable.ofCircuit_acting supply ready, sameActing, sameQubits]

/-- A rotation about the identity by eleven eighths splits, and the table does not see it. -/
theorem runAll_passes_elevenEighths :
    let options : Options := { litinski := false }
    let circuit : Circuit := ⟨2, [.rotation [.I, .I] { numer := 11, denom := 8 },
      .rotation [.X, .Z] .eighth, .measurement [.Z, .Z] true]⟩
    ∃ work, Pass.runAll options.passes (.start circuit .none) = (work, .ok ()) ∧
      work.circuit ≠ circuit ∧
      OperationTable.ofCircuit PatchId.mk work.circuit =
        OperationTable.ofCircuit PatchId.mk circuit := by
  intro options circuit
  have accepted : Pass.verification.run (.start circuit .none) =
      .ok ⟨circuit, .none, none, some ⟨0, 0, 1, 1⟩⟩ := rfl
  have phases : circuit.PhasesSplit := by
    intro block member identity angle kind
    simp only [circuit, List.mem_cons, List.not_mem_nil, or_false] at member
    rcases member with rfl | rfl | rfl
    · cases kind
      exact ⟨by decide, .inr ⟨by decide, Angle.multipleOf_of_denom rfl le_rfl⟩⟩
    · cases identity
    · cases kind
  have described := runAll_passes_of_accepted PatchId.mk (rfl : options.litinski = false)
    (by decide) accepted
  have changed : (Pass.runAll options.passes (.start circuit .none)).1.circuit ≠ circuit := by
    decide
  rcases described.1.mpr ⟨phases, fun parallel => absurd parallel (by decide)⟩ with ⟨work, ran⟩
  rw [ran] at changed
  exact ⟨work, ran, changed, described.2 work ran⟩

/-- A sixteenth of a turn about the identity is accepted and has a table, but the passes refuse
it. -/
theorem runAll_passes_refuses_sixteenth :
    let options : Options := { litinski := false }
    let circuit : Circuit := ⟨2, [.rotation [.I, .I] { numer := 1, denom := 16 },
      .measurement [.Z, .Z] false]⟩
    circuit.Uniform ∧
      (∃ verified, Pass.verification.run (.start circuit .none) = .ok verified) ∧
      (∃ table, OperationTable.ofCircuit PatchId.mk circuit = .ok table) ∧
      (Pass.runAll options.passes (.start circuit .none)).2 =
        Result.refuse (.circuit (.unsupportedAngle { numer := 1, denom := 16 } .notSingleAxis)) :=
  ⟨by decide, ⟨_, rfl⟩, ⟨_, rfl⟩, rfl⟩

end Options

end LatticeSurgery
