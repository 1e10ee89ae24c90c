import LatticeSurgery.Proofs.Circuit.Ready
import LatticeSurgery.Proofs.Operation.EighthRotation
import LatticeSurgery.Proofs.Operation.Readiness

namespace LatticeSurgery

open Matrix

/-! # Clifford circuits

The table of a circuit without eighth rotations acts as the circuit does, whatever the
outcomes are. Each gadget acts as its block, and the gadgets stand one behind the other. -/

/-- Every block has the width of the circuit and no Y. Measurements are not of the identity,
and rotations turn by a half or a quarter, unless their product is the identity. -/
structure Circuit.Clifford (circuit : Circuit) : Prop where
  uniform : circuit.Uniform
  withoutY : ∀ block ∈ circuit.blocks, block.containsY = false
  measures : ∀ block ∈ circuit.blocks, block.isMeasurement = true → block.isIdentity = false
  turns : ∀ block ∈ circuit.blocks, ∀ angle, block.kind = .rotation angle →
    block.isIdentity = false → |angle.value| = 1 / 2 ∨ |angle.value| = 1 / 4

theorem Outcome.sign_unsigned (outcome : Outcome) (negative : Bool) :
    (outcome.unsigned negative).sign = if negative then -outcome.sign else outcome.sign := by
  cases outcome <;> cases negative <;> simp [unsigned]

/-- Nothing is turned about nothing, except for a phase. -/
theorem Turns.about_one (amount : ℚ) (given : Amplitudes → Prop) : Turns 1 amount given 1 := by
  refine ⟨Complex.exp (amount * Real.pi * Complex.I), Complex.exp_ne_zero _, fun amplitudes _ => ?_⟩
  have unit := Complex.cos_sq_add_sin_sq (amount * Real.pi)
  have factor : Complex.exp (amount * Real.pi * Complex.I) *
      (Complex.cos (amount * Real.pi) - Complex.I * Complex.sin (amount * Real.pi)) = 1 := by
    rw [Complex.exp_mul_I]
    linear_combination unit - Complex.sin (amount * Real.pi) ^ 2 * Complex.I_sq
  rw [Effect.turn_apply, Module.End.one_apply, ← sub_smul, smul_smul, factor, one_smul]

namespace OperationTable

/-! ## Stretches -/

section Stretches

variable {table : OperationTable}

theorem ActsAs.zero {first : Nat} : table.ActsAs first 0 1 :=
  ⟨1, one_ne_zero, fun vector => by rw [Matrix.one_mulVec, one_smul]; rfl⟩

/-- A stretch acts before the stretch behind it. -/
theorem ActsAs.append {first before after : Nat} {left right : Operator table.qubits.length}
    (leftActs : table.ActsAs first before left)
    (rightActs : table.ActsAs (first + before) after right) :
    table.ActsAs first (before + after) (right * left) := by
  rcases leftActs with ⟨leftScalar, leftNonzero, leftEffect⟩
  rcases rightActs with ⟨rightScalar, rightNonzero, rightEffect⟩
  refine ⟨leftScalar * rightScalar, mul_ne_zero leftNonzero rightNonzero, fun vector => ?_⟩
  rw [effect_add, Module.End.mul_apply, leftEffect, rightEffect, Matrix.mulVec_smul, smul_smul,
    Matrix.mulVec_mulVec, mul_comm]

/-- Projecting the targets of a block projects the register. -/
theorem ActsAs.of_eigenprojector (distinct : table.qubits.Nodup) {symbols : PauliString}
    {targets : Targets} (found : TableDraft.targets table.qubits symbols = .ok targets)
    {first count : Nat} {sign : ℂ}
    (projects : table.effect first count =
      Operator.eigenprojector (Effect.pauliProduct targets) sign) :
    table.ActsAs first count
      (Operator.eigenprojector (symbols.operator table.qubits.length) sign) := by
  refine ⟨1, one_ne_zero, fun vector => ?_⟩
  rw [projects, Operator.eigenprojector, Operator.eigenprojector, LinearMap.smul_apply,
    LinearMap.add_apply, LinearMap.smul_apply, Module.End.one_apply,
    Effect.pauliProduct_ofRegister distinct found, one_smul, Matrix.smul_mulVec, Matrix.add_mulVec,
    Matrix.one_mulVec, Matrix.smul_mulVec]
  rfl

/-- Every measurement has an outcome. -/
def Complete (table : OperationTable) : Prop :=
  ∀ operation ∈ table.operations, operation.kind.isMeasurement = true →
    operation.outcome.isSome = true

instance (table : OperationTable) : Decidable table.Complete :=
  inferInstanceAs (Decidable (∀ operation ∈ table.operations, _))

theorem Complete.exists_outcomeAt (complete : table.Complete) {base : Nat} {kind : OperationKind}
    {condition : Option Condition} {rest : List Operation}
    (stands : table.StandsAt base (.pending kind condition :: rest))
    (isMeasurement : kind.isMeasurement = true) :
    ∃ outcome, table.outcomeAt base = some outcome :=
  Option.isSome_iff_exists.mp
    (complete _ (List.mem_of_getElem? stands.head) isMeasurement)

end Stretches

/-! ## Gadgets -/

section Gadgets

variable {recorded : OperationTable} {base : Nat} {symbols : PauliString} {targets : Targets}
  (earlier : ReadsEarlier recorded.operations) (distinct : recorded.qubits.Nodup)
  (found : TableDraft.targets recorded.qubits symbols = .ok targets)

include earlier distinct found

/-- A measurement projects the register to the eigenspace of its outcome. -/
theorem actsAs_measurement {kind : OperationKind} {negative : Bool}
    (stands : recorded.StandsAt base [.pending kind none])
    (projects : ∀ outcome : Outcome, kind.effect recorded.qubits outcome =
      Operator.eigenprojector (Effect.pauliProduct targets) (outcome.unsigned negative).sign) :
    recorded.ActsAs base 1
      (BlockKind.action ((recorded.outcomeAt base).getD .plus)
        (symbols.operator recorded.qubits.length) (.measurement negative)) := by
  rw [BlockKind.action, ← Outcome.sign_unsigned]
  apply ActsAs.of_eigenprojector distinct found
  rw [effect, effect, mul_one, Nat.add_zero, effectAt_pending earlier stands, projects]
  rfl

theorem actsAs_half {angle : Angle} (size : angle.isHalf = .ok true)
    (stands : recorded.StandsAt base (Gadget.half targets none)) :
    recorded.ActsAs base targets.length
      ((symbols.operator recorded.qubits.length).rotation angle.value) := by
  -- Half turns forwards and backwards differ by a sign only.
  have amount : 1 / 2 = angle.value ∨ 1 / 2 = angle.value + 1 := by
    rw [Angle.value_of_hasMagnitude size, Angle.value_half]
    split <;> norm_num
  have turns : Turns (Effect.pauliProduct targets) angle.value (fun _ => True)
      (recorded.effect base targets.length) := by
    rw [effect_half earlier stands]
    exact (Turns.axis_self _ _).of_eq_or amount
  exact ActsAs.of_turns distinct found turns fun _ => trivial

theorem actsAs_quarter {angle : Angle} (size : angle.isQuarter = .ok true) {ancilla : PatchId}
    (fresh : ancilla ∉ recorded.qubits) (complete : recorded.Complete)
    (stands : recorded.StandsAt base
      (Gadget.quarter base ancilla targets angle.isNegative none)) :
    recorded.ActsAs base (3 + targets.length)
      ((symbols.operator recorded.qubits.length).rotation angle.value) := by
  rcases complete.exists_outcomeAt stands.tail rfl with ⟨merge, mergeOutcome⟩
  rcases complete.exists_outcomeAt stands.tail.tail rfl with ⟨measured, ancillaOutcome⟩
  have outside : ancilla ∉ targets.map Prod.fst := fun member =>
    fresh (TableDraft.mem_qubits_of_mem_targets found member)
  have turns := turns_quarter earlier stands rfl (TableDraft.targets_nodup found distinct) outside
    fresh mergeOutcome ancillaOutcome
  rw [← Angle.value_of_isQuarter size] at turns
  exact ActsAs.of_turns distinct found turns (Amplitudes.idle_ofRegister fresh)

/-- What takes the place of a block without an eighth rotation acts as the block. -/
theorem actsAs_of_replaces {supply : IdSupply} {used added : Nat} {kind : BlockKind}
    {operations : List Operation}
    (replaces : Gadget.Replaces supply base used targets kind operations added)
    (coarse : ∀ angle, kind = .rotation angle → targets ≠ [] → |angle.value| ≠ 1 / 8)
    (fresh : supply used ∉ recorded.qubits) (complete : recorded.Complete)
    (stands : recorded.StandsAt base operations) :
    recorded.ActsAs base operations.length
      (kind.action ((recorded.outcomeAt base).getD .plus)
        (symbols.operator recorded.qubits.length)) := by
  cases replaces with
  | @single patch basis negative only =>
      subst only
      have inside : patch ∈ recorded.qubits :=
        TableDraft.mem_qubits_of_mem_targets found List.mem_cons_self
      refine actsAs_measurement earlier distinct found stands fun outcome => ?_
      rw [OperationKind.effect, if_pos inside, Effect.pauliProduct, Effect.pauliProduct, one_mul]
  | joint several => exact actsAs_measurement earlier distinct found stands fun outcome => rfl
  | @identity angle empty =>
      subst empty
      exact ActsAs.of_turns distinct found (Turns.about_one angle.value fun _ => True) fun _ =>
        trivial
  | half acts size =>
      rw [Gadget.half, List.length_map]
      exact actsAs_half earlier distinct found size stands
  | quarter acts size =>
      rw [Gadget.length_quarter]
      exact actsAs_quarter earlier distinct found size fresh complete stands
  | @eighth angle acts size =>
      have eighth := (Angle.hasMagnitude_eq_ok_true (by norm_num)).mp size
      exact absurd (eighth.2.trans Angle.value_eighth) (coarse angle rfl acts)

end Gadgets

/-! ## Circuits -/

section Circuits

variable {supply : IdSupply} {circuit : Circuit} {table recorded : OperationTable}

theorem gadgetStart_zero (made : ofCircuit supply circuit = .ok table) :
    gadgetStart supply circuit 0 = 0 := by
  have reserved := (ofCircuit_eq_ok.mp made).1
  have empty : ofCircuit supply (firstBlocks circuit 0) = .ok ⟨registerOf supply circuit, []⟩ :=
    ofCircuit_eq_ok.mpr ⟨reserved, emptyDraft circuit, rfl, rfl⟩
  rw [gadgetStart, empty]
  rfl

theorem gadgetStart_length (made : ofCircuit supply circuit = .ok table) :
    gadgetStart supply circuit circuit.blocks.length = table.size := by
  rw [gadgetStart, firstBlocks, List.take_length, made]
  rfl

/-- The places in the table where the measurements of a circuit stand, in their order. -/
def readouts (supply : IdSupply) (circuit : Circuit) : List Nat :=
  (circuit.blocks.zipIdx.filter fun entry => entry.1.isMeasurement).map fun entry =>
    gadgetStart supply circuit entry.2

/-- The outcomes that the table reports for the measurements of a circuit. -/
def reported (supply : IdSupply) (circuit : Circuit) (recorded : OperationTable) :
    Block.Outcomes := fun index =>
  ((readouts supply circuit)[index]?.bind recorded.outcomeAt).getD .plus

private theorem getElem?_filter {α : Type} {test : α → Bool} {values : List α} {position : Nat}
    {value : α} (located : values[position]? = some value) (passes : test value = true) :
    (values.filter test)[(values.take position).countP test]? = some value := by
  rcases List.getElem?_eq_some_iff.mp located with ⟨inside, rfl⟩
  have split : values.filter test = (values.take position).filter test ++
      values[position] :: (values.drop (position + 1)).filter test := by
    rw [← List.filter_cons_of_pos passes, ← List.filter_append,
      ← List.drop_eq_getElem_cons inside, List.take_append_drop]
  rw [split, List.countP_eq_length_filter, List.getElem?_append_right (Nat.le_refl _),
    Nat.sub_self, List.getElem?_cons_zero]

theorem getElem?_readouts {position : Nat} {block : Block}
    (located : circuit.blocks[position]? = some block) (measures : block.isMeasurement = true) :
    (readouts supply circuit)[Block.measurementCount (circuit.blocks.take position)]? =
      some (gadgetStart supply circuit position) := by
  let test : Block × Nat → Bool := fun entry => entry.1.isMeasurement
  have indexed : circuit.blocks.zipIdx[position]? = some (block, position) := by
    rw [List.getElem?_zipIdx, located, Option.map_some, Nat.zero_add]
  have kept : (circuit.blocks.zipIdx.filter test)[(circuit.blocks.zipIdx.take position).countP
      test]? = some (block, position) := getElem?_filter indexed measures
  have count : (circuit.blocks.zipIdx.take position).countP test =
      Block.measurementCount (circuit.blocks.take position) := by
    rw [Block.measurementCount, ← List.zipIdx_map_fst 0 circuit.blocks, ← List.map_take,
      List.countP_map, List.zipIdx_map_fst]
    rfl
  rw [readouts, List.getElem?_map, ← count, kept, Option.map_some]

/-- A block acts with the outcome at the place of its gadget. -/
theorem operator_reported {position : Nat} {block : Block}
    (located : circuit.blocks[position]? = some block) (width : Nat) :
    block.operator width (reported supply circuit recorded
        (Block.measurementCount (circuit.blocks.take position))) =
      block.operator width
        ((recorded.outcomeAt (gadgetStart supply circuit position)).getD .plus) := by
  rcases block with ⟨symbols, kind⟩
  cases kind with
  | rotation angle => rfl
  | measurement negative =>
      rw [reported, getElem?_readouts located rfl, Option.bind_some]

variable (fresh : Function.Injective supply) (clifford : circuit.Clifford)
  (made : ofCircuit supply circuit = .ok table) (run : Recorded table recorded)
  (complete : recorded.Complete)

include fresh clifford made run complete

/-- The gadget of a block acts as the block. -/
theorem actsAs_gadget {position : Nat} {block : Block}
    (located : circuit.blocks[position]? = some block) :
    ∃ count, gadgetStart supply circuit (position + 1) =
        gadgetStart supply circuit position + count ∧
      recorded.ActsAs (gadgetStart supply circuit position) count
        (block.operator recorded.qubits.length
          ((recorded.outcomeAt (gadgetStart supply circuit position)).getD .plus)) := by
  rcases exists_gadgetAt made located with ⟨gadget⟩
  have register : recorded.qubits = registerOf supply circuit :=
    run.qubits_eq.trans (qubits_of_ofCircuit made)
  have found := gadget.found
  rw [← run.qubits_eq] at found
  refine ⟨gadget.operations.length, by rw [gadget.start, gadget.stop], ?_⟩
  rw [gadget.start]
  refine actsAs_of_replaces (run.readsEarlier (readsEarlier_of_ofCircuit made))
    (register ▸ nodup_registerOf fresh circuit) found gadget.replaces ?_
    (register ▸ not_mem_registerOf fresh gadget.qubits_le_used) complete
    (run.standsAt gadget.inside)
  intro angle kind acts eighth
  have nontrivial : block.isIdentity = false := by
    rw [← Bool.not_eq_true]
    exact fun identity => acts ((TableDraft.targets_eq_nil_iff found).mpr identity)
  rcases clifford.turns block (List.mem_of_getElem? located) angle kind nontrivial with
    size | size <;> norm_num [eighth] at size

/-- The gadgets of the first blocks act as these blocks, one after the other. -/
theorem actsAs_firstBlocks {count : Nat} (inside : count ≤ circuit.blocks.length) :
    recorded.ActsAs 0 (gadgetStart supply circuit count)
      (Block.evolution recorded.qubits.length (circuit.blocks.take count)
        (reported supply circuit recorded)) := by
  induction count with
  | zero =>
      rw [gadgetStart_zero made]
      exact .zero
  | succ count induction =>
      have before := induction (Nat.le_of_succ_le inside)
      have located := List.getElem?_eq_getElem inside
      rcases actsAs_gadget fresh clifford made run complete located with ⟨length, stop, acts⟩
      rw [stop, ← List.take_append_getElem inside, Block.evolution_append,
        Block.evolution_singleton, Block.Outcomes.after, Nat.add_zero, operator_reported located]
      apply before.append
      rwa [Nat.zero_add]

end Circuits

end OperationTable

/-- The angles of a Clifford circuit are basic once their denominators are positive. -/
theorem Circuit.Clifford.ready {circuit : Circuit} (clifford : circuit.Clifford)
    (oriented : ∀ block ∈ circuit.blocks, ∀ angle, block.kind = .rotation angle →
      block.isIdentity = false → 0 < angle.denom) :
    ∀ block ∈ circuit.blocks, block.Ready := by
  intro block member
  refine ⟨clifford.withoutY block member, clifford.measures block member, ?_⟩
  intro angle kind acts
  have positive := oriented block member angle kind acts
  rcases clifford.turns block member angle kind acts with size | size
  · exact Angle.isBasic_eq_ok_true.mpr
      ⟨Angle.regular_of_abs_lt positive (by norm_num [size]), .inl size⟩
  · exact Angle.isBasic_eq_ok_true.mpr
      ⟨Angle.regular_of_abs_lt positive (by norm_num [size]), .inr (.inl size)⟩

namespace OperationTable

/-- A Clifford circuit has a table, unless its register is too large to be stored or an angle
has a negative denominator. Whatever the outcomes of all measurements of the table are, the
operations that run act on the logical qubits as the blocks of the circuit do, one after the
other and up to a scalar. -/
theorem actsAs_evolution {supply : IdSupply} {circuit : Circuit}
    (fresh : Function.Injective supply) (clifford : circuit.Clifford) :
    (Storage.reserve circuit.qubits Storage.identifierSize = .ok () →
      (∀ block ∈ circuit.blocks, ∀ angle, block.kind = .rotation angle →
        block.isIdentity = false → 0 < angle.denom) →
      ∃ table, ofCircuit supply circuit = .ok table) ∧
    ∀ table recorded, ofCircuit supply circuit = .ok table → Recorded table recorded →
      recorded.Complete →
      recorded.qubits.length = circuit.qubits ∧
      recorded.ActsAs 0 recorded.size
        (Block.evolution recorded.qubits.length circuit.blocks
          (reported supply circuit recorded)) := by
  constructor
  · intro reserved oriented
    rcases CircuitStats.exists_ofCircuit_iff.mpr (clifford.ready oriented) with ⟨stats, counted⟩
    rcases exists_ofCircuit_of_reserve supply clifford.uniform reserved counted with
      ⟨table, made, _⟩
    exact ⟨table, made⟩
  · intro table recorded made run complete
    have acts := actsAs_firstBlocks fresh clifford made run complete (Nat.le_refl _)
    rw [gadgetStart_length made, List.take_length, ← run.size_eq] at acts
    refine ⟨?_, acts⟩
    rw [run.qubits_eq, qubits_of_ofCircuit made, length_registerOf]

/-- Rotations in both directions between measurements of a negative product and of one qubit. -/
def mixedClifford : Circuit :=
  ⟨2, [.rotation [.X, .Z] .quarter, .rotation [.I, .I] .eighth, .measurement [.Z, .Z] true,
    .rotation [.Z, .I] .half, .rotation [.X, .I] .negQuarter, .measurement [.X, .I] false]⟩

theorem actsAs_evolution_mixedClifford :
    ∃ table recorded, ofCircuit PatchId.mk mixedClifford = .ok table ∧
      table.recordAll [(1, .minus), (2, .plus), (5, .minus), (8, .minus), (9, .minus),
        (11, .plus)] = .ok recorded ∧
      reported PatchId.mk mixedClifford recorded 0 = .minus ∧
      reported PatchId.mk mixedClifford recorded 1 = .plus ∧
      recorded.ActsAs 0 12
        (Block.evolution recorded.qubits.length mixedClifford.blocks
          (reported PatchId.mk mixedClifford recorded)) := by
  have clifford : mixedClifford.Clifford := by
    refine ⟨by decide, by decide, by decide, fun block member angle kind acts => ?_⟩
    simp only [mixedClifford, List.mem_cons, List.not_mem_nil, or_false] at member
    rcases member with rfl | rfl | rfl | rfl | rfl | rfl <;> cases kind
    · exact .inr (by norm_num)
    · cases acts
    · exact .inl (by norm_num)
    · exact .inr (by norm_num)
  let table : OperationTable := (ofCircuit PatchId.mk mixedClifford).toOption.getD ⟨[], []⟩
  let outcomes : List (Nat × Outcome) :=
    [(1, .minus), (2, .plus), (5, .minus), (8, .minus), (9, .minus), (11, .plus)]
  let recorded := (table.recordAll outcomes).toOption.getD table
  have made : ofCircuit PatchId.mk mixedClifford = .ok table := by decide
  have ran : table.recordAll outcomes = .ok recorded := by decide
  have acted := ((actsAs_evolution (fun _ _ same => PatchId.mk.inj same) clifford).2 table recorded
    made (recorded_of_recordAll ran) (by decide)).2
  exact ⟨table, recorded, made, ran, by decide, by decide, acted⟩

end OperationTable

end LatticeSurgery
