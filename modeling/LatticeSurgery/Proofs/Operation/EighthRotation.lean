import LatticeSurgery.Proofs.Angle.Value
import LatticeSurgery.Proofs.Operation.Gadget
import LatticeSurgery.Proofs.Operation.Register

namespace LatticeSurgery

open Matrix

/-! # Eighth rotations

The gadget of an eighth rotation is compared with the rotation that it stands for. The
first correction always turns forwards by a quarter, although a backward rotation
whose merge gives plus would have to be corrected backwards. -/

namespace PauliString

variable {width : Nat} {symbols : PauliString} {qubit : Fin width}

private theorem operator_apply_update (symbols : PauliString) (qubit : Fin width) (bit : Bool) :
    symbols.operator width (Function.update (fun _ => false) qubit bit)
        (Function.update (fun _ => false) qubit bit) =
      (symbols.symbolAt qubit).matrix bit bit *
        ∏ other ∈ Finset.univ.erase qubit, (symbols.symbolAt other).matrix false false := by
  rw [operator, Operator.tensor_apply, ← Finset.mul_prod_erase _ _ (Finset.mem_univ qubit),
    Function.update_self]
  congr 1
  refine Finset.prod_congr rfl fun other member => ?_
  rw [Function.update_of_ne (Finset.ne_of_mem_erase member)]

/-- A string that acts on a qubit is more than a phase. -/
theorem operator_ne_smul_one (acts : symbols.symbolAt qubit ≠ .I) (scalar : ℂ) :
    symbols.operator width ≠ scalar • 1 := by
  intro same
  -- The two diagonal entries that differ in the qubit only are opposite.
  have entry (bit : Bool) := operator_apply_update symbols qubit bit
  simp only [same, Matrix.smul_apply, Matrix.one_apply_eq, smul_eq_mul, mul_one] at entry
  have traceless : (symbols.symbolAt qubit).matrix true true =
      -(symbols.symbolAt qubit).matrix false false := by
    cases symbol : symbols.symbolAt qubit with
    | I => exact absurd symbol acts
    | X | Y | Z => simp [Pauli.matrix]
  have opposite : scalar = -scalar := by
    nth_rewrite 1 [entry true]
    rw [traceless, neg_mul, ← entry false]
  have square : symbols.operator width * symbols.operator width = 1 := symbols.operator_mul_self
  rw [same, self_eq_neg.mp opposite, zero_smul, zero_mul] at square
  exact zero_ne_one square

/-- The product in front of a rotation makes a difference. -/
theorem operator_mul_rotation_ne (acts : symbols.symbolAt qubit ≠ .I) (amount : ℚ) (scalar : ℂ) :
    symbols.operator width * (symbols.operator width).rotation amount ≠
      scalar • (symbols.operator width).rotation amount := by
  intro same
  have undone := congrArg (· * (symbols.operator width).rotation (-amount)) same
  simp only [smul_mul_assoc, mul_assoc, Operator.rotation_mul_neg, mul_one] at undone
  exact operator_ne_smul_one acts scalar undone

end PauliString

/-- A rotation by an eighth is replaced by the gadget of eighth rotations. -/
private theorem Gadget.Replaces.eq_eighth {supply : IdSupply} {base used added : Nat}
    {targets : Targets} {angle : Angle} {operations : List Operation}
    (replaces : Gadget.Replaces supply base used targets (.rotation angle) operations added)
    (acts : targets ≠ []) (size : |angle.value| = 1 / 8) :
    operations =
        Gadget.eighth base (supply used) (supply (used + 1)) targets angle.isNegative none ∧
      angle.value = if angle.isNegative then -(1 / 8) else 1 / 8 := by
  have magnitude {magnitude : Angle} (tested : angle.hasMagnitude magnitude = .ok true) :
      |magnitude.value| = 1 / 8 := by
    rw [Angle.value_of_hasMagnitude tested] at size
    split at size
    · rwa [abs_neg] at size
    · exact size
  cases replaces with
  | identity empty => exact absurd empty acts
  | half _ tested =>
      have impossible := magnitude tested
      norm_num at impossible
  | quarter _ tested =>
      have impossible := magnitude tested
      norm_num at impossible
  | eighth _ tested =>
      refine ⟨rfl, ?_⟩
      rw [Angle.value_of_hasMagnitude tested, Angle.value_eighth]

/-! ## Effects on the register -/

namespace OperationTable

variable {table : OperationTable}

/-- A stretch of operations acts on the logical qubits as an operator, up to a scalar. -/
def ActsAs (table : OperationTable) (first count : Nat) (operator : Operator table.qubits.length) :
    Prop :=
  ∃ scalar : ℂ, scalar ≠ 0 ∧ ∀ vector,
    table.effect first count (.ofRegister table.qubits vector) =
      .ofRegister table.qubits (scalar • (operator *ᵥ vector))

theorem ActsAs.exists_smul_eq {first count : Nat} {left right : Operator table.qubits.length}
    (distinct : table.qubits.Nodup) (leftActs : table.ActsAs first count left)
    (rightActs : table.ActsAs first count right) : ∃ scalar : ℂ, left = scalar • right := by
  rcases leftActs with ⟨leftScalar, leftNonzero, leftEffect⟩
  rcases rightActs with ⟨rightScalar, _, rightEffect⟩
  refine ⟨leftScalar⁻¹ * rightScalar, ?_⟩
  apply Matrix.ext_of_mulVec_single
  intro bits
  have same := Amplitudes.ofRegister_injective distinct
    ((leftEffect (Pi.single bits 1)).symm.trans (rightEffect (Pi.single bits 1)))
  rw [← smul_smul, Matrix.smul_mulVec, Matrix.smul_mulVec, ← same, smul_smul,
    inv_mul_cancel₀ leftNonzero, one_smul]

/-- Turning the targets of a block rotates the register about the string of the block. -/
theorem ActsAs.of_turns (distinct : table.qubits.Nodup) {symbols : PauliString} {targets : Targets}
    (found : TableDraft.targets table.qubits symbols = .ok targets) {amount : ℚ}
    {given : Amplitudes → Prop} {first count : Nat}
    (turns : Turns (Effect.pauliProduct targets) amount given (table.effect first count))
    (holds : ∀ vector, given (.ofRegister table.qubits vector)) :
    table.ActsAs first count ((symbols.operator table.qubits.length).rotation amount) := by
  rcases turns with ⟨scalar, nonzero, turned⟩
  refine ⟨scalar, nonzero, fun vector => ?_⟩
  rw [turned _ (holds vector), Effect.turn_apply, Effect.pauliProduct_ofRegister distinct found,
    Operator.rotation_eq symbols.operator_mul_self, Matrix.sub_mulVec, Matrix.smul_mulVec,
    Matrix.smul_mulVec, Matrix.one_mulVec]
  rfl

/-! ## Recorded gadgets -/

/-- Every measurement of a stretch that runs has an outcome. -/
def Observed (table : OperationTable) (first last : Nat) : Prop :=
  ∀ index, first ≤ index → index < last → MeasuredAt table.operations index →
    table.runs index = .ok true → (table.outcomeAt index).isSome = true

theorem Observed.isSome {first last index : Nat} (observed : table.Observed first last)
    (earlier : ReadsEarlier table.operations) {kind : OperationKind}
    {condition : Option Condition} {rest : List Operation}
    (stands : table.StandsAt index (.pending kind condition :: rest))
    (after : first ≤ index) (before : index < last) (isMeasurement : kind.isMeasurement = true)
    (meets : table.meets condition = true) : (table.outcomeAt index).isSome = true := by
  have inside : index < table.size := (List.getElem?_eq_some_iff.mp stands.head).1
  apply observed index after before ⟨_, stands.head, isMeasurement⟩
  rw [runs_eq_active earlier inside, active_pending earlier stands, meets]

/-- The amount by which the recorded gadget of an eighth rotation turns the register. -/
private theorem actsAs_eighth {recorded : OperationTable}
    {base : Nat} {magic ancilla : PatchId} {symbols : PauliString} {targets : Targets}
    {negative : Bool} (earlier : ReadsEarlier recorded.operations)
    (distinct : recorded.qubits.Nodup)
    (found : TableDraft.targets recorded.qubits symbols = .ok targets)
    (different : ancilla ≠ magic)
    (magicFresh : magic ∉ recorded.qubits) (ancillaFresh : ancilla ∉ recorded.qubits)
    (stands : recorded.StandsAt base (Gadget.eighth base magic ancilla targets negative none))
    (observed : recorded.Observed base
      (base + (Gadget.eighth base magic ancilla targets negative none).length)) :
    ∃ merge, recorded.outcomeAt (base + 1) = some merge ∧
      recorded.ActsAs base (Gadget.eighth base magic ancilla targets negative none).length
        ((symbols.operator recorded.qubits.length).rotation (eighthAmount negative merge)) := by
  rw [Gadget.length_eighth] at observed ⊢
  have mergeStands := stands.left.left.tail
  have magicStands := stands.measureMagic
  have mergeKnown := observed.isSome earlier mergeStands (by omega) (by omega) rfl rfl
  have magicKnown := observed.isSome earlier magicStands (by omega) (by omega) rfl rfl
  rcases Option.isSome_iff_exists.mp mergeKnown with ⟨merge, mergeOutcome⟩
  rcases Option.isSome_iff_exists.mp magicKnown with ⟨measured, magicOutcome⟩
  have nestedStands : recorded.StandsAt (base + 2) _ := stands.left.right
  have known : (decide (merge = .minus) != negative) = true →
      (recorded.outcomeAt (base + 2 + 1)).isSome = true ∧
        (recorded.outcomeAt (base + 2 + 2)).isSome = true := by
    intro corrected
    have meets : recorded.meets (some (.eighthFirstCorrection (base + 1) negative)) = true := by
      simpa [meets, Condition.reads, Condition.holds, active_pending earlier mergeStands,
        mergeOutcome] using corrected
    exact ⟨observed.isSome earlier nestedStands.tail (by omega) (by omega) rfl meets,
      observed.isSome earlier nestedStands.tail.tail (by omega) (by omega) rfl meets⟩
  have outside {patch : PatchId} (fresh : patch ∉ recorded.qubits) :
      patch ∉ targets.map Prod.fst := fun member =>
    fresh (TableDraft.mem_qubits_of_mem_targets found member)
  refine ⟨merge, mergeOutcome, ActsAs.of_turns distinct found
    (turns_eighth earlier stands (TableDraft.targets_nodup found distinct) (outside magicFresh)
      (outside ancillaFresh) different magicFresh ancillaFresh mergeOutcome magicOutcome known) ?_⟩
  exact fun vector => ⟨Amplitudes.idle_ofRegister magicFresh vector,
    Amplitudes.idle_ofRegister ancillaFresh vector⟩

theorem ActsAs.of_smul {first count : Nat} {scalar : ℂ} {operator : Operator table.qubits.length}
    (acts : table.ActsAs first count (scalar • operator)) (nonzero : scalar ≠ 0) :
    table.ActsAs first count operator := by
  rcases acts with ⟨factor, factorNonzero, effect⟩
  refine ⟨factor * scalar, mul_ne_zero factorNonzero nonzero, fun vector => ?_⟩
  rw [effect, Matrix.smul_mulVec, smul_smul]

private theorem exists_actsAs {supply : IdSupply} {circuit : Circuit}
    {table recorded : OperationTable} {position : Nat} {symbols : PauliString} {angle : Angle}
    (fresh : Function.Injective supply) (made : ofCircuit supply circuit = .ok table)
    (located : circuit.blocks[position]? = some ⟨symbols, .rotation angle⟩)
    (acts : symbols.isIdentity = false) (size : |angle.value| = 1 / 8)
    (run : Recorded table recorded)
    (observed : recorded.Observed (gadgetStart supply circuit position)
      (gadgetStart supply circuit (position + 1))) :
    ∃ merge, recorded.outcomeAt (gadgetStart supply circuit position + 1) = some merge ∧
      recorded.qubits.Nodup ∧
      (∃ qubit : Fin recorded.qubits.length, symbols.symbolAt qubit ≠ .I) ∧
      angle.value = (if angle.isNegative then -(1 / 8) else 1 / 8) ∧
      recorded.ActsAs (gadgetStart supply circuit position)
        (gadgetStart supply circuit (position + 1) - gadgetStart supply circuit position)
        ((symbols.operator recorded.qubits.length).rotation
          (eighthAmount angle.isNegative merge)) := by
  rcases exists_gadgetAt made located with ⟨gadget⟩
  have register : recorded.qubits = registerOf supply circuit :=
    run.qubits_eq.trans (qubits_of_ofCircuit made)
  have distinct : recorded.qubits.Nodup := register ▸ nodup_registerOf fresh circuit
  have found := gadget.found
  rw [← run.qubits_eq] at found
  have targetsNonempty : gadget.targets ≠ [] := by
    intro empty
    rw [(TableDraft.targets_eq_nil_iff found).mp empty] at acts
    cases acts
  rcases gadget.replaces.eq_eighth targetsNonempty size with ⟨operations, value⟩
  have stands := run.standsAt gadget.inside
  rw [gadget.start, gadget.stop, operations] at observed
  rw [operations] at stands
  rw [gadget.start, gadget.stop, Nat.add_sub_cancel_left, operations]
  have magicFresh : supply gadget.draft.used ∉ recorded.qubits :=
    register ▸ not_mem_registerOf fresh gadget.qubits_le_used
  have ancillaFresh : supply (gadget.draft.used + 1) ∉ recorded.qubits :=
    register ▸ not_mem_registerOf fresh (Nat.le_succ_of_le gadget.qubits_le_used)
  have different : supply (gadget.draft.used + 1) ≠ supply gadget.draft.used := fun same =>
    Nat.succ_ne_self _ (fresh same)
  rcases actsAs_eighth (run.readsEarlier (readsEarlier_of_ofCircuit made)) distinct found different
    magicFresh ancillaFresh stands observed with ⟨merge, mergeOutcome, acted⟩
  exact ⟨merge, mergeOutcome, distinct, TableDraft.exists_symbolAt_ne found targetsNonempty, value,
    acted⟩

section Recorded

variable {supply : IdSupply} {circuit : Circuit} {recorded : OperationTable} {position : Nat}
  {symbols : PauliString} {angle : Angle} (fresh : Function.Injective supply)
  (made : ofCircuit supply circuit = .ok table)
  (located : circuit.blocks[position]? = some ⟨symbols, .rotation angle⟩)
  (acts : symbols.isIdentity = false) (size : |angle.value| = 1 / 8) (run : Recorded table recorded)
  (observed : recorded.Observed (gadgetStart supply circuit position)
    (gadgetStart supply circuit (position + 1)))
include fresh made located acts size run observed

/-- A merge that gives minus, or any merge of a forward rotation, is corrected well. -/
theorem actsAs_of_directed
    (directed : ¬(angle.value < 0 ∧
      recorded.outcomeAt (gadgetStart supply circuit position + 1) = some .plus)) :
    recorded.ActsAs (gadgetStart supply circuit position)
      (gadgetStart supply circuit (position + 1) - gadgetStart supply circuit position)
      ((symbols.operator recorded.qubits.length).rotation angle.value) := by
  rcases exists_actsAs fresh made located acts size run observed with
    ⟨merge, outcome, _, _, value, acted⟩
  have amount : eighthAmount angle.isNegative merge = angle.value := by
    rw [value]
    cases sign : angle.isNegative with
    | false => exact eighthAmount_forward merge
    | true =>
        have backwards : angle.value < 0 := by
          rw [value, sign]
          norm_num
        have minus : merge ≠ .plus := fun plus => directed ⟨backwards, plus ▸ outcome⟩
        rw [eighthAmount_backward, if_neg minus, zero_add, if_pos rfl]
  rwa [amount] at acted

/-- A backward rotation whose merge gives plus leaves the product of its targets behind. -/
theorem actsAs_of_misdirected (backwards : angle.value < 0)
    (plus : recorded.outcomeAt (gadgetStart supply circuit position + 1) = some .plus) :
    recorded.ActsAs (gadgetStart supply circuit position)
        (gadgetStart supply circuit (position + 1) - gadgetStart supply circuit position)
        (symbols.operator recorded.qubits.length *
          (symbols.operator recorded.qubits.length).rotation angle.value) ∧
      ¬recorded.ActsAs (gadgetStart supply circuit position)
        (gadgetStart supply circuit (position + 1) - gadgetStart supply circuit position)
        ((symbols.operator recorded.qubits.length).rotation angle.value) := by
  rcases exists_actsAs fresh made located acts size run observed with
    ⟨merge, outcome, distinct, ⟨qubit, acting⟩, value, acted⟩
  have sign : angle.isNegative = true := by
    by_contra forwards
    rw [value, if_neg forwards] at backwards
    norm_num at backwards
  rw [sign, if_pos rfl] at value
  rw [outcome, Option.some.injEq] at plus
  rw [sign, eighthAmount_backward, if_pos plus, ← value, Operator.rotation_add,
    Operator.rotation_half symbols.operator_mul_self, smul_mul_assoc] at acted
  have left := acted.of_smul (neg_ne_zero.mpr Complex.I_ne_zero)
  refine ⟨left, fun rotated => ?_⟩
  rcases left.exists_smul_eq distinct rotated with ⟨scalar, same⟩
  exact PauliString.operator_mul_rotation_ne acting angle.value scalar same

end Recorded

/-- The gadget of an eighth rotation acts as the rotation, unless the rotation turns
backwards and its merge gives plus. Then the register is left with the product of the
targets besides. -/
theorem actsAs_eighthRotation {supply : IdSupply} {circuit : Circuit}
    {table recorded : OperationTable} {position : Nat} {symbols : PauliString} {angle : Angle}
    (fresh : Function.Injective supply) (made : ofCircuit supply circuit = .ok table)
    (located : circuit.blocks[position]? = some ⟨symbols, .rotation angle⟩)
    (acts : symbols.isIdentity = false) (size : |angle.value| = 1 / 8)
    (run : Recorded table recorded)
    (observed : recorded.Observed (gadgetStart supply circuit position)
      (gadgetStart supply circuit (position + 1))) :
    let first := gadgetStart supply circuit position
    let count := gadgetStart supply circuit (position + 1) - first
    let product := symbols.operator recorded.qubits.length
    let misdirected := angle.value < 0 ∧ recorded.outcomeAt (first + 1) = some .plus
    (¬misdirected → recorded.ActsAs first count (product.rotation angle.value)) ∧
      (misdirected →
        recorded.ActsAs first count (product * product.rotation angle.value) ∧
        ¬recorded.ActsAs first count (product.rotation angle.value)) :=
  ⟨actsAs_of_directed fresh made located acts size run observed, fun misdirected =>
    actsAs_of_misdirected fresh made located acts size run observed misdirected.1 misdirected.2⟩

theorem Observed.of_all
    (known : ∀ operation ∈ table.operations, operation.kind.isMeasurement = true →
      operation.outcome.isSome = true) (first last : Nat) : table.Observed first last := by
  intro index _ _ measured _
  rcases measured with ⟨operation, found, isMeasurement⟩
  rw [outcomeAt, found]
  exact known operation (List.mem_of_getElem? found) isMeasurement

/-- A rotation about XZ by an eighth whose merge gives minus is corrected twice. -/
theorem actsAs_eighthRotation_corrected :
    let circuit : Circuit := ⟨2, [.rotation [.X, .Z] .eighth]⟩
    ∃ table recorded, ofCircuit PatchId.mk circuit = .ok table ∧
      table.recordAll [(1, .minus), (3, .plus), (4, .minus), (7, .minus)] = .ok recorded ∧
      recorded.ActsAs 0 10
        ((PauliString.operator recorded.qubits.length [.X, .Z]).rotation (1 / 8)) := by
  intro circuit
  let table : OperationTable := ⟨[⟨0⟩, ⟨1⟩],
    Gadget.eighth 0 ⟨2⟩ ⟨3⟩ [(⟨0⟩, .X), (⟨1⟩, .Z)] false none⟩
  let outcomes : List (Nat × Outcome) := [(1, .minus), (3, .plus), (4, .minus), (7, .minus)]
  let recorded := (table.recordAll outcomes).toOption.getD table
  have made : ofCircuit PatchId.mk circuit = .ok table := by decide
  have ran : table.recordAll outcomes = .ok recorded := by decide
  have start : gadgetStart PatchId.mk circuit 0 = 0 := by decide
  have stop : gadgetStart PatchId.mk circuit 1 = 10 := by decide
  have located : circuit.blocks[0]? = some ⟨[.X, .Z], .rotation .eighth⟩ := rfl
  have acted := (actsAs_eighthRotation (fun _ _ same => PatchId.mk.inj same) made located
    (by decide) (by norm_num) (recorded_of_recordAll ran) (.of_all (by decide) _ _)).1 (by norm_num)
  rw [start, stop, Angle.value_eighth] at acted
  exact ⟨table, recorded, made, ran, acted⟩

/-- A rotation about Z by minus an eighth whose merge gives plus goes wrong. -/
theorem not_actsAs_backwardEighth :
    let angle : Angle := ⟨-1, 8, by decide, by decide, by decide⟩
    let circuit : Circuit := ⟨1, [.rotation [.Z] angle]⟩
    ∃ table recorded, ofCircuit PatchId.mk circuit = .ok table ∧
      table.recordAll [(1, .plus), (3, .plus), (4, .plus), (6, .plus)] = .ok recorded ∧
      recorded.Observed 0 8 ∧
      ¬recorded.ActsAs 0 8
        ((PauliString.operator recorded.qubits.length [.Z]).rotation angle.value) := by
  intro angle circuit
  let table : OperationTable := ⟨[⟨0⟩], Gadget.eighth 0 ⟨1⟩ ⟨2⟩ [(⟨0⟩, .Z)] true none⟩
  let outcomes : List (Nat × Outcome) := [(1, .plus), (3, .plus), (4, .plus), (6, .plus)]
  let recorded := (table.recordAll outcomes).toOption.getD table
  have made : ofCircuit PatchId.mk circuit = .ok table := by decide
  have ran : table.recordAll outcomes = .ok recorded := by decide
  have start : gadgetStart PatchId.mk circuit 0 = 0 := by decide
  have stop : gadgetStart PatchId.mk circuit 1 = 8 := by decide
  have located : circuit.blocks[0]? = some ⟨[.Z], .rotation angle⟩ := rfl
  have value : angle.value = -(1 / 8) := by norm_num [Angle.value_eq_div, angle]
  have observed (first last : Nat) : recorded.Observed first last := .of_all (by decide) first last
  have misdirected := (actsAs_of_misdirected (fun _ _ same => PatchId.mk.inj same) made located
    (by decide) (by norm_num [value]) (recorded_of_recordAll ran) (observed _ _)
    (by norm_num [value]) (by rw [start]; decide)).2
  rw [start, stop] at misdirected
  exact ⟨table, recorded, made, ran, observed 0 8, misdirected⟩

end OperationTable

end LatticeSurgery
