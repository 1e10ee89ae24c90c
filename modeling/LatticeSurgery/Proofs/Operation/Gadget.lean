import LatticeSurgery.Proofs.Operation.Running
import LatticeSurgery.Proofs.Operation.Teleportation

namespace LatticeSurgery

/-! # Effects of gadgets

A gadget stands in a table of recorded outcomes as it was added, with outcomes in
the place of its measurements. Its effect is the product of the effects of the
operations that run. -/

namespace Gadget

theorem effect_mergeWith (targets : Targets) (patch : PatchId) (qubits : List PatchId)
    (merge : Outcome) :
    (mergeWith targets patch).effect qubits merge =
      Operator.eigenprojector (Effect.pauliProduct (targets ++ [(patch, .Z)])) merge.sign := by
  cases merge <;> rfl

theorem effect_measureOut {patch : PatchId} {qubits : List PatchId} (fresh : patch ∉ qubits)
    (found : Outcome) :
    (OperationKind.measureSingle patch .X false).effect qubits found =
      Effect.onPatch patch
        (Matrix.of fun _ bit => star ((Pauli.X.eigenstate found).amplitude bit)) := by
  rw [OperationKind.effect, if_neg fresh]
  cases found <;> rfl

end Gadget

namespace OperationTable

variable {table : OperationTable} {base : Nat}

/-- The operations stand in the table from a position on, whatever their outcomes. -/
def StandsAt (table : OperationTable) (base : Nat) (gadget : List Operation) : Prop :=
  ∀ offset operation, gadget[offset]? = some operation →
    table.operations[base + offset]? =
      some ⟨operation.kind, operation.condition, table.outcomeAt (base + offset)⟩

namespace StandsAt

theorem left {first second : List Operation} (stands : table.StandsAt base (first ++ second)) :
    table.StandsAt base first := by
  intro offset operation found
  apply stands offset operation
  rw [List.getElem?_append_left (List.getElem?_eq_some_iff.mp found).1, found]

theorem right {first second : List Operation} (stands : table.StandsAt base (first ++ second)) :
    table.StandsAt (base + first.length) second := by
  intro offset operation found
  rw [Nat.add_assoc]
  apply stands (first.length + offset) operation
  rw [List.getElem?_append_right (Nat.le_add_right _ _), Nat.add_sub_cancel_left, found]

theorem head {operation : Operation} {rest : List Operation}
    (stands : table.StandsAt base (operation :: rest)) :
    table.operations[base]? =
      some ⟨operation.kind, operation.condition, table.outcomeAt base⟩ :=
  stands 0 operation rfl

theorem tail {operation : Operation} {rest : List Operation}
    (stands : table.StandsAt base (operation :: rest)) : table.StandsAt (base + 1) rest :=
  (show table.StandsAt base ([operation] ++ rest) from stands).right

/-- The magic state is measured behind the first correction. -/
theorem measureMagic {magic ancilla : PatchId} {targets : Targets} {negative : Bool}
    (stands : table.StandsAt base (Gadget.eighth base magic ancilla targets negative none)) :
    table.StandsAt (base + 2 + (3 + targets.length))
      (.pending (.measureSingle magic .X false) none ::
        Gadget.half targets
          (some (.eighthSecondCorrection (base + 2 + (3 + targets.length))))) := by
  have last := stands.right
  rwa [List.length_append, Gadget.length_quarter, ← Nat.add_assoc] at last

end StandsAt

theorem Recorded.standsAt {recorded : OperationTable} (run : Recorded table recorded)
    {before gadget : List Operation} (inside : before ++ gadget <+: table.operations) :
    recorded.StandsAt before.length gadget := by
  intro offset operation found
  apply run.getElem?
  rcases inside with ⟨rest, same⟩
  rw [← same, List.append_assoc, List.getElem?_append_right (Nat.le_add_right _ _),
    Nat.add_sub_cancel_left, List.getElem?_append_left (List.getElem?_eq_some_iff.mp found).1,
    found]

variable (earlier : ReadsEarlier table.operations)
include earlier

theorem effectAt_eq {index : Nat} {operation : Operation}
    (found : table.operations[index]? = some operation) :
    table.effectAt index =
      if table.meets operation.condition then
        operation.kind.effect table.qubits (operation.outcome.getD .plus)
      else 1 := by
  have inside : index < table.size := (List.getElem?_eq_some_iff.mp found).1
  rw [effectAt, found, runs_eq_active earlier inside, active_eq_meets earlier found]
  cases table.meets operation.condition <;> rfl

theorem effectAt_pending {kind : OperationKind} {condition : Option Condition}
    {rest : List Operation} (stands : table.StandsAt base (.pending kind condition :: rest)) :
    table.effectAt base =
      if table.meets condition then
        kind.effect table.qubits ((table.outcomeAt base).getD .plus)
      else 1 :=
  effectAt_eq earlier stands.head

/-- Corrections are made on all targets or on none. -/
theorem effect_half {targets : Targets} {condition : Option Condition}
    (stands : table.StandsAt base (Gadget.half targets condition)) :
    table.effect base targets.length =
      if table.meets condition then Effect.pauliProduct targets else 1 := by
  induction targets generalizing base with
  | nil => simp [effect, Effect.pauliProduct]
  | cons factor rest induction =>
      rw [List.length_cons, Nat.add_comm, effect_add, induction stands.tail, effect, effect,
        mul_one, Nat.add_zero, effectAt_pending earlier stands]
      cases table.meets condition
      · exact mul_one 1
      · rfl

theorem active_pending {kind : OperationKind} {condition : Option Condition}
    {rest : List Operation} (stands : table.StandsAt base (.pending kind condition :: rest)) :
    table.active base = table.meets condition :=
  active_eq_meets earlier stands.head

section Rotations

variable {targets : Targets} {ancilla : PatchId} {negative : Bool} {condition : Option Condition}

omit earlier in
private theorem mergedAmount_quarter (merge found : Outcome) (negative : Bool) :
    let corrected := mergedAmount (1 / 4) merge found +
      if decide (merge ≠ found) != negative then 1 / 2 else 0
    corrected = (if negative then -(1 / 4) else 1 / 4) ∨
      corrected = (if negative then -(1 / 4) else 1 / 4) + 1 := by
  cases merge <;> cases found <;> cases negative <;> simp [mergedAmount, signedAmount] <;> norm_num

omit earlier in
private theorem mergedAmount_eighth (merge found : Outcome) :
    let corrected := mergedAmount (1 / 8) merge found +
      if decide (found = .minus) then 1 / 2 else 0
    corrected = signedAmount (1 / 8) merge ∨ corrected = signedAmount (1 / 8) merge + 1 := by
  cases merge <;> cases found <;> simp [mergedAmount, signedAmount] <;> norm_num

private theorem meets_quarterCorrection
    (stands : table.StandsAt base (Gadget.quarter base ancilla targets negative condition)) :
    table.meets (some (.quarterCorrection (base + 1) (base + 2) negative)) =
      (table.meets condition &&
        Condition.holds table.outcomeAt (.quarterCorrection (base + 1) (base + 2) negative)) := by
  have merge := active_pending earlier stands.tail
  have measured := active_pending earlier stands.tail.tail
  rw [meets, Option.all_some, Condition.reads]
  simp only [List.all_cons, List.all_nil, Bool.and_true, merge, measured, Bool.and_self]

private theorem effect_quarter
    (stands : table.StandsAt base (Gadget.quarter base ancilla targets negative condition)) :
    table.effect base (3 + targets.length) =
      (if table.meets (some (.quarterCorrection (base + 1) (base + 2) negative)) then
        Effect.pauliProduct targets else 1) *
      if table.meets condition then
        (OperationKind.measureSingle ancilla .X false).effect table.qubits
            ((table.outcomeAt (base + 2)).getD .plus) *
          ((Gadget.mergeWith targets ancilla).effect table.qubits
            ((table.outcomeAt (base + 1)).getD .plus) *
          (OperationKind.prepare ancilla .yPlus).effect table.qubits
            ((table.outcomeAt base).getD .plus))
      else 1 := by
  have corrections : table.effect (base + 3) targets.length = _ := effect_half earlier stands.right
  rw [effect_add, corrections]
  simp only [effect, Nat.add_zero, mul_one, effectAt_pending earlier stands,
    effectAt_pending earlier stands.tail, effectAt_pending earlier stands.tail.tail]
  cases table.meets condition <;> simp

/-- A quarter rotation that does not run has no effect. -/
theorem effect_quarter_of_skipped
    (stands : table.StandsAt base (Gadget.quarter base ancilla targets negative condition))
    (skipped : table.meets condition = false) :
    table.effect base (3 + targets.length) = 1 := by
  rw [effect_quarter earlier stands, meets_quarterCorrection earlier stands, skipped]
  exact one_mul 1

/-- A quarter rotation that runs turns its targets by a quarter. -/
theorem turns_quarter
    (stands : table.StandsAt base (Gadget.quarter base ancilla targets negative condition))
    (runs : table.meets condition = true) (distinct : (targets.map Prod.fst).Nodup)
    (outside : ancilla ∉ targets.map Prod.fst) (fresh : ancilla ∉ table.qubits)
    {merge found : Outcome} (mergeOutcome : table.outcomeAt (base + 1) = some merge)
    (ancillaOutcome : table.outcomeAt (base + 2) = some found) :
    Turns (Effect.pauliProduct targets) (if negative then -(1 / 4) else 1 / 4)
      (Amplitudes.Idle ancilla) (table.effect base (3 + targets.length)) := by
  have turns := Turns.of_merge distinct outside SymbolicState.yPlus_carries merge found
  have corrected := turns.correct (Effect.pauliProduct_mul_self distinct)
    (decide (merge ≠ found) != negative)
  rw [effect_quarter earlier stands, meets_quarterCorrection earlier stands, runs, if_pos rfl,
    Condition.holds, mergeOutcome, ancillaOutcome, Option.getD_some, Option.getD_some,
    Gadget.effect_measureOut fresh, Gadget.effect_mergeWith]
  exact corrected.of_eq_or (mergedAmount_quarter merge found negative)

variable {magic : PatchId}

/-- The amount by which an eighth rotation turns its targets. -/
def eighthAmount (negative : Bool) (merge : Outcome) : ℚ :=
  signedAmount (1 / 8) merge + if decide (merge = .minus) != negative then 1 / 4 else 0

omit earlier in
theorem eighthAmount_forward (merge : Outcome) : eighthAmount false merge = 1 / 8 := by
  cases merge <;> simp [eighthAmount, signedAmount]
  norm_num

omit earlier in
theorem eighthAmount_backward (merge : Outcome) :
    eighthAmount true merge = (if merge = .plus then 1 / 2 else 0) + -(1 / 8) := by
  cases merge <;> simp [eighthAmount, signedAmount]
  norm_num

private theorem meets_eighthSecondCorrection {rest : List Operation} {kind : OperationKind}
    (stands : table.StandsAt base (.pending kind none :: rest)) {found : Outcome}
    (outcome : table.outcomeAt base = some found) :
    table.meets (some (.eighthSecondCorrection base)) = decide (found = .minus) := by
  have measured := active_pending earlier stands
  simp [meets, Condition.reads, Condition.holds, measured, outcome]

/-- The first correction of an eighth rotation. -/
private theorem turns_firstCorrection {first : Nat} {merge : Outcome}
    (stands : table.StandsAt base (Gadget.quarter base ancilla targets false
      (some (.eighthFirstCorrection first negative))))
    (active : table.active first = true) (mergeOutcome : table.outcomeAt first = some merge)
    (distinct : (targets.map Prod.fst).Nodup) (outside : ancilla ∉ targets.map Prod.fst)
    (fresh : ancilla ∉ table.qubits)
    (known : (decide (merge = .minus) != negative) = true →
      (table.outcomeAt (base + 1)).isSome = true ∧ (table.outcomeAt (base + 2)).isSome = true) :
    Turns (Effect.pauliProduct targets)
      (if decide (merge = .minus) != negative then 1 / 4 else 0) (Amplitudes.Idle ancilla)
      (table.effect base (3 + targets.length)) := by
  have meets : table.meets (some (.eighthFirstCorrection first negative)) =
      (decide (merge = .minus) != negative) := by
    simp [meets, Condition.reads, Condition.holds, active, mergeOutcome]
  cases corrected : decide (merge = .minus) != negative with
  | false =>
      rw [effect_quarter_of_skipped earlier stands (meets.trans corrected)]
      exact .one _ _
  | true =>
      rcases known corrected with ⟨mergeKnown, ancillaKnown⟩
      rcases Option.isSome_iff_exists.mp mergeKnown with ⟨_, nestedMerge⟩
      rcases Option.isSome_iff_exists.mp ancillaKnown with ⟨_, nestedFound⟩
      have turns := turns_quarter earlier stands (meets.trans corrected) distinct outside fresh
        nestedMerge nestedFound
      rw [if_neg Bool.false_ne_true] at turns
      rwa [if_pos rfl]

/-- An eighth rotation turns its targets by the amount that its merge decides. -/
theorem turns_eighth
    (stands : table.StandsAt base (Gadget.eighth base magic ancilla targets negative none))
    (distinct : (targets.map Prod.fst).Nodup)
    (magicOutside : magic ∉ targets.map Prod.fst) (ancillaOutside : ancilla ∉ targets.map Prod.fst)
    (different : ancilla ≠ magic)
    (magicFresh : magic ∉ table.qubits) (ancillaFresh : ancilla ∉ table.qubits)
    {merge found : Outcome} (mergeOutcome : table.outcomeAt (base + 1) = some merge)
    (magicOutcome : table.outcomeAt (base + 2 + (3 + targets.length)) = some found)
    (known : (decide (merge = .minus) != negative) = true →
      (table.outcomeAt (base + 2 + 1)).isSome = true ∧
        (table.outcomeAt (base + 2 + 2)).isSome = true) :
    Turns (Effect.pauliProduct targets) (eighthAmount negative merge)
      (fun amplitudes => amplitudes.Idle magic ∧ amplitudes.Idle ancilla)
      (table.effect base (2 + (3 + targets.length + (1 + targets.length)))) := by
  have nestedStands : table.StandsAt (base + 2) _ := stands.left.right
  have lastStands := stands.measureMagic
  have merged : table.effect base 2 =
      Operator.eigenprojector (Effect.pauliProduct (targets ++ [(magic, .Z)])) merge.sign *
        Effect.onPatch magic (Matrix.diagonal SymbolicState.magic.amplitude) := by
    simp only [effect, mul_one, Nat.add_zero, effectAt_pending earlier stands.left.left,
      effectAt_pending earlier stands.left.left.tail, mergeOutcome, Option.getD_some,
      Gadget.effect_mergeWith]
    rfl
  have last : table.effect (base + 2 + (3 + targets.length)) (1 + targets.length) =
      (if decide (found = .minus) then Effect.pauliProduct targets else 1) *
        Effect.onPatch magic
          (Matrix.of fun _ bit => star ((Pauli.X.eigenstate found).amplitude bit)) := by
    rw [effect_add, effect_half earlier lastStands.tail,
      meets_eighthSecondCorrection earlier lastStands magicOutcome, effect, effect, mul_one,
      Nat.add_zero, effectAt_pending earlier lastStands, magicOutcome, Option.getD_some,
      Gadget.effect_measureOut magicFresh]
    rfl
  have nested := turns_firstCorrection earlier nestedStands
    (active_pending earlier stands.left.left.tail) mergeOutcome distinct ancillaOutside ancillaFresh
    known
  have measured := Turns.of_merge distinct magicOutside SymbolicState.magic_carries merge found
  have measured := measured.mono
    (fun amplitudes (holds : amplitudes.Idle magic ∧ amplitudes.Idle ancilla) => holds.1)
  have turns := measured.insert distinct magicOutside nested (fun amplitudes holds =>
    (holds.2.onPatch different _).eigenprojector (by simp [ancillaOutside, different]) _)
  have corrected := turns.correct (Effect.pauliProduct_mul_self distinct) (decide (found = .minus))
  rw [effect_add, effect_add, last, merged, mul_assoc, mul_assoc]
  apply corrected.of_eq_or
  rcases mergedAmount_eighth merge found with same | same
  · exact .inl (by rw [eighthAmount, add_right_comm, same])
  · exact .inr (by rw [eighthAmount, add_right_comm, same, add_right_comm])

end Rotations

end OperationTable

end LatticeSurgery
