import LatticeSurgery.Operation.Gadget
import LatticeSurgery.Proofs.Operator.Evolution

namespace LatticeSurgery

open Matrix

/-! # Effects of operations

The state of all patches gives an amplitude to every assignment of bits to them. A
patch that is not in use makes no difference to the amplitudes. Preparing it brings
in the amplitudes of its state, and measuring it out takes the component along the
eigenstate of the outcome and leaves the patch out of use again. -/

abbrev Amplitudes := (PatchId → Bool) → ℂ

abbrev Effect := Module.End ℂ Amplitudes

namespace Effect

/-- A matrix that acts on one patch. -/
noncomputable def onPatch (patch : PatchId) (action : Matrix Bool Bool ℂ) : Effect where
  toFun amplitudes bits :=
    ∑ bit, action (bits patch) bit * amplitudes (Function.update bits patch bit)
  map_add' left right := by
    funext bits
    simp only [Pi.add_apply, mul_add, Finset.sum_add_distrib]
  map_smul' scalar amplitudes := by
    funext bits
    simp only [Pi.smul_apply, smul_eq_mul, RingHom.id_apply, Finset.mul_sum]
    exact Finset.sum_congr rfl fun bit _ => mul_left_comm _ _ _

theorem onPatch_apply (patch : PatchId) (action : Matrix Bool Bool ℂ) (amplitudes : Amplitudes)
    (bits : PatchId → Bool) :
    onPatch patch action amplitudes bits =
      ∑ bit, action (bits patch) bit * amplitudes (Function.update bits patch bit) := rfl

@[simp] theorem onPatch_one (patch : PatchId) : onPatch patch 1 = 1 := by
  ext amplitudes bits
  rw [onPatch_apply, Finset.sum_eq_single (bits patch)]
  · rw [Matrix.one_apply_eq, one_mul, Function.update_eq_self]
    rfl
  · intro bit _ different
    rw [Matrix.one_apply_ne different.symm, zero_mul]
  · intro missing
    exact absurd (Finset.mem_univ _) missing

theorem onPatch_mul (patch : PatchId) (left right : Matrix Bool Bool ℂ) :
    onPatch patch left * onPatch patch right = onPatch patch (left * right) := by
  ext amplitudes bits
  simp only [Module.End.mul_apply, onPatch_apply, Function.update_self, Function.update_idem,
    Matrix.mul_apply, Finset.mul_sum, Finset.sum_mul]
  rw [Finset.sum_comm]
  simp only [mul_assoc]

theorem onPatch_commute {first second : PatchId} (different : first ≠ second)
    (left right : Matrix Bool Bool ℂ) : Commute (onPatch first left) (onPatch second right) := by
  ext amplitudes bits
  simp only [Module.End.mul_apply, onPatch_apply, Finset.mul_sum,
    Function.update_of_ne different, Function.update_of_ne different.symm]
  rw [Finset.sum_comm]
  refine Finset.sum_congr rfl fun second _ => Finset.sum_congr rfl fun first _ => ?_
  rw [Function.update_comm different, mul_left_comm]

/-- The product of Pauli operators on patches, the first factor first. -/
noncomputable def pauliProduct : Targets → Effect
  | [] => 1
  | (patch, symbol) :: rest => pauliProduct rest * onPatch patch symbol.matrix

theorem pauliProduct_append (first second : Targets) :
    pauliProduct (first ++ second) = pauliProduct second * pauliProduct first := by
  induction first with
  | nil => simp [pauliProduct]
  | cons factor rest induction => simp [pauliProduct, induction, mul_assoc]

theorem pauliProduct_commute {targets : Targets} {patch : PatchId}
    (outside : patch ∉ targets.map Prod.fst) (action : Matrix Bool Bool ℂ) :
    Commute (pauliProduct targets) (onPatch patch action) := by
  induction targets with
  | nil => exact Commute.one_left _
  | cons factor rest induction =>
      rw [List.map_cons, List.mem_cons, not_or] at outside
      exact (induction outside.2).mul_left (onPatch_commute (Ne.symm outside.1) _ _)

theorem pauliProduct_mul_self {targets : Targets} (distinct : (targets.map Prod.fst).Nodup) :
    pauliProduct targets * pauliProduct targets = 1 := by
  induction targets with
  | nil => exact one_mul 1
  | cons factor rest induction =>
      rw [List.map_cons, List.nodup_cons] at distinct
      have exchange := (pauliProduct_commute distinct.1 factor.2.matrix).eq
      rw [pauliProduct, mul_assoc, ← mul_assoc (onPatch _ _), ← exchange, mul_assoc, onPatch_mul,
        Pauli.matrix_mul_self, onPatch_one, mul_one, induction distinct.2]

end Effect

/-! ## Patches out of use -/

namespace Amplitudes

/-- The patch makes no difference. -/
def Idle (patch : PatchId) (amplitudes : Amplitudes) : Prop :=
  ∀ bits bit, amplitudes (Function.update bits patch bit) = amplitudes bits

namespace Idle

variable {patch : PatchId} {amplitudes : Amplitudes}

theorem smul (idle : Idle patch amplitudes) (scalar : ℂ) : Idle patch (scalar • amplitudes) := by
  intro bits bit
  rw [Pi.smul_apply, Pi.smul_apply, idle]

theorem add {other : Amplitudes} (idle : Idle patch amplitudes) (otherIdle : Idle patch other) :
    Idle patch (amplitudes + other) := by
  intro bits bit
  rw [Pi.add_apply, Pi.add_apply, idle, otherIdle]

theorem onPatch (idle : Idle patch amplitudes) {other : PatchId} (different : patch ≠ other)
    (action : Matrix Bool Bool ℂ) : Idle patch (Effect.onPatch other action amplitudes) := by
  intro bits bit
  simp only [Effect.onPatch_apply, Function.update_of_ne different.symm]
  refine Finset.sum_congr rfl fun value _ => ?_
  rw [Function.update_comm different, idle]

theorem pauliProduct (idle : Idle patch amplitudes) {targets : Targets}
    (outside : patch ∉ targets.map Prod.fst) :
    Idle patch (Effect.pauliProduct targets amplitudes) := by
  induction targets generalizing amplitudes with
  | nil => exact idle
  | cons factor rest induction =>
      rw [List.map_cons, List.mem_cons, not_or] at outside
      exact induction (idle.onPatch outside.1 _) outside.2

end Idle

end Amplitudes

/-! ## Operations -/

def Pauli.eigenstate : Pauli → Outcome → SymbolicState
  | .I, _ => .unknown
  | .X, .plus => .plus
  | .X, .minus => .minus
  | .Y, .plus => .yPlus
  | .Y, .minus => .yMinus
  | .Z, .plus => .zero
  | .Z, .minus => .one

/-- The outcome for a product, given the outcome for the product or its negative. -/
def Outcome.unsigned (negative : Bool) : Outcome → Outcome
  | .plus => if negative then .minus else .plus
  | .minus => if negative then .plus else .minus

namespace OperationKind

/-- What an operation does to the amplitudes. Logical qubits stay in use when they
are measured, and all other patches are measured out. -/
noncomputable def effect (qubits : List PatchId) (outcome : Outcome) : OperationKind → Effect
  | .measureSingle patch basis negative =>
      if patch ∈ qubits then
        Operator.eigenprojector (Effect.onPatch patch basis.matrix) (outcome.unsigned negative).sign
      else
        Effect.onPatch patch (Matrix.of fun _ bit =>
          star ((basis.eigenstate (outcome.unsigned negative)).amplitude bit))
  | .measureJoint patches negative =>
      Operator.eigenprojector (Effect.pauliProduct patches) (outcome.unsigned negative).sign
  | .pauli patch operator => Effect.onPatch patch operator.matrix
  | .prepare patch state => Effect.onPatch patch (Matrix.diagonal state.amplitude)
  | .requestMagic patch => Effect.onPatch patch (Matrix.diagonal SymbolicState.magic.amplitude)

end OperationKind

namespace OperationTable

/-- Operations that do not run have no effect. -/
noncomputable def effectAt (table : OperationTable) (index : Nat) : Effect :=
  match table.operations[index]?, table.runs index with
  | some operation, .ok true => operation.kind.effect table.qubits (operation.outcome.getD .plus)
  | _, _ => 1

/-- The effect of a stretch of operations, in the order of the table. -/
noncomputable def effect (table : OperationTable) (first : Nat) : (count : Nat) → Effect
  | 0 => 1
  | count + 1 => table.effectAt (first + count) * table.effect first count

theorem effect_add (table : OperationTable) (first before after : Nat) :
    table.effect first (before + after) =
      table.effect (first + before) after * table.effect first before := by
  induction after with
  | zero => simp [effect]
  | succ after induction =>
      rw [← Nat.add_assoc, effect, effect, induction, mul_assoc, Nat.add_assoc]

end OperationTable

end LatticeSurgery
