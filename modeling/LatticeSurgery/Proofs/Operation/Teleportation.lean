import LatticeSurgery.Proofs.Operation.Effect

namespace LatticeSurgery

open Matrix

/-! # Rotation by measurement

Targets that are merged with a fresh patch and then left alone have been turned about
their product. The amount depends on the state of the patch and on the outcomes of
the merge and of the measurement of the patch. Amounts are read up to half turns of
the whole, since amplitudes are read up to a scalar. -/

namespace Effect

/-- A rotation about a product of Pauli operators. -/
noncomputable def turn (axis : Effect) (amount : ℚ) : Effect :=
  Complex.cos (amount * Real.pi) • 1 - (Complex.I * Complex.sin (amount * Real.pi)) • axis

theorem turn_apply (axis : Effect) (amount : ℚ) (amplitudes : Amplitudes) :
    turn axis amount amplitudes = Complex.cos (amount * Real.pi) • amplitudes -
      (Complex.I * Complex.sin (amount * Real.pi)) • axis amplitudes := rfl

@[simp] theorem turn_zero (axis : Effect) : turn axis 0 = 1 := by
  simp [turn]

theorem turn_half (axis : Effect) : turn axis (1 / 2) = -Complex.I • axis := by
  have angle : ((1 / 2 : ℚ) : ℂ) * Real.pi = Real.pi / 2 := by
    push_cast
    ring
  rw [turn, angle, Complex.cos_pi_div_two, Complex.sin_pi_div_two]
  module

theorem turn_add_one (axis : Effect) (amount : ℚ) : turn axis (amount + 1) = -turn axis amount := by
  have angle : ((amount + 1 : ℚ) : ℂ) * Real.pi = amount * Real.pi + Real.pi := by
    push_cast
    ring
  rw [turn, turn, angle, Complex.cos_add_pi, Complex.sin_add_pi]
  module

variable {axis : Effect}

theorem turn_mul (involution : axis * axis = 1) (first second : ℚ) :
    turn axis second * turn axis first = turn axis (first + second) := by
  have angle : ((first + second : ℚ) : ℂ) * Real.pi = first * Real.pi + second * Real.pi := by
    push_cast
    ring
  rw [turn, turn, turn, angle, Complex.cos_add, Complex.sin_add]
  simp only [sub_mul, mul_sub, smul_mul_smul_comm, one_mul, mul_one, involution]
  rw [mul_mul_mul_comm Complex.I, Complex.I_mul_I]
  module

end Effect

/-- The effect turns the given amplitudes about the axis, all by the same scalar besides. -/
def Turns (axis : Effect) (amount : ℚ) (given : Amplitudes → Prop) (effect : Effect) : Prop :=
  ∃ scalar : ℂ, scalar ≠ 0 ∧
    ∀ amplitudes, given amplitudes → effect amplitudes = scalar • axis.turn amount amplitudes

namespace Turns

variable {axis effect : Effect} {amount : ℚ} {given : Amplitudes → Prop}

theorem one (axis : Effect) (given : Amplitudes → Prop) : Turns axis 0 given 1 :=
  ⟨1, one_ne_zero, fun amplitudes _ => by rw [Effect.turn_zero, one_smul]⟩

/-- Applying the axis itself is a turn by a half. -/
theorem axis_self (axis : Effect) (given : Amplitudes → Prop) : Turns axis (1 / 2) given axis := by
  refine ⟨Complex.I, Complex.I_ne_zero, fun amplitudes _ => ?_⟩
  rw [Effect.turn_half, LinearMap.smul_apply, smul_smul, mul_neg, Complex.I_mul_I, neg_neg,
    one_smul]

theorem mono (turns : Turns axis amount given effect) {fewer : Amplitudes → Prop}
    (fewerGiven : ∀ amplitudes, fewer amplitudes → given amplitudes) :
    Turns axis amount fewer effect := by
  rcases turns with ⟨scalar, nonzero, turned⟩
  exact ⟨scalar, nonzero, fun amplitudes holds => turned amplitudes (fewerGiven amplitudes holds)⟩

theorem smul (turns : Turns axis amount given effect) {scalar : ℂ} (nonzero : scalar ≠ 0) :
    Turns axis amount given (scalar • effect) := by
  rcases turns with ⟨factor, factorNonzero, turned⟩
  refine ⟨scalar * factor, mul_ne_zero nonzero factorNonzero, fun amplitudes holds => ?_⟩
  rw [LinearMap.smul_apply, turned amplitudes holds, smul_smul]

/-- Turns about one axis add up. -/
theorem mul (involution : axis * axis = 1) (turns : Turns axis amount given effect)
    {more : ℚ} {later : Effect} (laterTurns : Turns axis more (fun _ => True) later) :
    Turns axis (amount + more) given (later * effect) := by
  rcases turns with ⟨first, firstNonzero, turned⟩
  rcases laterTurns with ⟨second, secondNonzero, laterTurned⟩
  refine ⟨second * first, mul_ne_zero secondNonzero firstNonzero, fun amplitudes holds => ?_⟩
  rw [Module.End.mul_apply, laterTurned _ trivial, turned amplitudes holds, map_smul, smul_smul,
    ← Effect.turn_mul involution, Module.End.mul_apply]

theorem of_eq_or {wanted : ℚ} (turns : Turns axis amount given effect)
    (same : amount = wanted ∨ amount = wanted + 1) : Turns axis wanted given effect := by
  rcases same with rfl | rfl
  · exact turns
  · rcases turns with ⟨scalar, nonzero, turned⟩
    refine ⟨-scalar, neg_ne_zero.mpr nonzero, fun amplitudes holds => ?_⟩
    rw [turned amplitudes holds, Effect.turn_add_one, LinearMap.neg_apply, smul_neg, neg_smul]

/-- A correction applies the axis or does nothing. -/
theorem correct (involution : axis * axis = 1) (turns : Turns axis amount given effect)
    (corrected : Bool) :
    Turns axis (amount + if corrected then 1 / 2 else 0) given
      ((if corrected then axis else 1) * effect) := by
  cases corrected with
  | false => exact turns.mul involution (.one axis _)
  | true => exact turns.mul involution (.axis_self axis _)

end Turns

/-! ## Turning by a patch -/

section Targets

variable {targets : Targets} {patch : PatchId} {amount : ℚ} {before : Amplitudes}

theorem Effect.turn_commute (outside : patch ∉ targets.map Prod.fst) (amount : ℚ)
    (action : Matrix Bool Bool ℂ) :
    Commute ((pauliProduct targets).turn amount) (onPatch patch action) :=
  ((Commute.one_left _).smul_left _).sub_left
    ((pauliProduct_commute outside action).smul_left _)

/-- An effect that turns the targets can be inserted before a patch is left alone. -/
theorem Turns.insert (distinct : (targets.map Prod.fst).Nodup)
    (outside : patch ∉ targets.map Prod.fst) {action : Matrix Bool Bool ℂ} {first inner : Effect}
    {given between : Amplitudes → Prop}
    (turns : Turns (Effect.pauliProduct targets) amount given (Effect.onPatch patch action * first))
    {more : ℚ} (innerTurns : Turns (Effect.pauliProduct targets) more between inner)
    (leadsTo : ∀ amplitudes, given amplitudes → between (first amplitudes)) :
    Turns (Effect.pauliProduct targets) (amount + more) given
      (Effect.onPatch patch action * (inner * first)) := by
  have involution := Effect.pauliProduct_mul_self distinct
  have exchange := Effect.turn_commute outside more action
  rcases turns with ⟨outer, outerNonzero, turned⟩
  rcases innerTurns with ⟨scalar, nonzero, innerTurned⟩
  refine ⟨scalar * outer, mul_ne_zero nonzero outerNonzero, fun amplitudes holds => ?_⟩
  rw [Module.End.mul_apply, Module.End.mul_apply, innerTurned _ (leadsTo amplitudes holds),
    map_smul, ← Module.End.mul_apply, ← exchange.eq, Module.End.mul_apply]
  have after := turned amplitudes holds
  rw [Module.End.mul_apply] at after
  rw [after, map_smul, smul_smul, ← Module.End.mul_apply, Effect.turn_mul involution]

theorem Amplitudes.Idle.eigenprojector (outside : patch ∉ targets.map Prod.fst)
    (unused : before.Idle patch) (sign : ℂ) :
    Idle patch (Operator.eigenprojector (Effect.pauliProduct targets) sign before) := by
  rw [Operator.eigenprojector, LinearMap.smul_apply, LinearMap.add_apply, LinearMap.smul_apply]
  exact (unused.add ((unused.pauliProduct outside).smul sign)).smul _

/-- Preparing a patch and measuring it out again leaves an overlap. -/
theorem Amplitudes.Idle.measure_prepare (unused : before.Idle patch) (bra ket : Bool → ℂ) :
    Effect.onPatch patch (of fun _ bit => bra bit)
        (Effect.onPatch patch (diagonal ket) before) =
      (∑ bit, bra bit * ket bit) • before := by
  rw [← Module.End.mul_apply, Effect.onPatch_mul]
  funext bits
  rw [Effect.onPatch_apply, Pi.smul_apply, smul_eq_mul, Finset.sum_mul]
  refine Finset.sum_congr rfl fun bit _ => ?_
  rw [Matrix.mul_diagonal, unused bits bit]
  rfl

/-- The projector of a merge with a patch. -/
theorem merge_apply (targets : Targets) (patch : PatchId) (sign : ℂ) (amplitudes : Amplitudes) :
    Operator.eigenprojector (Effect.pauliProduct (targets ++ [(patch, .Z)])) sign amplitudes =
      (1 / 2 : ℂ) • (amplitudes + sign • Effect.onPatch patch Pauli.Z.matrix
        (Effect.pauliProduct targets amplitudes)) := by
  rw [Effect.pauliProduct_append]
  simp [Operator.eigenprojector, Effect.pauliProduct]

theorem Amplitudes.Idle.merge (outside : patch ∉ targets.map Prod.fst) (unused : before.Idle patch)
    (sign : ℂ) (bra ket : Bool → ℂ) :
    Effect.onPatch patch (of fun _ bit => bra bit)
        (Operator.eigenprojector (Effect.pauliProduct (targets ++ [(patch, .Z)])) sign
          (Effect.onPatch patch (diagonal ket) before)) =
      (1 / 2 : ℂ) • ((bra false * ket false + bra true * ket true) • before +
        (sign * (bra false * ket false - bra true * ket true)) •
          Effect.pauliProduct targets before) := by
  have exchange := DFunLike.congr_fun
    (Effect.pauliProduct_commute outside (diagonal ket)).eq before
  rw [Module.End.mul_apply, Module.End.mul_apply] at exchange
  have flipped : Pauli.Z.matrix * diagonal ket =
      diagonal fun bit => if bit then -ket true else ket false := by
    ext row col
    cases row <;> cases col <;> simp [Pauli.matrix]
  have merged := (unused.pauliProduct outside).measure_prepare bra
    fun bit => if bit then -ket true else ket false
  rw [← flipped, ← Effect.onPatch_mul, Module.End.mul_apply] at merged
  rw [merge_apply, map_smul, map_add, map_smul, exchange, unused.measure_prepare, merged,
    Fintype.sum_bool, Fintype.sum_bool]
  simp only [if_true, Bool.false_eq_true, if_false]
  module

/-- The state is a superposition whose second part is ahead by twice the amount. -/
structure SymbolicState.Carries (state : SymbolicState) (amount : ℚ) : Prop where
  zero : state.amplitude false = (√2 : ℝ)⁻¹
  one : state.amplitude true = (√2 : ℝ)⁻¹ * Complex.exp (amount * Real.pi * Complex.I) ^ 2

theorem SymbolicState.yPlus_carries : yPlus.Carries (1 / 4) := by
  refine ⟨by simp [amplitude], ?_⟩
  rw [exp_quarter_sq]
  simp [amplitude]

theorem SymbolicState.magic_carries : magic.Carries (1 / 8) := by
  refine ⟨by simp [amplitude], ?_⟩
  rw [exp_eighth_sq]
  simp [amplitude]

private theorem star_eigenstate_false (found : Outcome) :
    star ((Pauli.X.eigenstate found).amplitude false) = ((√2 : ℝ) : ℂ)⁻¹ := by
  cases found <;> simp [Pauli.eigenstate, SymbolicState.amplitude]

private theorem star_eigenstate_true (found : Outcome) :
    star ((Pauli.X.eigenstate found).amplitude true) = found.sign * ((√2 : ℝ) : ℂ)⁻¹ := by
  cases found <;> simp [Pauli.eigenstate, SymbolicState.amplitude]

/-- The part of the state along the even superposition. -/
private theorem SymbolicState.Carries.sum {state : SymbolicState} (carries : state.Carries amount) :
    ((√2 : ℝ) : ℂ)⁻¹ * state.amplitude false + ((√2 : ℝ) : ℂ)⁻¹ * state.amplitude true =
      Complex.exp (amount * Real.pi * Complex.I) * Complex.cos (amount * Real.pi) := by
  have unit := Complex.cos_sq_add_sin_sq (amount * Real.pi)
  rw [carries.zero, carries.one, ← mul_assoc, Complex.ofReal_inv, inv_sqrt_two_mul_self,
    Complex.exp_mul_I]
  linear_combination -(1 / 2 : ℂ) * unit + (1 / 2 : ℂ) * Complex.sin (amount * Real.pi) ^ 2 *
    Complex.I_sq

/-- The part of the state along the odd superposition. -/
private theorem SymbolicState.Carries.difference {state : SymbolicState}
    (carries : state.Carries amount) :
    ((√2 : ℝ) : ℂ)⁻¹ * state.amplitude false - ((√2 : ℝ) : ℂ)⁻¹ * state.amplitude true =
      -(Complex.exp (amount * Real.pi * Complex.I) *
        (Complex.I * Complex.sin (amount * Real.pi))) := by
  have unit := Complex.cos_sq_add_sin_sq (amount * Real.pi)
  rw [carries.zero, carries.one, ← mul_assoc, Complex.ofReal_inv, inv_sqrt_two_mul_self,
    Complex.exp_mul_I]
  linear_combination -(1 / 2 : ℂ) * unit + (1 / 2 : ℂ) * Complex.sin (amount * Real.pi) ^ 2 *
    Complex.I_sq

/-- The amount by which a merge turns when its patch is measured as plus. -/
def signedAmount (amount : ℚ) : Outcome → ℚ
  | .plus => amount
  | .minus => -amount

private theorem turn_signedAmount (axis : Effect) (amount : ℚ) (merge : Outcome)
    (amplitudes : Amplitudes) :
    axis.turn (signedAmount amount merge) amplitudes =
      Complex.cos (amount * Real.pi) • amplitudes -
        (merge.sign * (Complex.I * Complex.sin (amount * Real.pi))) • axis amplitudes := by
  cases merge <;> simp [signedAmount, Effect.turn_apply]

/-- The amount by which a merge turns, before its outcomes are corrected. -/
def mergedAmount (amount : ℚ) (merge : Outcome) : Outcome → ℚ
  | .plus => signedAmount amount merge
  | .minus => signedAmount amount merge + 1 / 2

/-- A patch that is prepared, merged with the targets and measured out turns them. -/
theorem Turns.of_merge (distinct : (targets.map Prod.fst).Nodup)
    (outside : patch ∉ targets.map Prod.fst) {state : SymbolicState}
    (carries : state.Carries amount) (merge found : Outcome) :
    Turns (Effect.pauliProduct targets) (mergedAmount amount merge found) (Amplitudes.Idle patch)
      (Effect.onPatch patch (of fun _ bit => star ((Pauli.X.eigenstate found).amplitude bit)) *
        (Operator.eigenprojector (Effect.pauliProduct (targets ++ [(patch, .Z)])) merge.sign *
          Effect.onPatch patch (diagonal state.amplitude))) := by
  have involution := Effect.pauliProduct_mul_self distinct
  have phase : 1 / 2 * Complex.exp (amount * Real.pi * Complex.I) ≠ 0 :=
    mul_ne_zero (by norm_num) (Complex.exp_ne_zero _)
  have square : merge.sign * merge.sign = 1 := by cases merge <;> simp
  cases found with
  | plus =>
      refine ⟨_, phase, fun before unused => ?_⟩
      rw [Module.End.mul_apply, Module.End.mul_apply, unused.merge outside merge.sign
        (fun bit => star ((Pauli.X.eigenstate .plus).amplitude bit)), star_eigenstate_false,
        star_eigenstate_true, Outcome.sign_plus, one_mul, carries.sum, carries.difference,
        mergedAmount, turn_signedAmount]
      module
  | minus =>
      -- The odd superposition exchanges the two parts, which is one more turn by a half.
      have turns : Turns (Effect.pauliProduct targets) (mergedAmount amount merge .minus)
          (Amplitudes.Idle patch) (Effect.pauliProduct targets *
            (Effect.pauliProduct targets).turn (signedAmount amount merge)) :=
        Turns.mul involution ⟨1, one_ne_zero, fun _ _ => (one_smul _ _).symm⟩ (.axis_self _ _)
      rcases turns.smul (mul_ne_zero (left_ne_zero_of_mul_eq_one square) phase) with
        ⟨scalar, nonzero, turned⟩
      refine ⟨scalar, nonzero, fun before unused => ?_⟩
      rw [← turned before unused, Module.End.mul_apply, Module.End.mul_apply,
        unused.merge outside merge.sign
          (fun bit => star ((Pauli.X.eigenstate .minus).amplitude bit)), star_eigenstate_false,
        star_eigenstate_true, Outcome.sign_minus, neg_one_mul, neg_mul, ← sub_eq_add_neg,
        sub_neg_eq_add, carries.sum, carries.difference, LinearMap.smul_apply, Module.End.mul_apply,
        turn_signedAmount, map_sub, map_smul, map_smul, ← Module.End.mul_apply, involution,
        Module.End.one_apply, smul_sub, smul_smul, smul_smul, mul_mul_mul_comm merge.sign, square,
        one_mul]
      module

end Targets

end LatticeSurgery
