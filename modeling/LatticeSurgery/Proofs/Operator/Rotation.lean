import LatticeSurgery.Approximation
import LatticeSurgery.Patch.State
import LatticeSurgery.Proofs.Operator.Pauli
import Mathlib.Analysis.CStarAlgebra.Classes
import Mathlib.Analysis.Normed.Algebra.MatrixExponential
import Mathlib.Analysis.SpecialFunctions.Exponential
import Mathlib.Analysis.SpecialFunctions.Trigonometric.Basic
import Mathlib.LinearAlgebra.UnitaryGroup
import Mathlib.Tactic.Module

namespace LatticeSurgery

open Matrix
open scoped Nat

/-! # Rotations

A rotation is the exponential of its axis. An axis that is its own inverse has the
eigenvalues `1` and `-1` only, so the exponential series can be summed on each of
the two eigenspaces alone. -/

namespace Operator

variable {width : Nat} {axis : Operator width}

/-- The rotation `exp(-i · amount · π · axis)`. -/
noncomputable def rotation (axis : Operator width) (amount : ℚ) : Operator width :=
  NormedSpace.exp (-(Complex.I * (amount * Real.pi)) • axis)

/-- The projector to the eigenspace of an axis for the eigenvalue `sign`. -/
noncomputable def eigenprojector {A : Type} [Ring A] [Algebra ℂ A] (axis : A) (sign : ℂ) : A :=
  (1 / 2 : ℂ) • (1 + sign • axis)

private theorem mul_eigenprojector (involution : axis * axis = 1) {sign : ℂ}
    (unit : sign * sign = 1) :
    axis * eigenprojector axis sign = sign • eigenprojector axis sign := by
  have product : axis * (1 + sign • axis) = sign • (1 + sign • axis) := by
    rw [mul_add, mul_one, mul_smul_comm, involution, smul_add, smul_smul, unit, one_smul,
      add_comm]
  rw [eigenprojector, mul_smul_comm, product, smul_comm]

private theorem eigenprojector_add (axis : Operator width) :
    eigenprojector axis 1 + eigenprojector axis (-1) = 1 := by
  simp only [eigenprojector]
  module

private theorem smul_pow_eq (involution : axis * axis = 1) (scalar : ℂ) (exponent : ℕ) :
    (scalar • axis) ^ exponent =
      scalar ^ exponent • eigenprojector axis 1 +
        (-scalar) ^ exponent • eigenprojector axis (-1) := by
  induction exponent with
  | zero => simp [eigenprojector_add]
  | succ exponent induction =>
      rw [pow_succ', induction, mul_add, mul_smul_comm, mul_smul_comm, smul_mul_assoc,
        smul_mul_assoc, mul_eigenprojector involution (by norm_num),
        mul_eigenprojector involution (by norm_num)]
      simp only [smul_smul]
      congr 2 <;> ring

private theorem exp_smul_eq (involution : axis * axis = 1) (scalar : ℂ) :
    NormedSpace.exp (scalar • axis) =
      Complex.exp scalar • eigenprojector axis 1 +
        Complex.exp (-scalar) • eigenprojector axis (-1) := by
  have scalarSeries (value : ℂ) :
      HasSum (fun order : ℕ => (order ! : ℂ)⁻¹ • value ^ order) (Complex.exp value) := by
    rw [Complex.exp_eq_exp_ℂ]
    exact NormedSpace.exp_series_hasSum_exp' value
  have series := ((scalarSeries scalar).smul_const (eigenprojector axis 1)).add
    ((scalarSeries (-scalar)).smul_const (eigenprojector axis (-1)))
  rw [NormedSpace.exp_eq_tsum ℂ, ← series.tsum_eq]
  refine tsum_congr fun order => ?_
  rw [smul_pow_eq involution, smul_add, smul_smul, smul_smul]
  simp only [smul_eq_mul]

theorem rotation_eq (involution : axis * axis = 1) (amount : ℚ) :
    axis.rotation amount =
      Complex.cos (amount * Real.pi) • 1 -
        (Complex.I * Complex.sin (amount * Real.pi)) • axis := by
  have plusValue := Complex.cos_sub_sin_I (amount * Real.pi)
  have minusValue := Complex.cos_add_sin_I (amount * Real.pi)
  rw [rotation, exp_smul_eq involution, neg_neg, mul_comm Complex.I, ← neg_mul, ← plusValue,
    ← minusValue, eigenprojector, eigenprojector]
  module

/-! ## Amounts -/

theorem rotation_zero (axis : Operator width) : axis.rotation 0 = 1 := by
  simp [rotation]

theorem rotation_add (axis : Operator width) (first second : ℚ) :
    axis.rotation (first + second) = axis.rotation first * axis.rotation second := by
  have commuting : Commute (-(Complex.I * (first * Real.pi)) • axis)
      (-(Complex.I * (second * Real.pi)) • axis) :=
    ((Commute.refl axis).smul_left _).smul_right _
  rw [rotation, rotation, rotation, ← Matrix.exp_add_of_commute _ _ commuting, ← add_smul]
  congr
  push_cast
  ring

theorem rotation_neg_axis (axis : Operator width) (amount : ℚ) :
    (-axis).rotation amount = axis.rotation (-amount) := by
  rw [rotation, rotation]
  congr 1
  push_cast
  module

theorem rotation_mul_neg (axis : Operator width) (amount : ℚ) :
    axis.rotation amount * axis.rotation (-amount) = 1 := by
  rw [← rotation_add, add_neg_cancel, rotation_zero]

theorem rotation_one (involution : axis * axis = 1) : axis.rotation 1 = -1 := by
  simp [rotation_eq involution]

/-- Half turns are global signs. -/
theorem rotation_intCast (involution : axis * axis = 1) (turns : ℤ) :
    ∃ sign ∈ Submonoid.powers (-1 : ℂ), axis.rotation turns = sign • 1 := by
  have forward (other : Operator width) (otherInvolution : other * other = 1) (count : ℕ) :
      other.rotation count = (-1 : ℂ) ^ count • 1 := by
    induction count with
    | zero => simp [rotation_zero]
    | succ count induction =>
        rw [Nat.cast_succ, rotation_add, induction, rotation_one otherInvolution, pow_succ]
        simp
  rcases Int.eq_nat_or_neg turns with ⟨count, equal | equal⟩
  · refine ⟨(-1) ^ count, ⟨count, rfl⟩, ?_⟩
    rw [equal, Int.cast_natCast, forward axis involution]
  · refine ⟨(-1) ^ count, ⟨count, rfl⟩, ?_⟩
    rw [equal, Int.cast_neg, Int.cast_natCast, ← rotation_neg_axis,
      forward (-axis) (by simpa using involution)]

theorem rotation_half (involution : axis * axis = 1) :
    axis.rotation (1 / 2) = -Complex.I • axis := by
  have angle : ((1 / 2 : ℚ) : ℂ) * Real.pi = Real.pi / 2 := by
    push_cast
    ring
  rw [rotation_eq involution, angle, Complex.cos_pi_div_two, Complex.sin_pi_div_two]
  module

theorem rotation_neg_half (involution : axis * axis = 1) :
    axis.rotation (-(1 / 2)) = Complex.I • axis := by
  rw [← rotation_neg_axis, rotation_half (by simpa using involution)]
  module

theorem rotation_conjTranspose (hermitian : axis.IsHermitian) (amount : ℚ) :
    (axis.rotation amount)ᴴ = axis.rotation (-amount) := by
  rw [rotation, ← Matrix.exp_conjTranspose, Matrix.conjTranspose_smul, hermitian, rotation]
  congr
  simp

theorem rotation_mem_unitaryGroup (hermitian : axis.IsHermitian) (amount : ℚ) :
    axis.rotation amount ∈ Matrix.unitaryGroup (Bits width) ℂ := by
  rw [Matrix.mem_unitaryGroup_iff, Matrix.star_eq_conjTranspose,
    rotation_conjTranspose hermitian, rotation_mul_neg]

/-! ## Moving operators past rotations -/

section Intertwining

variable {before after through : Operator width}

/-- An operator that carries one axis to another carries the rotations along. -/
theorem mul_rotation (beforeInvolution : before * before = 1) (afterInvolution : after * after = 1)
    (carried : through * before = after * through) (amount : ℚ) :
    through * before.rotation amount = after.rotation amount * through := by
  rw [rotation_eq beforeInvolution, rotation_eq afterInvolution, mul_sub, sub_mul, mul_smul_comm,
    mul_smul_comm, smul_mul_assoc, smul_mul_assoc, carried, mul_one, one_mul]

theorem mul_eigenprojector_of_carried (carried : through * before = after * through) (sign : ℂ) :
    through * eigenprojector before sign = eigenprojector after sign * through := by
  rw [eigenprojector, eigenprojector, mul_smul_comm, smul_mul_assoc, mul_add, add_mul,
    mul_smul_comm, smul_mul_assoc, carried, mul_one, one_mul]

end Intertwining

/-- An operator that anticommutes with the axis reverses the rotation. -/
theorem rotation_mul_of_anticommute {other : Operator width} (involution : axis * axis = 1)
    (clashing : axis * other = -(other * axis)) (amount : ℚ) :
    axis.rotation amount * other = other * axis.rotation (-amount) := by
  have carried : other * -axis = axis * other := by rw [clashing, mul_neg]
  rw [← mul_rotation (by simpa using involution) involution carried amount, rotation_neg_axis]

/-- A rotation turns an anticommuting operator by twice its amount. -/
theorem rotation_mul_of_turned {other turned : Operator width} (involution : axis * axis = 1)
    (clashing : axis * other = -(other * axis)) {amount : ℚ}
    (turns : axis.rotation (2 * amount) * other = turned) :
    axis.rotation amount * other = turned * axis.rotation amount := by
  have reversed := rotation_mul_of_anticommute involution clashing (-amount)
  rw [neg_neg] at reversed
  rw [← turns, mul_assoc, ← reversed, ← mul_assoc, ← rotation_add]
  congr 2
  ring

end Operator

/-! ## States and gates of one qubit

Up to a phase, the magic state is the plus state after an eighth rotation about Z. -/

/-- The amplitudes of a state. Nothing is known of those of an unknown state. -/
noncomputable def SymbolicState.amplitude : SymbolicState → Bool → ℂ
  | .zero, bit => if bit then 0 else 1
  | .one, bit => if bit then 1 else 0
  | .plus, _ => (√2 : ℝ)⁻¹
  | .minus, bit => (√2 : ℝ)⁻¹ * if bit then -1 else 1
  | .yPlus, bit => (√2 : ℝ)⁻¹ * if bit then Complex.I else 1
  | .yMinus, bit => (√2 : ℝ)⁻¹ * if bit then -Complex.I else 1
  | .magic, bit => (√2 : ℝ)⁻¹ * if bit then Complex.exp (Real.pi / 4 * Complex.I) else 1
  | .unknown, _ => 0

/-- The standard matrix of a gate. -/
noncomputable def Gate.matrix : Gate → Matrix Bool Bool ℂ
  | H => ((√2 : ℝ) : ℂ)⁻¹ • of fun row col => if row && col then -1 else 1
  | S => diagonal fun bit => if bit then Complex.I else 1
  | T => diagonal fun bit => if bit then Complex.exp (Real.pi / 4 * Complex.I) else 1
  | X => of fun row col => if row = col then 0 else 1

theorem inv_sqrt_two_mul_self : ((√2 : ℝ) : ℂ)⁻¹ * ((√2 : ℝ) : ℂ)⁻¹ = 1 / 2 := by
  rw [← mul_inv, ← Complex.ofReal_mul, Real.mul_self_sqrt (by norm_num)]
  norm_num

theorem exp_quarter_sq : Complex.exp ((1 / 4 : ℚ) * Real.pi * Complex.I) ^ 2 = Complex.I := by
  have angle : (2 : ℕ) * (((1 / 4 : ℚ) : ℂ) * Real.pi * Complex.I) = Real.pi / 2 * Complex.I := by
    push_cast
    ring
  rw [← Complex.exp_nat_mul, angle, Complex.exp_pi_div_two_mul_I]

theorem exp_eighth_sq : Complex.exp ((1 / 8 : ℚ) * Real.pi * Complex.I) ^ 2 =
    Complex.exp (Real.pi / 4 * Complex.I) := by
  have angle : (2 : ℕ) * (((1 / 8 : ℚ) : ℂ) * Real.pi * Complex.I) = Real.pi / 4 * Complex.I := by
    push_cast
    ring
  rw [← Complex.exp_nat_mul, angle]

end LatticeSurgery
