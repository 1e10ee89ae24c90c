import LatticeSurgery.Proofs.Angle.Value
import LatticeSurgery.Proofs.Operation.Register

namespace LatticeSurgery

open Matrix

/-! # Gates of one qubit

Each gate is a product of rotations about X and Z, up to a global phase. The Hadamard gate exchanges
the two axes, so that it turns the rotations of a gate into those about the other axis. -/

/-! ## Matrices of one qubit in a register -/

namespace Operator

variable {width : Nat}

theorem single_apply (qubit : Fin width) (action : Matrix Bool Bool ℂ) (row col : Bits width) :
    single qubit action row col = action (row qubit) (col qubit) *
      ∏ other ∈ Finset.univ.erase qubit, (1 : Matrix Bool Bool ℂ) (row other) (col other) := by
  rw [single, tensor_apply, ← Finset.mul_prod_erase _ _ (Finset.mem_univ qubit), if_pos rfl]
  congr 1
  apply Finset.prod_congr rfl
  intro other member
  rw [if_neg fun equal => Finset.ne_of_mem_erase member (Fin.ext equal)]

theorem single_mul (qubit : Nat) (left right : Matrix Bool Bool ℂ) :
    single qubit (left * right) = (single qubit left * single qubit right : Operator width) := by
  rw [single, single, single, tensor_mul]
  congr 1
  funext other
  split
  · rfl
  · rw [mul_one]

/-- The matrices of one qubit act on a register without regard to its other qubits. -/
noncomputable def onQubit (qubit : Fin width) : Matrix Bool Bool ℂ →ₐ[ℂ] Operator width :=
  AlgHom.ofLinearMap
    { toFun := single qubit
      map_add' := by
        intro left right
        ext row col
        simp only [single_apply, Matrix.add_apply, add_mul]
      map_smul' := by
        intro scalar action
        ext row col
        simp only [single_apply, Matrix.smul_apply, smul_eq_mul, mul_assoc, RingHom.id_apply] }
    (by
      rw [← tensor_one]
      exact congrArg tensor (funext fun _ => ite_self 1))
    (single_mul qubit)

theorem onQubit_apply (qubit : Fin width) (action : Matrix Bool Bool ℂ) :
    onQubit qubit action = single qubit action := rfl

end Operator

/-! ## Rotations about one symbol -/

namespace Pauli

variable {width : Nat}

noncomputable def turn (symbol : Pauli) (amount : ℚ) : Matrix Bool Bool ℂ :=
  Complex.cos (amount * Real.pi) • 1 - (Complex.I * Complex.sin (amount * Real.pi)) • symbol.matrix

theorem rotation_onQubit (symbol : Pauli) (qubit : Fin width) (amount : ℚ) :
    (Operator.onQubit qubit symbol.matrix).rotation amount =
      Operator.onQubit qubit (symbol.turn amount) := by
  have involution : Operator.onQubit qubit symbol.matrix * Operator.onQubit qubit symbol.matrix =
      1 := by
    rw [← map_mul, matrix_mul_self, map_one]
  rw [Operator.rotation_eq involution, turn, map_sub, map_smul, map_smul, map_one]

/-- The product of some rotations in time order. -/
noncomputable def turns : List (Pauli × Angle) → Matrix Bool Bool ℂ
  | [] => 1
  | rotation :: rest => turns rest * rotation.1.turn rotation.2.value

theorem turns_append (first second : List (Pauli × Angle)) :
    turns (first ++ second) = turns second * turns first := by
  induction first with
  | nil => rw [List.nil_append, turns, mul_one]
  | cons rotation rest induction => rw [List.cons_append, turns, induction, turns, mul_assoc]

/-- A rotation about Z shifts the phase of the second state by twice its amount. -/
theorem turn_Z (amount : ℚ) :
    Z.turn amount = Complex.exp (-(amount * Real.pi * Complex.I)) •
      diagonal fun bit => if bit then Complex.exp (amount * Real.pi * Complex.I) ^ 2 else 1 := by
  have first : Complex.exp (-(amount * Real.pi * Complex.I)) =
      Complex.cos (amount * Real.pi) - Complex.I * Complex.sin (amount * Real.pi) := by
    rw [← neg_mul, ← Complex.cos_sub_sin_I, mul_comm Complex.I]
  have second : Complex.exp (-(amount * Real.pi * Complex.I)) *
      Complex.exp (amount * Real.pi * Complex.I) ^ 2 =
        Complex.cos (amount * Real.pi) + Complex.I * Complex.sin (amount * Real.pi) := by
    rw [sq, ← mul_assoc, ← Complex.exp_add, neg_add_cancel, Complex.exp_zero, one_mul,
      ← Complex.cos_add_sin_I, mul_comm Complex.I]
  ext row col
  cases row with
  | false => cases col <;> simp [turn, matrix, first]
  | true => cases col <;> simp [turn, matrix, second]

theorem norm_exp_turn (amount : ℚ) : ‖Complex.exp (-(amount * Real.pi * Complex.I))‖ = 1 := by
  have real : -((amount : ℂ) * Real.pi * Complex.I) =
      ((-(amount * Real.pi) : ℝ) : ℂ) * Complex.I := by
    push_cast
    ring
  rw [real, Complex.norm_exp_ofReal_mul_I]

theorem turn_quarter (symbol : Pauli) :
    symbol.turn (1 / 4) = ((√2 : ℝ) : ℂ)⁻¹ • (1 - Complex.I • symbol.matrix) := by
  have angle : ((1 / 4 : ℚ) : ℂ) * Real.pi = ((Real.pi / 4 : ℝ) : ℂ) := by
    push_cast
    ring
  have root : √2 / 2 = (√2 : ℝ)⁻¹ := Real.sqrt_div_self
  rw [turn, angle, ← Complex.ofReal_cos, ← Complex.ofReal_sin, Real.cos_pi_div_four,
    Real.sin_pi_div_four, root, Complex.ofReal_inv]
  module

theorem turn_half (symbol : Pauli) : symbol.turn (1 / 2) = -Complex.I • symbol.matrix := by
  have angle : ((1 / 2 : ℚ) : ℂ) * Real.pi = Real.pi / 2 := by
    push_cast
    ring
  rw [turn, angle, Complex.cos_pi_div_two, Complex.sin_pi_div_two]
  module

end Pauli

namespace Gate

theorem matrix_H : H.matrix = ((√2 : ℝ) : ℂ)⁻¹ • (Pauli.X.matrix + Pauli.Z.matrix) := by
  ext row col
  cases row <;> cases col <;> simp [matrix, Pauli.matrix]

/-- Quarter rotations about X, Z and X again make up the Hadamard gate. -/
theorem quarters_eq_matrix_H :
    Pauli.X.turn (1 / 4) * Pauli.Z.turn (1 / 4) * Pauli.X.turn (1 / 4) =
      -Complex.I • H.matrix := by
  have product : (1 - Complex.I • Pauli.X.matrix) * (1 - Complex.I • Pauli.Z.matrix) *
      (1 - Complex.I • Pauli.X.matrix) =
        (-2 * Complex.I) • (Pauli.X.matrix + Pauli.Z.matrix) := by
    ext row col
    cases row <;> cases col <;> simp [Pauli.matrix, Matrix.mul_apply]
    case false.false => linear_combination (1 + Complex.I) * Complex.I_sq
    case false.true => ring
    case true.false => ring
    case true.true => linear_combination (1 - Complex.I) * Complex.I_sq
  rw [Pauli.turn_quarter, Pauli.turn_quarter, smul_mul_smul_comm, smul_mul_smul_comm, product,
    matrix_H, inv_sqrt_two_mul_self]
  module

/-- The rotations of a gate act like its matrix, up to a global phase. -/
theorem turns_rotations (gate : Gate) :
    ∃ phase : ℂ, ‖phase‖ = 1 ∧ Pauli.turns (gate.rotations .Z) = phase • gate.matrix := by
  cases gate with
  | H =>
      refine ⟨-Complex.I, by simp, ?_⟩
      simp only [rotations, conjugateAxis, Pauli.turns, Angle.value_quarter, one_mul]
      rw [← quarters_eq_matrix_H, mul_assoc]
  | S =>
      refine ⟨_, Pauli.norm_exp_turn (1 / 4), ?_⟩
      simp only [rotations, Pauli.turns, Angle.value_quarter, one_mul, Pauli.turn_Z, exp_quarter_sq]
      rfl
  | T =>
      refine ⟨_, Pauli.norm_exp_turn (1 / 8), ?_⟩
      simp only [rotations, Pauli.turns, Angle.value_eighth, one_mul, Pauli.turn_Z, exp_eighth_sq]
      rfl
  | X =>
      refine ⟨-Complex.I, by simp, ?_⟩
      simp only [rotations, conjugateAxis, Pauli.turns, Angle.value_half, one_mul, Pauli.turn_half]
      rfl

/-! ## Exchange of axes -/

theorem matrix_H_mul_self : H.matrix * H.matrix = 1 := by
  have square : (Pauli.X.matrix + Pauli.Z.matrix) * (Pauli.X.matrix + Pauli.Z.matrix) =
      (2 : ℂ) • 1 := by
    ext row col
    cases row <;> cases col <;> simp [Pauli.matrix, Matrix.mul_apply, one_add_one_eq_two]
  rw [matrix_H, smul_mul_smul_comm, square, inv_sqrt_two_mul_self]
  module

end Gate

namespace Pauli

/-- X in place of Z and Z in place of X. -/
def exchanged : Pauli → Pauli
  | I => I
  | X => Z
  | Y => Y
  | Z => X

theorem matrix_H_mul {symbol : Pauli} (free : symbol ≠ Y) :
    Gate.H.matrix * symbol.matrix = symbol.exchanged.matrix * Gate.H.matrix := by
  rw [Gate.matrix_H]
  cases symbol with
  | I => rw [exchanged, matrix, mul_one, one_mul]
  | X =>
      rw [exchanged, smul_mul_assoc, mul_smul_comm, add_mul, mul_add, matrix_mul_self,
        matrix_mul_self, add_comm]
  | Y => exact absurd rfl free
  | Z =>
      rw [exchanged, smul_mul_assoc, mul_smul_comm, add_mul, mul_add, matrix_mul_self,
        matrix_mul_self, add_comm]

theorem matrix_H_mul_turn {symbol : Pauli} (free : symbol ≠ Y) (amount : ℚ) :
    Gate.H.matrix * symbol.turn amount = symbol.exchanged.turn amount * Gate.H.matrix := by
  rw [turn, turn, mul_sub, sub_mul, mul_smul_comm, mul_smul_comm, smul_mul_assoc, smul_mul_assoc,
    matrix_H_mul free, mul_one, one_mul]

theorem matrix_H_mul_turns {rotations : List (Pauli × Angle)}
    (free : ∀ rotation ∈ rotations, rotation.1 ≠ Y) :
    Gate.H.matrix * turns rotations =
      turns (rotations.map (Prod.map exchanged id)) * Gate.H.matrix := by
  induction rotations with
  | nil => rw [List.map_nil, turns, mul_one, one_mul]
  | cons rotation rest induction =>
      rw [List.forall_mem_cons] at free
      rw [List.map_cons, turns, turns, ← mul_assoc, induction free.2, mul_assoc,
        matrix_H_mul_turn free.1, mul_assoc]
      rfl

end Pauli

/-! ## Sequences -/

theorem Gate.rotations_X (gate : Gate) :
    gate.rotations .X = (gate.rotations .Z).map (Prod.map Pauli.exchanged id) := by
  cases gate <;> rfl

theorem Gate.ne_Y_of_mem_rotations_Z (gate : Gate) :
    ∀ rotation ∈ gate.rotations .Z, rotation.1 ≠ .Y := by
  cases gate <;> decide

namespace GateSequence

/-- The product of the gates in time order. -/
noncomputable def matrix : GateSequence → Matrix Bool Bool ℂ
  | [] => 1
  | gate :: rest => matrix rest * gate.matrix

/-- The rotations of all gates in time order, with `axis` in the role of Z. -/
def rotations (axis : Pauli) (gates : GateSequence) : List (Pauli × Angle) :=
  gates.flatMap (Gate.rotations axis)

theorem turns_rotations_Z (gates : GateSequence) :
    ∃ phase : ℂ, ‖phase‖ = 1 ∧ Pauli.turns (gates.rotations .Z) = phase • gates.matrix := by
  induction gates with
  | nil => exact ⟨1, norm_one, (one_smul ℂ _).symm⟩
  | cons gate rest induction =>
      rcases gate.turns_rotations with ⟨first, firstUnit, firstTurns⟩
      rcases induction with ⟨second, secondUnit, secondTurns⟩
      refine ⟨second * first, by rw [norm_mul, firstUnit, secondUnit, one_mul], ?_⟩
      rw [rotations] at secondTurns
      rw [rotations, List.flatMap_cons, Pauli.turns_append, firstTurns, secondTurns,
        smul_mul_smul_comm, matrix]

theorem rotations_X (gates : GateSequence) :
    gates.rotations .X = (gates.rotations .Z).map (Prod.map Pauli.exchanged id) := by
  rw [rotations, rotations, List.map_flatMap]
  exact congrArg (gates.flatMap ·) (funext Gate.rotations_X)

theorem turns_rotations_X (gates : GateSequence) :
    Pauli.turns (gates.rotations .X) =
      Gate.H.matrix * Pauli.turns (gates.rotations .Z) * Gate.H.matrix := by
  have free : ∀ rotation ∈ gates.rotations .Z, rotation.1 ≠ .Y := by
    intro rotation member
    rcases List.mem_flatMap.mp member with ⟨gate, _, member⟩
    exact gate.ne_Y_of_mem_rotations_Z rotation member
  rw [Pauli.matrix_H_mul_turns free, rotations_X, mul_assoc, Gate.matrix_H_mul_self, mul_one]

end GateSequence

end LatticeSurgery
