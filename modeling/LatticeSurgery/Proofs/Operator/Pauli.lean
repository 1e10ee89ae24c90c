import LatticeSurgery.Proofs.Pauli
import Mathlib.Analysis.Complex.Basic
import Mathlib.LinearAlgebra.Matrix.Hermitian
import Mathlib.LinearAlgebra.Matrix.Trace

namespace LatticeSurgery

open Matrix

/-! # Operators of Pauli strings

A register of `width` qubits has one basis state for every assignment of bits to
its qubits. A Pauli string acts on it as the tensor product of its symbols. -/

abbrev Bits (width : Nat) := Fin width → Bool

abbrev Operator (width : Nat) := Matrix (Bits width) (Bits width) ℂ

namespace Phase

noncomputable def toComplex (phase : Phase) : ℂ := phase.re + phase.im * Complex.I

@[simp] theorem toComplex_one : one.toComplex = 1 := by simp [toComplex, one]

@[simp] theorem toComplex_i : i.toComplex = Complex.I := by simp [toComplex, i]

@[simp] theorem toComplex_negI : negI.toComplex = -Complex.I := by simp [toComplex, negI]

@[simp] theorem toComplex_mul (left right : Phase) :
    (left * right).toComplex = left.toComplex * right.toComplex := by
  apply Complex.ext <;> simp [toComplex]

theorem toComplex_injective : Function.Injective toComplex := by
  intro left right equal
  have reEqual := congrArg Complex.re equal
  have imEqual := congrArg Complex.im equal
  simp only [toComplex, Complex.add_re, Complex.intCast_re, Complex.mul_re, Complex.I_re,
    Complex.intCast_im, Complex.I_im, Complex.add_im, Complex.mul_im] at reEqual imEqual
  cases left
  cases right
  simp_all

end Phase

namespace Pauli

noncomputable def matrix : Pauli → Matrix Bool Bool ℂ
  | I => 1
  | X => of fun row col => if row = col then 0 else 1
  | Y => of fun row col => if row = col then 0 else if row then Complex.I else -Complex.I
  | Z => diagonal fun bit => if bit then -1 else 1

theorem matrix_mul (left right : Pauli) :
    left.matrix * right.matrix = (mul left right).1.toComplex • (mul left right).2.matrix := by
  ext row col
  cases left <;> cases right <;> cases row <;> cases col <;>
    simp [matrix, mul, Matrix.mul_apply]

theorem matrix_mul_self (symbol : Pauli) : symbol.matrix * symbol.matrix = 1 := by
  rw [matrix_mul]
  cases symbol <;> simp [mul, matrix]

/-- Different symbols are orthogonal to each other. -/
theorem trace_matrix_mul (left right : Pauli) :
    (left.matrix * right.matrix).trace = if left = right then 2 else 0 := by
  cases left <;> cases right <;> simp [matrix, Matrix.trace, Matrix.mul_apply, one_add_one_eq_two]

/-- The sign that two symbols pick up when they are exchanged. -/
def exchangeSign (left right : Pauli) : Int := if left.commutes right then 1 else -1

theorem matrix_exchange (left right : Pauli) :
    left.matrix * right.matrix = (exchangeSign left right : ℂ) • (right.matrix * left.matrix) := by
  rw [matrix_mul, matrix_mul]
  cases left <;> cases right <;> simp [mul, exchangeSign, commutes]

theorem conjTranspose_matrix (symbol : Pauli) : symbol.matrixᴴ = symbol.matrix := by
  ext row col
  cases symbol <;> cases row <;> cases col <;> simp [matrix]

end Pauli

/-! ## Tensor products -/

namespace Operator

variable {width : Nat}

noncomputable def tensor (factors : Fin width → Matrix Bool Bool ℂ) : Operator width :=
  of fun row col => ∏ qubit, factors qubit (row qubit) (col qubit)

theorem tensor_apply (factors : Fin width → Matrix Bool Bool ℂ) (row col : Bits width) :
    tensor factors row col = ∏ qubit, factors qubit (row qubit) (col qubit) := rfl

theorem tensor_mul (left right : Fin width → Matrix Bool Bool ℂ) :
    tensor left * tensor right = tensor fun qubit => left qubit * right qubit := by
  ext row col
  simp only [Matrix.mul_apply, tensor_apply, ← Finset.prod_mul_distrib]
  rw [Finset.prod_univ_sum, Fintype.piFinset_univ]

theorem tensor_smul (scalars : Fin width → ℂ) (factors : Fin width → Matrix Bool Bool ℂ) :
    (tensor fun qubit => scalars qubit • factors qubit) =
      (∏ qubit, scalars qubit) • tensor factors := by
  ext row col
  simp [tensor_apply, Finset.prod_mul_distrib]

theorem tensor_one : tensor (fun _ : Fin width => (1 : Matrix Bool Bool ℂ)) = 1 := by
  ext row col
  rw [tensor_apply]
  by_cases equal : row = col
  · rw [equal, Matrix.one_apply_eq]
    exact Finset.prod_eq_one fun qubit _ => Matrix.one_apply_eq _
  · rcases Function.ne_iff.mp equal with ⟨qubit, differs⟩
    rw [Matrix.one_apply_ne equal]
    exact Finset.prod_eq_zero (Finset.mem_univ qubit) (Matrix.one_apply_ne differs)

theorem conjTranspose_tensor (factors : Fin width → Matrix Bool Bool ℂ) :
    (tensor factors)ᴴ = tensor fun qubit => (factors qubit)ᴴ := by
  ext row col
  simp [tensor_apply, Matrix.conjTranspose_apply]

theorem trace_tensor (factors : Fin width → Matrix Bool Bool ℂ) :
    (tensor factors).trace = ∏ qubit, (factors qubit).trace := by
  simp only [Matrix.trace, Matrix.diag_apply, tensor_apply]
  rw [Finset.prod_univ_sum, Fintype.piFinset_univ]

end Operator

/-! ## Strings -/

namespace PauliString

open Operator

variable {width : Nat}

noncomputable def operator (width : Nat) (symbols : PauliString) : Operator width :=
  tensor fun qubit => (symbols.symbolAt qubit).matrix

theorem operator_mul_self (symbols : PauliString) :
    symbols.operator width * symbols.operator width = 1 := by
  rw [operator, tensor_mul]
  simp only [Pauli.matrix_mul_self, tensor_one]

theorem isHermitian_operator (symbols : PauliString) :
    (symbols.operator width).IsHermitian := by
  rw [Matrix.IsHermitian, operator, conjTranspose_tensor]
  simp only [Pauli.conjTranspose_matrix]

/-- A product over the qubits of a register, read off two strings of its width. -/
private theorem prod_symbolAt {M : Type} [CommMonoid M] (value : Pauli → Pauli → M) :
    ∀ (width : Nat) (left right : PauliString), left.length = width → right.length = width →
      ∏ qubit : Fin width, value (left.symbolAt qubit) (right.symbolAt qubit) =
        ((left.zip right).map fun pair => value pair.1 pair.2).prod
  | 0, left, right, leftWidth, rightWidth => by
      simp [List.length_eq_zero_iff.mp leftWidth]
  | width + 1, [], right, leftWidth, rightWidth => by simp at leftWidth
  | width + 1, leftHead :: left, [], leftWidth, rightWidth => by simp at rightWidth
  | width + 1, leftHead :: left, rightHead :: right, leftWidth, rightWidth => by
      have tails := prod_symbolAt value width left right
        (Nat.succ.inj leftWidth) (Nat.succ.inj rightWidth)
      rw [Fin.prod_univ_succ]
      simpa [symbolAt] using congrArg (value leftHead rightHead * ·) tails

private theorem toComplex_foldl (products : List (Phase × Pauli)) (start : Phase) :
    (products.foldl (fun phase product => phase * product.1) start).toComplex =
      start.toComplex * (products.map fun product => product.1.toComplex).prod := by
  induction products generalizing start with
  | nil => simp
  | cons product rest induction => simp [induction, mul_assoc]

theorem toComplex_mul_fst (left right : PauliString) :
    (mul left right).1.toComplex =
      ((left.zip right).map fun pair => (Pauli.mul pair.1 pair.2).1.toComplex).prod := by
  simp [mul, toComplex_foldl, List.zip, List.map_zipWith]

/-- The product of two strings, with its phase, is the product of their operators. -/
theorem operator_mul {left right : PauliString} (leftWidth : left.length = width)
    (rightWidth : right.length = width) :
    left.operator width * right.operator width =
      (mul left right).1.toComplex • (mul left right).2.operator width := by
  have phases := prod_symbolAt (fun one two => (Pauli.mul one two).1.toComplex) width left right
    leftWidth rightWidth
  rw [toComplex_mul_fst, ← phases, operator, operator, operator, tensor_mul, ← tensor_smul]
  congr
  funext qubit
  rw [Pauli.matrix_mul, symbolAt_mul_snd (leftWidth.trans rightWidth.symm)]

/-! Two strings commute or anticommute, as the number of positions at which their
symbols anticommute is even or odd. -/

private theorem prod_exchangeSign (left right : PauliString) :
    ((left.zip right).map fun pair => (Pauli.exchangeSign pair.1 pair.2 : ℂ)).prod =
      (-1) ^ anticommutingPositions left right := by
  rw [anticommutingPositions]
  induction left.zip right with
  | nil => simp
  | cons pair rest induction =>
      rw [List.map_cons, List.prod_cons, induction, List.countP_cons]
      cases commuting : pair.1.commutes pair.2 <;>
        simp [Pauli.exchangeSign, commuting, pow_succ]

theorem operator_exchange {left right : PauliString} (leftWidth : left.length = width)
    (rightWidth : right.length = width) :
    left.operator width * right.operator width =
      (-1 : ℂ) ^ anticommutingPositions left right •
        (right.operator width * left.operator width) := by
  have signs := prod_symbolAt (fun one two => (Pauli.exchangeSign one two : ℂ)) width left right
    leftWidth rightWidth
  rw [← prod_exchangeSign, ← signs, operator, operator, tensor_mul, tensor_mul, ← tensor_smul]
  congr
  funext qubit
  exact Pauli.matrix_exchange _ _

theorem operator_commute {left right : PauliString} (leftWidth : left.length = width)
    (rightWidth : right.length = width) (commuting : left.commutes right = true) :
    left.operator width * right.operator width = right.operator width * left.operator width := by
  have even : Even (anticommutingPositions left right) := by
    rw [Nat.even_iff]
    simpa [commutes] using commuting
  rw [operator_exchange leftWidth rightWidth, even.neg_one_pow, one_smul]

theorem operator_anticommute {left right : PauliString} (leftWidth : left.length = width)
    (rightWidth : right.length = width) (clashing : left.commutes right = false) :
    left.operator width * right.operator width =
      -(right.operator width * left.operator width) := by
  have odd : Odd (anticommutingPositions left right) := by
    rw [Nat.odd_iff]
    have : ¬ anticommutingPositions left right % 2 = 0 := by simpa [commutes] using clashing
    omega
  rw [operator_exchange leftWidth rightWidth, odd.neg_one_pow, neg_one_smul]

/-! Different strings are orthogonal to each other, so an operator is a multiple of at
most one string. -/

private theorem trace_operator_mul_of_ne {left right : PauliString}
    (leftWidth : left.length = width) (rightWidth : right.length = width)
    (different : left ≠ right) :
    (left.operator width * right.operator width).trace = 0 := by
  have differs : ∃ qubit : Fin width, left.symbolAt qubit ≠ right.symbolAt qubit := by
    by_contra same
    simp only [not_exists, not_not] at same
    apply different
    apply ext_symbolAt (leftWidth.trans rightWidth.symm)
    intro qubit
    by_cases inside : qubit < width
    · exact same ⟨qubit, inside⟩
    · rw [symbolAt_of_length_le (by omega), symbolAt_of_length_le (by omega)]
  cases differs with
  | intro qubit symbols =>
      rw [operator, operator, tensor_mul, trace_tensor]
      apply Finset.prod_eq_zero (Finset.mem_univ qubit)
      rw [Pauli.trace_matrix_mul, if_neg symbols]

/-- Multiples of two strings are the same operator only when the factors and the strings
are the same. -/
theorem smul_operator_inj {left right : PauliString} {first second : ℂ}
    (leftWidth : left.length = width) (rightWidth : right.length = width) (nonzero : first ≠ 0)
    (equal : first • left.operator width = second • right.operator width) :
    first = second ∧ left = right := by
  have traces : first * (1 : Operator width).trace =
      second * (right.operator width * left.operator width).trace := by
    have product := congrArg (fun operator => (operator * left.operator width).trace) equal
    simpa only [smul_mul_assoc, operator_mul_self, Matrix.trace_smul, smul_eq_mul] using product
  have size : (1 : Operator width).trace ≠ 0 := by
    rw [Matrix.trace_one]
    exact Nat.cast_ne_zero.mpr Fintype.card_ne_zero
  have same : left = right := by
    by_contra different
    rw [trace_operator_mul_of_ne rightWidth leftWidth (Ne.symm different), mul_zero] at traces
    exact mul_ne_zero nonzero size traces
  rw [same, operator_mul_self] at traces
  exact ⟨mul_right_cancel₀ size traces, same⟩

end PauliString

end LatticeSurgery
