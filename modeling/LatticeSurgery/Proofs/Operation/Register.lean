import LatticeSurgery.Proofs.Operation.Effect
import LatticeSurgery.Proofs.Operation.Lowering

namespace LatticeSurgery

open Matrix

/-! # The register of logical qubits

The logical qubits of a table are patches. An operator of the register is lifted to
the amplitudes of all patches, and the product of the targets of a block is the lift of
the operator of its string. -/

/-- The amplitudes of a register whose qubits are the given patches, all others being
out of use. -/
def Amplitudes.ofRegister (qubits : List PatchId) (vector : Bits qubits.length → ℂ) : Amplitudes :=
  fun bits => vector fun qubit => bits (qubits.get qubit)

namespace Amplitudes

variable {qubits : List PatchId}

theorem ofRegister_injective (distinct : qubits.Nodup) :
    Function.Injective (ofRegister qubits) := by
  intro left right equal
  funext bits
  -- Every bit string is read from an assignment that looks the patch up.
  have read : (fun qubit => (fun patch => if known : qubits.idxOf patch < qubits.length then
      bits ⟨qubits.idxOf patch, known⟩ else false) (qubits.get qubit)) = bits := by
    funext qubit
    have position : qubits.idxOf (qubits.get qubit) = qubit := distinct.idxOf_getElem _ _
    simp only [position, qubit.isLt, dif_pos]
  have same := congrFun equal fun patch => if known : qubits.idxOf patch < qubits.length then
      bits ⟨qubits.idxOf patch, known⟩ else false
  rwa [ofRegister, ofRegister, read] at same

theorem idle_ofRegister {patch : PatchId} (outside : patch ∉ qubits)
    (vector : Bits qubits.length → ℂ) : Idle patch (ofRegister qubits vector) := by
  intro bits bit
  rw [ofRegister, ofRegister]
  congr 1
  funext qubit
  rw [Function.update_of_ne]
  intro equal
  exact outside (equal ▸ List.get_mem qubits qubit)

end Amplitudes

namespace Operator

variable {width : Nat}

/-- A matrix that acts on one qubit. -/
noncomputable def single (qubit : Nat) (action : Matrix Bool Bool ℂ) : Operator width :=
  tensor fun other => if (other : Nat) = qubit then action else 1

theorem single_apply_update (qubit : Fin width) (action : Matrix Bool Bool ℂ) (bits : Bits width)
    (bit : Bool) :
    single qubit action bits (Function.update bits qubit bit) = action (bits qubit) bit := by
  rw [single, tensor_apply, Finset.prod_eq_single qubit]
  · rw [if_pos rfl, Function.update_self]
  · intro place _ elsewhere
    rw [if_neg (fun equal => elsewhere (Fin.ext equal)), Function.update_of_ne elsewhere,
      Matrix.one_apply_eq]
  · intro missing
    exact absurd (Finset.mem_univ _) missing

theorem single_apply_of_ne {qubit place : Fin width} (elsewhere : place ≠ qubit)
    {bits other : Bits width} (differs : bits place ≠ other place)
    (action : Matrix Bool Bool ℂ) : single qubit action bits other = 0 := by
  rw [single, tensor_apply]
  apply Finset.prod_eq_zero (Finset.mem_univ place)
  rw [if_neg (fun equal => elsewhere (Fin.ext equal)), Matrix.one_apply_ne differs]

theorem single_mulVec (qubit : Fin width) (action : Matrix Bool Bool ℂ) (vector : Bits width → ℂ)
    (bits : Bits width) :
    (single qubit action *ᵥ vector) bits =
      ∑ bit, action (bits qubit) bit * vector (Function.update bits qubit bit) := by
  rw [Matrix.mulVec_eq_sum, Finset.sum_apply]
  symm
  apply Fintype.sum_of_injective (Function.update bits qubit) (Function.update_injective bits qubit)
  · intro other outside
    have differs : ∃ place, place ≠ qubit ∧ bits place ≠ other place := by
      by_contra agree
      push Not at agree
      refine outside ⟨other qubit, ?_⟩
      funext place
      by_cases here : place = qubit
      · rw [here, Function.update_self]
      · rw [Function.update_of_ne here, agree place here]
    rcases differs with ⟨place, elsewhere, differs⟩
    have vanishes := single_apply_of_ne elsewhere differs action
    simp [vanishes]
  · intro bit
    have entry := single_apply_update qubit action bits bit
    simp [entry]

/-- The product of the actions of single symbols, the first one first. -/
noncomputable def singles : List (Nat × Pauli) → Operator width
  | [] => 1
  | (qubit, symbol) :: rest => singles rest * single qubit symbol.matrix

private theorem singles_filterMap (symbols : PauliString) {positions : List Nat}
    (distinct : positions.Nodup) :
    (singles (positions.filterMap fun qubit =>
      if symbols.symbolAt qubit = .I then none else some (qubit, symbols.symbolAt qubit)) :
        Operator width) =
      tensor fun qubit =>
        if (qubit : Nat) ∈ positions then (symbols.symbolAt qubit).matrix else 1 := by
  induction positions with
  | nil => simp [singles, tensor_one]
  | cons position rest induction =>
      rw [List.nodup_cons] at distinct
      by_cases idle : symbols.symbolAt position = .I
      · rw [List.filterMap_cons_none (by simp [idle]), induction distinct.2]
        congr 1
        funext qubit
        by_cases here : (qubit : Nat) = position
        · simp [here, idle, Pauli.matrix]
        · simp [here]
      · rw [List.filterMap_cons_some (by rw [if_neg idle]), singles, induction distinct.2, single,
          tensor_mul]
        congr 1
        funext qubit
        by_cases here : (qubit : Nat) = position
        · simp [here, distinct.1]
        · simp [here]

/-- The symbols of a string act one after the other. -/
theorem singles_support (symbols : PauliString) :
    singles symbols.support = symbols.operator width := by
  rw [PauliString.support_eq_filterMap, singles_filterMap symbols List.nodup_range,
    PauliString.operator]
  congr 1
  funext qubit
  by_cases inside : (qubit : Nat) < symbols.length
  · simp [inside]
  · simp [inside, PauliString.symbolAt_of_length_le (Nat.le_of_not_lt inside), Pauli.matrix]

end Operator

namespace Effect

variable {qubits : List PatchId}

theorem onPatch_ofRegister (distinct : qubits.Nodup) (qubit : Fin qubits.length)
    (action : Matrix Bool Bool ℂ) (vector : Bits qubits.length → ℂ) :
    onPatch (qubits.get qubit) action (.ofRegister qubits vector) =
      .ofRegister qubits (Operator.single qubit action *ᵥ vector) := by
  funext bits
  rw [onPatch_apply, Amplitudes.ofRegister, Operator.single_mulVec]
  refine Finset.sum_congr rfl fun bit _ => ?_
  rw [Amplitudes.ofRegister]
  congr 2
  funext other
  by_cases here : other = qubit
  · rw [here, Function.update_self, Function.update_self]
  · rw [Function.update_of_ne here, Function.update_of_ne]
    intro equal
    exact here (distinct.injective_get equal)

private theorem pauliProduct_singles (distinct : qubits.Nodup) {entries : List (Nat × Pauli)}
    {targets : Targets}
    (located : TableDraft.Locates qubits entries targets)
    (vector : Bits qubits.length → ℂ) :
    pauliProduct targets (.ofRegister qubits vector) =
      .ofRegister qubits (Operator.singles entries *ᵥ vector) := by
  induction located generalizing vector with
  | nil => simp [pauliProduct, Operator.singles]
  | @cons entry factor entries factors located _ induction =>
      rcases entry with ⟨qubit, symbol⟩
      rcases factor with ⟨patch, operator⟩
      rcases located with ⟨found, rfl⟩
      rcases List.getElem?_eq_some_iff.mp found with ⟨inside, rfl⟩
      have first := onPatch_ofRegister distinct ⟨qubit, inside⟩ symbol.matrix vector
      rw [List.get_eq_getElem] at first
      rw [pauliProduct, Module.End.mul_apply, first, induction, Operator.singles,
        Matrix.mulVec_mulVec]

/-- A product of targets acts on the register like the symbols of its block. -/
theorem pauliProduct_ofRegister (distinct : qubits.Nodup) {symbols : PauliString}
    {targets : Targets} (found : TableDraft.targets qubits symbols = .ok targets)
    (vector : Bits qubits.length → ℂ) :
    pauliProduct targets (.ofRegister qubits vector) =
      .ofRegister qubits (symbols.operator qubits.length *ᵥ vector) := by
  rw [← Operator.singles_support]
  exact pauliProduct_singles distinct (TableDraft.targets_eq_ok.mp found) vector

end Effect

end LatticeSurgery
