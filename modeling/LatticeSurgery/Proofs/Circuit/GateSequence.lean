import LatticeSurgery.Proofs.Circuit.BasicForm
import LatticeSurgery.Proofs.Circuit.Overflow
import LatticeSurgery.Proofs.Operator.Gate
import Mathlib.Data.Nat.Prime.Int

namespace LatticeSurgery

open Result (bind_eq_ok liftM_eq_ofFaulty ofFaulty_ok ok_bind)

/-! # Approximated rotations

A rotation of one qubit about X or Z by an angle that is not dyadic is replaced by the rotations of
the gates that stand for it. About Z they act like the gates themselves, and about X like the gates
between two Hadamard gates. -/

namespace Angle

variable {angle : Angle}

/-- The angle is recognized neither as basic nor as dyadic, and so it is approximated as a whole. -/
def Delegated (angle : Angle) : Prop := angle.isBasic ≠ .ok true ∧ ¬ angle.IsDyadic

/-- Angles whose value is no multiple of a power of one half are not recognized, however they are
stored. -/
theorem delegated_of_value
    (other : ∀ (exponent : ℕ) (count : ℤ), angle.value ≠ count / 2 ^ exponent) :
    angle.Delegated := by
  constructor
  · intro tested
    have power (exponent : ℕ) (size : |angle.value| = 1 / 2 ^ exponent) : False := by
      rcases abs_eq_abs.mp (size.trans (abs_of_pos (by positivity)).symm) with plus | minus
      · exact other exponent 1 (by rw [plus, Int.cast_one])
      · exact other exponent (-1) (by rw [minus, Int.cast_neg, Int.cast_one, neg_div])
    rcases (isBasic_eq_ok_true.mp tested).2 with half | quarter | eighth
    · exact power 1 (half.trans (by norm_num))
    · exact power 2 (quarter.trans (by norm_num))
    · exact power 3 (eighth.trans (by norm_num))
  · rintro ⟨exponent, isPower⟩
    apply other exponent angle.numer
    rw [value_eq_div, isPower]
    norm_num

theorem exists_isBasic (numer_ne : angle.numer ≠ -Word.limit64) :
    ∃ answer, angle.isBasic = .ok answer := by
  rcases exists_hasMagnitude numer_ne half with ⟨isHalf, half⟩
  rcases exists_hasMagnitude numer_ne quarter with ⟨isQuarter, quarter⟩
  rcases exists_hasMagnitude numer_ne eighth with ⟨isEighth, eighth⟩
  rw [isBasic, Angle.isHalf, Angle.isQuarter, Angle.isEighth, half, quarter, eighth]
  cases isHalf <;> cases isQuarter <;> exact ⟨_, rfl⟩

theorem Delegated.isBasic_eq (delegated : angle.Delegated)
    (numer_ne : angle.numer ≠ -Word.limit64) : angle.isBasic = .ok false := by
  rcases exists_isBasic numer_ne with ⟨answer, tested⟩
  cases answer with
  | true => exact absurd tested delegated.1
  | false => exact tested

end Angle

/-! ## Strings with one symbol -/

namespace PauliString

variable {width qubit : Nat} {symbol : Pauli}

theorem support_set_identity (inside : qubit < width) (acts : symbol ≠ .I) :
    support ((identity width).set qubit symbol) = [(qubit, symbol)] := by
  have distinct := (nodup_support_fst ((identity width).set qubit symbol)).of_map _
  refine List.perm_singleton.mp ((List.perm_ext_iff_of_nodup distinct
    (List.nodup_singleton _)).mpr fun entry => ?_)
  rw [mem_support, symbolAt_set_identity inside, List.mem_singleton, Prod.ext_iff]
  constructor
  · rintro ⟨found, acting⟩
    split at found
    · next here => exact ⟨here, found.symm⟩
    · exact absurd found.symm acting
  · rintro ⟨here, same⟩
    rw [if_pos here, same]
    exact ⟨rfl, acts⟩

theorem operator_set_identity (qubit : Fin width) (symbol : Pauli) :
    operator width ((identity width).set qubit symbol) =
      Operator.onQubit qubit symbol.matrix := by
  rw [operator, Operator.onQubit_apply, Operator.single]
  congr 1
  funext other
  rw [symbolAt_set_identity qubit.isLt]
  split <;> rfl

end PauliString

namespace Block

variable {width qubit : Nat}

/-! ## Rotations of gates -/

theorem evolution_map_single (qubit : Fin width) (rotations : List (Pauli × Angle))
    (outcomes : Outcomes) :
    evolution width (rotations.map fun entry => single width qubit entry.1 entry.2) outcomes =
      Operator.onQubit qubit (Pauli.turns rotations) := by
  induction rotations generalizing outcomes with
  | nil => rw [List.map_nil, evolution_nil, Pauli.turns, map_one]
  | cons entry rest induction =>
      rw [List.map_cons, evolution_cons, induction, Pauli.turns, map_mul, operator, single,
        rotation, BlockKind.action, PauliString.operator_set_identity, Pauli.rotation_onQubit]

theorem gateRotations_eq_map (axis : Pauli) (gates : GateSequence) :
    gateRotations width qubit axis gates =
      (gates.rotations axis).map fun entry => single width qubit entry.1 entry.2 := by
  rw [gateRotations, GateSequence.rotations, List.map_flatMap]

/-- The block with X in place of Z and Z in place of X. -/
def exchanged (block : Block) : Block :=
  { block with symbols := block.symbols.map Pauli.exchanged }

theorem exchanged_single (symbol : Pauli) (amount : Angle) :
    (single width qubit symbol amount).exchanged =
      single width qubit symbol.exchanged amount := by
  simp [exchanged, single, rotation, PauliString.identity, List.map_set, Pauli.exchanged]

theorem gateRotations_X (gates : GateSequence) :
    gateRotations width qubit .X gates = (gateRotations width qubit .Z gates).map exchanged := by
  rw [gateRotations_eq_map, gateRotations_eq_map, GateSequence.rotations_X, List.map_map,
    List.map_map]
  exact List.map_congr_left fun entry _ => (exchanged_single entry.1 entry.2).symm

theorem singleAxis?_set_identity (inside : qubit < width) {axis : Pauli}
    (isAxis : axis = .Z ∨ axis = .X) :
    singleAxis? ((PauliString.identity width).set qubit axis) = some (qubit, axis) := by
  rcases isAxis with rfl | rfl
  · rw [singleAxis?, PauliString.support_set_identity inside (by decide)]
  · rw [singleAxis?, PauliString.support_set_identity inside (by decide)]

theorem basicForm_single (inside : qubit < width) {axis : Pauli} (isAxis : axis = .Z ∨ axis = .X)
    {angle : Angle} (delegated : angle.Delegated) {approximator : Approximator}
    {gates : GateSequence} (given : approximator angle = .ok (some gates)) :
    (single width qubit axis angle).basicForm approximator =
      if angle.numer = -Word.limit64 then .error (.fault .overflow)
      else .ok (gateRotations width qubit axis gates) := by
  split
  · next minimal => exact basicForm_of_minimal _ _ minimal
  · next numerNe =>
      simp only [basicForm, single, rotation, delegated.isBasic_eq numerNe,
        Angle.dyadicTerms_of_not_isDyadic delegated.2, liftM_eq_ofFaulty, ofFaulty_ok, ok_bind]
      rw [if_neg Bool.false_ne_true, approximate, singleAxis?_set_identity inside isAxis]
      simp only [given, liftM_eq_ofFaulty, ofFaulty_ok, ok_bind, PauliString.length_set_identity]
      rfl

theorem isBasic_of_mem_gateRotations {axis : Pauli} {gates : GateSequence} {block : Block}
    (emitted : block ∈ gateRotations width qubit axis gates) :
    block.width = width ∧ ∃ amount, block.kind = .rotation amount ∧ amount.isBasic = .ok true := by
  rcases List.mem_flatMap.mp emitted with ⟨gate, _, emitted⟩
  rcases List.mem_map.mp emitted with ⟨⟨symbol, amount⟩, listed, rfl⟩
  exact ⟨PauliString.length_set_identity width qubit symbol, amount, rfl,
    isBasic_of_mem_rotations listed⟩

theorem evolution_gateRotations_Z (inside : qubit < width) (gates : GateSequence) :
    ∃ phase : ℂ, ‖phase‖ = 1 ∧ ∀ outcomes,
      evolution width (gateRotations width qubit .Z gates) outcomes =
        phase • Operator.single qubit gates.matrix := by
  rcases gates.turns_rotations_Z with ⟨phase, unit, turned⟩
  refine ⟨phase, unit, fun outcomes => ?_⟩
  rw [gateRotations_eq_map, evolution_map_single ⟨qubit, inside⟩, turned, map_smul,
    Operator.onQubit_apply]

theorem evolution_gateRotations_X (inside : qubit < width) (gates : GateSequence) :
    ∃ phase : ℂ, ‖phase‖ = 1 ∧ ∀ outcomes,
      evolution width (gateRotations width qubit .X gates) outcomes =
        phase • (Operator.single qubit Gate.H.matrix * Operator.single qubit gates.matrix *
          Operator.single qubit Gate.H.matrix) := by
  rcases gates.turns_rotations_Z with ⟨phase, unit, turned⟩
  refine ⟨phase, unit, fun outcomes => ?_⟩
  rw [gateRotations_eq_map, evolution_map_single ⟨qubit, inside⟩, gates.turns_rotations_X, turned,
    mul_smul_comm, smul_mul_assoc, map_smul, map_mul, map_mul, Operator.onQubit_apply,
    Operator.onQubit_apply]

/-- A rotation of one qubit by an angle that is not dyadic becomes the rotations of the gates that
stand for it, unless its numerator has no opposite. They are basic, and up to a global phase they
act like the gates about Z, and like the gates between Hadamard gates about X. -/
theorem basicForm_approximated (inside : qubit < width) {angle : Angle}
    (delegated : angle.Delegated) {approximator : Approximator} {gates : GateSequence}
    (given : approximator angle = .ok (some gates)) :
    ∃ aboutZ aboutX : List Block,
      (single width qubit .Z angle).basicForm approximator =
        (if angle.numer = -Word.limit64 then .error (.fault .overflow) else .ok aboutZ) ∧
      (single width qubit .X angle).basicForm approximator =
        (if angle.numer = -Word.limit64 then .error (.fault .overflow) else .ok aboutX) ∧
      (∀ block ∈ aboutZ ++ aboutX, block.width = width ∧
        ∃ amount, block.kind = .rotation amount ∧ amount.isBasic = .ok true) ∧
      (∃ phase : ℂ, ‖phase‖ = 1 ∧ ∀ outcomes, evolution width aboutZ outcomes =
        phase • Operator.single qubit gates.matrix) ∧
      aboutX = aboutZ.map exchanged ∧
      ∃ phase : ℂ, ‖phase‖ = 1 ∧ ∀ outcomes, evolution width aboutX outcomes =
        phase • (Operator.single qubit Gate.H.matrix * Operator.single qubit gates.matrix *
          Operator.single qubit Gate.H.matrix) := by
  refine ⟨gateRotations width qubit .Z gates, gateRotations width qubit .X gates,
    basicForm_single inside (.inl rfl) delegated given,
    basicForm_single inside (.inr rfl) delegated given, fun block emitted => ?_,
    evolution_gateRotations_Z inside gates, gateRotations_X gates,
    evolution_gateRotations_X inside gates⟩
  rcases List.mem_append.mp emitted with aboutZ | aboutX
  · exact isBasic_of_mem_gateRotations aboutZ
  · exact isBasic_of_mem_gateRotations aboutX

theorem basicForm_approximated_third :
    let oneThird : Angle := ⟨1, 3, by decide, by decide, by decide⟩
    let table : ApproximationTable := ⟨[(oneThird, [.H, .X, .T])]⟩
    ∃ aboutZ aboutX : List Block,
      (single 2 1 .Z oneThird).basicForm table.approximator = .ok aboutZ ∧
      (single 2 1 .X oneThird).basicForm table.approximator = .ok aboutX ∧
      aboutX = aboutZ.map exchanged ∧
      ∃ phase : ℂ, ‖phase‖ = 1 ∧ ∀ outcomes, evolution 2 aboutZ outcomes =
        phase • Operator.single 1 (GateSequence.matrix [.H, .X, .T]) := by
  intro oneThird table
  have given : table.approximator oneThird = .ok (some [.H, .X, .T]) := by decide +kernel
  have delegated : oneThird.Delegated := by
    apply Angle.delegated_of_value
    intro exponent count equal
    have power : (2 : ℤ) ^ exponent = 3 * count := by
      have value : oneThird.value = 1 / 3 := by norm_num [Angle.value_eq_div, oneThird]
      rw [value, div_eq_div_iff (by norm_num) (by positivity), one_mul, mul_comm] at equal
      exact_mod_cast equal
    have divides : (3 : ℤ) ∣ 2 := Int.prime_three.dvd_of_dvd_pow (Dvd.intro count power.symm)
    exact absurd divides (by decide)
  rcases basicForm_approximated (by decide : 1 < 2) delegated given with
    ⟨aboutZ, aboutX, zForm, xForm, _, acts, exchanges, _⟩
  exact ⟨aboutZ, aboutX, zForm, xForm, exchanges, acts⟩

end Block

end LatticeSurgery
